import Scriptlet.Value

/-!
# Why the machine stops

A script can fail on the machine in ways its author can bring about, and hand-built code in some
more: a byte that is no operation, a cut-off instruction, an operand that leads nowhere.
-/

namespace Scriptlet

/-- The sign of an operation in messages. -/
def Op.sign : Op → String
  | add => "+"
  | sub => "-"
  | mul => "*"
  | div => "/"
  | equal => "=="
  | notEqual => "!="
  | greaterThan => ">"
  | op => op.mnemonic

namespace Machine

/-- How many calls may be running at a time, the program included. -/
def maxFrames : Nat := 1024

/-- Why the machine stops. -/
inductive Error where
  | unsupportedTypes (op : Op) (left right : Kind)
  /-- Two values that cannot be ordered.  The operation does not tell which of them was written
  first. -/
  | unorderedTypes (left right : Kind)
  | unsupportedOperator (op : Op) (operand : Kind)
  /-- The negative of something other than an integer. -/
  | noNegative (operand : Kind)
  | notAFunction (kind : Kind)
  | wrongArgumentCount (want got : Nat)
  | unusableHashKey (kind : Kind)
  | indexNotSupported (kind : Kind)
  | unknownOpcode (byte : UInt8) (position : Nat)
  | truncatedInstruction (position : Nat)
  | divisionByZero
  | stackOverflow
  | frameOverflow
  | stackUnderflow
  | invalidConstant (index : Nat)
  | invalidOperand (op : Op) (operand : Nat)
  deriving DecidableEq

/-- The wording of a machine error. -/
def Error.message : Error → String
  | unsupportedTypes op left right =>
    "unsupported types for binary operation: " ++ left.text ++ " " ++ op.sign ++ " " ++ right.text
  | unorderedTypes left right =>
    "unsupported types for ordering comparison: " ++ left.text ++ " and " ++ right.text
  | unsupportedOperator op operand =>
    "unsupported operator " ++ op.sign ++ " for " ++ operand.text
  | noNegative operand => "unknown operator: -" ++ operand.text
  | notAFunction kind => "calling non-function: " ++ kind.text
  | wrongArgumentCount want got =>
    "wrong number of arguments: want=" ++ Nat.repr want ++ ", got=" ++ Nat.repr got
  | unusableHashKey kind => "unusable as hash key: " ++ kind.text
  | indexNotSupported kind => "index operator not supported: " ++ kind.text
  | unknownOpcode byte position =>
    "unknown opcode " ++ Nat.repr byte.toNat ++ " at " ++ Nat.repr position
  | truncatedInstruction position => "truncated instruction at " ++ Nat.repr position
  | divisionByZero => "division by zero"
  | stackOverflow => "stack overflow"
  | frameOverflow => "frame overflow: call depth exceeds " ++ Nat.repr maxFrames
  | stackUnderflow => "stack underflow"
  | invalidConstant index => "constant " ++ Nat.repr index ++ " is out of range"
  | invalidOperand op operand =>
    "operand " ++ Nat.repr operand ++ " of " ++ op.name ++ " is out of range"

end Machine

end Scriptlet
