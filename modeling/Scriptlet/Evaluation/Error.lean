import Scriptlet.Value

/-!
# Why the evaluator stops

The evaluator looks at an operator only when its operands have values, and at a name only when it is
used, so what the compiler refuses before a program runs is an error here while it runs.  Its errors
name operators as they are written.
-/

namespace Scriptlet

/-- Why the evaluator stops. -/
inductive EvalError where
  | identifierNotFound (name : String)
  | unusableHashKey (kind : Kind)
  /-- An operator that does nothing to one value of this kind. -/
  | unknownUnary (operator : Operator) (operand : Kind)
  /-- An operator that does nothing to two values of this kind. -/
  | unknownBinary (operator : Operator) (operands : Kind)
  | typeMismatch (left : Kind) (operator : Operator) (right : Kind)
  | divisionByZero
  | indexNotSupported (kind : Kind)
  | notAFunction (kind : Kind)
  | wrongArgumentCount (want got : Nat)
  deriving DecidableEq

/-- The wording of an evaluator error. -/
def EvalError.message : EvalError → String
  | identifierNotFound name => "identifier not found: " ++ name
  | unusableHashKey kind => "unusable as hash key: " ++ kind.text
  | unknownUnary operator operand => "unknown operator: " ++ operator.text ++ operand.text
  | unknownBinary operator operands =>
    "unknown operator: " ++ operands.text ++ " " ++ operator.text ++ " " ++ operands.text
  | typeMismatch left operator right =>
    "type mismatch: " ++ left.text ++ " " ++ operator.text ++ " " ++ right.text
  | divisionByZero => "division by zero"
  | indexNotSupported kind => "index operator not supported: " ++ kind.text
  | notAFunction kind => "not a function: " ++ kind.text
  | wrongArgumentCount want got =>
    "wrong number of arguments: want=" ++ Nat.repr want ++ ", got=" ++ Nat.repr got

end Scriptlet
