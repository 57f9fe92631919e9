import Scriptlet.Tree.Text

/-!
# Why a program cannot be compiled

A program is refused if it uses a name that is bound nowhere around the use, if a literal that can
never be a key stands as the key of a hash, or if it needs more of something than the operands of
the machine can number.  Trees that nobody can write down may also hold an operator in a place where
it has no meaning.

The operands of the machine are one or two bytes wide, so every `Resource` has one of two limits.
-/

namespace Scriptlet

/-- What compiled code has only so much room for. -/
inductive Resource where
  | globals
  | locals
  | arguments
  | elements
  | entries
  | parameters
  | captures
  | constants
  | bytes
  deriving DecidableEq

namespace Resource

/-- The name of a resource in messages. -/
def text : Resource → String
  | globals => "global bindings"
  | locals => "local bindings"
  | arguments => "call arguments"
  | elements => "array elements"
  | entries => "hash entries"
  | parameters => "parameters"
  | captures => "free variables"
  | constants => "constants"
  | bytes => "instruction bytes"

/-- The largest number that fits into the operand that counts or numbers a resource. -/
def limit : Resource → Nat
  | locals | arguments | parameters | captures => 255
  | globals | elements | entries | constants | bytes => 65535

end Resource

/-- Why a program cannot be compiled. -/
inductive CompileError where
  /-- A name that is bound nowhere around its use. -/
  | undefinedVariable (name : String)
  /-- A key of a hash literal that can never be a key. -/
  | invalidHashKey (key : Expr)
  /-- An operator in a place where it has no meaning. -/
  | unknownOperator (operator : Operator)
  /-- A number that does not fit into its operand. -/
  | overflow (resource : Resource) (count : Nat)

/-- The wording of a compile error. -/
def CompileError.message : CompileError → String
  | undefinedVariable name => "undefined variable " ++ name
  | invalidHashKey key => "unusable as hash key: " ++ key.text
  | unknownOperator operator => "unknown operator: " ++ operator.text
  | overflow resource count =>
    "too many " ++ resource.text ++ ": " ++ Nat.repr count ++ " exceeds the limit of " ++
      Nat.repr resource.limit

end Scriptlet
