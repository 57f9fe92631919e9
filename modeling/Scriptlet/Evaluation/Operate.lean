import Scriptlet.Evaluation.Error
import Scriptlet.Value.FloorDiv
import Scriptlet.Value.Hash
import Scriptlet.Value.Identity

/-!
# Operators of the evaluator

What an operator makes of the values of its operands.  A string that results is new, so the binary
operators are given a stamp for it.
-/

namespace Scriptlet

namespace Operator

/-- The value of an operator before one operand. -/
def applyUnary : Operator → Value → Except EvalError Value
  | not, operand => .ok (.boolean !operand.isTruthy)
  | negate, .integer value => .ok (.integer (-value))
  | operator, operand => .error (.unknownUnary operator operand.kind)

/-- The value of an operator between two integers. -/
def applyIntegers (operator : Operator) (left right : Int64) : Except EvalError Value :=
  match operator with
  | add => .ok (.integer (left + right))
  | subtract => .ok (.integer (left - right))
  | multiply => .ok (.integer (left * right))
  | divide =>
    match floorDiv? left right with
    | some quotient => .ok (.integer quotient)
    | none => .error .divisionByZero
  | lessThan => .ok (.boolean (left < right))
  | greaterThan => .ok (.boolean (right < left))
  | equal => .ok (.boolean (left == right))
  | notEqual => .ok (.boolean (left != right))
  | not | negate => .error (.unknownBinary operator .integer)

/-- The value of an operator between two operands. -/
def applyBinary (operator : Operator) (left right : Value) (stamp : Stamp) :
    Except EvalError Value :=
  match left, right with
  | .integer a, .integer b => applyIntegers operator a b
  | .string _ a, .string _ b =>
    if operator = add then .ok (.string stamp (a ++ b))
    else .error (.unknownBinary operator .string)
  | left, right =>
    match operator with
    | equal => .ok (.boolean (left.same right))
    | notEqual => .ok (.boolean !(left.same right))
    | operator => .error (.typeMismatch left.kind operator right.kind)

end Operator

/-- The element of an array at an index, or the value of a hash under a key; `null` if there is
none. -/
def Value.select (collection key : Value) : Except EvalError Value :=
  match collection, key with
  | .array _ elements, .integer index =>
    if index < 0 then .ok .null else .ok (elements.getD index.toInt.toNat .null)
  | .hash _ entries, key =>
    match key.key? with
    | some k => .ok ((Value.entry? k entries).getD .null)
    | none => .error (.unusableHashKey key.kind)
  | collection, _ => .error (.indexNotSupported collection.kind)

end Scriptlet
