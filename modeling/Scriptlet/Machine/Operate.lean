import Scriptlet.Machine.State
import Scriptlet.Value.FloorDiv
import Scriptlet.Value.Hash
import Scriptlet.Value.Identity

/-!
# Operations on values

What the machine computes from the values it takes off the stack.  Integers wrap around, division
goes toward the floor, strings can be added and nothing else, and everything that is neither a pair
of integers nor a pair of strings is equal to what it is the same object as.
-/

namespace Scriptlet

namespace Machine

/-- The result of an arithmetic operation on integers. -/
def integerArithmetic (op : Op) (left right : Int64) : Except Error Int64 :=
  match op with
  | .add => .ok (left + right)
  | .sub => .ok (left - right)
  | .mul => .ok (left * right)
  | .div =>
    match floorDiv? left right with
    | some quotient => .ok quotient
    | none => .error .divisionByZero
  | op => .error (.unsupportedOperator op .integer)

/-- The result of an arithmetic operation; strings can only be added.  The new value gets the stamp
that is given. -/
def arithmetic (op : Op) (left right : Value) (stamp : Stamp) : Except Error Value :=
  match left, right with
  | .integer a, .integer b => .integer <$> integerArithmetic op a b
  | .string _ a, .string _ b =>
    if op = .add then .ok (.string stamp (a ++ b)) else .error (.unsupportedOperator op .string)
  | left, right => .error (.unsupportedTypes op left.kind right.kind)

/-- The result of a comparison: integers by value, strings not at all, all else by identity. -/
def comparison (op : Op) (left right : Value) : Except Error Bool :=
  match left, right with
  | .integer a, .integer b =>
    match op with
    | .equal => .ok (a == b)
    | .notEqual => .ok (a != b)
    | _ => .ok (b < a)
  | .string _ _, .string _ _ => .error (.unsupportedOperator op .string)
  | left, right =>
    match op with
    | .equal => .ok (left.same right)
    | .notEqual => .ok !(left.same right)
    | _ => .error (.unorderedTypes left.kind right.kind)

/-- The negative of an integer, wrapping around. -/
def negative : Value → Except Error Value
  | .integer value => .ok (.integer (-value))
  | other => .error (.noNegative other.kind)

/-- The element of an array at an index, or the value of a hash under a key; `null` if there is
none. -/
def select (collection key : Value) : Except Error Value :=
  match collection, key with
  | .array _ elements, .integer index =>
    .ok (if index < 0 then .null else elements.getD index.toInt.toNat .null)
  | .hash _ entries, key =>
    match key.key? with
    | some k => .ok ((Value.entry? k entries).getD .null)
    | none => .error (.unusableHashKey key.kind)
  | collection, _ => .error (.indexNotSupported collection.kind)

/-- The pairs of keys and values that stand alternately in a list. -/
def pairsOf : List Value → Except Error (List (Key × Value))
  | key :: value :: rest =>
    match key.key? with
    | some k => (fun pairs => (k, value) :: pairs) <$> pairsOf rest
    | none => .error (.unusableHashKey key.kind)
  | _ => .ok []

end Machine

end Scriptlet
