import Scriptlet.Value

/-!
# Two ways of being equal

`Value.same` is what `==` means in a script for values that are not integers or strings: integers,
booleans, `null` and builtin functions are compared by what they are, values with a stamp by their
stamp, and values of different kinds are never the same.

`Value.equal` compares contents all the way down.  Only functions of the evaluator have no contents
to compare; they are equal when they are the same.
-/

namespace Scriptlet

namespace Value

/-- Whether two values are one object. -/
def same : Value → Value → Bool
  | integer a, integer b => a == b
  | boolean a, boolean b => a == b
  | null, null => true
  | string s _, string t _ => s == t
  | array s _, array t _ => s == t
  | hash s _, hash t _ => s == t
  | routine s _, routine t _ => s == t
  | closure s _ _, closure t _ _ => s == t
  | builtin a, builtin b => a == b
  | function s _ _, function t _ _ => s == t
  | _, _ => false

mutual

/-- Whether two values have the same contents. -/
def equal : Value → Value → Bool
  | integer a, integer b => a == b
  | boolean a, boolean b => a == b
  | null, null => true
  | string _ a, string _ b => a == b
  | array _ as, array _ bs => equalAll as bs
  | hash _ as, hash _ bs => equalEntries as bs
  | routine _ a, routine _ b => a == b
  | closure _ a as, closure _ b bs => a == b && equalAll as bs
  | builtin a, builtin b => a == b
  | function s _ _, function t _ _ => s == t
  | returned a, returned b => equal a b
  | failure a, failure b => a == b
  | _, _ => false

/-- Whether two lists have equal values in the same places. -/
def equalAll : List Value → List Value → Bool
  | [], [] => true
  | a :: as, b :: bs => equal a b && equalAll as bs
  | _, _ => false

/-- Whether two hashes have the same keys with equal values.  Both lists ascend, so equal hashes
list their keys alike. -/
def equalEntries : List (Key × Value) → List (Key × Value) → Bool
  | [], [] => true
  | (j, a) :: as, (k, b) :: bs => j == k && equal a b && equalEntries as bs
  | _, _ => false

end

end Value

end Scriptlet
