import Scriptlet.Tree.Text
import Scriptlet.Value

/-!
# The text of values

What `puts` prints.  Functions of the machine print as a kind with a reference that does not tell
them apart; functions of the evaluator print as their literal.

The entries of a hash are printed in the order of their keys, but scripts must not rely on that:
`Value.listsUnordered` says when a text shows the order of the entries of some hash.
-/

namespace Scriptlet

/-- The text of a key. -/
def Key.text : Key → String
  | integer value => integerText value
  | boolean value => if value then "true" else "false"
  | string contents => contents

mutual

/-- The text of a value. -/
def Value.text : Value → String
  | .integer value => integerText value
  | .boolean value => if value then "true" else "false"
  | .null => "null"
  | .string _ contents => contents
  | .array _ elements => "[" ++ String.intercalate ", " (Value.textsOnto [] elements) ++ "]"
  | .hash _ entries => "\x7b" ++ String.intercalate ", " (Value.entryTextsOnto [] entries) ++ "\x7d"
  | .routine _ _ => "CompiledFunction[ptr]"
  | .closure _ _ _ => "Closure[ptr]"
  | .builtin b => "builtin function " ++ b.name
  | .function _ literal _ => literal.text
  | .returned value => value.text
  | .failure message => "ERROR: " ++ message

/-- The texts of values, behind those in `acc`, which is reversed. -/
def Value.textsOnto (acc : List String) : List Value → List String
  | [] => acc.reverse
  | v :: rest => Value.textsOnto (v.text :: acc) rest

/-- The texts of hash entries, behind those in `acc`, which is reversed. -/
def Value.entryTextsOnto (acc : List String) : List (Key × Value) → List String
  | [] => acc.reverse
  | (key, value) :: rest => Value.entryTextsOnto ((key.text ++ ": " ++ value.text) :: acc) rest

end

mutual

/-- Whether the text of a value shows a hash with two or more entries, whose order means nothing. -/
def Value.listsUnordered : Value → Bool
  | .array _ elements => Value.anyListsUnordered elements
  | .hash _ entries => 2 ≤ entries.length || Value.anyEntryListsUnordered entries
  | .returned value => value.listsUnordered
  | _ => false

/-- Whether one of the values has a text that shows such a hash. -/
def Value.anyListsUnordered : List Value → Bool
  | [] => false
  | v :: rest => v.listsUnordered || Value.anyListsUnordered rest

/-- Whether one of the entries has a text that shows such a hash. -/
def Value.anyEntryListsUnordered : List (Key × Value) → Bool
  | [] => false
  | (_, value) :: rest => value.listsUnordered || Value.anyEntryListsUnordered rest

end

end Scriptlet
