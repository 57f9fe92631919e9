import Scriptlet.Value

/-!
# Hash entries

The entries of a hash are kept in ascending order of their keys: integers by value, then `false` and
`true`, then strings by their characters.  When a key is given twice, the later entry counts, so
entries are put in from the last to the first and one that is already there stays.
-/

namespace Scriptlet

namespace Key

/-- Whether one key comes before another. -/
def before : Key → Key → Bool
  | integer a, integer b => a < b
  | integer _, _ => true
  | boolean _, integer _ => false
  | boolean a, boolean b => !a && b
  | boolean _, string _ => true
  | string a, string b => a < b
  | string _, _ => false

end Key

namespace Value

/-- Puts an entry into an ascending list unless its key is already there. -/
def addEntry {α : Type} (key : Key) (value : α) : List (Key × α) → List (Key × α)
  | [] => [(key, value)]
  | (k, v) :: rest =>
    if key = k then (k, v) :: rest
    else if key.before k then (key, value) :: (k, v) :: rest
    else (k, v) :: addEntry key value rest

/-- The entries of a hash literal, of which later ones count. -/
def entriesOf {α : Type} (pairs : List (Key × α)) : List (Key × α) :=
  pairs.foldr (fun pair entries => addEntry pair.1 pair.2 entries) []

/-- The value under a key. -/
def entry? {α : Type} (key : Key) (entries : List (Key × α)) : Option α :=
  (entries.find? fun entry => entry.1 = key).map Prod.snd

end Value

end Scriptlet
