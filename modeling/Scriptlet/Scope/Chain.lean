import Scriptlet.Nest
import Scriptlet.Scope.Symbol

/-!
# Chains of tables

Function bodies nest, and so do their tables.  A name is looked for from the innermost table
outwards.  When it is found in the table of an enclosing function, every table between that one and
the innermost captures it, so that each closure takes the value from the function around it.
-/

namespace Scriptlet

/-- The table of the innermost function with the tables around it; the outermost is that of the
program. -/
abbrev Chain := Nest SymbolTable

namespace Chain

/-- Looks a name up from the table `inner` outwards through `outer`.  The result holds the tables
afterwards, since looking up may capture. -/
def resolveFrom (name : String) (inner : SymbolTable) :
    (outer : List SymbolTable) → Option Symbol × Chain
  | [] => (inner.get? name, ⟨inner, []⟩)
  | table :: outer =>
    match inner.get? name with
    | some symbol => (some symbol, ⟨inner, table :: outer⟩)
    | none =>
      match resolveFrom name table outer with
      | (none, around) => (none, around.enter inner)
      | (some symbol, around) =>
        if symbol.isShared then (some symbol, around.enter inner)
        else (some (inner.capturedSymbol symbol), around.enter (inner.capture symbol))

/-- Looks a name up in a chain. -/
def resolve (chain : Chain) (name : String) : Option Symbol × Chain :=
  resolveFrom name chain.inner chain.outer

/-- Looks a name up in the outermost `depth` tables of a chain. -/
def resolveAt (chain : Chain) (depth : Nat) (name : String) : Option Symbol × Chain :=
  if depth = 0 then (none, chain)
  else
    match chain.toList.splitAt (chain.depth - depth) with
    | (skipped, inner :: outer) =>
      let (symbol, resolved) := resolveFrom name inner outer
      (symbol, skipped.foldr (fun table around => around.enter table) resolved)
    | (_, []) => (none, chain)

/-- Opens the table of a function. -/
def enclose (chain : Chain) : Chain := chain.enter { enclosed := true }

end Chain

end Scriptlet
