/-!
# Nests

A nest is a stack that is never empty: the innermost item and the items around it, from the inside
out.  Scopes of names and buffers of code are nested this way; the outermost item belongs to the
program and is never left.
-/

namespace Scriptlet

/-- An innermost item and the items around it, from the inside out. -/
structure Nest (α : Type) where
  inner : α
  outer : List α := []

namespace Nest

variable {α : Type}

/-- The number of items. -/
def depth (nest : Nest α) : Nat := nest.outer.length + 1

/-- The items, innermost first. -/
def toList (nest : Nest α) : List α := nest.inner :: nest.outer

/-- The item around all others. -/
def outermost (nest : Nest α) : α := nest.outer.getLastD nest.inner

/-- Puts a new innermost item into the nest. -/
def enter (nest : Nest α) (item : α) : Nest α := ⟨item, nest.inner :: nest.outer⟩

/-- Takes the innermost item out of the nest; the outermost one stays. -/
def leave (nest : Nest α) : Nest α :=
  match nest.outer with
  | [] => nest
  | item :: outer => ⟨item, outer⟩

/-- Replaces the innermost item by its image. -/
def modify (nest : Nest α) (f : α → α) : Nest α := { nest with inner := f nest.inner }

@[simp] theorem leave_enter (nest : Nest α) (item : α) : (nest.enter item).leave = nest := rfl

@[simp] theorem inner_enter (nest : Nest α) (item : α) : (nest.enter item).inner = item := rfl

@[simp] theorem inner_modify (nest : Nest α) (f : α → α) :
    (nest.modify f).inner = f nest.inner := rfl

@[simp] theorem outer_modify (nest : Nest α) (f : α → α) : (nest.modify f).outer = nest.outer := rfl

end Nest

end Scriptlet
