import Scriptlet.Evaluation.Operate
import Scriptlet.Proofs.SoundValues

/-!
# Properties that pass between a whole and its parts

A property of values is hereditary if every value without parts has it, and an array or a hash has
it exactly if all that lies in it does.  Nothing is said about functions and returned values, which
neither operators nor builtin functions look into.

Operators and builtin functions take values out of arrays and hashes and put them in, and make
values without parts.  So what they make of values with a hereditary property has it too.
-/

namespace Scriptlet

namespace Value

/-- Whether a value has no other values in it, whoever made it. -/
def isSimple : Value → Bool
  | integer _ | boolean _ | null | string _ _ | builtin _ | failure _ => true
  | array _ _ | hash _ _ | routine _ _ | closure _ _ _ | function _ _ _ | returned _ => false

/-- A property that an array or a hash shares with all that lies in it. -/
structure Hereditary (P : Value → Prop) : Prop where
  simple : ∀ v : Value, v.isSimple = true → P v
  array : ∀ stamp vs, P (array stamp vs) ↔ ∀ v ∈ vs, P v
  hash : ∀ stamp (entries : List (Key × Value)), P (hash stamp entries) ↔ ∀ e ∈ entries, P e.2

namespace Hereditary

variable {P : Value → Prop} {v left right collection key : Value} {vs : List Value}
  {stamp : Stamp}

/-! ## Parts -/

theorem getD (h : Hereditary P) (hvs : ∀ v ∈ vs, P v) (i : Nat) : P (vs.getD i .null) := by
  rw [List.getD_eq_getElem?_getD]
  cases hget : vs[i]? with
  | none => exact h.simple _ rfl
  | some v => exact hvs v (List.mem_of_getElem? hget)

theorem entry {entries : List (Key × Value)} (h : Hereditary P) (hentries : ∀ e ∈ entries, P e.2)
    (k : Key) : P ((Value.entry? k entries).getD .null) := by
  cases hentry : entry? k entries with
  | none => exact h.simple _ rfl
  | some v =>
    obtain ⟨e, he, rfl⟩ := mem_of_entry? hentry
    exact hentries e he

/-- A hash made of pairs. -/
theorem entriesOf {pairs : List (Key × Value)} (h : Hereditary P) (hpairs : ∀ p ∈ pairs, P p.2) :
    P (Value.hash stamp (entriesOf pairs)) :=
  (h.hash _ _).2 fun e he => hpairs e (mem_entriesOf he)

/-! ## Operations of the machine -/

theorem arithmetic {op : Op} (h : Hereditary P)
    (hresult : Machine.arithmetic op left right stamp = .ok v) : P v := by
  unfold Machine.arithmetic at hresult
  split at hresult
  · next a b =>
    cases hinteger : Machine.integerArithmetic op a b with
    | error e =>
      rw [hinteger] at hresult
      cases hresult
    | ok c =>
      rw [hinteger] at hresult
      cases hresult
      exact h.simple _ rfl
  · split at hresult
    · cases hresult
      exact h.simple _ rfl
    · cases hresult
  · cases hresult

theorem negative (h : Hereditary P) (hresult : Machine.negative left = .ok v) : P v := by
  unfold Machine.negative at hresult
  split at hresult
  · cases hresult
    exact h.simple _ rfl
  · cases hresult

theorem select (h : Hereditary P) (hcollection : P collection)
    (hresult : Machine.select collection key = .ok v) : P v := by
  unfold Machine.select at hresult
  split at hresult
  · cases hresult
    split
    · exact h.simple _ rfl
    · exact h.getD ((h.array _ _).1 hcollection) _
  · split at hresult
    · cases hresult
      exact h.entry ((h.hash _ _).1 hcollection) _
    · cases hresult
  · cases hresult

/-- The pairs of a hash literal hold values that were on the stack. -/
theorem pairsOf {pairs : List (Key × Value)} (hvs : ∀ v ∈ vs, P v)
    (hresult : Machine.pairsOf vs = .ok pairs) : ∀ p ∈ pairs, P p.2 := by
  fun_induction Machine.pairsOf vs generalizing pairs with
  | case1 key value rest k hkey ih =>
    cases hrest : Machine.pairsOf rest with
    | error e =>
      rw [hrest] at hresult
      cases hresult
    | ok others =>
      rw [hrest] at hresult
      cases hresult
      intro p hp
      rcases List.mem_cons.1 hp with rfl | hp
      · exact hvs value (by simp)
      · exact ih (fun v hv => hvs v (by simp [hv])) hrest p hp
  | case2 key value rest hkey => cases hresult
  | case3 values hvalues =>
    cases hresult
    exact List.forall_mem_nil _

/-! ## Operators of the evaluator -/

theorem applyUnary {operator : Operator} (h : Hereditary P)
    (hresult : operator.applyUnary left = .ok v) : P v := by
  unfold Operator.applyUnary at hresult
  split at hresult
  · cases hresult
    exact h.simple _ rfl
  · cases hresult
    exact h.simple _ rfl
  · cases hresult

theorem applyIntegers {operator : Operator} {a b : Int64} (h : Hereditary P)
    (hresult : operator.applyIntegers a b = .ok v) : P v := by
  cases operator with
  | divide =>
    unfold Operator.applyIntegers at hresult
    dsimp only at hresult
    cases hquotient : floorDiv? a b with
    | none =>
      rw [hquotient] at hresult
      cases hresult
    | some q =>
      rw [hquotient] at hresult
      cases hresult
      exact h.simple _ rfl
  | not => cases hresult
  | negate => cases hresult
  | _ =>
    cases hresult
    exact h.simple _ rfl

theorem applyBinary {operator : Operator} (h : Hereditary P)
    (hresult : operator.applyBinary left right stamp = .ok v) : P v := by
  unfold Operator.applyBinary at hresult
  split at hresult
  · exact h.applyIntegers hresult
  · split at hresult
    · cases hresult
      exact h.simple _ rfl
    · cases hresult
  · split at hresult
    · cases hresult
      exact h.simple _ rfl
    · cases hresult
      exact h.simple _ rfl
    · cases hresult

/-- An index expression of the evaluator. -/
theorem index (h : Hereditary P) (hcollection : P collection)
    (hresult : collection.select key = .ok v) : P v := by
  unfold Value.select at hresult
  split at hresult
  · split at hresult
    · cases hresult
      exact h.simple _ rfl
    · cases hresult
      exact h.getD ((h.array _ _).1 hcollection) _
  · split at hresult
    · cases hresult
      exact h.entry ((h.hash _ _).1 hcollection) _
    · cases hresult
  · cases hresult

/-! ## Builtin functions -/

open Builtin

theorem call (h : Hereditary P) (function : Builtin) (host : Host) (hvs : ∀ v ∈ vs, P v) :
    P (function.call vs host).1 := by
  have helements : ∀ {stamp elements}, Value.array stamp elements ∈ vs → ∀ v ∈ elements, P v :=
    fun hmem => (h.array _ _).1 (hvs _ hmem)
  cases function with
  | len =>
    show P (length vs)
    unfold length
    split <;> exact h.simple _ rfl
  | puts => exact h.simple _ rfl
  | first =>
    show P (firstElement vs)
    unfold firstElement
    split
    · next stamp elements =>
      cases elements with
      | nil => exact h.simple _ rfl
      | cons v rest => exact helements (List.mem_singleton_self _) v (List.mem_cons_self ..)
    · exact h.simple _ rfl
    · exact h.simple _ rfl
  | last =>
    show P (lastElement vs)
    unfold lastElement
    split
    · next stamp elements =>
      rw [List.getLastD_eq_getLast?]
      cases hlast : elements.getLast? with
      | none => exact h.simple _ rfl
      | some v => exact helements (List.mem_singleton_self _) v (List.mem_of_getLast? hlast)
    · exact h.simple _ rfl
    · exact h.simple _ rfl
  | rest =>
    show P (restElements host vs).1
    unfold restElements
    split
    · exact h.simple _ rfl
    · next stamp v elements =>
      refine (h.array _ _).2 fun w hw => ?_
      exact helements (List.mem_singleton_self _) w (List.mem_cons_of_mem v hw)
    · exact h.simple _ rfl
    · exact h.simple _ rfl
  | push =>
    show P (pushElement host vs).1
    unfold pushElement
    split
    · next stamp elements value =>
      refine (h.array _ _).2 fun w hw => ?_
      rcases List.mem_append.1 hw with hw | hw
      · exact helements (List.mem_cons_self ..) w hw
      · exact hvs w (List.mem_cons_of_mem _ hw)
    · exact h.simple _ rfl
    · exact h.simple _ rfl

end Hereditary

end Value

end Scriptlet
