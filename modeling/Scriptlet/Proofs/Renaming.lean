import Scriptlet.Builtin.Call
import Scriptlet.Machine.Operate

/-!
# Renaming running numbers

Which running numbers the values of a script carry depends on what was made before them.  The
machine only ever compares these numbers, so it does the same with other numbers in their place as
long as different ones stay different.

* `Value.rename` puts other numbers into a value.  The operations of the machine and the builtin
  functions commute with it (`Value.select_rename`, `Builtin.call_rename` and the like).
* `Value.Below` says that a value carries only numbers below a bound.  It is stated with a renaming
  too, so that it follows from the same equations.
* `Value.Alike` puts the two together: the second value is the first with other numbers in the
  place of those below a bound.
-/

namespace Scriptlet

/-- The stamp with another running number. -/
def Stamp.rename (f : Nat → Nat) : Stamp → Stamp
  | constant index => constant index
  | made number => made (f number)

theorem Stamp.rename_rename (f g : Nat → Nat) (stamp : Stamp) :
    (stamp.rename f).rename g = stamp.rename (g ∘ f) := by
  cases stamp <;> rfl

theorem Stamp.beq_rename {f : Nat → Nat} (hf : Function.Injective f) (s t : Stamp) :
    (s.rename f == t.rename f) = (s == t) := by
  rw [Bool.eq_iff_iff, beq_iff_eq, beq_iff_eq]
  cases s <;> cases t <;> simp [Stamp.rename, hf.eq_iff]

namespace Value

mutual

/-- The value with other running numbers, all the way down. -/
def rename (f : Nat → Nat) : Value → Value
  | integer value => integer value
  | boolean value => boolean value
  | null => null
  | string stamp contents => string (stamp.rename f) contents
  | array stamp elements => array (stamp.rename f) (renameAll f elements)
  | hash stamp entries => hash (stamp.rename f) (renameEntries f entries)
  | routine stamp r => routine (stamp.rename f) r
  | closure stamp r free => closure (stamp.rename f) r (renameAll f free)
  | builtin b => builtin b
  | function stamp literal environment => function (stamp.rename f) literal environment
  | returned value => returned (rename f value)
  | failure message => failure message

def renameAll (f : Nat → Nat) : List Value → List Value
  | [] => []
  | v :: vs => rename f v :: renameAll f vs

def renameEntries (f : Nat → Nat) : List (Key × Value) → List (Key × Value)
  | [] => []
  | (key, v) :: entries => (key, rename f v) :: renameEntries f entries

end

variable {f g : Nat → Nat}

@[simp] theorem renameAll_eq_map (f : Nat → Nat) (vs : List Value) :
    renameAll f vs = vs.map (rename f) := by
  induction vs with
  | nil => rfl
  | cons v vs ih => rw [renameAll, ih, List.map_cons]

@[simp] theorem renameEntries_eq_map (f : Nat → Nat) (entries : List (Key × Value)) :
    renameEntries f entries = entries.map fun e => (e.1, e.2.rename f) := by
  induction entries with
  | nil => rfl
  | cons e entries ih => rw [renameEntries, ih, List.map_cons]

mutual

theorem rename_rename (f g : Nat → Nat) : (v : Value) → (v.rename f).rename g = v.rename (g ∘ f)
  | integer _ | boolean _ | null | builtin _ | failure _ => rfl
  | string stamp contents => by simp only [rename, Stamp.rename_rename]
  | array stamp elements => by
    simp only [rename, Stamp.rename_rename, renameAll_renameAll f g elements]
  | hash stamp entries => by
    simp only [rename, Stamp.rename_rename, renameEntries_renameEntries f g entries]
  | routine stamp r => by simp only [rename, Stamp.rename_rename]
  | closure stamp r free => by
    simp only [rename, Stamp.rename_rename, renameAll_renameAll f g free]
  | function stamp literal environment => by simp only [rename, Stamp.rename_rename]
  | returned value => by simp only [rename, rename_rename f g value]

theorem renameAll_renameAll (f g : Nat → Nat) :
    (vs : List Value) → renameAll g (renameAll f vs) = renameAll (g ∘ f) vs
  | [] => rfl
  | v :: vs => by
    rw [renameAll, renameAll, renameAll, rename_rename f g v, renameAll_renameAll f g vs]

theorem renameEntries_renameEntries (f g : Nat → Nat) :
    (entries : List (Key × Value)) →
      renameEntries g (renameEntries f entries) = renameEntries (g ∘ f) entries
  | [] => rfl
  | (key, v) :: entries => by
    rw [renameEntries, renameEntries, renameEntries, rename_rename f g v,
      renameEntries_renameEntries f g entries]

end

/-! ## Operations -/

@[simp] theorem kind_rename (f : Nat → Nat) (v : Value) : (v.rename f).kind = v.kind := by
  cases v <;> rfl

@[simp] theorem isTruthy_rename (f : Nat → Nat) (v : Value) :
    (v.rename f).isTruthy = v.isTruthy := by
  cases v with
  | boolean value => cases value <;> rfl
  | _ => rfl

@[simp] theorem key?_rename (f : Nat → Nat) (v : Value) : (v.rename f).key? = v.key? := by
  cases v <;> rfl

/-- Different numbers have to stay different only for comparisons. -/
theorem same_rename (hf : Function.Injective f) (v w : Value) :
    (v.rename f).same (w.rename f) = v.same w := by
  cases v <;> cases w <;> simp only [rename, same, Stamp.beq_rename hf]

theorem comparison_rename (hf : Function.Injective f) (op : Op) (v w : Value) :
    Machine.comparison op (v.rename f) (w.rename f) = Machine.comparison op v w := by
  have hsame := same_rename hf v w
  unfold Machine.comparison
  cases v <;> cases w <;> simp_all [rename, kind]

theorem arithmetic_rename (f : Nat → Nat) (op : Op) (v w : Value) (stamp : Stamp) :
    Machine.arithmetic op (v.rename f) (w.rename f) (stamp.rename f) =
      (Machine.arithmetic op v w stamp).map (rename f) := by
  unfold Machine.arithmetic
  cases v <;> cases w <;> simp only [rename, kind, Except.map]
  · cases Machine.integerArithmetic op _ _ <;> rfl
  · split <;> rfl

theorem negative_rename (f : Nat → Nat) (v : Value) :
    Machine.negative (v.rename f) = (Machine.negative v).map (rename f) := by
  cases v <;> rfl

theorem entry?_map {α β : Type} (h : α → β) (key : Key) (entries : List (Key × α)) :
    entry? key (entries.map fun e => (e.1, h e.2)) = (Value.entry? key entries).map h := by
  unfold entry?
  rw [List.find?_map, Option.map_map, Option.map_map]
  rfl

theorem select_rename (f : Nat → Nat) (collection key : Value) :
    Machine.select (collection.rename f) (key.rename f) =
      (Machine.select collection key).map (rename f) := by
  cases collection with
  | array stamp elements =>
    cases key with
    | integer index =>
      simp only [rename, renameAll_eq_map, Machine.select, Except.map]
      split
      · rfl
      · rw [List.getD_eq_getElem?_getD, List.getD_eq_getElem?_getD, List.getElem?_map]
        cases elements[index.toInt.toNat]? <;> rfl
    | _ => rfl
  | hash stamp entries =>
    simp only [rename, renameEntries_eq_map, Machine.select, key?_rename, kind_rename]
    cases key.key? with
    | none => rfl
    | some k =>
      simp only [entry?_map, Except.map]
      cases entry? k entries <;> rfl
  | _ => rfl

theorem pairsOf_rename (f : Nat → Nat) : (vs : List Value) →
    Machine.pairsOf (vs.map (rename f)) =
      (Machine.pairsOf vs).map fun pairs => pairs.map fun e => (e.1, e.2.rename f)
  | [] | [_] => rfl
  | key :: value :: rest => by
    simp only [List.map_cons, Machine.pairsOf, key?_rename, kind_rename]
    cases key.key? with
    | none => rfl
    | some k =>
      simp only [pairsOf_rename f rest]
      cases Machine.pairsOf rest <;> rfl

theorem addEntry_map {α β : Type} (h : α → β) (key : Key) (value : α)
    (entries : List (Key × α)) :
    addEntry key (h value) (entries.map fun e => (e.1, h e.2)) =
      (addEntry key value entries).map fun e => (e.1, h e.2) := by
  induction entries with
  | nil => rfl
  | cons e entries ih =>
    simp only [List.map_cons, addEntry]
    split
    · rfl
    · split
      · rfl
      · rw [ih, List.map_cons]

theorem entriesOf_map {α β : Type} (h : α → β) (pairs : List (Key × α)) :
    entriesOf (pairs.map fun e => (e.1, h e.2)) =
      (entriesOf pairs).map fun e => (e.1, h e.2) := by
  induction pairs with
  | nil => rfl
  | cons pair pairs ih =>
    unfold entriesOf at ih ⊢
    rw [List.map_cons, List.foldr_cons, List.foldr_cons, ih]
    exact addEntry_map h pair.1 pair.2 _

end Value

namespace Builtin

open Value

theorem refuse_rename (f : Nat → Nat) (function : Builtin) (v : Value) :
    function.refuse (v.rename f) = (function.refuse v).rename f := by
  rw [refuse, kind_rename]
  rfl

theorem length_rename (f : Nat → Nat) (vs : List Value) :
    length (vs.map (rename f)) = (length vs).rename f := by
  match vs with
  | [] => rfl
  | [v] =>
    have hrefuse := refuse_rename f len v
    cases v with
    | string stamp contents => rfl
    | array stamp elements => simp [length, rename]
    | _ => exact hrefuse
  | v :: w :: vs => simp [length, wrongArity, rename]

theorem firstElement_rename (f : Nat → Nat) (vs : List Value) :
    firstElement (vs.map (rename f)) = (firstElement vs).rename f := by
  match vs with
  | [] => rfl
  | [v] =>
    cases v with
    | array stamp elements => cases elements <;> rfl
    | _ => rfl
  | v :: w :: vs => simp [firstElement, wrongArity, rename]

theorem lastElement_rename (f : Nat → Nat) (vs : List Value) :
    lastElement (vs.map (rename f)) = (lastElement vs).rename f := by
  match vs with
  | [] => rfl
  | [v] =>
    cases v with
    | array stamp elements =>
      simp only [List.map_cons, List.map_nil, rename, renameAll_eq_map, lastElement]
      rcases List.eq_nil_or_concat elements with rfl | ⟨vs, v, rfl⟩
      · rfl
      · simp
    | _ => rfl
  | v :: w :: vs => simp [lastElement, wrongArity, rename]

/-- A builtin function that makes a value takes the next number for it. -/
theorem restElements_rename (f : Nat → Nat) (vs : List Value) {host host' : Host}
    (hmade : host.made < (restElements host vs).2.made → f host.made = host'.made) :
    (restElements host' (vs.map (rename f))).1 = (restElements host vs).1.rename f ∧
      ∃ k, (restElements host vs).2.made = host.made + k ∧
        (restElements host' (vs.map (rename f))).2.made = host'.made + k := by
  match vs with
  | [] => exact ⟨rfl, 0, rfl, rfl⟩
  | [v] =>
    cases v with
    | array stamp elements =>
      cases elements with
      | nil => exact ⟨rfl, 0, rfl, rfl⟩
      | cons v elements =>
        refine ⟨?_, 1, rfl, rfl⟩
        simp only [List.map_cons, List.map_nil, rename, renameAll_eq_map, restElements]
        rw [Host.stamp, Host.stamp, Stamp.rename, hmade (Nat.lt_succ_self _)]
    | _ => exact ⟨rfl, 0, rfl, rfl⟩
  | v :: w :: vs =>
    refine ⟨?_, 0, ?_, ?_⟩
    · simp [restElements, wrongArity, rename]
    · simp [restElements]
    · simp [restElements]

theorem pushElement_rename (f : Nat → Nat) (vs : List Value) {host host' : Host}
    (hmade : host.made < (pushElement host vs).2.made → f host.made = host'.made) :
    (pushElement host' (vs.map (rename f))).1 = (pushElement host vs).1.rename f ∧
      ∃ k, (pushElement host vs).2.made = host.made + k ∧
        (pushElement host' (vs.map (rename f))).2.made = host'.made + k := by
  match vs with
  | [] => exact ⟨rfl, 0, rfl, rfl⟩
  | [v] =>
    refine ⟨?_, 0, ?_, ?_⟩
    · simp [pushElement, wrongArity, rename]
    · simp [pushElement]
    · simp [pushElement]
  | [v, w] =>
    cases v with
    | array stamp elements =>
      refine ⟨?_, 1, rfl, rfl⟩
      simp only [List.map_cons, List.map_nil, rename, renameAll_eq_map, pushElement,
        List.map_append]
      rw [Host.stamp, Host.stamp, Stamp.rename, hmade (Nat.lt_succ_self _)]
    | _ => exact ⟨rfl, 0, rfl, rfl⟩
  | u :: v :: w :: vs =>
    refine ⟨?_, 0, ?_, ?_⟩
    · simp [pushElement, wrongArity, rename]
    · simp [pushElement]
    · simp [pushElement]

/-- A builtin function answers with the same value up to running numbers, and makes as many. -/
theorem call_rename (f : Nat → Nat) (b : Builtin) (vs : List Value) {host host' : Host}
    (hmade : host.made < (b.call vs host).2.made → f host.made = host'.made) :
    (b.call (vs.map (rename f)) host').1 = (b.call vs host).1.rename f ∧
      ∃ k, (b.call vs host).2.made = host.made + k ∧
        (b.call (vs.map (rename f)) host').2.made = host'.made + k := by
  cases b with
  | len => exact ⟨length_rename f vs, 0, rfl, rfl⟩
  | puts => exact ⟨rfl, 0, made_printAll host vs, made_printAll host' _⟩
  | first => exact ⟨firstElement_rename f vs, 0, rfl, rfl⟩
  | last => exact ⟨lastElement_rename f vs, 0, rfl, rfl⟩
  | rest => exact restElements_rename f vs hmade
  | push => exact pushElement_rename f vs hmade

end Builtin

namespace Value

/-! ## Values with old numbers -/

/-- Leaves numbers below a bound alone and makes the others zero. -/
def cap (bound number : Nat) : Nat := if number < bound then number else 0

/-- All running numbers in a value are below a bound. -/
def Below (bound : Nat) (v : Value) : Prop := v.rename (cap bound) = v

variable {f g : Nat → Nat} {b b' : Nat} {v w : Value}

theorem Below.mono (h : v.Below b) (hle : b ≤ b') : v.Below b' := by
  have hcap : cap b' ∘ cap b = cap b := by
    funext k
    simp only [Function.comp, cap]
    split
    · rw [if_pos (by omega)]
    · simp
  unfold Below at h ⊢
  rw [← h, rename_rename, hcap]

/-- Only what becomes of the numbers in a value matters. -/
theorem Below.rename_congr (h : v.Below b) (hb : 0 < b) (hfg : ∀ k < b, f k = g k) :
    v.rename f = v.rename g := by
  have hcomp : f ∘ cap b = g ∘ cap b := by
    funext k
    simp only [Function.comp, cap]
    split
    · next hk => exact hfg k hk
    · exact hfg 0 hb
  unfold Below at h
  rw [← h, rename_rename, rename_rename, hcomp]

/-- The second value is the first with other running numbers; those of the first are below a
bound. -/
structure Alike (f : Nat → Nat) (b : Nat) (v w : Value) : Prop where
  renamed : w = v.rename f
  below : v.Below b

/-- All running numbers in a list of values are below a bound. -/
theorem map_rename_cap_eq_self {vs : List Value} :
    vs.map (rename (cap b)) = vs ↔ ∀ v ∈ vs, v.Below b := by
  constructor
  · intro h v hv
    exact (List.map_inj_left.1 (h.trans (List.map_id vs).symm)) v hv
  · intro h
    exact (List.map_congr_left h).trans (List.map_id vs)

/-- Values that are alike one by one. -/
structure AlikeAll (f : Nat → Nat) (b : Nat) (vs ws : List Value) : Prop where
  renamed : ws = vs.map (rename f)
  below : vs.map (rename (cap b)) = vs

variable {vs ws : List Value}

theorem Alike.mono (h : Alike f b v w) (hle : b ≤ b') : Alike f b' v w :=
  ⟨h.renamed, h.below.mono hle⟩

/-- A value that carries no running number. -/
theorem alike_self (h : ∀ g, v.rename g = v) : Alike f b v v := ⟨(h f).symm, h _⟩

theorem AlikeAll.mono (h : AlikeAll f b vs ws) (hle : b ≤ b') : AlikeAll f b' vs ws := by
  refine ⟨h.renamed, ?_⟩
  have hbelow := h.below
  rw [map_rename_cap_eq_self] at hbelow ⊢
  exact fun v hv => (hbelow v hv).mono hle

theorem AlikeAll.getElem? (h : AlikeAll f b vs ws) (k : Nat) :
    vs[k]? = none ∧ ws[k]? = none ∨
      ∃ v w, vs[k]? = some v ∧ ws[k]? = some w ∧ Alike f b v w := by
  rw [h.renamed, List.getElem?_map]
  cases hv : vs[k]? with
  | none => exact .inl ⟨rfl, rfl⟩
  | some v =>
    have hbelow := map_rename_cap_eq_self.1 h.below v (List.mem_of_getElem? hv)
    exact .inr ⟨v, v.rename f, rfl, rfl, rfl, hbelow⟩

/-- Values that are alike at every place. -/
theorem alikeAll_of_getElem? (h : ∀ k : Nat, vs[k]? = none ∧ ws[k]? = none ∨
    ∃ v w, vs[k]? = some v ∧ ws[k]? = some w ∧ Alike f b v w) : AlikeAll f b vs ws := by
  refine ⟨List.ext_getElem? fun k => ?_, map_rename_cap_eq_self.2 fun v hv => ?_⟩
  · rw [List.getElem?_map]
    rcases h k with ⟨hv, hw⟩ | ⟨v, w, hv, hw, halike⟩
    · rw [hv, hw]
      rfl
    · rw [hv, hw, halike.renamed]
      rfl
  · obtain ⟨k, hk⟩ := List.getElem?_of_mem hv
    rcases h k with ⟨hv, -⟩ | ⟨v', w, hv, -, halike⟩
    · cases hk.symm.trans hv
    · cases hk.symm.trans hv
      exact halike.below

theorem AlikeAll.set (h : AlikeAll f b vs ws) (hvw : Alike f b v w) (k : Nat) :
    AlikeAll f b (vs.set k v) (ws.set k w) := by
  refine ⟨?_, ?_⟩
  · rw [List.map_set, ← h.renamed, ← hvw.renamed]
  · rw [List.map_set, h.below, hvw.below]

/-- The next stamp on both sides. -/
theorem rename_cap_made (b : Nat) : (Stamp.made b).rename (cap (b + 1)) = .made b := by
  simp [Stamp.rename, cap]

/-- What an operation on values comes to on both sides. -/
theorem alike_of_map {ε : Type} {x y : Except ε Value} (hf : y = x.map (rename f))
    (hcap : x = x.map (rename (cap b))) :
    (∃ e, x = .error e ∧ y = .error e) ∨ ∃ v w, x = .ok v ∧ y = .ok w ∧ Alike f b v w := by
  cases x with
  | error e => exact .inl ⟨e, rfl, hf⟩
  | ok v => exact .inr ⟨v, v.rename f, rfl, hf, rfl, (Except.ok.inj hcap).symm⟩

variable {v' w' : Value}

theorem Alike.select (h : Alike f b v w) (h' : Alike f b v' w') :
    (∃ e, Machine.select v v' = .error e ∧ Machine.select w w' = .error e) ∨
      ∃ u u', Machine.select v v' = .ok u ∧ Machine.select w w' = .ok u' ∧ Alike f b u u' := by
  refine alike_of_map ?_ ?_
  · rw [h.renamed, h'.renamed, select_rename]
  · rw [← select_rename, h.below, h'.below]

theorem Alike.negative (h : Alike f b v w) :
    (∃ e, Machine.negative v = .error e ∧ Machine.negative w = .error e) ∨
      ∃ u u', Machine.negative v = .ok u ∧ Machine.negative w = .ok u' ∧ Alike f b u u' := by
  refine alike_of_map ?_ ?_
  · rw [h.renamed, negative_rename]
  · rw [← negative_rename, h.below]

/-- The sum of two strings takes the next number. -/
theorem Alike.arithmetic {k : Nat} (h : Alike f b v w) (h' : Alike f b v' w') (hk : f b = k)
    (op : Op) :
    (∃ e, Machine.arithmetic op v v' (.made b) = .error e ∧
        Machine.arithmetic op w w' (.made k) = .error e) ∨
      ∃ u u', Machine.arithmetic op v v' (.made b) = .ok u ∧
        Machine.arithmetic op w w' (.made k) = .ok u' ∧ Alike f (b + 1) u u' := by
  have hle : b ≤ b + 1 := Nat.le_succ b
  refine alike_of_map ?_ ?_
  · rw [h.renamed, h'.renamed, ← hk, ← arithmetic_rename]
    rfl
  · have hrename := arithmetic_rename (cap (b + 1)) op v v' (.made b)
    rw [rename_cap_made, h.below.mono hle, h'.below.mono hle] at hrename
    exact hrename

theorem Alike.comparison (h : Alike f b v w) (h' : Alike f b v' w') (hf : Function.Injective f)
    (op : Op) : Machine.comparison op w w' = Machine.comparison op v v' := by
  rw [h.renamed, h'.renamed, comparison_rename hf]

theorem AlikeAll.array {k : Nat} (h : AlikeAll f b vs ws) (hk : f b = k) :
    Alike f (b + 1) (.array (.made b) vs) (.array (.made k) ws) := by
  have hbelow := (h.mono (Nat.le_succ b)).below
  refine ⟨?_, ?_⟩
  · rw [rename, renameAll_eq_map, ← h.renamed, ← hk]
    rfl
  · rw [Below, rename, renameAll_eq_map, rename_cap_made, hbelow]

theorem AlikeAll.closure {k : Nat} (h : AlikeAll f b vs ws) (hk : f b = k) (r : Routine) :
    Alike f (b + 1) (.closure (.made b) r vs) (.closure (.made k) r ws) := by
  have hbelow := (h.mono (Nat.le_succ b)).below
  refine ⟨?_, ?_⟩
  · rw [rename, renameAll_eq_map, ← h.renamed, ← hk]
    rfl
  · rw [Below, rename, renameAll_eq_map, rename_cap_made, hbelow]

/-- What closures that are alike have captured. -/
theorem Alike.free {stamp stamp' : Stamp} {r r' : Routine}
    (h : Alike f b (.closure stamp r vs) (.closure stamp' r' ws)) : AlikeAll f b vs ws := by
  have hrenamed := h.renamed
  have hbelow := h.below
  rw [Below] at hbelow
  rw [rename, renameAll_eq_map] at hrenamed hbelow
  exact ⟨(closure.inj hrenamed).2.2, (closure.inj hbelow).2.2⟩

/-- The entries of a hash literal. -/
theorem AlikeAll.hash {k : Nat} (h : AlikeAll f b vs ws) (hk : f b = k) :
    (∃ e, Machine.pairsOf vs = .error e ∧ Machine.pairsOf ws = .error e) ∨
      ∃ pairs pairs', Machine.pairsOf vs = .ok pairs ∧ Machine.pairsOf ws = .ok pairs' ∧
        Alike f (b + 1) (.hash (.made b) (entriesOf pairs))
          (.hash (.made k) (entriesOf pairs')) := by
  have hpairs := pairsOf_rename f vs
  have hcap := pairsOf_rename (cap (b + 1)) vs
  rw [← h.renamed] at hpairs
  rw [(h.mono (Nat.le_succ b)).below] at hcap
  cases hvs : Machine.pairsOf vs with
  | error e =>
    rw [hvs] at hpairs
    exact .inl ⟨e, rfl, hpairs⟩
  | ok pairs =>
    rw [hvs] at hpairs hcap
    refine .inr ⟨pairs, _, rfl, hpairs, ?_, ?_⟩
    · rw [rename, renameEntries_eq_map, entriesOf_map, ← hk]
      rfl
    · have hsame : pairs = pairs.map fun e => (e.1, e.2.rename (cap (b + 1))) :=
        Except.ok.inj hcap
      rw [Below, rename, renameEntries_eq_map, rename_cap_made, ← entriesOf_map, ← hsame]

/-- A builtin function answers alike, and makes as many values. -/
theorem AlikeAll.call {host host' : Host} (h : AlikeAll f host.made vs ws)
    (hmade : f host.made = host'.made) (function : Builtin) :
    Alike f (function.call vs host).2.made (function.call vs host).1
        (function.call ws host').1 ∧
      ∃ k, (function.call vs host).2.made = host.made + k ∧
        (function.call ws host').2.made = host'.made + k := by
  have hcall := Builtin.call_rename f function vs fun _ => hmade
  rw [← h.renamed] at hcall
  refine ⟨⟨hcall.1, ?_⟩, hcall.2⟩
  obtain ⟨k, hk, -⟩ := hcall.2
  have hle : host.made ≤ (function.call vs host).2.made := by omega
  have hnext : host.made < (function.call vs host).2.made →
      cap (function.call vs host).2.made host.made = host.made := fun hlt => if_pos hlt
  have hcap := Builtin.call_rename _ function vs hnext
  rw [(h.mono hle).below] at hcap
  exact hcap.1.symm

end Value

end Scriptlet
