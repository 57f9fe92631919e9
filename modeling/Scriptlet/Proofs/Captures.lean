import Scriptlet.Proofs.Scoping

/-!
# What looking a name up captures

`Chain.resolve` goes through the tables from the innermost outwards and captures on its way back.
Here is all that it does, for tables of any kind and in any number, as long as names stand for
symbols of their own name.

Tables are counted from the innermost one, which is table 0, and table `j` is the first that knows
the name.

* If no table knows it, or if table `j` is the innermost, or if its symbol is one that every
  function can reach, then no table changes.
* Otherwise each of the tables 0 to `j - 1` captures one symbol: the last of them that of table `j`,
  and every other one the symbol that the table around it has just made.  `Chain.passedOn` is what
  becomes of the symbol on its way inwards, and `Chain.captureEach` what becomes of the tables.

Afterwards the innermost table knows the name, so looking it up again finds the same symbol and
changes nothing.  `Chain.resolve_captures` says all of it.
-/

namespace Scriptlet

theorem Nest.toList_injective {α : Type} : Function.Injective (Nest.toList (α := α)) := by
  rintro ⟨inner, outer⟩ ⟨inner', outer'⟩ h
  obtain ⟨rfl, rfl⟩ := List.cons.inj h
  rfl

namespace SymbolTable

/-- One more symbol is captured for a name, and the name stands for the capture.  Nothing else is
different. -/
structure Captured (name : String) (original : Symbol) (table table' : SymbolTable) : Prop where
  captures : table'.captures = table.captures.push original
  stands : table'.get? name = some ⟨name, .captured, table.captures.size⟩
  others : ∀ other, other ≠ name → table'.get? other = table.get? other
  definitions : table'.definitions = table.definitions
  enclosed : table'.enclosed = table.enclosed

theorem captured_capture (table : SymbolTable) (symbol : Symbol) :
    table.Captured symbol.name symbol (table.capture symbol) where
  captures := rfl
  stands := (get?_capture ..).trans (if_pos rfl)
  others _ hother := (get?_capture ..).trans (if_neg (Ne.symm hother))
  definitions := rfl
  enclosed := rfl

end SymbolTable

namespace Chain

open SymbolTable

variable {chain : Chain} {inner table : SymbolTable} {outer inside around : List SymbolTable}
  {name : String} {symbol : Symbol}

/-! ## The way inwards -/

/-- What the first of some tables calls a symbol of the table around them, once each of them has
captured it from the next. -/
def passedOn (symbol : Symbol) : (inside : List SymbolTable) → Symbol
  | [] => symbol
  | table :: rest => table.capturedSymbol (passedOn symbol rest)

/-- Captures a symbol of the table around some tables in each of them. -/
def captureEach (symbol : Symbol) : (inside : List SymbolTable) → List SymbolTable
  | [] => []
  | table :: rest => table.capture (passedOn symbol rest) :: captureEach symbol rest

@[simp] theorem name_passedOn (symbol : Symbol) (inside : List SymbolTable) :
    (passedOn symbol inside).name = symbol.name := by
  induction inside with
  | nil => rfl
  | cons table rest ih => exact ih

theorem isShared_passedOn (hunshared : symbol.isShared = false) (inside : List SymbolTable) :
    (passedOn symbol inside).isShared = false := by
  cases inside with
  | nil => exact hunshared
  | cons table rest => rfl

@[simp] theorem length_captureEach (symbol : Symbol) (inside : List SymbolTable) :
    (captureEach symbol inside).length = inside.length := by
  induction inside with
  | nil => rfl
  | cons table rest ih => exact congrArg (· + 1) ih

theorem getElem?_captureEach (symbol : Symbol) (inside : List SymbolTable) (k : Nat) :
    (captureEach symbol inside)[k]? =
      inside[k]?.map fun table => table.capture (passedOn symbol (inside.drop (k + 1))) := by
  induction inside generalizing k with
  | nil => rfl
  | cons table rest ih =>
    cases k with
    | zero => rfl
    | succ k => exact ih k

/-! ## Looking a name up -/

/-- A name that no table knows is not found. -/
theorem resolveFrom_of_forall (h : ∀ table ∈ inner :: outer, table.get? name = none) :
    resolveFrom name inner outer = (none, ⟨inner, outer⟩) := by
  induction outer generalizing inner with
  | nil => rw [resolveFrom, h inner (.head _)]
  | cons table outer ih =>
    rw [resolveFrom, h inner (.head _), ih fun t ht => h t (.tail _ ht)]
    rfl

/-- A name is found in the first table that knows it.  The tables inside that one capture its symbol
unless every function can reach it. -/
theorem resolveFrom_of_split (htables : inner :: outer = inside ++ table :: around)
    (hinside : ∀ t ∈ inside, t.get? name = none) (hget : table.get? name = some symbol) :
    (resolveFrom name inner outer).1 =
        some (if symbol.isShared then symbol else passedOn symbol inside) ∧
      (resolveFrom name inner outer).2.toList =
        (if symbol.isShared then inside else captureEach symbol inside) ++ table :: around := by
  induction inside generalizing inner outer with
  | nil =>
    cases htables
    have hhere : resolveFrom name table around = (some symbol, ⟨table, around⟩) := by
      cases around with
      | nil => rw [resolveFrom, hget]
      | cons t around => rw [resolveFrom, hget]
    rw [hhere]
    simp [passedOn, captureEach, Nest.toList]
  | cons t inside ih =>
    rw [List.cons_append] at htables
    obtain ⟨rfl, rfl⟩ := List.cons.inj htables
    obtain ⟨next, outer, houter⟩ : ∃ next outer, inside ++ table :: around = next :: outer := by
      cases inside with
      | nil => exact ⟨_, _, rfl⟩
      | cons t' inside => exact ⟨_, _, rfl⟩
    obtain ⟨hfound, htables'⟩ := ih houter.symm fun t ht => hinside t (.tail _ ht)
    rw [houter, resolveFrom, hinside _ (.head _)]
    generalize resolveFrom name next outer = result at hfound htables'
    obtain ⟨found, around'⟩ := result
    obtain rfl : found = _ := hfound
    cases hshared : symbol.isShared with
    | true =>
      rw [hshared] at htables'
      simp only [if_true, hshared]
      exact ⟨trivial, congrArg (_ :: ·) htables'⟩
    | false =>
      rw [hshared] at htables'
      simp only [Bool.false_eq_true, if_false, isShared_passedOn hshared]
      exact ⟨rfl, congrArg (_ :: ·) htables'⟩

/-- Some first table knows a name, or none does. -/
theorem exists_split (name : String) (tables : List SymbolTable) :
    (∀ table ∈ tables, table.get? name = none) ∨
      ∃ inside table around symbol, tables = inside ++ table :: around ∧
        (∀ t ∈ inside, t.get? name = none) ∧ table.get? name = some symbol := by
  induction tables with
  | nil => exact .inl nofun
  | cons t rest ih =>
    cases hget : t.get? name with
    | some symbol => exact .inr ⟨[], t, rest, symbol, rfl, nofun, hget⟩
    | none =>
      rcases ih with hnone | ⟨inside, table, around, symbol, rfl, hinside, hfound⟩
      · exact .inl (List.forall_mem_cons.2 ⟨hget, hnone⟩)
      · exact .inr ⟨t :: inside, table, around, symbol, rfl,
          List.forall_mem_cons.2 ⟨hget, hinside⟩, hfound⟩

/-- What happens to the tables when a name is looked up that stands for a symbol in table `j`, and
the tables inside that one capture it. -/
structure Relays (name : String) (j : Nat) (symbol : Symbol) (chain chain' : Chain) : Prop where
  depth : chain'.depth = chain.depth
  around : ∀ k, j ≤ k → chain'.toList[k]? = chain.toList[k]?
  inside : ∀ k < j, ∃ table next table', chain.toList[k]? = some table ∧
    chain.toList[k + 1]? = some next ∧ chain'.toList[k]? = some table' ∧
    table.Captured name
      (if k + 1 = j then symbol else ⟨name, .captured, next.captures.size⟩) table'

theorem relays_of_split {chain' : Chain} (hname : symbol.name = name)
    (htables : chain.toList = inside ++ table :: around)
    (htables' : chain'.toList = captureEach symbol inside ++ table :: around) :
    Relays name inside.length symbol chain chain' := by
  refine ⟨?_, fun k hk => ?_, fun k hk => ?_⟩
  · show chain'.toList.length = chain.toList.length
    rw [htables, htables', List.length_append, List.length_append, length_captureEach]
  · rw [htables, htables', List.getElem?_append_right hk,
      List.getElem?_append_right (by rwa [length_captureEach]), length_captureEach]
  · have hhere : (inside ++ table :: around)[k]? = some inside[k] := by
      rw [List.getElem?_append_left hk, List.getElem?_eq_getElem hk]
    have hafter : (captureEach symbol inside ++ table :: around)[k]? =
        some (inside[k].capture (passedOn symbol (inside.drop (k + 1)))) := by
      rw [List.getElem?_append_left (by rwa [length_captureEach]), getElem?_captureEach,
        List.getElem?_eq_getElem hk, Option.map_some]
    rw [htables, htables']
    -- the last table inside captures the symbol itself, the others what the next one has made
    by_cases hlast : k + 1 = inside.length
    · refine ⟨_, table, _, hhere, ?_, hafter, ?_⟩
      · rw [hlast, List.getElem?_append_right (Nat.le_refl _), Nat.sub_self]
        rfl
      · rw [if_pos hlast, hlast, List.drop_length]
        exact hname ▸ captured_capture inside[k] symbol
    · have hlt : k + 1 < inside.length := by omega
      refine ⟨_, inside[k + 1], _, hhere, ?_, hafter, ?_⟩
      · rw [List.getElem?_append_left hlt, List.getElem?_eq_getElem hlt]
      · rw [if_neg hlast, List.drop_eq_getElem_cons hlt]
        subst hname
        have hcaptured := captured_capture inside[k]
          (passedOn symbol (inside[k + 1] :: inside.drop (k + 1 + 1)))
        rw [name_passedOn] at hcaptured
        have hpassed : passedOn symbol (inside[k + 1] :: inside.drop (k + 1 + 1)) =
            ⟨symbol.name, .captured, inside[k + 1].captures.size⟩ := by
          rw [passedOn, capturedSymbol, name_passedOn]
        rw [hpassed] at hcaptured ⊢
        exact hcaptured

theorem resolve_of_forall (h : ∀ t ∈ chain.toList, t.get? name = none) :
    chain.resolve name = (none, chain) := resolveFrom_of_forall h

theorem resolve_of_split (htables : chain.toList = inside ++ table :: around)
    (hinside : ∀ t ∈ inside, t.get? name = none) (hget : table.get? name = some symbol) :
    (inside = [] ∨ symbol.isShared = true → chain.resolve name = (some symbol, chain)) ∧
      (symbol.isShared = false →
        (chain.resolve name).1 = some (passedOn symbol inside) ∧
        (chain.resolve name).2.toList = captureEach symbol inside ++ table :: around) := by
  obtain ⟨hfound, htables'⟩ := resolveFrom_of_split htables hinside hget
  refine ⟨fun h => Prod.ext ?_ (Nest.toList_injective ?_), fun hunshared => ?_⟩
  · refine hfound.trans ?_
    rcases h with rfl | hshared
    · rw [passedOn, ite_self]
    · rw [if_pos hshared]
  · refine htables'.trans ?_
    rcases h with rfl | hshared
    · rw [htables, captureEach, ite_self]
    · rw [htables, if_pos hshared]
  · rw [hunshared] at hfound htables'
    exact ⟨hfound, htables'⟩

/-- Afterwards the innermost table knows the name. -/
theorem resolve_resolve (hnamed : ∀ table ∈ chain.toList, table.Named) (name : String) :
    (chain.resolve name).2.resolve name = chain.resolve name := by
  rcases exists_split name chain.toList with
    hnone | ⟨inside, table, around, symbol, htables, hinside, hget⟩
  · rw [resolve_of_forall hnone]
    exact resolve_of_forall hnone
  · obtain ⟨hsame, hcaptures⟩ := resolve_of_split htables hinside hget
    by_cases h : inside = [] ∨ symbol.isShared = true
    · rw [hsame h]
      exact hsame h
    · obtain ⟨hne, hshared⟩ := not_or.1 h
      obtain ⟨t, rest, rfl⟩ := List.exists_cons_of_ne_nil hne
      obtain ⟨hfound, htables'⟩ := hcaptures (Bool.eq_false_iff.2 hshared)
      have hname : symbol.name = name := hnamed table (by simp [htables]) name symbol hget
      have hinner : (t.capture (passedOn symbol rest)).get? name =
          some (passedOn symbol (t :: rest)) := by
        rw [get?_capture, if_pos ((name_passedOn symbol rest).trans hname)]
        rfl
      have hfirst : (chain.resolve name).2.toList =
          [] ++ t.capture (passedOn symbol rest) :: (captureEach symbol rest ++ table :: around) :=
        htables'
      obtain ⟨hsame', -⟩ := resolve_of_split hfirst nofun hinner
      exact (hsame' (.inl rfl)).trans (Prod.ext hfound.symm rfl)

/-- The innermost table gains at most one capture. -/
theorem grows_resolve (chain : Chain) (name : String) :
    chain.inner.Grows (chain.resolve name).2.inner := by
  rcases exists_split name chain.toList with
    hnone | ⟨inside, table, around, symbol, htables, hinside, hget⟩
  · rw [resolve_of_forall hnone]
    exact .refl _
  · obtain ⟨hsame, hcaptures⟩ := resolve_of_split htables hinside hget
    by_cases h : inside = [] ∨ symbol.isShared = true
    · rw [hsame h]
      exact .refl _
    · obtain ⟨hne, hshared⟩ := not_or.1 h
      obtain ⟨t, rest, rfl⟩ := List.exists_cons_of_ne_nil hne
      obtain ⟨-, htables'⟩ := hcaptures (Bool.eq_false_iff.2 hshared)
      rw [(List.cons.inj htables).1, (List.cons.inj htables').1]
      exact grows_capture t _

theorem toList_foldr_enter (skipped : List SymbolTable) (chain : Chain) :
    (skipped.foldr (fun table around => around.enter table) chain).toList =
      skipped ++ chain.toList := by
  induction skipped with
  | nil => rfl
  | cons table rest ih => exact congrArg (table :: ·) ih

/-- Looking a name up in the outermost tables leaves those inside them alone, which are
`skipped`. -/
theorem resolveAt_eq {depth : Nat} (chain : Chain) (hpos : 0 < depth) (name : String) :
    ∃ (skipped : List SymbolTable) (rest : Chain), chain.toList = skipped ++ rest.toList ∧
      skipped.length = chain.depth - depth ∧
      (chain.resolveAt depth name).1 = (rest.resolve name).1 ∧
      (chain.resolveAt depth name).2.toList = skipped ++ (rest.resolve name).2.toList := by
  have hlength : chain.toList.length = chain.depth := rfl
  have hdepth : 0 < chain.depth := Nat.succ_pos _
  have hlt : chain.depth - depth < chain.toList.length := by omega
  obtain ⟨inner, outer, hdrop⟩ : ∃ inner outer,
      chain.toList.drop (chain.depth - depth) = inner :: outer :=
    ⟨_, _, List.drop_eq_getElem_cons hlt⟩
  refine ⟨chain.toList.take (chain.depth - depth), ⟨inner, outer⟩, ?_, ?_, ?_⟩
  · rw [show Nest.toList ⟨inner, outer⟩ = inner :: outer from rfl, ← hdrop, List.take_append_drop]
  · exact List.length_take_of_le (Nat.le_of_lt hlt)
  · unfold resolveAt
    rw [if_neg (Nat.ne_of_gt hpos), List.splitAt_eq, hdrop]
    exact ⟨rfl, toList_foldr_enter _ _⟩

/-- All that looking a name up does.  Nothing is found in no tables at all, or where no table knows
the name.  If table `j` is the first to know it, its symbol is found and no table changes where
there is nothing to capture; otherwise the innermost table makes a new symbol, and the tables inside
table `j` capture the one that was there.  A second look finds the same and changes nothing. -/
theorem resolve_captures (hnamed : ∀ table ∈ chain.toList, table.Named) (name : String) :
    chain.resolveAt 0 name = (none, chain) ∧
    ((∀ table ∈ chain.toList, table.get? name = none) → chain.resolve name = (none, chain)) ∧
    (∀ j table symbol, chain.toList[j]? = some table → table.get? name = some symbol →
      (∀ k < j, ∀ t, chain.toList[k]? = some t → t.get? name = none) →
      (j = 0 ∨ symbol.isShared = true → chain.resolve name = (some symbol, chain)) ∧
      (0 < j → symbol.isShared = false →
        (chain.resolve name).1 = some ⟨name, .captured, chain.inner.captures.size⟩ ∧
        Relays name j symbol chain (chain.resolve name).2)) ∧
    (chain.resolve name).2.resolve name = chain.resolve name := by
  refine ⟨rfl, resolve_of_forall, fun j table symbol htable hget hinside => ?_,
    resolve_resolve hnamed name⟩
  obtain ⟨hj, hhere⟩ := List.getElem?_eq_some_iff.1 htable
  have htables : chain.toList =
      chain.toList.take j ++ table :: chain.toList.drop (j + 1) := by
    rw [← hhere, ← List.drop_eq_getElem_cons hj, List.take_append_drop]
  have hlength : (chain.toList.take j).length = j := List.length_take_of_le (Nat.le_of_lt hj)
  have hnone : ∀ t ∈ chain.toList.take j, t.get? name = none := by
    intro t ht
    obtain ⟨k, hk, hkt⟩ := List.mem_take_iff_getElem.1 ht
    exact hinside k (by omega) t (by rw [← hkt, List.getElem?_eq_getElem])
  have hname : symbol.name = name := hnamed table (List.mem_of_getElem? htable) name symbol hget
  obtain ⟨hsame, hcaptures⟩ := resolve_of_split htables hnone hget
  refine ⟨fun h => hsame (h.imp_left fun h0 => ?_), fun hpos hunshared => ?_⟩
  · rw [h0, List.take_zero]
  · obtain ⟨hfound, htables'⟩ := hcaptures hunshared
    have hrelays := relays_of_split hname htables htables'
    rw [hlength] at hrelays
    refine ⟨hfound.trans ?_, hrelays⟩
    obtain ⟨j, rfl⟩ := Nat.exists_eq_add_of_le' hpos
    rw [show chain.toList = chain.inner :: chain.outer from rfl, List.take_succ_cons, passedOn,
      capturedSymbol, name_passedOn, hname]

/-- Two functions inside one that binds `b` and `c`, where the outer of the two has captured `b`. -/
def oneCaptured : Chain where
  inner := { enclosed := true }
  outer := [.capture { enclosed := true } ⟨"b", .localSlot, 0⟩,
    .define (.define { enclosed := true } "b") "c", {}]

/-- Looking up `c` adds a second capture to the outer of the two functions and a first one to the
inner. -/
theorem oneCaptured_resolve :
    (oneCaptured.resolve "c").1 = some ⟨"c", .captured, 0⟩ ∧
      Relays "c" 2 ⟨"c", .localSlot, 1⟩ oneCaptured (oneCaptured.resolve "c").2 := by
  have hempty := named_empty
  have hnamed : ∀ table ∈ oneCaptured.toList, table.Named :=
    List.forall_mem_cons.2 ⟨hempty true, List.forall_mem_cons.2 ⟨(hempty true).insert _,
      List.forall_mem_cons.2 ⟨((hempty true).define "b").define "c",
        List.forall_mem_singleton.2 (hempty false)⟩⟩⟩
  have hget : (SymbolTable.define (.define { enclosed := true } "b") "c").get? "c" =
      some ⟨"c", .localSlot, 1⟩ := (get?_define ..).trans (if_pos rfl)
  obtain ⟨-, -, hfirst, -⟩ := resolve_captures hnamed "c"
  refine (hfirst 2 _ _ rfl hget fun k hk t ht => ?_).2 (by decide) rfl
  match k with
  | 0 =>
    cases ht
    rfl
  | 1 =>
    cases ht
    exact (get?_capture ..).trans (if_neg (by decide))

end Chain

end Scriptlet
