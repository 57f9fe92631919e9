import Scriptlet.Proofs.Captures

/-!
# Consistent chains of tables

`Chain.Reachable` are the chains that come about when tables are opened and left, and names are
defined and looked up, in any order.  Names may be defined in every table, not only in the innermost
one, and be looked up in any number of the outermost tables.  Compilation does much less, but what
holds of its tables does not depend on the order in which it goes about.

`Chain.Consistent` is what all of these chains have in common.

* In a table of its own (`SymbolTable.Consistent`), every name stands for a symbol of that name.
  Names that were defined have different slots, and a name that was captured is found among the
  captures.  No name is captured twice.
* Only the outermost table belongs to the program, and it captures nothing.
* What a table captures has a place in the table around it (`SymbolTable.Offers`), even if the name
  stands for something else there by now.

A name that was captured stays known for good, since nothing ever takes a name out of a table.  This
is why it is not captured again, and why `SymbolTable.Consistent` says it.
-/

namespace Scriptlet

/-- Whether a symbol comes from a definition, which has taken a slot for it. -/
def Symbol.isOwn (symbol : Symbol) : Bool :=
  match symbol.place with
  | .globalSlot | .localSlot => true
  | .builtin | .captured | .itself => false

namespace SymbolTable

/-- What is true of a table by itself. -/
structure Consistent (table : SymbolTable) : Prop where
  named : table.Named
  own : ∀ name symbol, table.get? name = some symbol → symbol.isOwn = true →
    symbol.place = (if table.enclosed then .localSlot else .globalSlot) ∧
      symbol.index < table.definitions
  distinct : ∀ x y s t, table.get? x = some s → table.get? y = some t → s.isOwn = true →
    t.isOwn = true → s.index = t.index → x = y
  captured : ∀ name symbol, table.get? name = some symbol → symbol.place = .captured →
    ∃ c, table.captures[symbol.index]? = some c ∧ c.name = name
  once : (table.captures.toList.map Symbol.name).Nodup
  known : ∀ c ∈ table.captures, table.Knows c.name

/-- A symbol can be captured from a table, in which it has a place. -/
def Offers (table : SymbolTable) (symbol : Symbol) : Prop :=
  match symbol.place with
  | .localSlot => symbol.index < table.definitions
  | .captured => symbol.index < table.captures.size
  | .itself => True
  | .globalSlot | .builtin => False

variable {table table' around around' : SymbolTable} {symbol c : Symbol}

theorem Offers.mono (h : table.Offers c) (hgrows : table.Grows table') : table'.Offers c := by
  unfold Offers at h ⊢
  cases hplace : c.place with
  | localSlot =>
    rw [hplace] at h
    exact Nat.lt_of_lt_of_le h hgrows.definitions
  | captured =>
    rw [hplace] at h
    have hle := hgrows.captures.length_le
    rw [Array.length_toList, Array.length_toList] at hle
    exact Nat.lt_of_lt_of_le h hle
  | itself => trivial
  | globalSlot =>
    rw [hplace] at h
    exact h
  | builtin =>
    rw [hplace] at h
    exact h

/-- A symbol that a name stands for can be captured unless every function can reach it. -/
theorem Consistent.offers (h : table.Consistent) {name : String}
    (hget : table.get? name = some symbol) (hunshared : symbol.isShared = false) :
    table.Offers symbol := by
  have hown := h.own name symbol hget
  have hcaptured := h.captured name symbol hget
  unfold Symbol.isShared at hunshared
  unfold Symbol.isOwn at hown
  unfold Offers
  cases hplace : symbol.place with
  | localSlot =>
    rw [hplace] at hown
    exact (hown rfl).2
  | captured =>
    obtain ⟨c, hc, -⟩ := hcaptured hplace
    exact (Array.getElem?_eq_some_iff.1 hc).1
  | itself => trivial
  | globalSlot =>
    rw [hplace] at hunshared
    cases hunshared
  | builtin =>
    rw [hplace] at hunshared
    cases hunshared

/-! ## Putting a symbol into a table -/

/-- A table stays consistent when a symbol is put into it that takes a new slot if it is to have one
of its own. -/
theorem Consistent.insert (h : table.Consistent) (hgrows : table.Grows table')
    (hsymbols : table'.symbols = (table.insert symbol).symbols)
    (hown : symbol.isOwn = true →
      symbol.place = (if table.enclosed then .localSlot else .globalSlot) ∧
        table.definitions ≤ symbol.index ∧ symbol.index < table'.definitions)
    (hcaptured : symbol.place = .captured →
      ∃ c, table'.captures[symbol.index]? = some c ∧ c.name = symbol.name)
    (honce : (table'.captures.toList.map Symbol.name).Nodup)
    (hknown : ∀ c ∈ table'.captures, c ∈ table.captures ∨ c.name = symbol.name) :
    table'.Consistent := by
  have hget : ∀ name, table'.get? name =
      if symbol.name = name then some symbol else table.get? name := by
    intro name
    rw [get?, hsymbols]
    exact get?_insert table symbol name
  have hcases : ∀ {name s}, table'.get? name = some s →
      symbol.name = name ∧ s = symbol ∨ table.get? name = some s := by
    intro name s hs
    rw [hget] at hs
    split at hs
    · next heq => exact .inl ⟨heq, (Option.some.inj hs).symm⟩
    · exact .inr hs
  refine
    { named := fun name s hs => ?named
      own := fun name s hs hs' => ?own
      distinct := fun x y s t hs ht hs' ht' heq => ?distinct
      captured := fun name s hs hplace => ?captured
      once := honce
      known := fun c hc => ?known }
  case named =>
    rcases hcases hs with ⟨hname, rfl⟩ | hs
    · exact hname
    · exact h.named name s hs
  case own =>
    rw [hgrows.enclosed]
    rcases hcases hs with ⟨-, rfl⟩ | hs
    · exact ⟨(hown hs').1, (hown hs').2.2⟩
    · obtain ⟨hplace, hlt⟩ := h.own name s hs hs'
      exact ⟨hplace, Nat.lt_of_lt_of_le hlt hgrows.definitions⟩
  case distinct =>
    -- the new slot is above all that were taken before
    rcases hcases hs with ⟨hx, rfl⟩ | hs <;> rcases hcases ht with ⟨hy, rfl⟩ | ht
    · exact hx.symm.trans hy
    · have hlt := (h.own y t ht ht').2
      have hle := (hown hs').2.1
      omega
    · have hlt := (h.own x s hs hs').2
      have hle := (hown ht').2.1
      omega
    · exact h.distinct x y s t hs ht hs' ht' heq
  case captured =>
    rcases hcases hs with ⟨rfl, rfl⟩ | hs
    · exact hcaptured hplace
    · obtain ⟨c, hc, hname⟩ := h.captured name s hs hplace
      obtain ⟨more, hmore⟩ := hgrows.captures
      refine ⟨c, ?_, hname⟩
      rw [← Array.getElem?_toList] at hc ⊢
      rw [← hmore, List.getElem?_append_left (List.getElem?_eq_some_iff.1 hc).1]
      exact hc
  case known =>
    unfold Knows
    rw [hget]
    split
    · rfl
    · next hne =>
      rcases hknown c hc with hc | hname
      · exact h.known c hc
      · exact absurd hname.symm hne

theorem grows_insert (table : SymbolTable) (symbol : Symbol) : table.Grows (table.insert symbol) :=
  ⟨rfl, Nat.le_refl _, List.prefix_refl _⟩

theorem consistent_empty (enclosed : Bool) : Consistent { enclosed := enclosed } := by
  have hnone : ∀ name, get? { enclosed := enclosed } name = none := fun name => by simp [get?]
  refine
    { named := named_empty enclosed
      own := fun name s hs => ?_
      distinct := fun x y s t hs => ?_
      captured := fun name s hs => ?_
      once := .nil
      known := fun c hc => absurd hc (Array.not_mem_empty c) }
  all_goals
    rw [hnone] at hs
    cases hs

theorem Consistent.define (h : table.Consistent) (name : String) :
    (table.define name).Consistent := by
  refine h.insert (grows_define table name) rfl (fun _ => ⟨rfl, Nat.le_refl _, Nat.lt_succ_self _⟩)
    (fun hplace => ?_) h.once fun _ hc => .inl hc
  unfold nextSymbol at hplace
  cases henclosed : table.enclosed <;> simp [henclosed] at hplace

/-- A symbol that takes no slot and captures nothing. -/
theorem Consistent.insert_plain (h : table.Consistent) (hown : symbol.isOwn = false)
    (hplace : symbol.place ≠ .captured) : (table.insert symbol).Consistent :=
  h.insert (grows_insert table symbol) rfl
    (fun h => absurd (hown.symm.trans h) Bool.false_ne_true) (fun h => absurd h hplace) h.once
    fun _ hc => .inl hc

/-- A name that the table does not know is not among its captures. -/
theorem Consistent.capture (h : table.Consistent) (hget : table.get? symbol.name = none) :
    (table.capture symbol).Consistent := by
  have hcaptures : (table.capture symbol).captures = table.captures.push symbol := rfl
  refine h.insert (grows_capture table symbol) rfl nofun (fun _ => ⟨symbol, ?_, rfl⟩) ?_
    fun c hc => ?_
  · rw [hcaptures]
    exact Array.getElem?_push_size
  · rw [hcaptures, Array.toList_push, List.map_append, List.nodup_append]
    refine ⟨h.once, List.pairwise_singleton _ _, fun x hx y hy hxy => ?_⟩
    obtain ⟨c, hc, rfl⟩ := List.mem_map.1 hx
    have hknown := h.known c (Array.mem_def.2 hc)
    rw [hxy, List.mem_singleton.1 hy, Knows, hget] at hknown
    cases hknown
  · rw [hcaptures, Array.mem_push] at hc
    exact hc.imp_right fun heq => show c.name = symbol.name from congrArg Symbol.name heq

end SymbolTable

namespace Nest

variable {α : Type}

/-- Replaces an item, counted from the innermost one, by its image. -/
def modifyAt (nest : Nest α) (k : Nat) (f : α → α) : Nest α :=
  match k with
  | 0 => nest.modify f
  | k + 1 => { nest with outer := nest.outer.modify k f }

theorem toList_modifyAt (nest : Nest α) (k : Nat) (f : α → α) :
    (nest.modifyAt k f).toList = nest.toList.modify k f := by
  cases k with
  | zero => rfl
  | succ k => rfl

end Nest

namespace Chain

open SymbolTable

/-- Consistent tables, each inside the next one; the last one is that of a program. -/
inductive Nested : List SymbolTable → Prop
  | program {table : SymbolTable} (h : table.Consistent) (henclosed : table.enclosed = false)
      (hcaptures : table.captures = #[]) : Nested [table]
  | function {inner table : SymbolTable} {around : List SymbolTable} (h : inner.Consistent)
      (henclosed : inner.enclosed = true) (hoffers : ∀ c ∈ inner.captures, table.Offers c)
      (hrest : Nested (table :: around)) : Nested (inner :: table :: around)

variable {chain : Chain} {inner table table' : SymbolTable}
  {tables around around' inside skipped : List SymbolTable} {symbol : Symbol}

/-! ## Tables inside each other -/

theorem Nested.consistent (h : Nested tables) : ∀ table ∈ tables, table.Consistent := by
  induction h with
  | program h _ _ => exact List.forall_mem_singleton.2 h
  | function h _ _ _ ih => exact List.forall_mem_cons.2 ⟨h, ih⟩

/-- Only the last of the tables is that of the program. -/
theorem Nested.enclosed_iff (h : Nested tables) (k : Nat) (hk : tables[k]? = some table) :
    table.enclosed = false ↔ k + 1 = tables.length := by
  induction h generalizing k with
  | program _ henclosed _ =>
    cases k with
    | zero =>
      cases hk
      exact ⟨fun _ => rfl, fun _ => henclosed⟩
    | succ k => cases hk
  | function _ henclosed _ _ ih =>
    cases k with
    | zero =>
      cases hk
      rw [henclosed]
      exact ⟨nofun, fun h => absurd h (by simp)⟩
    | succ k =>
      rw [ih k hk, List.length_cons, List.length_cons]
      exact Nat.succ_inj.symm

theorem Nested.captures_last (h : Nested tables) (hlast : tables.getLast? = some table) :
    table.captures = #[] := by
  induction h with
  | program _ _ hcaptures =>
    cases hlast
    exact hcaptures
  | function _ _ _ _ ih => exact ih ((List.getLast?_cons_cons ..).symm.trans hlast)

theorem Nested.offers (h : Nested tables) (k : Nat) (hk : tables[k]? = some inner)
    (hk' : tables[k + 1]? = some table) : ∀ c ∈ inner.captures, table.Offers c := by
  induction h generalizing k with
  | program _ _ _ => cases hk'
  | function _ _ hoffers _ ih =>
    cases k with
    | zero =>
      cases hk
      cases hk'
      exact hoffers
    | succ k => exact ih k hk hk'

/-- Tables inside others stay as they are while those around them grow. -/
theorem Nested.append (h : Nested (skipped ++ table :: around)) (hgrows : table.Grows table')
    (h' : Nested (table' :: around')) : Nested (skipped ++ table' :: around') := by
  induction skipped with
  | nil => exact h'
  | cons t rest ih =>
    cases rest with
    | nil =>
      cases h with
      | function h henclosed hoffers _ =>
        exact .function h henclosed (fun c hc => (hoffers c hc).mono hgrows) h'
    | cons u rest =>
      cases h with
      | function h henclosed hoffers hrest => exact .function h henclosed hoffers (ih hrest)

theorem Nested.tail (h : Nested (inner :: table :: around)) : Nested (table :: around) := by
  cases h with
  | function _ _ _ hrest => exact hrest

theorem Nested.of_append (h : Nested (skipped ++ table :: around)) : Nested (table :: around) := by
  induction skipped with
  | nil => exact h
  | cons t rest ih =>
    cases rest with
    | nil => exact h.tail
    | cons u rest => exact ih h.tail

/-- A table captures a symbol that the table around it offers now, which has grown since. -/
theorem Nested.capture (h : Nested (inner :: table :: around))
    (hget : inner.get? symbol.name = none) (hgrows : table.Grows table')
    (hoffers : table'.Offers symbol) (h' : Nested (table' :: around')) :
    Nested (inner.capture symbol :: table' :: around') := by
  cases h with
  | function h henclosed hold _ =>
    refine .function (h.capture hget) henclosed (fun c hc => ?_) h'
    rcases Array.mem_push.1 hc with hc | rfl
    · exact (hold c hc).mono hgrows
    · exact hoffers

/-! ## The operations -/

/-- An operation on one table that captures nothing, and after which names stand for other symbols
and slots have been taken. -/
theorem Nested.modify {f : SymbolTable → SymbolTable} (h : Nested tables) (k : Nat)
    (hf : ∀ t : SymbolTable, t.Consistent → (f t).Consistent)
    (hgrows : ∀ t : SymbolTable, t.Grows (f t))
    (hcaptures : ∀ t : SymbolTable, (f t).captures = t.captures) : Nested (tables.modify k f) := by
  induction h generalizing k with
  | @program table h henclosed hnone =>
    cases k with
    | zero =>
      exact .program (hf table h) ((hgrows table).enclosed.trans henclosed)
        ((hcaptures table).trans hnone)
    | succ k =>
      rw [List.modify_succ_cons, List.modify_nil]
      exact .program h henclosed hnone
  | @function inner table around h henclosed hoffers hrest ih =>
    cases k with
    | zero =>
      refine .function (hf inner h) ((hgrows inner).enclosed.trans henclosed) (fun c hc => ?_) hrest
      rw [hcaptures inner] at hc
      exact hoffers c hc
    | succ k =>
      cases k with
      | zero => exact .function h henclosed (fun c hc => (hoffers c hc).mono (hgrows table)) (ih 0)
      | succ k => exact .function h henclosed hoffers (ih (k + 1))

theorem Nested.insert_plain (h : Nested tables) (k : Nat) (hown : symbol.isOwn = false)
    (hplace : symbol.place ≠ .captured) : Nested (tables.modify k (·.insert symbol)) :=
  h.modify k (fun _ ht => ht.insert_plain hown hplace)
    (fun t => grows_insert t symbol) fun _ => rfl

/-- The tables inside one that offers a symbol capture it, one after the other. -/
theorem Nested.captureEach (h : Nested (inside ++ table :: around))
    (hinside : ∀ t ∈ inside, t.get? symbol.name = none) (hoffers : table.Offers symbol) :
    Nested (Chain.captureEach symbol inside ++ table :: around) := by
  induction inside with
  | nil => exact h
  | cons t rest ih =>
    have hrest : ∀ u ∈ rest, u.get? symbol.name = none := fun u hu => hinside u (.tail _ hu)
    have hget := hinside t (.head _)
    cases rest with
    | nil =>
      have hnext : Nested (table :: around) := h.tail
      exact h.capture hget (.refl _) hoffers hnext
    | cons u rest =>
      have hnext := ih h.tail hrest
      refine h.capture ?_ (grows_capture u _) ?_ hnext
      · rw [name_passedOn]
        exact hget
      -- what the next table has just captured is its last capture
      · show u.captures.size < (u.capture (passedOn symbol rest)).captures.size
        rw [show (u.capture (passedOn symbol rest)).captures =
          u.captures.push (passedOn symbol rest) from rfl, Array.size_push]
        exact Nat.lt_succ_self _

theorem Nested.resolve (h : Nested chain.toList) (name : String) :
    Nested (chain.resolve name).2.toList := by
  rcases exists_split name chain.toList with
    hnone | ⟨inside, table, around, symbol, htables, hinside, hget⟩
  · rw [resolve_of_forall hnone]
    exact h
  · obtain ⟨hsame, hcaptures⟩ := resolve_of_split htables hinside hget
    by_cases hstays : inside = [] ∨ symbol.isShared = true
    · rw [hsame hstays]
      exact h
    · have hunshared := Bool.eq_false_iff.2 (not_or.1 hstays).2
      have htable := h.consistent table (by simp [htables])
      rw [(hcaptures hunshared).2]
      rw [htables] at h
      refine h.captureEach ?_ (htable.offers hget hunshared)
      rw [htable.named name symbol hget]
      exact hinside

theorem Nested.resolveAt (h : Nested chain.toList) (depth : Nat) (name : String) :
    Nested (chain.resolveAt depth name).2.toList := by
  rcases Nat.eq_zero_or_pos depth with rfl | hpos
  · exact h
  · obtain ⟨skipped, rest, htables, -, -, htables'⟩ := resolveAt_eq chain hpos name
    rw [htables']
    rw [htables] at h
    exact h.append (grows_resolve rest name) (h.of_append.resolve name)

theorem Nested.enclose (h : Nested chain.toList) : Nested chain.enclose.toList :=
  .function (consistent_empty true) rfl nofun h

theorem Nested.leave (h : Nested chain.toList) : Nested chain.leave.toList := by
  obtain ⟨inner, outer⟩ := chain
  cases outer with
  | nil => exact h
  | cons table around => exact h.tail

/-! ## All chains -/

/-- Chains that come about from the table of a program by any operations in any order.  An operation
on a single table is done on table `k`, counted from the innermost one. -/
inductive Reachable : Chain → Prop
  | start : Reachable ⟨{}, []⟩
  | define {chain : Chain} (h : Reachable chain) (k : Nat) (name : String) :
      Reachable (chain.modifyAt k (·.define name))
  | defineBuiltin {chain : Chain} (h : Reachable chain) (k index : Nat) (name : String) :
      Reachable (chain.modifyAt k (·.defineBuiltin index name))
  | defineItself {chain : Chain} (h : Reachable chain) (k : Nat) (name : String) :
      Reachable (chain.modifyAt k (·.defineItself name))
  | resolve {chain : Chain} (h : Reachable chain) (name : String) :
      Reachable (chain.resolve name).2
  | resolveAt {chain : Chain} (h : Reachable chain) (depth : Nat) (name : String) :
      Reachable (chain.resolveAt depth name).2
  | enclose {chain : Chain} (h : Reachable chain) : Reachable chain.enclose
  | leave {chain : Chain} (h : Reachable chain) : Reachable chain.leave

/-- What is true of all tables of a chain and of any two next to each other. -/
structure Consistent (chain : Chain) : Prop where
  tables : ∀ table ∈ chain.toList, table.Consistent
  enclosed : ∀ k table, chain.toList[k]? = some table →
    (table.enclosed = false ↔ k + 1 = chain.depth)
  outermost : chain.outermost.captures = #[]
  captures : ∀ k table around, chain.toList[k]? = some table →
    chain.toList[k + 1]? = some around → ∀ c ∈ table.captures, around.Offers c

theorem Reachable.nested (h : chain.Reachable) : Nested chain.toList := by
  induction h with
  | start => exact .program (consistent_empty false) rfl rfl
  | define _ k name ih =>
    rw [Nest.toList_modifyAt]
    exact ih.modify k (fun _ ht => ht.define name) (fun t => grows_define t name) fun _ => rfl
  | defineBuiltin _ k index name ih =>
    rw [Nest.toList_modifyAt]
    exact ih.insert_plain k rfl nofun
  | defineItself _ k name ih =>
    rw [Nest.toList_modifyAt]
    exact ih.insert_plain k rfl nofun
  | resolve _ name ih => exact ih.resolve name
  | resolveAt _ depth name ih => exact ih.resolveAt depth name
  | enclose _ ih => exact ih.enclose
  | leave _ ih => exact ih.leave

/-- However a chain comes about, its tables are consistent. -/
theorem Reachable.tables_consistent (h : chain.Reachable) : chain.Consistent := by
  have hnested := h.nested
  refine ⟨hnested.consistent, fun k table hk => hnested.enclosed_iff k hk, ?_,
    fun k table around hk hk' => hnested.offers k hk hk'⟩
  rw [Nest.outermost, List.getLastD_eq_getLast?]
  exact hnested.captures_last List.getLast?_cons

/-- A function inside one that binds `b`.  After the inner one has looked `b` up, the outer one
binds it again. -/
def boundAgain : Chain :=
  let binding : Chain := (enclose ⟨{}, []⟩).modifyAt 0 (·.define "b")
  (binding.enclose.resolve "b").2.modifyAt 1 (·.define "b")

/-- The capture is of the first `b`, which has kept its slot, though the name stands for the second
one by now. -/
theorem boundAgain_consistent : boundAgain.Consistent ∧ boundAgain.depth = 3 ∧
    boundAgain.inner.captures = #[⟨"b", .localSlot, 0⟩] ∧
    boundAgain.outer.head?.bind (·.get? "b") = some ⟨"b", .localSlot, 1⟩ := by
  have hreachable : boundAgain.Reachable :=
    .define (.resolve (.enclose (.define (.enclose .start) 0 "b")) "b") 1 "b"
  exact ⟨hreachable.tables_consistent, by decide, by decide, by decide⟩

end Chain

end Scriptlet
