import Mathlib.Data.List.Forall2
import Scriptlet.Proofs.Layout

/-!
# Sound tables

What the tables of open functions have in common at every point of compilation.

* `SymbolTable.Sound`: a name stands for a symbol of that name, and the symbol has a place.  Slots
  and captures are counted by the table, so `SymbolTable.Holds` compares the index with the count.
* `Chain.Sound`: only the outermost table belongs to a program.  Every other table has captured
  symbols for which the table around it still lets their names stand.
* `SymbolTable.Grows` and `Chain.Grows`: what compilation does to tables is to take more slots and
  to capture more.  A symbol that has a place keeps it.

`Chain.resolve_sound` says all of this about looking a name up, which is the only operation that
changes more than one table at a time.
-/

namespace Scriptlet

namespace SymbolTable

/-- A symbol has a place in a table. -/
def Holds (table : SymbolTable) (symbol : Symbol) : Prop :=
  match symbol.place with
  | .globalSlot => table.enclosed = false ∧ symbol.index < table.definitions
  | .localSlot => table.enclosed = true ∧ symbol.index < table.definitions
  | .builtin => table.enclosed = false ∧ symbol.index < Builtin.all.length
  | .captured => table.enclosed = true ∧
      ∃ c, table.captures.toList[symbol.index]? = some c ∧ c.name = symbol.name
  | .itself => table.enclosed = true

/-- Every name stands for a symbol of that name which has a place. -/
structure Sound (table : SymbolTable) : Prop where
  name : ∀ {name symbol}, table.get? name = some symbol → symbol.name = name
  holds : ∀ {name symbol}, table.get? name = some symbol → table.Holds symbol

/-- A table has at least the slots and the captures that it had before. -/
structure Grows (table table' : SymbolTable) : Prop where
  enclosed : table'.enclosed = table.enclosed
  definitions : table.definitions ≤ table'.definitions
  captures : table.captures.toList <+: table'.captures.toList

/-- Names stand for what they stood for before. -/
def Keeps (table table' : SymbolTable) : Prop :=
  ∀ {name symbol}, table.get? name = some symbol → table'.get? name = some symbol

variable {table table' table'' : SymbolTable}

theorem Grows.refl (table : SymbolTable) : table.Grows table :=
  ⟨rfl, Nat.le_refl _, List.prefix_refl _⟩

theorem Grows.trans (h : table.Grows table') (h' : table'.Grows table'') : table.Grows table'' :=
  ⟨h'.enclosed.trans h.enclosed, Nat.le_trans h.definitions h'.definitions,
    h.captures.trans h'.captures⟩

theorem Holds.mono {symbol : Symbol} (h : table.Holds symbol) (hgrows : table.Grows table') :
    table'.Holds symbol := by
  unfold Holds at h ⊢
  cases hplace : symbol.place with
  | globalSlot =>
    rw [hplace] at h
    exact ⟨hgrows.enclosed.trans h.1, Nat.lt_of_lt_of_le h.2 hgrows.definitions⟩
  | localSlot =>
    rw [hplace] at h
    exact ⟨hgrows.enclosed.trans h.1, Nat.lt_of_lt_of_le h.2 hgrows.definitions⟩
  | builtin =>
    rw [hplace] at h
    exact ⟨hgrows.enclosed.trans h.1, h.2⟩
  | captured =>
    rw [hplace] at h
    obtain ⟨henclosed, c, hc, hname⟩ := h
    obtain ⟨more, hmore⟩ := hgrows.captures
    refine ⟨hgrows.enclosed.trans henclosed, c, ?_, hname⟩
    rw [← hmore, List.getElem?_append_left (List.getElem?_eq_some_iff.1 hc).1]
    exact hc
  | itself =>
    rw [hplace] at h
    exact hgrows.enclosed.trans h

theorem get?_insert (table : SymbolTable) (symbol : Symbol) (name : String) :
    (table.insert symbol).get? name =
      if symbol.name = name then some symbol else table.get? name := by
  simp [insert, get?, Std.TreeMap.getElem?_insert]

/-- A table whose slots and captures have grown is sound if what was put into it has a place. -/
theorem Sound.insert {symbol : Symbol} (h : table.Sound) (hgrows : table.Grows table')
    (hsymbols : table'.symbols = (table.insert symbol).symbols) (hholds : table'.Holds symbol) :
    table'.Sound := by
  have hget : ∀ name, table'.get? name =
      if symbol.name = name then some symbol else table.get? name := by
    intro name
    rw [get?, hsymbols]
    exact get?_insert table symbol name
  constructor
  · intro name s hs
    rw [hget] at hs
    split at hs
    · next heq =>
      cases hs
      exact heq
    · exact h.name hs
  · intro name s hs
    rw [hget] at hs
    split at hs
    · cases hs
      exact hholds
    · exact (h.holds hs).mono hgrows

theorem get?_define (table : SymbolTable) (name name' : String) :
    (table.define name).get? name' =
      if name = name' then some (table.nextSymbol name) else table.get? name' :=
  get?_insert table (table.nextSymbol name) name'

theorem grows_define (table : SymbolTable) (name : String) : table.Grows (table.define name) :=
  ⟨rfl, Nat.le_succ _, List.prefix_refl _⟩

theorem Sound.define (h : table.Sound) (name : String) : (table.define name).Sound := by
  refine h.insert (grows_define table name) rfl ?_
  unfold Holds nextSymbol SymbolTable.define
  cases henclosed : table.enclosed with
  | true => exact ⟨henclosed, Nat.lt_succ_self _⟩
  | false => exact ⟨henclosed, Nat.lt_succ_self _⟩

theorem grows_capture (table : SymbolTable) (symbol : Symbol) :
    table.Grows (table.capture symbol) :=
  ⟨rfl, Nat.le_refl _, by simp [capture]⟩

theorem get?_capture (table : SymbolTable) (symbol : Symbol) (name : String) :
    (table.capture symbol).get? name =
      if symbol.name = name then some (table.capturedSymbol symbol) else table.get? name :=
  get?_insert table (table.capturedSymbol symbol) name

theorem keeps_capture {symbol : Symbol} (h : table.get? symbol.name = none) :
    table.Keeps (table.capture symbol) := by
  intro name s hs
  rw [get?_capture, if_neg]
  · exact hs
  · rintro rfl
    rw [h] at hs
    cases hs

theorem Sound.capture (h : table.Sound) (henclosed : table.enclosed = true) (symbol : Symbol) :
    (table.capture symbol).Sound := by
  refine h.insert (grows_capture table symbol) rfl ?_
  exact ⟨henclosed, symbol, by simp [SymbolTable.capture, capturedSymbol], rfl⟩

theorem sound_empty (enclosed : Bool) : Sound { enclosed := enclosed } := by
  constructor <;> · intro name symbol h; simp [get?] at h

theorem Sound.defineItself (h : table.Sound) (henclosed : table.enclosed = true) (name : String) :
    (table.defineItself name).Sound :=
  h.insert ⟨rfl, Nat.le_refl _, List.prefix_refl _⟩ rfl henclosed

/-- Defining names one behind the other. -/
theorem foldl_define (names : List String) (table : SymbolTable) :
    (names.foldl define table).captures = table.captures ∧
      (names.foldl define table).enclosed = table.enclosed ∧
      (names.foldl define table).definitions = table.definitions + names.length ∧
      (table.Sound → (names.foldl define table).Sound) := by
  induction names generalizing table with
  | nil => exact ⟨rfl, rfl, rfl, id⟩
  | cons name rest ih =>
    obtain ⟨hcaptures, henclosed, hdefinitions, hsound⟩ := ih (table.define name)
    refine ⟨hcaptures, henclosed, ?_, fun h => hsound (h.define name)⟩
    have hnext : (table.define name).definitions = table.definitions + 1 := rfl
    rw [List.foldl_cons, hdefinitions, List.length_cons, hnext]
    omega

/-- The table of a function before its body. -/
theorem ofFunction_sound (name : Option String) (parameters : List String) :
    (ofFunction name parameters).captures = #[] ∧ (ofFunction name parameters).enclosed = true ∧
      (ofFunction name parameters).definitions = parameters.length ∧
      (ofFunction name parameters).Sound := by
  unfold ofFunction
  cases name with
  | none =>
    obtain ⟨hcaptures, henclosed, hdefinitions, hsound⟩ :=
      foldl_define parameters { enclosed := true }
    exact ⟨hcaptures, henclosed, hdefinitions.trans (Nat.zero_add _), hsound (sound_empty true)⟩
  | some name =>
    obtain ⟨hcaptures, henclosed, hdefinitions, hsound⟩ :=
      foldl_define parameters (defineItself { enclosed := true } name)
    exact ⟨hcaptures, henclosed, hdefinitions.trans (Nat.zero_add _),
      hsound ((sound_empty true).defineItself rfl name)⟩

/-- Sound as the table of a program. -/
structure SoundProgram (table : SymbolTable) : Prop where
  sound : table.Sound
  enclosed : table.enclosed = false
  captures : table.captures = #[]

theorem SoundProgram.foldl_defineBuiltin (builtins : List (Builtin × Nat))
    (hbuiltins : ∀ b ∈ builtins, b.2 < Builtin.all.length) (h : table.SoundProgram) :
    (builtins.foldl (fun table b => table.defineBuiltin b.2 b.1.name) table).SoundProgram := by
  induction builtins generalizing table with
  | nil => exact h
  | cons b rest ih =>
    refine ih (fun b' hb' => hbuiltins b' (List.mem_cons_of_mem b hb')) ⟨?_, h.enclosed, h.captures⟩
    exact h.sound.insert ⟨rfl, Nat.le_refl _, List.prefix_refl _⟩ rfl
      ⟨h.enclosed, hbuiltins b (List.mem_cons_self ..)⟩

theorem soundProgram_withBuiltins : SoundProgram withBuiltins :=
  SoundProgram.foldl_defineBuiltin _ (by decide) ⟨sound_empty false, rfl, rfl⟩

end SymbolTable

namespace Chain

open SymbolTable

/-- The table `inner` is sound inside the tables `outer`. -/
def SoundFrom (inner : SymbolTable) : (outer : List SymbolTable) → Prop
  | [] => inner.SoundProgram
  | table :: outer => inner.Sound ∧ inner.enclosed = true ∧
      (∀ c ∈ inner.captures.toList, table.get? c.name = some c ∧ c.isShared = false) ∧
      SoundFrom table outer

/-- All tables of a chain are sound. -/
def Sound (chain : Chain) : Prop := SoundFrom chain.inner chain.outer

/-- Every table of a chain has at least the slots and the captures that it had before. -/
def Grows (chain chain' : Chain) : Prop :=
  List.Forall₂ SymbolTable.Grows chain.toList chain'.toList

/-- Every table of a chain lets names stand for what they stood for before. -/
def Keeps (chain chain' : Chain) : Prop :=
  List.Forall₂ SymbolTable.Keeps chain.toList chain'.toList

variable {chain chain' chain'' : Chain} {inner : SymbolTable} {outer : List SymbolTable}

theorem Grows.refl (chain : Chain) : Grows chain chain :=
  List.forall₂_same.2 fun table _ => .refl table

theorem forall₂_trans {r : SymbolTable → SymbolTable → Prop}
    (hr : ∀ a b c, r a b → r b c → r a c) {as bs cs : List SymbolTable}
    (h : List.Forall₂ r as bs) (h' : List.Forall₂ r bs cs) : List.Forall₂ r as cs := by
  induction h generalizing cs with
  | nil => exact h'
  | cons hab _ ih =>
    obtain ⟨c, cs, hbc, hrest, rfl⟩ := List.forall₂_cons_left_iff.1 h'
    exact .cons (hr _ _ _ hab hbc) (ih hrest)

theorem Grows.trans (h : Grows chain chain') (h' : Grows chain' chain'') : Grows chain chain'' :=
  forall₂_trans (r := SymbolTable.Grows) (fun _ _ _ => .trans) h h'

theorem Grows.innermost (h : Grows chain chain') : chain.inner.Grows chain'.inner :=
  (List.forall₂_cons.1 h).1

theorem Grows.outermost (h : Grows chain chain') : chain.outermost.Grows chain'.outermost := by
  obtain ⟨inner, outer⟩ := chain
  obtain ⟨inner', outer'⟩ := chain'
  obtain ⟨hinner, houter⟩ := List.forall₂_cons.1 h
  unfold Nest.outermost
  dsimp only at hinner houter ⊢
  induction houter generalizing inner inner' with
  | nil => exact hinner
  | cons hfirst _ ih =>
    rw [List.getLastD_cons, List.getLastD_cons]
    exact ih _ _ (.cons hfirst ‹_›) hfirst

theorem keeps_refl (chain : Chain) : Keeps chain chain :=
  List.forall₂_same.2 fun _ _ _ _ h => h

theorem outermost_enter (chain : Chain) (table : SymbolTable) :
    (chain.enter table).outermost = chain.outermost := by
  rw [Nest.outermost, Nest.enter, List.getLastD_cons]
  rfl

theorem SoundFrom.sound (h : SoundFrom inner outer) : inner.Sound := by
  cases outer with
  | nil => exact h.1
  | cons table outer => exact h.1

theorem SoundFrom.outermost (h : SoundFrom inner outer) : (outer.getLastD inner).SoundProgram := by
  induction outer generalizing inner with
  | nil => exact h
  | cons table outer ih =>
    rw [List.getLastD_cons]
    exact ih h.2.2.2

/-- A symbol of the innermost table that every function can reach belongs to the program. -/
theorem SoundFrom.outermost_of_isShared (h : SoundFrom inner outer) {name : String}
    {symbol : Symbol} (hget : inner.get? name = some symbol) (hshared : symbol.isShared = true) :
    (outer.getLastD inner).get? name = some symbol := by
  cases outer with
  | nil => exact hget
  | cons table outer =>
    have hholds := h.1.holds hget
    have henclosed := h.2.1
    unfold Symbol.isShared at hshared
    unfold Holds at hholds
    cases hplace : symbol.place <;> simp_all

/-- What looking a name up does to the tables: none of them loses anything, and the symbol that was
found is in the innermost table or, if every function can reach it, in that of the program. -/
structure Resolved (name : String) (chain : Chain) (found : Option Symbol) (chain' : Chain) :
    Prop where
  sound : Sound chain'
  grows : Grows chain chain'
  keeps : Keeps chain chain'
  outermost : chain'.outermost = chain.outermost
  named : ∀ {symbol}, found = some symbol → symbol.name = name
  holds : ∀ {symbol}, found = some symbol → chain'.inner.get? name = some symbol ∨
    symbol.isShared = true ∧ chain'.outermost.get? name = some symbol

/-- Enters a table again after a name was looked up in the tables around it. -/
theorem SoundFrom.enter {table : SymbolTable} (h : SoundFrom inner (table :: outer))
    (hchain : Sound chain) (hkeeps : table.Keeps chain.inner) : Sound (chain.enter inner) :=
  ⟨h.1, h.2.1, fun c hc => ⟨hkeeps (h.2.2.1 c hc).1, (h.2.2.1 c hc).2⟩, hchain⟩

theorem resolveFrom_sound (name : String) (h : SoundFrom inner outer) :
    Resolved name ⟨inner, outer⟩ (resolveFrom name inner outer).1
      (resolveFrom name inner outer).2 := by
  induction outer generalizing inner with
  | nil =>
    exact
      { sound := h
        grows := .refl _
        keeps := keeps_refl _
        outermost := rfl
        named := fun hs => h.sound.name hs
        holds := fun hs => .inl hs }
  | cons table outer ih =>
    have hrest := ih h.2.2.2
    unfold resolveFrom
    cases hget : inner.get? name with
    | some symbol =>
      exact
        { sound := h
          grows := .refl _
          keeps := keeps_refl _
          outermost := rfl
          named := fun hs => h.1.name (hget.trans hs)
          holds := fun hs => .inl (hget.trans hs) }
    | none =>
      generalize resolveFrom name table outer = result at hrest
      obtain ⟨found, around⟩ := result
      obtain ⟨hsound, hgrows, hkeeps, houtermost, hname, hholds⟩ := hrest
      have houtermost' : ∀ table', (around.enter table').outermost =
          Nest.outermost ⟨inner, table :: outer⟩ := fun table' =>
        (outermost_enter around table').trans
          (houtermost.trans (outermost_enter ⟨table, outer⟩ inner).symm)
      have henter := h.enter hsound (List.forall₂_cons.1 hkeeps).1
      cases found with
      | none =>
        exact
          { sound := henter
            grows := .cons (.refl _) hgrows
            keeps := .cons id hkeeps
            outermost := houtermost' _
            named := nofun
            holds := nofun }
      | some symbol =>
        have hsymbol := hname rfl
        have hnamed : ∀ {t s : Symbol}, t.name = name → some t = some s → s.name = name :=
          fun ht hs => Option.some.inj hs ▸ ht
        dsimp only
        split
        · next hshared =>
          refine
            { sound := henter
              grows := .cons (.refl _) hgrows
              keeps := .cons id hkeeps
              outermost := houtermost' _
              named := hnamed hsymbol
              holds := ?holds }
          case holds =>
            intro s hs
            cases hs
            refine .inr ⟨hshared, ?_⟩
            rw [outermost_enter]
            rcases hholds rfl with hinner | ⟨-, houtermost⟩
            · exact hsound.outermost_of_isShared hinner hshared
            · exact houtermost
        · next hshared =>
          have hinner : around.inner.get? symbol.name = some symbol := by
            rw [hsymbol]
            exact (hholds rfl).resolve_right fun hr => hshared hr.1
          refine
            { sound := ⟨h.1.capture h.2.1 symbol, h.2.1, fun c hc => ?captures, hsound⟩
              grows := .cons (grows_capture inner symbol) hgrows
              keeps := .cons (keeps_capture (hsymbol ▸ hget)) hkeeps
              outermost := houtermost' _
              named := hnamed hsymbol
              holds := ?holds }
          case captures =>
            have hc : c ∈ inner.captures.toList ∨ c = symbol := by
              simpa [SymbolTable.capture] using hc
            rcases hc with hc | rfl
            · exact henter.2.2.1 c hc
            · exact ⟨hinner, by simpa using hshared⟩
          case holds =>
            intro s hs
            cases hs
            exact .inl ((get?_capture inner symbol name).trans (if_pos hsymbol))

/-- Looking a name up in sound tables. -/
theorem resolve_sound {found : Option Symbol} {name : String} (h : Sound chain)
    (hresolve : chain.resolve name = (found, chain')) : Resolved name chain found chain' := by
  have hresolved := resolveFrom_sound name h
  unfold resolve at hresolve
  rw [hresolve] at hresolved
  exact hresolved

/-! ## Entering and leaving functions -/

theorem Sound.enter_ofFunction (h : Sound chain) (name : Option String)
    (parameters : List String) : Sound (chain.enter (.ofFunction name parameters)) := by
  obtain ⟨hcaptures, henclosed, -, hsound⟩ := ofFunction_sound name parameters
  refine ⟨hsound, henclosed, fun c hc => ?_, h⟩
  rw [Nest.inner_enter, hcaptures] at hc
  cases hc

/-- Leaving a function. -/
theorem Sound.leave {table : SymbolTable} (h : Sound chain')
    (hgrows : Grows (chain.enter table) chain') :
    Sound chain'.leave ∧ Grows chain chain'.leave := by
  obtain ⟨inner', outer'⟩ := chain'
  obtain ⟨-, houter⟩ := List.forall₂_cons.1 hgrows
  obtain ⟨table', rest, hfirst, hrest, heq⟩ := List.forall₂_cons_left_iff.1 houter
  subst heq
  exact ⟨h.2.2.2, .cons hfirst hrest⟩

theorem outermost_leave (chain : Chain) : chain.leave.outermost = chain.outermost := by
  obtain ⟨inner, outer⟩ := chain
  cases outer with
  | nil => rfl
  | cons table rest =>
    rw [Nest.outermost, Nest.outermost, List.getLastD_cons]
    rfl

/-- What a function has captured can be found around it. -/
theorem Sound.get?_capture {table : SymbolTable} (h : Sound chain')
    (hgrows : Grows (chain.enter table) chain') (c : Symbol)
    (hc : c ∈ chain'.inner.captures.toList) :
    chain'.leave.inner.get? c.name = some c ∧ c.isShared = false := by
  obtain ⟨inner', outer'⟩ := chain'
  obtain ⟨-, houter⟩ := List.forall₂_cons.1 hgrows
  obtain ⟨table', rest, -, -, heq⟩ := List.forall₂_cons_left_iff.1 houter
  subst heq
  exact h.2.2.1 c hc

theorem Sound.modify_define (h : Sound chain) (name : String) :
    Sound (chain.modify (·.define name)) ∧ Grows chain (chain.modify (·.define name)) := by
  obtain ⟨inner, outer⟩ := chain
  refine ⟨?_, .cons (grows_define inner name) (List.forall₂_same.2 fun table _ => .refl table)⟩
  cases outer with
  | nil => exact ⟨h.sound.define name, h.enclosed, h.captures⟩
  | cons table outer => exact ⟨h.1.define name, h.2⟩

end Chain

end Scriptlet
