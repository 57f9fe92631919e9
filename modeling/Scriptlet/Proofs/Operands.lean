import Scriptlet.Proofs.Enclosure

/-!
# Operands of compiled code

An operand is a number that leads somewhere: to a constant, to a slot, to a captured value.  What it
may lead to is known only in part when its instruction is emitted, since constants, slots and
captures are still being added.  `Bounds` is what there is at some point, `Instruction.Valid` says
that the operands of an instruction lead to something there, and all of this is monotone.

* `Stage.Sound` is the invariant of compilation: the tables are sound, and every function in the
  pool has code that flows and of which all operands are valid.
* `StmtsCode.reaches` says that the code of statements keeps the invariant and has valid operands.

## Captured values

How many values a closure has captured is an operand of the instruction that makes it and is not a
part of the routine.  `Routine.ReadsBelow` ties the two together: it says of the bytes of a routine
that no instruction in them reads a captured value beyond a given number.
-/

namespace Scriptlet

open Code

namespace Code

/-- A stream consists of whole instructions in one way only. -/
theorem DecodesTo.unique {code : Code} {offset : Nat} {is js : List Instruction}
    (h : code.DecodesTo offset is) (h' : code.DecodesTo offset js) : is = js := by
  induction is generalizing offset js with
  | nil =>
    cases js with
    | nil => rfl
    | cons j js =>
      have hnothing : code.fetch offset = .nothing := by
        rw [h]
        simp [fetch]
      rw [h'.1] at hnothing
      cases hnothing
  | cons i is ih =>
    cases js with
    | nil =>
      have hnothing : code.fetch offset = .nothing := by
        rw [h']
        simp [fetch]
      rw [h.1] at hnothing
      cases hnothing
    | cons j js =>
      have hij := h.1.symm.trans h'.1
      cases hij
      rw [ih h.2 h'.2]

end Code

/-- The routine reads none but the first `count` of the values that its closure has captured. -/
def Routine.ReadsBelow (r : Routine) (count : Nat) : Prop :=
  ∀ is, r.code.DecodesTo 0 is → ∀ n, .getFree n ∈ is → n < count

/-- What the operands of a piece of code may lead to. -/
structure Bounds where
  constants : Array Value
  globals : Nat
  /-- Whether the code belongs to a function rather than to a program. -/
  enclosed : Bool
  locals : Nat
  free : Nat

namespace Bounds

/-- Bounds that leave at least as much room. -/
structure Le (b b' : Bounds) : Prop where
  constants : b.constants.toList <+: b'.constants.toList
  globals : b.globals ≤ b'.globals
  enclosed : b'.enclosed = b.enclosed
  locals : b.locals ≤ b'.locals
  free : b.free ≤ b'.free

/-- Everything can be numbered by the operand there is for it. -/
structure Small (b : Bounds) : Prop where
  constants : b.constants.size ≤ 65536
  globals : b.globals ≤ 65536
  locals : b.locals ≤ 255
  free : b.free ≤ 255

end Bounds

theorem getElem?_of_prefix {constants constants' : Array Value} {n : Nat} {v : Value}
    (h : constants.toList <+: constants'.toList) (hv : constants[n]? = some v) :
    constants'[n]? = some v := by
  obtain ⟨more, hmore⟩ := h
  rw [← Array.getElem?_toList] at hv ⊢
  rw [← hmore, List.getElem?_append_left (List.getElem?_eq_some_iff.1 hv).1]
  exact hv

namespace Instruction

/-- The operands of an instruction lead to something. -/
def Valid (b : Bounds) : Instruction → Prop
  | constant n => ∃ v, b.constants[n]? = some v ∧ v.kind ≠ .routine
  | closure n m => m ≤ 255 ∧
      ∃ stamp r, b.constants[n]? = some (.routine stamp r) ∧ r.ReadsBelow m
  | getGlobal n | setGlobal n => n < b.globals
  | getLocal n | setLocal n => n < b.locals
  | getFree n => n < b.free
  | getBuiltin n => n < Builtin.all.length
  | call n => n ≤ 255
  | array n | hash n | jump n | jumpNotTruthy n => n ≤ 65535
  | currentClosure | returnNull => b.enclosed = true
  | add | sub | mul | div | pop | pushTrue | pushFalse | equal | notEqual | greaterThan | minus
  | bang | pushNull | index | returnValue => True

variable {b b' : Bounds} {i : Instruction}

theorem Valid.mono (h : i.Valid b) (hle : b.Le b') : i.Valid b' := by
  cases i with
  | constant n =>
    obtain ⟨v, hv, hkind⟩ := h
    exact ⟨v, getElem?_of_prefix hle.constants hv, hkind⟩
  | closure n m =>
    obtain ⟨hm, stamp, r, hr, hreads⟩ := h
    exact ⟨hm, stamp, r, getElem?_of_prefix hle.constants hr, hreads⟩
  | getGlobal n => exact Nat.lt_of_lt_of_le h hle.globals
  | setGlobal n => exact Nat.lt_of_lt_of_le h hle.globals
  | getLocal n => exact Nat.lt_of_lt_of_le h hle.locals
  | setLocal n => exact Nat.lt_of_lt_of_le h hle.locals
  | getFree n => exact Nat.lt_of_lt_of_le h hle.free
  | currentClosure => exact hle.enclosed.trans h
  | returnNull => exact hle.enclosed.trans h
  | _ => exact h

theorem lt_of_getElem? {constants : Array Value} {n k : Nat} {v : Value}
    (h : constants[n]? = some v) (hk : constants.size ≤ k) : n < k :=
  Nat.lt_of_lt_of_le (Array.getElem?_eq_some_iff.1 h).1 hk

/-- Valid operands fit into their bytes. -/
theorem Valid.fits (h : i.Valid b) (hb : b.Small) : i.Fits := by
  have hbytes : ∀ n, i.operands = [n] → (i.op.widths = [2] ∧ n < 65536 ∨
      i.op.widths = [1] ∧ n < 256) → i.Fits := by
    rintro n hn (⟨hw, hlt⟩ | ⟨hw, hlt⟩) <;> simpa [Fits, room, hn, hw] using hlt
  cases i with
  | constant n =>
    obtain ⟨v, hv, -⟩ := h
    exact hbytes n rfl (.inl ⟨rfl, lt_of_getElem? hv hb.constants⟩)
  | closure n m =>
    obtain ⟨hm, stamp, r, hr, -⟩ := h
    have hn := lt_of_getElem? hr hb.constants
    have hm' : m < 256 := Nat.lt_succ_of_le hm
    simpa [Fits, room, operands, op, Op.widths] using ⟨hn, hm'⟩
  | getGlobal n => exact hbytes n rfl (.inl ⟨rfl, Nat.lt_of_lt_of_le h hb.globals⟩)
  | setGlobal n => exact hbytes n rfl (.inl ⟨rfl, Nat.lt_of_lt_of_le h hb.globals⟩)
  | getLocal n =>
    exact hbytes n rfl (.inr ⟨rfl, Nat.lt_succ_of_le (Nat.le_trans (Nat.le_of_lt h) hb.locals)⟩)
  | setLocal n =>
    exact hbytes n rfl (.inr ⟨rfl, Nat.lt_succ_of_le (Nat.le_trans (Nat.le_of_lt h) hb.locals)⟩)
  | getFree n =>
    exact hbytes n rfl (.inr ⟨rfl, Nat.lt_succ_of_le (Nat.le_trans (Nat.le_of_lt h) hb.free)⟩)
  | getBuiltin n => exact hbytes n rfl (.inr ⟨rfl, Nat.lt_trans h (by decide)⟩)
  | call n => exact hbytes n rfl (.inr ⟨rfl, Nat.lt_succ_of_le h⟩)
  | array n => exact hbytes n rfl (.inl ⟨rfl, Nat.lt_succ_of_le h⟩)
  | hash n => exact hbytes n rfl (.inl ⟨rfl, Nat.lt_succ_of_le h⟩)
  | jump n => exact hbytes n rfl (.inl ⟨rfl, Nat.lt_succ_of_le h⟩)
  | jumpNotTruthy n => exact hbytes n rfl (.inl ⟨rfl, Nat.lt_succ_of_le h⟩)
  | _ => simp [Fits, operands]

end Instruction

/-! ## Routines and constants -/

/-- Instructions that flow and of which all operands are valid; those of a function write no global
slot. -/
structure Code.Sound (b : Bounds) (is : List Instruction) : Prop where
  flows : Flows is.dropLast [] is
  valid : ∀ i ∈ is, i.Valid b
  stores : b.enclosed = true → ∀ n, .setGlobal n ∉ is

/-- A routine that was assembled from sound instructions, of which the last is a return. -/
structure Routine.Sound (constants : Array Value) (globals : Nat) (r : Routine) : Prop where
  body : ∃ is free, r.code = assemble is ∧ free ≤ 255 ∧
    Code.Sound ⟨constants, globals, true, r.locals, free⟩ is ∧
    (is.getLast? = some .returnValue ∨ is.getLast? = some .returnNull)
  parameters : r.parameters ≤ r.locals
  locals : r.locals ≤ 255

/-- A value that may stand in the pool of constants.  A string there has no running number. -/
def Value.SoundConstant (constants : Array Value) (globals : Nat) : Value → Prop
  | .integer _ => True
  | .string stamp _ => ∃ index, stamp = .constant index
  | .routine _ r => r.Sound constants globals
  | _ => False

theorem Code.Sound.mono {b b' : Bounds} {is : List Instruction} (h : Code.Sound b is)
    (hle : b.Le b') : Code.Sound b' is :=
  ⟨h.flows, fun i hi => (h.valid i hi).mono hle,
    fun henclosed => h.stores (hle.enclosed ▸ henclosed)⟩

theorem Routine.Sound.mono {constants constants' : Array Value} {globals globals' : Nat}
    {r : Routine} (h : r.Sound constants globals)
    (hconstants : constants.toList <+: constants'.toList) (hglobals : globals ≤ globals') :
    r.Sound constants' globals' := by
  obtain ⟨⟨is, free, hcode, hfree, hbody, hreturns⟩, hparameters, hlocals⟩ := h
  refine ⟨⟨is, free, hcode, hfree, hbody.mono ?_, hreturns⟩, hparameters, hlocals⟩
  exact
    { constants := hconstants
      globals := hglobals
      enclosed := rfl
      locals := Nat.le_refl _
      free := Nat.le_refl _ }

theorem Value.SoundConstant.mono {constants constants' : Array Value} {globals globals' : Nat}
    {v : Value} (h : v.SoundConstant constants globals)
    (hconstants : constants.toList <+: constants'.toList) (hglobals : globals ≤ globals') :
    v.SoundConstant constants' globals' := by
  cases v with
  | routine stamp r => exact Routine.Sound.mono h hconstants hglobals
  | _ => exact h

/-- Sound code is what its bytes decode to. -/
theorem Code.Sound.decoded {b : Bounds} {is js : List Instruction} (h : Code.Sound b is)
    (hb : b.Small) (hjs : (assemble is).DecodesTo 0 js) : js = is :=
  hjs.unique (decodesTo_assemble fun i hi => (h.valid i hi).fits hb)

/-- What a routine reads of its captured values is told by its instructions. -/
theorem Code.Sound.readsBelow {b : Bounds} {is : List Instruction} {r : Routine}
    (h : Code.Sound b is) (hb : b.Small) (hcode : r.code = assemble is) :
    r.ReadsBelow b.free := by
  intro js hjs n hn
  rw [hcode] at hjs
  rw [h.decoded hb hjs] at hn
  exact h.valid _ hn

theorem unaryInstruction?_valid {operator : Operator} {i : Instruction}
    (h : Gen.unaryInstruction? operator = some i) (b : Bounds) : i.Valid b := by
  cases operator <;> simp only [Gen.unaryInstruction?, Option.some.injEq, reduceCtorEq] at h <;>
    subst h <;> trivial

theorem binaryInstruction?_valid {operator : Operator} {i : Instruction}
    (h : Gen.binaryInstruction? operator = some i) (b : Bounds) : i.Valid b := by
  cases operator <;> simp only [Gen.binaryInstruction?, Option.some.injEq, reduceCtorEq] at h <;>
    subst h <;> trivial

/-! ## The invariant of compilation -/

namespace Stage

/-- The number of global slots. -/
def globals (s : Stage) : Nat := s.tables.outermost.definitions

/-- What the operands of the innermost code may lead to. -/
def bounds (s : Stage) : Bounds where
  constants := s.constants
  globals := s.globals
  enclosed := s.tables.inner.enclosed
  locals := if s.tables.inner.enclosed then s.tables.inner.definitions else 0
  free := s.tables.inner.captures.size

theorem bounds_locals {s : Stage} (h : s.tables.inner.enclosed = true) :
    s.bounds.locals = s.tables.inner.definitions := if_pos h

/-- The tables are sound, and so are the constants; there are no more constants and global slots
than can be numbered. -/
structure Sound (s : Stage) : Prop where
  tables : Chain.Sound s.tables
  constants : ∀ v ∈ s.constants, v.SoundConstant s.constants s.globals
  pool : s.constants.size ≤ 65536
  slots : s.globals ≤ 65536

/-- Tables and constants have only been added to. -/
structure Grows (s s' : Stage) : Prop where
  tables : Chain.Grows s.tables s'.tables
  constants : s.constants.toList <+: s'.constants.toList

variable {s s' s'' : Stage} {is js : List Instruction}

theorem Grows.refl (s : Stage) : s.Grows s := ⟨.refl _, List.prefix_refl _⟩

theorem Grows.trans (h : s.Grows s') (h' : s'.Grows s'') : s.Grows s'' :=
  ⟨h.tables.trans h'.tables, h.constants.trans h'.constants⟩

theorem Grows.globals (h : s.Grows s') : s.globals ≤ s'.globals :=
  h.tables.outermost.definitions

theorem Grows.bounds (h : s.Grows s') : s.bounds.Le s'.bounds := by
  obtain ⟨henclosed, hdefinitions, hcaptures⟩ := h.tables.innermost
  refine ⟨h.constants, h.globals, henclosed, ?_, ?_⟩
  · unfold Stage.bounds
    rw [henclosed]
    split
    · exact hdefinitions
    · exact Nat.le_refl _
  · show s.tables.inner.captures.size ≤ s'.tables.inner.captures.size
    simpa using hcaptures.length_le

/-- The code `is` leads from one stage to another: the invariant is kept and all operands are valid
afterwards. -/
structure Reaches (s : Stage) (is : List Instruction) (s' : Stage) : Prop where
  sound : s'.Sound
  grows : s.Grows s'
  valid : ∀ i ∈ is, i.Valid s'.bounds

theorem Reaches.refl (h : s.Sound) : s.Reaches [] s := ⟨h, .refl s, by simp⟩

theorem Reaches.trans (h : s.Reaches is s') (h' : s'.Reaches js s'') :
    s.Reaches (is ++ js) s'' := by
  refine ⟨h'.sound, h.grows.trans h'.grows, fun i hi => ?_⟩
  rcases List.mem_append.1 hi with hi | hi
  · exact (h.valid i hi).mono h'.grows.bounds
  · exact h'.valid i hi

/-- One more instruction behind the code. -/
theorem Reaches.concat {i : Instruction} (h : s.Reaches is s') (hi : i.Valid s'.bounds) :
    s.Reaches (is ++ [i]) s' := by
  refine ⟨h.sound, h.grows, fun j hj => ?_⟩
  rcases List.mem_append.1 hj with hj | hj
  · exact h.valid j hj
  · rw [List.mem_singleton.1 hj]
    exact hi

/-- A block that stands for a value. -/
theorem Reaches.branchCode (h : s.Reaches is s') : s.Reaches (branchCode is) s' := by
  refine ⟨h.sound, h.grows, fun i hi => ?_⟩
  rcases mem_of_mem_branchCode hi with hi | rfl
  · exact h.valid i hi
  · trivial

/-- A constant, other than a routine, that is added to the pool and loaded. -/
theorem Reaches.constant {v : Value} (h : s.Sound) (hpool : s.constants.size ≤ 65535)
    (hv : v.SoundConstant (s.constants.push v) s.globals) (hkind : v.kind ≠ .routine) :
    s.Reaches [.constant s.constants.size] (s.push v) := by
  have hpre : s.constants.toList <+: (s.constants.push v).toList := by simp
  refine ⟨⟨h.tables, fun w hw => ?_, ?_, h.slots⟩, ⟨.refl _, hpre⟩, fun i hi => ?_⟩
  · rcases Array.mem_push.1 hw with hw | rfl
    · exact (h.constants w hw).mono hpre (Nat.le_refl _)
    · exact hv
  · show (s.constants.push v).size ≤ 65536
    rw [Array.size_push]
    exact Nat.succ_le_succ hpool
  · rw [List.mem_singleton.1 hi]
    exact ⟨v, Array.getElem?_push_size, hkind⟩

/-- Looking a name up. -/
theorem Reaches.resolved {name : String} {found : Option Symbol} {tables : Chain} (h : s.Sound)
    (hresolved : Chain.Resolved name s.tables found tables) :
    s.Reaches [] { s with tables := tables } := by
  have hgrows : s.Grows { s with tables := tables } := ⟨hresolved.grows, List.prefix_refl _⟩
  refine ⟨⟨hresolved.sound, fun v hv => ?_, h.pool, ?_⟩, hgrows, by simp⟩
  · exact (h.constants v hv).mono (List.prefix_refl _) hgrows.globals
  · show tables.outermost.definitions ≤ 65536
    rw [hresolved.outermost]
    exact h.slots

/-- A load of a symbol that the innermost table knows, or of one that every function can reach. -/
theorem Sound.valid_load {name : String} {symbol : Symbol} (h : s.Sound)
    (hget : s.tables.inner.get? name = some symbol ∨
      symbol.isShared = true ∧ s.tables.outermost.get? name = some symbol) :
    symbol.load.Valid s.bounds := by
  have hshared : symbol.isShared = true → s.tables.outermost.Holds symbol := by
    intro hshared
    have hprogram := (Chain.SoundFrom.outermost h.tables).sound
    rcases hget with hget | ⟨-, hget⟩
    · exact hprogram.holds (h.tables.outermost_of_isShared hget hshared)
    · exact hprogram.holds hget
  have hinner : symbol.isShared = false → s.tables.inner.Holds symbol := by
    intro hshared
    rcases hget with hget | ⟨htrue, -⟩
    · exact h.tables.sound.holds hget
    · rw [hshared] at htrue
      cases htrue
  unfold Symbol.isShared at hshared hinner
  unfold Symbol.load
  unfold SymbolTable.Holds at hshared hinner
  cases hplace : symbol.place with
  | globalSlot =>
    simp only [hplace] at hshared
    exact (hshared trivial).2
  | localSlot =>
    simp only [hplace] at hinner
    obtain ⟨henclosed, hlt⟩ := hinner trivial
    show symbol.index < s.bounds.locals
    rw [bounds_locals henclosed]
    exact hlt
  | builtin =>
    simp only [hplace] at hshared
    exact (hshared trivial).2
  | captured =>
    simp only [hplace] at hinner
    obtain ⟨-, c, hc, -⟩ := hinner trivial
    have hlt := (List.getElem?_eq_some_iff.1 hc).1
    rw [Array.length_toList] at hlt
    exact hlt
  | itself =>
    simp only [hplace] at hinner
    exact hinner trivial

/-- Only in the program does a new slot count as global. -/
theorem Sound.outermost_define (h : s.Sound) (name : String) :
    s.tables.inner.enclosed = true ∧ (s.define name).tables.outermost = s.tables.outermost ∨
      s.tables.inner.enclosed = false ∧ s.tables.inner = s.tables.outermost ∧
        (s.define name).tables.outermost = s.tables.outermost.define name := by
  obtain ⟨constants, inner, outer⟩ := s
  cases outer with
  | nil => exact .inr ⟨h.tables.enclosed, rfl, rfl⟩
  | cons table outer => exact .inl ⟨h.tables.2.1, rfl⟩

/-- The name that a statement binds gets the next slot. -/
theorem Reaches.define {name : String} (h : s.Reaches is s')
    (hlimit : (s'.tables.inner.nextSymbol name).index ≤
      (s'.tables.inner.nextSymbol name).slots.limit) :
    s.Reaches (is ++ [(s'.tables.inner.nextSymbol name).store]) (s'.define name) := by
  obtain ⟨htables, hgrows⟩ := h.sound.tables.modify_define name
  have hstage : s'.Grows (s'.define name) := ⟨hgrows, List.prefix_refl _⟩
  have hglobals : (s'.define name).globals = s'.globals ∧ s'.tables.inner.enclosed = true ∨
      (s'.define name).globals = s'.tables.inner.definitions + 1 ∧
        s'.tables.inner.enclosed = false := by
    rcases h.sound.outermost_define name with ⟨henclosed, hsame⟩ | ⟨henclosed, hinner, hdefine⟩
    · exact .inl ⟨congrArg SymbolTable.definitions hsame, henclosed⟩
    · refine .inr ⟨?_, henclosed⟩
      rw [hinner]
      exact congrArg SymbolTable.definitions hdefine
  have hsound : (s'.define name).Sound := by
    refine ⟨htables, fun v hv => (h.sound.constants v hv).mono (List.prefix_refl _)
      hstage.globals, h.sound.pool, ?_⟩
    rcases hglobals with ⟨heq, -⟩ | ⟨heq, henclosed⟩
    · rw [heq]
      exact h.sound.slots
    · rw [heq]
      simp only [SymbolTable.nextSymbol, henclosed, Symbol.slots, Resource.limit] at hlimit
      exact Nat.succ_le_succ hlimit
  refine Reaches.concat ⟨hsound, h.grows.trans hstage, ?_⟩ ?_
  · intro i hi
    exact (h.valid i hi).mono hstage.bounds
  · rcases hglobals with ⟨-, henclosed⟩ | ⟨heq, henclosed⟩
    · simp only [SymbolTable.nextSymbol, henclosed, Symbol.store]
      show s'.tables.inner.definitions < (s'.define name).bounds.locals
      rw [bounds_locals (s := s'.define name) (hgrows.innermost.enclosed.trans henclosed)]
      exact Nat.lt_succ_self _
    · simp only [SymbolTable.nextSymbol, henclosed, Symbol.store]
      show s'.tables.inner.definitions < (s'.define name).globals
      rw [heq]
      exact Nat.lt_succ_self _

/-- The stage at which a function is opened. -/
theorem Sound.enter (h : s.Sound) (name : Option String) (parameters : List String) :
    (s.enter name parameters).Sound := by
  have hglobals : (s.enter name parameters).globals = s.globals := by
    unfold Stage.globals Stage.enter
    rw [Chain.outermost_enter]
  refine ⟨h.tables.enter_ofFunction name parameters, ?_, h.pool, ?_⟩
  · rw [hglobals]
    exact h.constants
  · rw [hglobals]
    exact h.slots

theorem mem_of_mem_bodyCode {i : Instruction} (h : i ∈ bodyCode is) :
    i ∈ is ∨ i = .returnValue ∨ i = .returnNull := by
  unfold bodyCode at h
  split at h
  · rcases List.mem_append.1 h with h | h
    · exact .inl ((List.dropLast_prefix is).subset h)
    · exact .inr (.inl (List.mem_singleton.1 h))
  · split at h
    · exact .inl h
    · rcases List.mem_append.1 h with h | h
      · exact .inl h
      · exact .inr (.inr (List.mem_singleton.1 h))

theorem getLast?_bodyCode (is : List Instruction) :
    (bodyCode is).getLast? = some .returnValue ∨ (bodyCode is).getLast? = some .returnNull := by
  unfold bodyCode
  split
  · exact .inl List.getLast?_concat
  · split
    · next hlast => exact .inl hlast
    · exact .inr List.getLast?_concat

/-- Closing a function: its routine is sound, and its captures can be loaded around it. -/
theorem Reaches.leave {name : Option String} {parameters : List String}
    (h : (s.enter name parameters).Reaches is s')
    (hencloses : (s.enter name parameters).Encloses is s')
    (hflows : Flows is.dropLast [] is) (hlocals : s'.tables.inner.definitions ≤ 255)
    (hcaptures : s'.tables.inner.captures.size ≤ 255) (hpool : s'.constants.size ≤ 65535) :
    s.Reaches (s'.captures.map Symbol.load ++
      [.closure s'.constants.size s'.tables.inner.captures.size])
      (s'.leave is parameters.length) := by
  obtain ⟨htables, hgrows⟩ := h.sound.tables.leave h.grows.tables
  obtain ⟨-, henclosed, hdefinitions, -⟩ := SymbolTable.ofFunction_sound name parameters
  have hinner := h.grows.tables.innermost
  have henclosed' : s'.tables.inner.enclosed = true := hinner.enclosed.trans henclosed
  -- the constants and slots there are once the function is closed
  have hglobals : (s'.leave is parameters.length).globals = s'.globals :=
    congrArg SymbolTable.definitions (Chain.outermost_leave s'.tables)
  have hpre : s'.constants.toList <+: (s'.leave is parameters.length).constants.toList := by
    simp [Stage.leave]
  have hbody : Code.Sound ⟨(s'.leave is parameters.length).constants, s'.globals, true,
      s'.tables.inner.definitions, s'.tables.inner.captures.size⟩ (bodyCode is) := by
    refine ⟨flows_bodyCode hflows, fun i hi => ?_, fun _ n hn => ?_⟩
    · rcases mem_of_mem_bodyCode hi with hi | rfl | rfl
      · exact (h.valid i hi).mono
          { constants := hpre
            globals := Nat.le_refl _
            enclosed := henclosed'.symm
            locals := Nat.le_of_eq (bounds_locals henclosed')
            free := Nat.le_refl _ }
      · trivial
      · rfl
    · rcases mem_of_mem_bodyCode hn with hn | hn | hn
      · exact hencloses.stores (by simp [enclosures_enter]) n hn
      · cases hn
      · cases hn
  have hroutine : (s'.routine is parameters.length).Sound
      (s'.leave is parameters.length).constants s'.globals := by
    refine ⟨⟨bodyCode is, _, rfl, hcaptures, hbody, getLast?_bodyCode is⟩, ?_, hlocals⟩
    exact hdefinitions ▸ hinner.definitions
  have hsize : (s'.leave is parameters.length).constants.size ≤ 65536 := by
    rw [Stage.leave, Array.size_push]
    exact Nat.succ_le_succ hpool
  have hsound : (s'.leave is parameters.length).Sound := by
    refine ⟨htables, fun v hv => ?_, hsize, hglobals ▸ h.sound.slots⟩
    rw [hglobals]
    rcases Array.mem_push.1 hv with hv | rfl
    · exact (h.sound.constants v hv).mono hpre (Nat.le_refl _)
    · exact hroutine
  have hgrows' : s.Grows (s'.leave is parameters.length) :=
    ⟨hgrows, h.grows.constants.trans hpre⟩
  refine Reaches.concat ⟨hsound, hgrows', fun i hi => ?_⟩
    ⟨hcaptures, .constant s'.constants.size, s'.routine is parameters.length, ?_, ?_⟩
  · obtain ⟨c, hc, rfl⟩ := List.mem_map.1 hi
    exact hsound.valid_load (.inl (h.sound.tables.get?_capture h.grows.tables c hc).1)
  · exact Array.getElem?_push_size
  · exact hbody.readsBelow ⟨hsize, h.sound.slots, hlocals, hcaptures⟩ rfl

end Stage

open Stage

mutual

theorem ExprCode.reaches {s s' : Stage} {p : Nat} {e : Expr} {is : List Instruction} :
    ExprCode s p e is s' → s.Sound → s.Reaches is s'
  | .identifier hresolve, hs => by
    have hresolved := Chain.resolve_sound hs.tables hresolve
    have hreaches := Reaches.resolved hs hresolved
    exact hreaches.concat (hreaches.sound.valid_load (hresolved.holds rfl))
  | .integer hpool, hs => .constant hs hpool trivial nofun
  | .boolean, hs => (Reaches.refl hs).concat (by split <;> trivial)
  | .string hpool, hs => .constant hs hpool ⟨_, rfl⟩ nofun
  | .array helements hcount, hs => (helements.reaches hs).concat hcount
  | .hash hpairs hcount, hs => (hpairs.reaches hs).concat hcount
  | .unary hoperand hoperator, hs =>
    (hoperand.reaches hs).concat (unaryInstruction?_valid hoperator _)
  | .lessThan hright hleft, hs => by
    have hfirst := hright.reaches hs
    exact (hfirst.trans (hleft.reaches hfirst.sound)).concat trivial
  | .binary hleft hright hoperator, hs => by
    have hfirst := hleft.reaches hs
    have hboth := hfirst.trans (hright.reaches hfirst.sound)
    exact hboth.concat (binaryInstruction?_valid hoperator _)
  | @ExprCode.conditional _ _ _ _ _ q r _ _ _ _ _ _ hcondition hconsequence halternative hq hr
      hlimit, hs => by
    have hq : q ≤ 65535 := by omega
    have h₁ := (hcondition.reaches hs).concat (i := .jumpNotTruthy q) hq
    have h₂ := (hconsequence.reaches h₁.sound).branchCode.concat (i := .jump r) hlimit
    have h₃ := (halternative.reaches h₂.sound).branchCode
    simpa using (h₁.trans h₂).trans h₃
  | .function hbody hlocals _ hcaptures hpool, hs => by
    have hreaches := hbody.reaches (hs.enter _ _)
    exact hreaches.leave hbody.encloses (hbody.flows [] rfl).1 hlocals hcaptures hpool
  | .call hcallee harguments hcount, hs => by
    have hfirst := hcallee.reaches hs
    exact (hfirst.trans (harguments.reaches hfirst.sound)).concat hcount
  | .index hcollection hkey, hs => by
    have hfirst := hcollection.reaches hs
    exact (hfirst.trans (hkey.reaches hfirst.sound)).concat trivial

theorem ExprsCode.reaches {s s' : Stage} {p : Nat} {es : List Expr} {is : List Instruction} :
    ExprsCode s p es is s' → s.Sound → s.Reaches is s'
  | .nil, hs => .refl hs
  | .cons hfirst hrest, hs => by
    have hfirst := hfirst.reaches hs
    exact hfirst.trans (hrest.reaches hfirst.sound)

theorem EntriesCode.reaches {s s' : Stage} {p : Nat} {pairs : List (Expr × Expr)}
    {is : List Instruction} : EntriesCode s p pairs is s' → s.Sound → s.Reaches is s'
  | .nil, hs => .refl hs
  | .cons _ hkey hvalue hrest, hs => by
    have hkey := hkey.reaches hs
    have hboth := hkey.trans (hvalue.reaches hkey.sound)
    exact hboth.trans (hrest.reaches hboth.sound)

theorem StmtCode.reaches {s s' : Stage} {p : Nat} {first : Stmt} {is : List Instruction} :
    StmtCode s p first is s' → s.Sound → s.Reaches is s'
  | .bind hvalue hsymbol hlimit, hs => by
    subst hsymbol
    exact (hvalue.reaches hs).define hlimit
  | .ret hvalue, hs => (hvalue.reaches hs).concat trivial
  | .eval hvalue, hs => (hvalue.reaches hs).concat trivial

/-- The code of statements keeps the invariant of compilation, and its operands are valid. -/
theorem StmtsCode.reaches {s s' : Stage} {p : Nat} {body : List Stmt} {is : List Instruction} :
    StmtsCode s p body is s' → s.Sound → s.Reaches is s'
  | .nil, hs => .refl hs
  | .cons hfirst hrest, hs => by
    have hfirst := hfirst.reaches hs
    exact hfirst.trans (hrest.reaches hfirst.sound)

end

end Scriptlet
