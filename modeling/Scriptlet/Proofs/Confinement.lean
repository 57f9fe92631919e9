import Scriptlet.Proofs.Halting
import Scriptlet.Proofs.Hereditary

/-!
# Any code is safe to run

The machine does not trust its code.  Bytes may spell anything, constants may be closures that
nobody compiled, a jump may lead into the middle of an instruction, and a run may go on behind an
error with an instruction that was half executed.  Whatever happens, the machine does not reach
beyond its stack, its global slots, its frames or its code: what is wrong with the code comes to an
error.

* `Machine.Confined` is the shape that a machine keeps.
* `Value.routines` lists the routines in a value.  A call adds the number of locals of a routine to
  a position on the stack, and the sum has to be a machine word; `Routine.Addressable` bounds what
  the routine contributes.  A machine comes across no other routines than those it was given, which
  is the part of `Machine.Contained` that is not about shape.
* `Machine.Contained.execute` is the step lemma, with a rule for every part of an instruction, and
  `Machine.Visits` are the states of a machine in consecutive runs.
-/

namespace Scriptlet

/-! ## Routines in values -/

mutual

/-- The routines in a value, however deep. -/
def Value.routines : Value → List Routine
  | .array _ elements => Value.routinesOf elements
  | .hash _ entries => Value.routinesOfEntries entries
  | .routine _ r => [r]
  | .closure _ r free => r :: Value.routinesOf free
  | .returned v => v.routines
  | .integer _ | .boolean _ | .null | .string _ _ | .builtin _ | .function _ _ _ | .failure _ => []

/-- The routines in values. -/
def Value.routinesOf : List Value → List Routine
  | [] => []
  | v :: rest => v.routines ++ Value.routinesOf rest

/-- The routines in the entries of a hash. -/
def Value.routinesOfEntries : List (Key × Value) → List Routine
  | [] => []
  | (_, v) :: rest => v.routines ++ Value.routinesOfEntries rest

end

/-- How many numbers a machine word can hold. -/
def wordSize : Nat := 2 ^ 64

/-- The locals of a routine can be counted from any position on the stack. -/
def Routine.Addressable (r : Routine) : Prop := Machine.stackSize + r.locals < wordSize

/-- All routines in a value are addressable. -/
def Value.Addressable (v : Value) : Prop := ∀ r ∈ v.routines, r.Addressable

instance (r : Routine) : Decidable r.Addressable := inferInstanceAs (Decidable (_ < _))

instance (v : Value) : Decidable v.Addressable := inferInstanceAs (Decidable (∀ r ∈ _, _))

namespace Value

variable {vs : List Value} {stamp : Stamp} {r : Routine}

theorem mem_routinesOf : r ∈ routinesOf vs ↔ ∃ v ∈ vs, r ∈ v.routines := by
  induction vs with
  | nil => simp [routinesOf]
  | cons v rest ih => simp [routinesOf, ih]

theorem mem_routinesOfEntries {entries : List (Key × Value)} :
    r ∈ routinesOfEntries entries ↔ ∃ e ∈ entries, r ∈ e.2.routines := by
  induction entries with
  | nil => simp [routinesOfEntries]
  | cons e rest ih => simp [routinesOfEntries, ih]

theorem addressable_of_isSimple {v : Value} (h : v.isSimple = true) : v.Addressable := by
  intro r hr
  cases v with
  | integer | boolean | null | string | builtin | failure => cases hr
  | _ => cases h

theorem addressable_closure :
    (closure stamp r vs).Addressable ↔ r.Addressable ∧ ∀ v ∈ vs, v.Addressable := by
  unfold Addressable
  simp only [routines, List.mem_cons, mem_routinesOf, forall_eq_or_imp]
  exact and_congr_right fun _ =>
    ⟨fun h v hv r hr => h r ⟨v, hv, hr⟩, fun h r ⟨v, hv, hr⟩ => h v hv r hr⟩

theorem hereditary_addressable : Hereditary Addressable where
  simple _ h := addressable_of_isSimple h
  array _ vs := by
    unfold Addressable
    simp only [routines, mem_routinesOf]
    exact ⟨fun h v hv r hr => h r ⟨v, hv, hr⟩, fun h r ⟨v, hv, hr⟩ => h v hv r hr⟩
  hash _ entries := by
    unfold Addressable
    simp only [routines, mem_routinesOfEntries]
    exact ⟨fun h e he r hr => h r ⟨e, he, hr⟩, fun h r ⟨e, he, hr⟩ => h e he r hr⟩

end Value

/-! ## Operands in the code -/

namespace Code

/-- Operands are at most two bytes wide. -/
theorem lt_of_mem_numbers? {code : Code} {widths : List Nat} {offset n : Nat} {ns : List Nat}
    (h : code.numbers? widths offset = some ns) (hn : n ∈ ns) : n < 65536 := by
  have hbyte : ∀ {i b}, code.byte? i = some b → b < 256 := fun {i b} hb => by
    obtain ⟨byte, -, rfl⟩ := Option.map_eq_some_iff.1 hb
    exact byte.toNat_lt
  induction widths generalizing offset ns with
  | nil =>
    cases h
    cases hn
  | cons w rest ih =>
    obtain ⟨first, others, hfirst, hothers, rfl⟩ := numbers?_cons_eq_some.1 h
    rcases List.mem_cons.1 hn with rfl | hn
    · unfold number? at hfirst
      split at hfirst
      · obtain ⟨high, hhigh, hlow⟩ := Option.bind_eq_some_iff.1 hfirst
        obtain ⟨low, hlow, heq⟩ := Option.bind_eq_some_iff.1 hlow
        have hhigh := hbyte hhigh
        have hlow := hbyte hlow
        cases heq
        omega
      · have hlow := hbyte hfirst
        omega
    · exact ih hothers hn

theorem operand_lt_of_fetch {code : Code} {position n : Nat} {i : Instruction}
    (h : code.fetch position = .instruction i) (hn : n ∈ i.operands) : n < 65536 :=
  lt_of_mem_numbers? (fetch_eq_instruction h).2 hn

end Code

/-! ## The shape of a machine -/

/-- The closure that a frame runs. -/
def Frame.closure (f : Frame) : Value := .closure f.stamp f.routine f.free

namespace Machine

open Exec

/-- The stack slots at which the locals of the frames begin, outermost frame first. -/
def bases (m : Machine) : List Nat := m.frames.toList.map Frame.base

/-- The shape that a machine keeps, whatever code it runs. -/
structure Confined (m : Machine) : Prop where
  stack : m.stack.size = stackSize
  sp : m.sp ≤ stackSize
  globals : m.globals.size = globalsSize
  frames : 1 ≤ m.frames.size ∧ m.frames.size ≤ maxFrames
  room : ∀ base ∈ m.bases, base ≤ stackSize
  /-- Below the locals of a call is the slot for its result. -/
  raised : ∀ base ∈ m.bases.tail, 1 ≤ base

/-- A machine that has its shape and holds addressable values only. -/
structure Contained (m : Machine) : Prop extends m.Confined where
  constants : ∀ v ∈ m.constants, v.Addressable
  values : ∀ v ∈ m.stack, v.Addressable
  slots : ∀ v ∈ m.globals, v.Addressable
  closures : ∀ f ∈ m.frames, f.closure.Addressable

/-- What is left behind when an instruction fails: the machine keeps its shape, and the failure is
not that of an access out of bounds. -/
def Stays (halt : Halt) (m : Machine) : Prop := halt ≠ .outOfBounds ∧ m.Contained

variable {m m' m₀ : Machine} {α : Type}

theorem bases_eq (m : Machine) : m.bases = m.callers.toList.map Frame.base ++ [m.frame.base] := by
  simp [bases, frames]

theorem mem_frames {f : Frame} : f ∈ m.frames ↔ f ∈ m.callers ∨ f = m.frame := Array.mem_push

namespace Contained

theorem stays {e : Error} (h : m.Contained) : Stays (.error e) m := ⟨nofun, h⟩

theorem frame (h : m.Contained) : m.frame.closure.Addressable :=
  h.closures _ (mem_frames.2 (.inr rfl))

/-! ## Changes of the state -/

/-- Other values on the stack. -/
theorem put {stack : Array Value} {sp : Nat} (h : m.Contained) (hsize : stack.size = stackSize)
    (hsp : sp ≤ stackSize) (hvalues : ∀ v ∈ stack, v.Addressable) :
    Contained { m with stack := stack, sp := sp } :=
  { h with stack := hsize, sp := hsp, values := hvalues }

/-- Less of the stack in use. -/
theorem lower {sp : Nat} (h : m.Contained) (hsp : sp ≤ stackSize) :
    Contained { m with sp := sp } := h.put h.stack hsp h.values

theorem set {slot : Nat} {v : Value} (h : m.Contained) (hv : v.Addressable) :
    ∀ w ∈ m.stack.setIfInBounds slot v, w.Addressable := by
  intro w hw
  rcases Array.mem_or_eq_of_mem_setIfInBounds hw with hw | rfl
  · exact h.values w hw
  · exact hv

theorem setGlobal {slot : Nat} {v : Value} (h : m.Contained) (hv : v.Addressable) :
    Contained { m with globals := m.globals.setIfInBounds slot v } := by
  refine { h with globals := ?size, slots := fun w hw => ?slots }
  case size =>
    rw [Array.size_setIfInBounds]
    exact h.globals
  case slots =>
    rcases Array.mem_or_eq_of_mem_setIfInBounds hw with hw | rfl
    · exact h.slots w hw
    · exact hv

theorem withHost (h : m.Contained) (host : Host) : Contained { m with host := host } :=
  { h with }

/-- Another position in the code. -/
theorem moveTo (h : m.Contained) (ip : Nat) :
    Contained { m with frame := { m.frame with ip := ip } } := by
  have hbases : bases { m with frame := { m.frame with ip := ip } } = m.bases := by
    rw [bases_eq, bases_eq]
  refine
    { h with
      frames := ?frames
      room := hbases ▸ h.room
      raised := hbases ▸ h.raised
      closures := fun f hf => ?closures }
  case frames =>
    have hframes := h.frames
    unfold frames at hframes ⊢
    rw [Array.size_push] at hframes ⊢
    exact hframes
  case closures =>
    rcases mem_frames.1 hf with hf | rfl
    · exact h.closures f (mem_frames.2 (.inl hf))
    · exact h.frame

/-- A frame more. -/
theorem enter {f : Frame} (h : m.Contained) (hdepth : m.depth < maxFrames)
    (hbase : 1 ≤ f.base ∧ f.base ≤ stackSize) (hf : f.closure.Addressable) :
    Contained { m with frame := f, callers := m.callers.push m.frame } := by
  have hbases : bases { m with frame := f, callers := m.callers.push m.frame } =
      m.bases ++ [f.base] := by
    rw [bases_eq, bases_eq, Array.toList_push, List.map_append]
    rfl
  have hnil : m.bases ≠ [] := by
    rw [bases_eq]
    simp
  refine
    { h with
      frames := ?frames
      room := ?room
      raised := ?raised
      closures := fun g hg => ?closures }
  case frames =>
    unfold frames depth at *
    rw [Array.size_push, Array.size_push]
    omega
  case room =>
    rw [hbases]
    intro base hmem
    rcases List.mem_append.1 hmem with hmem | hmem
    · exact h.room base hmem
    · exact List.mem_singleton.1 hmem ▸ hbase.2
  case raised =>
    rw [hbases, List.tail_append_of_ne_nil hnil]
    intro base hmem
    rcases List.mem_append.1 hmem with hmem | hmem
    · exact h.raised base hmem
    · exact List.mem_singleton.1 hmem ▸ hbase.1
  case closures =>
    rcases mem_frames.1 hg with hg | rfl
    · exact h.closures g hg
    · exact hf

/-- A frame less. -/
theorem leave {callers : Array Frame} {caller : Frame} (h : m.Contained)
    (hcallers : m.callers = callers.push caller) :
    Contained { m with frame := caller, callers := callers } := by
  have hframes : frames { m with frame := caller, callers := callers } = m.callers := hcallers.symm
  have hbases : m.bases =
      bases { m with frame := caller, callers := callers } ++ [m.frame.base] := by
    unfold bases
    rw [hframes]
    exact bases_eq m
  have hnil : bases { m with frame := caller, callers := callers } ≠ [] := by
    rw [bases_eq]
    simp
  have hroom := h.room
  have hraised := h.raised
  rw [hbases] at hroom hraised
  rw [List.tail_append_of_ne_nil hnil] at hraised
  refine
    { h with
      frames := ?frames
      room := fun base hbase => hroom base (List.mem_append_left _ hbase)
      raised := fun base hbase => hraised base (List.mem_append_left _ hbase)
      closures := fun g hg => ?closures }
  case frames =>
    have hsize := h.frames
    unfold frames at hsize
    rw [Array.size_push] at hsize
    rw [hframes, hcallers, Array.size_push] at *
    omega
  case closures =>
    rw [hframes] at hg
    exact h.closures g (mem_frames.2 (.inl hg))

/-! ## Parts of instructions -/

theorem push {v : Value} (h : m.Contained) (hv : v.Addressable) :
    Ensures (Exec.push v) m (fun _ m' => m'.Contained) Stays := by
  refine ensures_push h.stack (fun hlt => h.put ?_ hlt (h.set hv)) h.stays
  rw [Array.size_setIfInBounds]
  exact h.stack

theorem pop {ok : Value → Machine → Prop} (h : m.Contained)
    (hok : ∀ v m', v.Addressable → m'.Contained → ok v m') : Ensures Exec.pop m ok Stays := by
  have hsp := h.sp
  by_cases hpos : 0 < m.sp
  · refine ensures_pop hpos (h.stack ▸ hsp) fun v hv => hok v _ ?_ (h.lower (by omega))
    exact h.values v (Array.mem_of_getElem? hv)
  · unfold Ensures Exec.pop
    rw [if_pos (by omega)]
    exact h.stays

theorem topmost {count : Nat} {ok : List Value → Machine → Prop} (h : m.Contained)
    (hok : ∀ vs, count ≤ m.sp → (∀ v ∈ vs, v.Addressable) → ok vs m) :
    Ensures (Exec.topmost count) m ok Stays := by
  by_cases hcount : count ≤ m.sp
  · refine ensures_topmost hcount (h.stack ▸ h.sp) (hok _ hcount fun v hv => ?_)
    obtain ⟨k, hk, rfl⟩ := Array.mem_extract_iff_getElem.1 (Array.mem_toList_iff.1 hv)
    exact h.values _ (Array.getElem_mem _)
  · unfold Ensures Exec.topmost
    rw [if_neg hcount]
    exact h.stays

theorem drop {count : Nat} {ok : Unit → Machine → Prop} (h : m.Contained) (hcount : count ≤ m.sp)
    (hok : ∀ m', m'.Contained → ok () m') : Ensures (Exec.drop count) m ok Stays := by
  have hsp := h.sp
  exact ensures_drop hcount (hok _ (h.lower (by omega)))

theorem lift {β : Type} {x : Except Error β} {ok : β → Machine → Prop} (h : m.Contained)
    (hok : ∀ a, x = .ok a → ok a m) : Ensures (Exec.lift x) m ok Stays :=
  ensures_lift hok fun _ _ => h.stays

/-- A constant or a captured value, or an error if there is none of the number that was given. -/
theorem pushFound {v? : Option Value} {e : Error} (h : m.Contained)
    (hv : ∀ v, v? = some v → v.Addressable) :
    Ensures (match v? with | some v => Exec.push v | none => fail e) m (fun _ m' => m'.Contained)
      Stays := by
  cases v? with
  | some v => exact h.push (hv v rfl)
  | none => exact h.stays

theorem arithmetic (h : m.Contained) (op : Op) :
    Ensures (Exec.arithmetic op) m (fun _ m' => m'.Contained) Stays := by
  refine ensures_bind (h.pop fun right m₁ _ h₁ => ensures_bind (h₁.pop fun left m₂ _ h₂ => ?_))
  refine ensures_bind (ensures_get (ensures_bind (h₂.lift fun v hv => ?_)))
  exact ensures_bind (ensures_modify
    ((h₂.withHost _).push (Value.hereditary_addressable.arithmetic hv)))

theorem comparison (h : m.Contained) (op : Op) :
    Ensures (Exec.comparison op) m (fun _ m' => m'.Contained) Stays := by
  refine ensures_bind (h.pop fun right m₁ _ h₁ => ensures_bind (h₁.pop fun left m₂ _ h₂ => ?_))
  exact ensures_bind (h₂.lift fun v _ => h₂.push (Value.addressable_of_isSimple rfl))

/-- An instruction that makes a value out of the topmost ones. -/
theorem gather {count : Nat} {make : List Value → Stamp → Value} (h : m.Contained)
    (hmake : ∀ vs stamp, (∀ v ∈ vs, v.Addressable) → (make vs stamp).Addressable) :
    Ensures (do
      let vs ← Exec.topmost count
      Exec.drop count
      let value ← Exec.make (make vs)
      Exec.push value) m (fun _ m' => m'.Contained) Stays := by
  refine ensures_bind (h.topmost fun vs hcount hvs => ensures_bind (h.drop hcount fun m₁ h₁ => ?_))
  exact ensures_bind (ensures_make ((h₁.withHost _).push (hmake vs _ hvs)))

/-- The slot of a local is on the stack, or there is an error. -/
theorem localSlot {op : Op} {index : Nat} {ok : Nat → Machine → Prop} (h : m.Contained)
    (hok : ∀ slot < stackSize, ok slot m) : Ensures (Exec.localSlot op index) m ok Stays := by
  refine ensures_bind (ensures_get ?_)
  dsimp only
  split
  · next hslot => exact hok _ hslot
  · exact h.stays

/-- A call of a closure below `count` arguments. -/
theorem callClosure {stamp : Stamp} {r : Routine} {free : List Value} {count : Nat}
    (h : m.Contained) (hcount : count + 1 ≤ m.sp)
    (hclosure : (Value.closure stamp r free).Addressable) :
    Ensures (Exec.callClosure stamp r free count) m (fun _ m' => m'.Contained) Stays := by
  have hsp := h.sp
  have hsize := h.stack
  unfold Ensures Exec.callClosure
  by_cases harity : count ≠ r.parameters
  · rw [if_pos harity]
    exact h.stays
  rw [if_neg harity]
  by_cases hdepth : maxFrames ≤ m.depth
  · rw [if_pos hdepth]
    exact h.stays
  rw [if_neg hdepth, if_neg (by omega)]
  by_cases hroom : stackSize < m.sp - count + r.locals
  · rw [if_pos hroom]
    exact h.stays
  rw [if_neg hroom, if_neg (hsize ▸ hroom)]
  have hcleared : ∀ v ∈ clear m.stack m.sp (m.sp - count + r.locals - m.sp), v.Addressable := by
    intro v hv
    rcases mem_clear hv with hv | rfl
    · exact h.values v hv
    · exact Value.addressable_of_isSimple rfl
  have hput := h.put ((size_clear ..).trans hsize) (Nat.le_of_not_lt hroom) hcleared
  -- the callee lies below the arguments, so the base is at least one
  exact hput.enter (f := ⟨stamp, r, free, 0, m.sp - count⟩) (Nat.lt_of_not_le hdepth)
    (by constructor <;> dsimp only <;> omega) hclosure

theorem call (h : m.Contained) (count : Nat) :
    Ensures (Exec.call count) m (fun _ m' => m'.Contained) Stays := by
  refine ensures_bind (ensures_get ?_)
  by_cases hcount : m.sp < count + 1
  · rw [if_pos hcount]
    exact h.stays
  rw [if_neg hcount]
  have hlt : m.sp - (count + 1) < m.stack.size := by
    have hsp := h.sp
    rw [h.stack]
    omega
  have hcallee := h.values _ (Array.getElem_mem hlt)
  refine ensures_bind (ensures_inBounds ⟨_, Array.getElem?_eq_getElem hlt, ?_⟩)
  generalize m.stack[m.sp - (count + 1)] = callee at hcallee
  cases callee with
  | closure stamp r free => exact h.callClosure (by omega) hcallee
  | builtin function =>
    refine ensures_bind (h.topmost fun arguments _ harguments => ensures_bind ?_)
    refine ensures_bind ((h.withHost _).drop (Nat.le_of_not_lt hcount) fun m₁ h₁ => ?_)
    exact h₁.push (Value.hereditary_addressable.call function _ harguments)
  | _ => exact h.stays

/-- A return ends a frame, or the program if there is no other. -/
theorem returnWith {v : Value} (h : m.Contained) (hv : v.Addressable) :
    Ensures (Exec.returnWith v) m (fun _ m' => m'.Contained) Stays := by
  refine ensures_bind (ensures_get (ensures_bind (ensures_get ?_)))
  cases hback : m.callers.back? with
  | none =>
    have hpush : Ensures (Exec.push v) m (fun _ m₁ => m₁.Contained ∧ 1 ≤ m₁.sp) Stays :=
      ensures_push h.stack (fun hlt => ⟨h.put ?_ hlt (h.set hv), Nat.succ_pos _⟩) h.stays
    · refine ensures_bind (hpush.mono (fun _ m₁ h₁ => ?_) fun _ _ hstays => hstays)
      exact ensures_bind (h₁.1.drop h₁.2 fun m₂ h₂ => h₂.moveTo _)
    · rw [Array.size_setIfInBounds]
      exact h.stack
  | some caller =>
    obtain ⟨callers, hcallers⟩ := Array.back?_eq_some_iff.1 hback
    have hpop : m.callers.pop = callers := by
      rw [hcallers]
      exact Array.pop_push ..
    have hbase : m.frame.base ≤ stackSize := h.room _ (by rw [bases_eq]; simp)
    refine ensures_bind (ensures_modify ?_)
    rw [hpop]
    have hleave := h.leave hcallers
    split
    · exact hleave.stays
    · refine ensures_bind (ensures_modify ?_)
      exact (hleave.lower (by omega)).push hv

/-! ## Instructions -/

/-- Whatever instruction a machine executes, it keeps its shape, and it does not reach out of
bounds.  There is a global slot for every number of two bytes. -/
theorem execute {i : Instruction} (h : m.Contained) (hi : ∀ n ∈ i.operands, n < globalsSize) :
    Ensures (Exec.execute i) m (fun _ m' => m'.Contained) Stays := by
  have hsimple : ∀ {v : Value}, v.isSimple = true → v.Addressable := Value.addressable_of_isSimple
  cases i with
  | constant index =>
    exact ensures_bind (ensures_get
      (h.pushFound fun v hv => h.constants v (Array.mem_of_getElem? hv)))
  | add => exact h.arithmetic .add
  | sub => exact h.arithmetic .sub
  | mul => exact h.arithmetic .mul
  | div => exact h.arithmetic .div
  | equal => exact h.comparison .equal
  | notEqual => exact h.comparison .notEqual
  | greaterThan => exact h.comparison .greaterThan
  | pop => exact ensures_bind (h.pop fun _ m₁ _ h₁ => h₁)
  | pushTrue => exact h.push (hsimple rfl)
  | pushFalse => exact h.push (hsimple rfl)
  | pushNull => exact h.push (hsimple rfl)
  | bang => exact ensures_bind (h.pop fun _ m₁ _ h₁ => h₁.push (hsimple rfl))
  | minus =>
    refine ensures_bind (h.pop fun operand m₁ _ h₁ => ensures_bind (h₁.lift fun v hv => ?_))
    exact h₁.push (Value.hereditary_addressable.negative hv)
  | jump target => exact h.moveTo target
  | jumpNotTruthy target =>
    refine ensures_bind (h.pop fun condition m₁ _ h₁ => ?_)
    split
    · exact h₁.moveTo target
    · exact h₁
  | setGlobal index =>
    have hindex : index < globalsSize := hi index (List.mem_singleton_self _)
    refine ensures_bind (h.pop fun v m₁ hv h₁ => ensures_bind (ensures_get ?_))
    rw [if_pos (h₁.globals ▸ hindex)]
    exact ensures_modify (h₁.setGlobal hv)
  | getGlobal index =>
    have hindex : index < globalsSize := hi index (List.mem_singleton_self _)
    have hlt : index < m.globals.size := h.globals ▸ hindex
    refine ensures_bind (ensures_get (ensures_bind
      (ensures_inBounds ⟨_, Array.getElem?_eq_getElem hlt, ?_⟩)))
    exact h.push (h.slots _ (Array.getElem_mem hlt))
  | setLocal index =>
    refine ensures_bind (h.localSlot fun slot hslot => ?_)
    refine ensures_bind (h.pop fun v m₁ hv h₁ => ensures_bind (ensures_get ?_))
    rw [if_pos (h₁.stack ▸ hslot)]
    refine ensures_modify (h₁.put ?_ h₁.sp (h₁.set hv))
    rw [Array.size_setIfInBounds]
    exact h₁.stack
  | getLocal index =>
    refine ensures_bind (h.localSlot fun slot hslot => ensures_bind (ensures_get ?_))
    have hlt : slot < m.stack.size := h.stack ▸ hslot
    refine ensures_bind (ensures_inBounds ⟨_, Array.getElem?_eq_getElem hlt, ?_⟩)
    exact h.push (h.values _ (Array.getElem_mem hlt))
  | getBuiltin index =>
    simp only [Exec.execute]
    cases Builtin.all[index]? with
    | some function => exact h.push (hsimple rfl)
    | none => exact h.stays
  | getFree index =>
    refine ensures_bind (ensures_get (h.pushFound fun v hv => ?_))
    exact (Value.addressable_closure.1 h.frame).2 v (List.mem_of_getElem? hv)
  | currentClosure => exact ensures_bind (ensures_get (h.push h.frame))
  | array count => exact h.gather fun vs stamp hvs => (Value.hereditary_addressable.array _ _).2 hvs
  | hash count =>
    refine ensures_bind (h.topmost fun vs hcount hvs => ?_)
    refine ensures_bind (h.lift fun pairs hpairs => ?_)
    refine ensures_bind (h.drop hcount fun m₁ h₁ => ensures_bind (ensures_make ?_))
    exact (h₁.withHost _).push
      (Value.hereditary_addressable.entriesOf (Value.Hereditary.pairsOf hvs hpairs))
  | index =>
    refine ensures_bind (h.pop fun key m₁ _ h₁ => ?_)
    refine ensures_bind (h₁.pop fun collection m₂ hc h₂ => ?_)
    refine ensures_bind (h₂.lift fun v hv => h₂.push ?_)
    exact Value.hereditary_addressable.select hc hv
  | call count => exact h.call count
  | returnValue => exact ensures_bind (h.pop fun v m₁ hv h₁ => h₁.returnWith hv)
  | returnNull => exact h.returnWith (hsimple rfl)
  | closure index count =>
    refine ensures_bind (ensures_get ?_)
    split
    · next stamp r hget =>
      have hr := h.constants _ (Array.mem_of_getElem? hget)
      exact h.gather fun vs stamp' hvs =>
        Value.addressable_closure.2 ⟨hr r (List.mem_singleton_self r), hvs⟩
    · exact h.stays
    · exact h.stays

/-- A step keeps the shape of a machine, and it does not reach out of bounds. -/
theorem step (h : m.Contained) : Ensures Exec.step m (fun _ m' => m'.Contained) Stays := by
  refine ensures_step_anywhere h (fun _ => h.stays) fun i hfetch => ?_
  exact (h.moveTo _).execute fun n hn => Code.operand_lt_of_fetch hfetch hn

end Contained

/-! ## Runs -/

/-- The states of a machine in consecutive runs: a run makes steps, and behind an error the next run
goes on from the state that the error has left. -/
inductive Visits (m₀ : Machine) : Machine → Prop
  | start : Visits m₀ m₀
  | step {m m' : Machine} {more : Bool} (h : Visits m₀ m) (hstep : Exec.step m = .ok more m') :
      Visits m₀ m'
  | fault {m m' : Machine} {halt : Halt} (h : Visits m₀ m) (hstep : Exec.step m = .error halt m') :
      Visits m₀ m'

theorem Visits.steps (h : Visits m₀ m) (hsteps : Steps m m') : Visits m₀ m' := by
  induction hsteps with
  | refl => exact h
  | tail _ hnext ih => exact ih.step hnext

/-- A run leads from one of the states to another, and comes to its end or to an error that a step
comes to, if it is not stopped before. -/
theorem Visits.runFor (h : Visits m₀ m) (fuel : Nat) :
    Visits m₀ (m.runFor fuel).2 ∧ ∀ halt, (m.runFor fuel).1 = .error halt → halt = .outOfFuel ∨
      ∃ m₁ m₂, Visits m₀ m₁ ∧ Exec.step m₁ = .error halt m₂ := by
  cases hrun : m.runFor fuel with
  | mk result m' =>
    cases result with
    | ok u =>
      obtain ⟨m₁, hsteps, hend⟩ := runFor_ok hrun
      refine ⟨(h.steps hsteps).step hend, fun halt hhalt => ?_⟩
      cases hhalt
    | error halt =>
      obtain ⟨m₁, hsteps, ⟨rfl, rfl⟩ | hfail⟩ := runFor_error hrun
      · refine ⟨h.steps hsteps, fun halt hhalt => .inl ?_⟩
        cases hhalt
        rfl
      · refine ⟨(h.steps hsteps).fault hfail, fun halt' hhalt => .inr ?_⟩
        cases hhalt
        exact ⟨m₁, m', h.steps hsteps, hfail⟩

/-- Consecutive runs keep what a machine starts with. -/
theorem Visits.contained (h : Visits m₀ m) (h₀ : m₀.Contained) : m.Contained := by
  induction h with
  | start => exact h₀
  | step _ hstep ih => exact ih.step.of_ok hstep
  | fault _ hstep ih => exact (ih.step.of_error hstep).2

/-- A machine that is about to run any code on any global slots. -/
theorem contained_load {bytecode : Bytecode} {globals : Array Value} (host : Host)
    (hconstants : ∀ v ∈ bytecode.constants, v.Addressable)
    (hglobals : ∀ v ∈ globals, v.Addressable) : (load bytecode globals host).Contained where
  stack := Array.size_replicate
  sp := Nat.zero_le _
  globals := size_fitGlobals _
  frames := ⟨Nat.le_refl 1, (by decide : 1 ≤ maxFrames)⟩
  room base hbase := by
    rw [bases_eq] at hbase
    exact List.mem_singleton.1 hbase ▸ Nat.zero_le _
  raised := by
    rw [bases_eq]
    exact nofun
  constants := hconstants
  values v hv := by
    rw [(Array.mem_replicate.1 hv).2]
    exact Value.addressable_of_isSimple rfl
  slots v hv := by
    rcases mem_fitGlobals hv with hv | rfl
    · exact hglobals v hv
    · exact Value.addressable_of_isSimple rfl
  closures f hf := by
    rcases mem_frames.1 hf with hf | rfl
    · exact absurd hf (Array.not_mem_empty f)
    · refine Value.addressable_closure.2 ⟨?_, nofun⟩
      show stackSize + 0 < wordSize
      decide

/-- Any code runs safely, on any constants and any global slots, however often it is run and
whatever errors it has come to.  At every step the stack, the global slots and the frames are within
their limits; the step does not reach out of bounds, and so no run ends that way; an instruction
whose bytes are all in the code can be read; and what a call adds up to find the end of its locals
is a machine word. -/
theorem Visits.confined {bytecode : Bytecode} {globals : Array Value} {host : Host}
    (h : Visits (load bytecode globals host) m)
    (hconstants : ∀ v ∈ bytecode.constants, v.Addressable)
    (hglobals : ∀ v ∈ globals, v.Addressable) :
    m.Confined ∧
      (∀ m', Exec.step m ≠ .error .outOfBounds m') ∧
      (∀ fuel, Visits (load bytecode globals host) (m.runFor fuel).2 ∧
        (m.runFor fuel).1 ≠ .error .outOfBounds) ∧
      (∀ byte op, m.frame.routine.code[m.frame.ip]? = some byte → Op.ofByte? byte = some op →
        m.frame.ip + 1 + op.width ≤ m.frame.routine.code.size →
        ∃ i, m.About i ∧ i.op = op) ∧
      ∀ count stamp r free, m.stack[m.sp - (count + 1)]? = some (.closure stamp r free) →
        m.sp - count + r.locals < wordSize := by
  have hvisited : ∀ {m}, Visits (load bytecode globals host) m → m.Contained :=
    fun hm => hm.contained (contained_load host hconstants hglobals)
  have hstep : ∀ {m}, Visits (load bytecode globals host) m →
      ∀ m', Exec.step m ≠ .error .outOfBounds m' :=
    fun hm m' hfail => ((hvisited hm).step.of_error hfail).1 rfl
  have hm := hvisited h
  refine ⟨hm.toConfined, hstep h, fun fuel => ?_, fun byte op => Code.fetch_of_room, ?_⟩
  · obtain ⟨hvisits, herror⟩ := h.runFor fuel
    refine ⟨hvisits, fun hfail => ?_⟩
    rcases herror _ hfail with hfuel | ⟨m₁, m₂, hvisited₁, hfail₁⟩
    · cases hfuel
    · exact hstep hvisited₁ m₂ hfail₁
  · intro count stamp r free hget
    have haddressable := Value.addressable_closure.1 (hm.values _ (Array.mem_of_getElem? hget))
    have hlocals : stackSize + r.locals < wordSize := haddressable.1
    have hsp := hm.sp
    omega

/-- A call of a closure that takes itself off the stack and more. -/
def greedyCallee : Bytecode where
  code := (Instruction.constant 0).encode.toArray ++ (Instruction.call 0).encode
  constants := #[.closure (.constant 0)
    { code :=
        ([.pop, .pop, .returnValue] : List Instruction).flatMap Instruction.encode |>.toArray }
    []]

/-- The call comes to an error, the return behind it comes to another, and a third run finds the end
of the code in the middle of the call. -/
theorem greedyCallee_confined :
    let m₀ := load greedyCallee #[] {}
    let m₁ := (m₀.runFor 9).2
    let m₂ := (m₁.runFor 9).2
    (∀ v ∈ greedyCallee.constants, v.Addressable) ∧ (∀ v ∈ (#[] : Array Value), v.Addressable) ∧
      (m₀.runFor 9).1 = .error (.error .stackUnderflow) ∧
      (m₁.runFor 9).1 = .error (.error .stackUnderflow) ∧ (m₂.runFor 9).1 = .ok () ∧
      Visits m₀ m₂ ∧ m₂.Confined ∧ m₂.bases = [0, 1] := by
  have hconstants : ∀ v ∈ greedyCallee.constants, v.Addressable := by decide
  have hglobals : ∀ v ∈ (#[] : Array Value), v.Addressable := nofun
  have hstart : Visits (load greedyCallee #[] {}) (load greedyCallee #[] {}) := .start
  have hfirst := (hstart.confined hconstants hglobals).2.2.1 9
  have hsecond := (hfirst.1.confined hconstants hglobals).2.2.1 9
  refine ⟨hconstants, hglobals, ?_, ?_, ?_, hsecond.1,
    (hsecond.1.confined hconstants hglobals).1, ?_⟩
  all_goals decide +kernel

end Machine

end Scriptlet
