import Scriptlet.Proofs.Halting

/-!
# Contents of the stack

The slots of the stack that are in use, as a list.  `Machine.Holding` describes the state after a
part of an instruction by that list; each part has a rule that says what becomes of it, so that the
values on the stack are known exactly while an instruction is followed.

* `Code.Shows` says of bytes that instructions stand in them from an offset on.
* `Machine.Sound.exit_unique`: a machine comes to a given position of a given call only once.
-/

namespace Scriptlet

namespace Code

/-- From an offset on, these instructions stand in a stream. -/
def Shows (code : Code) : (offset : Nat) → List Instruction → Prop
  | _, [] => True
  | offset, i :: is => code.fetch offset = .instruction i ∧ code.Shows (offset + i.size) is

theorem shows_append {code : Code} {offset : Nat} {is js : List Instruction} :
    code.Shows offset (is ++ js) ↔ code.Shows offset is ∧ code.Shows (offset + extent is) js := by
  induction is generalizing offset with
  | nil => simp [Shows]
  | cons i is ih =>
    rw [List.cons_append, Shows, Shows, ih, extent_cons, Nat.add_assoc, and_assoc]

theorem DecodesTo.shows {code : Code} {offset : Nat} {is : List Instruction}
    (h : code.DecodesTo offset is) : code.Shows offset is := by
  induction is generalizing offset with
  | nil => trivial
  | cons i is ih => exact ⟨h.1, ih h.2⟩

end Code

open Code

namespace Machine

open Exec

/-! ## Slots in use -/

/-- The slots of the stack that are in use, lowest first. -/
def slots (m : Machine) : List Value := m.stack.toList.take m.sp

variable {m m₁ m' : Machine} {v : Value} {vs xs : List Value} {α : Type}

theorem length_slots (h : m.sp ≤ m.stack.size) : m.slots.length = m.sp := by
  rw [slots, List.length_take, Array.length_toList]
  omega

theorem getElem?_slots {i : Nat} (h : i < m.sp) : m.slots[i]? = m.stack[i]? := by
  rw [slots, List.getElem?_take, if_pos h, Array.getElem?_toList]

/-- A slot in use is a slot of the stack. -/
theorem getElem?_stack_of_slots {i : Nat} (h : m.slots[i]? = some v) : m.stack[i]? = some v := by
  have hlt : i < m.sp := by
    have hlength := (List.getElem?_eq_some_iff.1 h).1
    rw [slots, List.length_take] at hlength
    omega
  rw [← getElem?_slots hlt]
  exact h

/-- The state after a part of an instruction: `xs` is what the stack holds. -/
structure Holding (m : Machine) (xs : List Value) (m₁ : Machine) : Prop where
  size : m₁.stack.size = stackSize
  sp : m₁.sp ≤ stackSize
  slots : m₁.slots = xs
  frame : m₁.frame = m.frame
  callers : m₁.callers = m.callers
  globals : m₁.globals = m.globals
  made : m.host.made ≤ m₁.host.made

variable {ok : α → Machine → Prop} {bad : Halt → Machine → Prop}

namespace Holding

theorem sp_eq (h : Holding m xs m₁) : m₁.sp = xs.length := by
  rw [← length_slots (h.size ▸ h.sp), h.slots]

/-- The lower part of what the stack holds. -/
theorem take_eq (h : Holding m (xs ++ vs) m₁) : m₁.stack.toList.take xs.length = xs := by
  have hsp := h.sp_eq
  rw [List.length_append] at hsp
  have hslots : m₁.stack.toList.take m₁.sp = xs ++ vs := h.slots
  have htake : (m₁.stack.toList.take m₁.sp).take xs.length = (xs ++ vs).take xs.length := by
    rw [hslots]
  rw [List.take_take, Nat.min_eq_left (by omega), List.take_left' rfl] at htake
  exact htake

theorem withHost (h : Holding m xs m₁) {host : Host} (hmade : m₁.host.made ≤ host.made) :
    Holding m xs { m₁ with host := host } :=
  { h with made := Nat.le_trans h.made hmade }

theorem push {ok : Unit → Machine → Prop} (h : Holding m xs m₁)
    (hfull : ∀ m₂, bad (.error .stackOverflow) m₂)
    (hok : ∀ m₂, Holding m (xs ++ [v]) m₂ → m₂.host = m₁.host → m₂.constants = m₁.constants →
      ok () m₂) : Ensures (Exec.push v) m₁ ok bad := by
  refine ensures_push h.size (fun hlt => hok _ ?_ rfl rfl) (hfull _)
  refine { h with size := ?size, sp := hlt, slots := ?slots }
  case size =>
    rw [Array.size_setIfInBounds]
    exact h.size
  case slots =>
    rw [← h.slots]
    show (m₁.stack.setIfInBounds m₁.sp v).toList.take (m₁.sp + 1) =
      m₁.stack.toList.take m₁.sp ++ [v]
    have hlt' : m₁.sp < m₁.stack.toList.length := by
      rw [Array.length_toList, h.size]
      exact hlt
    rw [Array.toList_setIfInBounds, List.take_add_one, List.take_set_of_le (Nat.le_refl _),
      List.getElem?_set_self hlt', Option.toList_some]

theorem pop {ok : Value → Machine → Prop} (h : Holding m (xs ++ [v]) m₁)
    (hok : ∀ m₂, Holding m xs m₂ → m₂.host = m₁.host → m₂.stack[m₂.sp]? = some v → ok v m₂) :
    Ensures Exec.pop m₁ ok bad := by
  have hsp := h.sp_eq
  rw [List.length_append, List.length_singleton] at hsp
  have hle := h.sp
  have hsize := h.size
  refine ensures_pop (by omega) (by omega) fun w hw => ?_
  have htop : m₁.slots[xs.length]? = some v := by
    rw [h.slots]
    simp
  have hv := getElem?_stack_of_slots htop
  have hpred : m₁.sp - 1 = xs.length := by omega
  rw [hpred, hv] at hw
  cases hw
  refine hok _ { h with sp := ?sp, slots := ?slots } rfl ?value
  case sp =>
    show m₁.sp - 1 ≤ stackSize
    omega
  case slots =>
    show m₁.stack.toList.take (m₁.sp - 1) = xs
    rw [hpred]
    exact h.take_eq
  case value =>
    show m₁.stack[m₁.sp - 1]? = some v
    rw [hpred]
    exact hv

theorem topmost {ok : List Value → Machine → Prop} {count : Nat} (h : Holding m (xs ++ vs) m₁)
    (hcount : vs.length = count) (hok : ok vs m₁) : Ensures (Exec.topmost count) m₁ ok bad := by
  have hsp := h.sp_eq
  rw [List.length_append] at hsp
  have hle := h.sp
  have hsize := h.size
  refine ensures_topmost (by omega) (by omega) ?_
  have hvs : (m₁.stack.extract (m₁.sp - count) m₁.sp).toList = vs := by
    rw [Array.toList_extract, List.extract_eq_take_drop, ← List.drop_take]
    have hslots : m₁.stack.toList.take m₁.sp = xs ++ vs := h.slots
    rw [hslots, show m₁.sp - count = xs.length by omega, List.drop_left' rfl]
  rw [hvs]
  exact hok

theorem drop {ok : Unit → Machine → Prop} {count : Nat} (h : Holding m (xs ++ vs) m₁)
    (hcount : vs.length = count) (hok : ∀ m₂, Holding m xs m₂ → m₂.host = m₁.host → ok () m₂) :
    Ensures (Exec.drop count) m₁ ok bad := by
  have hsp := h.sp_eq
  rw [List.length_append] at hsp
  have hle := h.sp
  refine ensures_drop (by omega) (hok _ { h with sp := ?sp, slots := ?slots } rfl)
  case sp =>
    show m₁.sp - count ≤ stackSize
    omega
  case slots =>
    show m₁.stack.toList.take (m₁.sp - count) = xs
    rw [show m₁.sp - count = xs.length by omega]
    exact h.take_eq

theorem setStack {slot : Nat} (h : Holding m xs m₁) :
    Holding m (xs.set slot v) { m₁ with stack := m₁.stack.setIfInBounds slot v } := by
  refine { h with size := ?size, slots := ?slots }
  case size =>
    rw [Array.size_setIfInBounds]
    exact h.size
  case slots =>
    show (m₁.stack.setIfInBounds slot v).toList.take m₁.sp = xs.set slot v
    rw [Array.toList_setIfInBounds, ← h.slots]
    exact List.take_set

/-- An instruction that makes a value out of the topmost ones. -/
theorem gather {count : Nat} {ok : Unit → Machine → Prop} (make : List Value → Stamp → Value)
    (h : Holding m (xs ++ vs) m₁) (hcount : vs.length = count)
    (hfull : ∀ m₂, bad (.error .stackOverflow) m₂)
    (hok : ∀ m₂, Holding m (xs ++ [make vs m₁.host.stamp]) m₂ → m₂.host = m₁.host.used →
      ok () m₂) :
    Ensures (do
      let vs ← Exec.topmost count
      Exec.drop count
      let value ← Exec.make (make vs)
      Exec.push value) m₁ ok bad := by
  refine ensures_bind (h.topmost hcount (ensures_bind (h.drop hcount fun m₂ h₂ hhost => ?_)))
  refine ensures_bind (ensures_make ((h₂.withHost (Nat.le_succ _)).push hfull ?_))
  intro m₃ h₃ hhost₃ _
  rw [hhost] at h₃ hhost₃
  exact hok m₃ h₃ hhost₃

end Holding

/-! ## Calls and returns -/

/-- Slots that have been cleared hold `null`. -/
theorem take_clear (stack : Array Value) (start count : Nat) (h : start + count ≤ stack.size) :
    (clear stack start count).toList.take (start + count) =
      stack.toList.take start ++ List.replicate count .null := by
  induction count generalizing stack start with
  | zero => simp [clear]
  | succ count ih =>
    have hlt : start < stack.toList.length := by
      rw [Array.length_toList]
      omega
    unfold clear
    rw [show start + (count + 1) = start + 1 + count by omega,
      ih _ _ (by rw [Array.size_setIfInBounds]; omega), Array.toList_setIfInBounds,
      List.take_add_one, List.take_set_of_le (Nat.le_refl _), List.getElem?_set_self hlt,
      Option.toList_some, List.append_assoc, List.singleton_append, ← List.replicate_succ]

/-- The state in which the body of a function starts: the locals stand above the function that was
called. -/
structure Entered (m : Machine) (stamp : Stamp) (r : Routine) (free xs vs : List Value)
    (m' : Machine) : Prop where
  slots : m'.slots = xs ++ vs ++ List.replicate (r.locals - vs.length) .null
  frame : m'.frame = ⟨stamp, r, free, 0, xs.length⟩
  callers : m'.callers = m.callers.push m.frame
  globals : m'.globals = m.globals
  host : m'.host = m.host

/-- Calling a closure. -/
theorem Holding.callClosure {stamp : Stamp} {r : Routine} {free : List Value}
    {ok : Unit → Machine → Prop} (h : Holding m (xs ++ vs) m₁) (hlocals : r.parameters ≤ r.locals)
    (hfull : ∀ m₂, bad (.error .stackOverflow) m₂) (hdeep : ∀ m₂, bad (.error .frameOverflow) m₂)
    (hcount : vs.length ≠ r.parameters →
      ∀ m₂, bad (.error (.wrongArgumentCount r.parameters vs.length)) m₂)
    (hok : ∀ m₂, vs.length = r.parameters → m₁.depth < maxFrames →
      Entered m₁ stamp r free xs vs m₂ → ok () m₂) :
    Ensures (Exec.callClosure stamp r free vs.length) m₁ ok bad := by
  have hsp := h.sp_eq
  rw [List.length_append] at hsp
  have hsize := h.size
  unfold Ensures Exec.callClosure
  by_cases hne : vs.length ≠ r.parameters
  · rw [if_pos hne]
    exact hcount hne _
  rw [if_neg hne]
  by_cases hdepth : maxFrames ≤ m₁.depth
  · rw [if_pos hdepth]
    exact hdeep _
  rw [if_neg hdepth, if_neg (by omega)]
  dsimp only
  by_cases hroom : stackSize < m₁.sp - vs.length + r.locals
  · rw [if_pos hroom]
    exact hfull _
  rw [if_neg hroom, if_neg (by omega)]
  have hbase : m₁.sp - vs.length = xs.length := by omega
  have heq : vs.length = r.parameters := by omega
  refine hok _ heq (by omega) ⟨?_, by rw [hbase], rfl, rfl, rfl⟩
  show (clear m₁.stack m₁.sp (m₁.sp - vs.length + r.locals - m₁.sp)).toList.take
    (m₁.sp - vs.length + r.locals) = _
  have hcleared := take_clear m₁.stack m₁.sp (r.locals - vs.length) (by omega)
  have hslots : m₁.stack.toList.take m₁.sp = xs ++ vs := h.slots
  rw [hslots] at hcleared
  rw [show m₁.sp - vs.length + r.locals - m₁.sp = r.locals - vs.length by omega,
    show m₁.sp - vs.length + r.locals = m₁.sp + (r.locals - vs.length) by omega]
  exact hcleared

/-- The state after a call has come back with a value. -/
structure Returned (m : Machine) (caller : Frame) (xs : List Value) (m' : Machine) : Prop where
  slots : m'.slots = xs
  frame : m'.frame = caller
  callers : m'.callers = m.callers.pop
  globals : m'.globals = m.globals
  host : m'.host = m.host

/-- Returning from a function. -/
theorem Holding.returnWith {caller : Frame} {ok : Unit → Machine → Prop} {ys : List Value}
    (h : Holding m (xs ++ ys) m₁) (hcaller : m₁.callers.back? = some caller)
    (hbase : m₁.frame.base = xs.length + 1) (hfull : ∀ m₂, bad (.error .stackOverflow) m₂)
    (hok : ∀ m₂, Returned m₁ caller (xs ++ [v]) m₂ → ok () m₂) :
    Ensures (Exec.returnWith v) m₁ ok bad := by
  refine ensures_bind (ensures_get (ensures_bind (ensures_get ?_)))
  rw [hcaller]
  dsimp only
  refine ensures_bind (ensures_modify ?_)
  rw [if_neg (by omega)]
  refine ensures_bind (ensures_modify ?_)
  have hsp := h.sp_eq
  have hle := h.sp
  rw [List.length_append] at hsp
  have hlow : Holding { m₁ with
      frame := caller, callers := m₁.callers.pop, sp := m₁.frame.base - 1 } xs
      { m₁ with frame := caller, callers := m₁.callers.pop, sp := m₁.frame.base - 1 } := by
    refine
      { size := h.size
        sp := ?sp
        slots := ?slots
        frame := rfl
        callers := rfl
        globals := rfl
        made := Nat.le_refl _ }
    case sp =>
      show m₁.frame.base - 1 ≤ stackSize
      omega
    case slots =>
      show m₁.stack.toList.take (m₁.frame.base - 1) = xs
      rw [hbase, Nat.add_sub_cancel]
      exact h.take_eq
  exact hlow.push hfull fun m₂ h₂ hhost _ =>
    hok m₂ ⟨h₂.slots, h₂.frame, h₂.callers, h₂.globals, hhost⟩

/-- A return of the program itself. -/
theorem Holding.returnProgram {ok : Unit → Machine → Prop} (h : Holding m xs m₁)
    (hcallers : m₁.callers.back? = none) (hfull : ∀ m₂, bad (.error .stackOverflow) m₂)
    (hok : ∀ m₂, m₂.frame = { m₁.frame with ip := m₁.frame.routine.code.size } →
      m₂.lastPopped = v → ok () m₂) : Ensures (Exec.returnWith v) m₁ ok bad := by
  refine ensures_bind (ensures_get (ensures_bind (ensures_get ?_)))
  rw [hcallers]
  dsimp only
  refine ensures_bind (h.push hfull fun m₂ h₂ _ _ => ?_)
  have hsp := h₂.sp_eq
  rw [List.length_append, List.length_singleton] at hsp
  refine ensures_bind (ensures_drop (by omega) (hok _ ?_ ?_))
  · show ({ m₂.frame with ip := m₁.frame.routine.code.size } : Frame) = _
    rw [h₂.frame, h.frame]
  · have htop : m₂.slots[xs.length]? = some v := by
      rw [h₂.slots]
      simp
    show (m₂.stack[m₂.sp - 1]?).getD .null = v
    rw [show m₂.sp - 1 = xs.length by omega, getElem?_stack_of_slots htop]
    rfl

/-! ## Steps -/

/-- Steps lead to one state, or one of two states leads to the other. -/
theorem steps_total (h : Steps m m₁) (h' : Steps m m') : Steps m₁ m' ∨ Steps m' m₁ := by
  induction h with
  | refl => exact .inl h'
  | @tail m₂ m₁ _ hnext ih =>
    rcases ih with hsteps | hsteps
    · cases hsteps using Relation.ReflTransGen.head_induction_on with
      | refl => exact .inr (.single hnext)
      | head hfirst hrest =>
        cases hnext.symm.trans hfirst
        exact .inl hrest
    · exact .inr (hsteps.tail hnext)

/-- A machine comes to a position of a call only once. -/
theorem Sound.exit_unique {g : Nat} (h : m.Sound g) (h₁ : Steps m m₁) (h' : Steps m m')
    (hframe : m₁.frame = m'.frame) (hcallers : m₁.callers = m'.callers) : m₁ = m' := by
  rcases steps_total h₁ h' with hsteps | hsteps
  · rcases Relation.reflTransGen_iff_eq_or_transGen.1 hsteps with heq | hmore
    · exact heq.symm
    · exact ((h.steps h₁).1.not_again hmore hframe.symm hcallers.symm).elim
  · rcases Relation.reflTransGen_iff_eq_or_transGen.1 hsteps with heq | hmore
    · exact heq
    · exact ((h.steps h').1.not_again hmore hframe hcallers).elim

end Machine

end Scriptlet
