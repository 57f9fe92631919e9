import Scriptlet.Proofs.Execution
import Scriptlet.Proofs.SoundValues

/-!
# What a step can do

A step in sound code, said once for everything that is to be known about running machines.

* `Machine.execute_plain`: an instruction that does not lead elsewhere stays in its frame, takes as
  many values as it pops and leaves as many as it pushes.
* `Machine.ensures_call` and `Machine.ensures_returnWith`: how frames come and go.
* `Machine.execute_stepped`: the instruction behind `pre` leads to one of five kinds of states,
  which `Machine.Moves` lists, or it faults; a fault is never one that only malformed code can have,
  and it leaves sound values behind.

The proofs go along the definitions of the instructions.  `Machine.Leaves` is the state after a part
of an instruction that stays in its frame; each part has a rule that leads from one such state to
the next.
-/

namespace Scriptlet

open Code

/-- Whether an instruction may lead elsewhere than to the next one. -/
def Instruction.leads : Instruction → Bool
  | jump _ | jumpNotTruthy _ | call _ | returnValue | returnNull => true
  | _ => false

namespace Machine

open Exec

/-- The stack and the global slots have their size and hold sound values. -/
structure Values (globals : Nat) (m : Machine) : Prop where
  stackSize : m.stack.size = stackSize
  sp : m.sp ≤ Machine.stackSize
  stack : ∀ v ∈ m.stack, v.Sound m.constants globals
  globalsSize : m.globals.size = globalsSize
  globals : ∀ v ∈ m.globals, v.Sound m.constants globals

/-- How an instruction of compiled code may fail. -/
def Halt.Allowed (i : Instruction) : Halt → Prop
  | .error e => e.isMalformed = false ∧ ∀ kind, e = .notAFunction kind → ∃ n, i = .call n
  | .outOfBounds | .outOfFuel => False

/-- The state after an instruction of compiled code has failed. -/
structure Faults (globals : Nat) (i : Instruction) (constants : Array Value) (halt : Halt)
    (m' : Machine) : Prop where
  allowed : halt.Allowed i
  values : m'.Values globals
  constants : m'.constants = constants

/-- The state after a part of an instruction that stays in the frame: `sp` slots are in use. -/
structure Leaves (globals : Nat) (m : Machine) (sp : Nat) (m' : Machine) : Prop where
  values : m'.Values globals
  constants : m'.constants = m.constants
  frame : m'.frame = m.frame
  callers : m'.callers = m.callers
  sp : m'.sp = sp

variable {g n : Nat} {i : Instruction} {m m₁ : Machine} {α : Type} {ok : α → Machine → Prop}

theorem Error.IsOperand.allowed {e : Error} (h : e.IsOperand) : (Halt.error e).Allowed i :=
  ⟨h.1, fun kind hkind => absurd hkind (h.2 kind)⟩

theorem Values.leaves (h : m.Values g) : Leaves g m m.sp m := ⟨h, rfl, rfl, rfl, rfl⟩

namespace Leaves

theorem faults (h : Leaves g m n m₁) {halt : Halt} (hhalt : halt.Allowed i) :
    Faults g i m.constants halt m₁ := ⟨hhalt, h.values, h.constants⟩

theorem push {v : Value} {ok : Unit → Machine → Prop} (h : Leaves g m n m₁)
    (hv : v.Sound m.constants g) (hok : ∀ m₂, Leaves g m (n + 1) m₂ → ok () m₂) :
    Ensures (Exec.push v) m₁ ok (Faults g i m.constants) := by
  refine ensures_push h.values.stackSize (fun hlt => hok _ ?_) (h.faults ⟨rfl, nofun⟩)
  refine
    { h with
      values := { h.values with stackSize := ?_, sp := hlt, stack := fun w hw => ?_ }
      sp := congrArg (· + 1) h.sp }
  · rw [Array.size_setIfInBounds]
    exact h.values.stackSize
  · rcases Array.mem_or_eq_of_mem_setIfInBounds hw with hw | rfl
    · exact h.values.stack w hw
    · exact h.constants ▸ hv

theorem pop {ok : Value → Machine → Prop} (h : Leaves g m (n + 1) m₁)
    (hok : ∀ v m₂, v.Sound m.constants g → Leaves g m n m₂ → ok v m₂) :
    Ensures Exec.pop m₁ ok (Faults g i m.constants) := by
  have hsp := h.sp
  have hle := h.values.sp
  have hsize := h.values.stackSize
  refine ensures_pop (by omega) (by omega) fun v hv => hok v _ ?_ ?_
  · exact h.constants ▸ h.values.stack v (Array.mem_of_getElem? hv)
  · refine { h with values := { h.values with sp := ?_ }, sp := ?_ }
    · show m₁.sp - 1 ≤ _
      omega
    · show m₁.sp - 1 = n
      omega

theorem topmost {count : Nat} {ok : List Value → Machine → Prop} (h : Leaves g m (n + count) m₁)
    (hok : ∀ vs, vs.length = count → (∀ v ∈ vs, v.Sound m.constants g) → ok vs m₁) :
    Ensures (Exec.topmost count) m₁ ok (Faults g i m.constants) := by
  have hsp := h.sp
  have hle := h.values.sp
  have hsize := h.values.stackSize
  refine ensures_topmost (by omega) (by omega) (hok _ ?_ fun v hv => ?_)
  · rw [Array.length_toList, Array.size_extract]
    omega
  · obtain ⟨k, hk, rfl⟩ := Array.mem_extract_iff_getElem.1 (Array.mem_toList_iff.1 hv)
    exact h.constants ▸ h.values.stack _ (Array.getElem_mem _)

theorem drop {count : Nat} {ok : Unit → Machine → Prop} (h : Leaves g m (n + count) m₁)
    (hok : ∀ m₂, Leaves g m n m₂ → ok () m₂) :
    Ensures (Exec.drop count) m₁ ok (Faults g i m.constants) := by
  have hsp := h.sp
  have hle := h.values.sp
  refine ensures_drop (by omega) (hok _ ?_)
  refine { h with values := { h.values with sp := ?_ }, sp := ?_ }
  · show m₁.sp - count ≤ _
    omega
  · show m₁.sp - count = n
    omega

theorem withHost (h : Leaves g m n m₁) (host : Host) : Leaves g m n { m₁ with host := host } :=
  { h with values := { h.values with } }

theorem lift {x : Except Error Value} {ok : Value → Machine → Prop} (h : Leaves g m n m₁)
    (hx : SoundResult m.constants g x) (hok : ∀ v, v.Sound m.constants g → ok v m₁) :
    Ensures (Exec.lift x) m₁ ok (Faults g i m.constants) := by
  refine ensures_lift (fun v hv => ?_) (fun e he => ?_)
  · rw [hv] at hx
    exact hok v hx
  · rw [he] at hx
    exact h.faults hx.allowed

end Leaves

/-! ## Instructions that stay in the frame -/

theorem Values.leaves_of_sp (h : m.Values g) (hsp : m.sp = n) : Leaves g m n m :=
  ⟨h, rfl, rfl, rfl, hsp⟩

theorem Values.arithmetic (h : m.Values g) (hsp : m.sp = n + 2) (op : Op) :
    Ensures (Exec.arithmetic op) m (fun _ m' => Leaves g m (n + 1) m')
      (Faults g i m.constants) := by
  refine ensures_bind ((h.leaves_of_sp hsp).pop fun right m₁ _ h₁ => ?_)
  refine ensures_bind (h₁.pop fun left m₂ _ h₂ => ensures_bind (ensures_get ?_))
  refine ensures_bind (h₂.lift (sound_arithmetic op left right _) fun v hv => ?_)
  exact ensures_bind (ensures_modify ((h₂.withHost _).push hv fun m₃ h₃ => h₃))

theorem Values.comparison (h : m.Values g) (hsp : m.sp = n + 2) (op : Op) :
    Ensures (Exec.comparison op) m (fun _ m' => Leaves g m (n + 1) m')
      (Faults g i m.constants) := by
  refine ensures_bind ((h.leaves_of_sp hsp).pop fun right m₁ _ h₁ => ?_)
  refine ensures_bind (h₁.pop fun left m₂ _ h₂ => ensures_bind (ensures_lift (fun v _ => ?_) ?_))
  · exact h₂.push (.boolean v) fun m₃ h₃ => h₃
  · exact fun e he => h₂.faults (isOperand_of_comparison he).allowed

theorem Values.setStack {slot : Nat} {v : Value} (h : Leaves g m n m₁)
    (hv : v.Sound m.constants g) :
    Leaves g m n { m₁ with stack := m₁.stack.setIfInBounds slot v } := by
  refine { h with values := { h.values with stackSize := ?_, stack := fun w hw => ?_ } }
  · rw [Array.size_setIfInBounds]
    exact h.values.stackSize
  · rcases Array.mem_or_eq_of_mem_setIfInBounds hw with hw | rfl
    · exact h.values.stack w hw
    · exact h.constants ▸ hv

theorem Values.setGlobals {slot : Nat} {v : Value} (h : Leaves g m n m₁)
    (hv : v.Sound m.constants g) :
    Leaves g m n { m₁ with globals := m₁.globals.setIfInBounds slot v } := by
  refine { h with values := { h.values with globalsSize := ?_, globals := fun w hw => ?_ } }
  · rw [Array.size_setIfInBounds]
    exact h.values.globalsSize
  · rcases Array.mem_or_eq_of_mem_setIfInBounds hw with hw | rfl
    · exact h.values.globals w hw
    · exact h.constants ▸ hv

/-- The frame has a slot for a local. -/
theorem ensures_localSlot {op : Op} {index : Nat} {ok : Nat → Machine → Prop}
    {bad : Halt → Machine → Prop} (hslot : m.frame.base + index < stackSize)
    (hok : ok (m.frame.base + index) m) : Ensures (localSlot op index) m ok bad := by
  refine ensures_bind (ensures_get ?_)
  dsimp only
  rw [if_pos hslot]
  exact hok

/-- An instruction that makes a value out of the topmost ones. -/
theorem Values.gather {count : Nat} {make : List Value → Stamp → Value} (h : m.Values g)
    (hsp : m.sp = n + count)
    (hmake : ∀ vs stamp, vs.length = count → (∀ v ∈ vs, v.Sound m.constants g) →
      (make vs stamp).Sound m.constants g) :
    Ensures (do
      let vs ← Exec.topmost count
      Exec.drop count
      let value ← Exec.make (make vs)
      Exec.push value) m (fun _ m' => Leaves g m (n + 1) m') (Faults g i m.constants) := by
  have h₀ := h.leaves_of_sp hsp
  refine ensures_bind (h₀.topmost fun vs hlength hvs => ?_)
  refine ensures_bind (h₀.drop fun m₁ h₁ => ensures_bind (ensures_make ?_))
  exact (h₁.withHost _).push (hmake vs _ hlength hvs) fun m₂ h₂ => h₂

end Machine

/-- The code of a frame is sound, and the frame has captured all that its code reads.  The frame of
a function can be closed over again. -/
structure Frame.Sound (constants : Array Value) (g : Nat) (enclosed : Bool) (f : Frame)
    (is : List Instruction) : Prop where
  code : f.routine.code = assemble is
  body : ∃ free, free ≤ 255 ∧ Code.Sound ⟨constants, g, enclosed, f.routine.locals, free⟩ is
  routine : enclosed = true → f.routine.Sound constants g
  locals : f.routine.locals ≤ 255
  reads : f.routine.ReadsBelow f.free.length
  free : ∀ v ∈ f.free, v.Sound constants g

theorem Frame.Sound.withIp {constants : Array Value} {g : Nat} {enclosed : Bool} {f : Frame}
    {is : List Instruction} (h : f.Sound constants g enclosed is) (ip : Nat) :
    Frame.Sound constants g enclosed { f with ip := ip } is := { h with }

/-- A frame stands behind the instructions `pre`, with the stack in use up to `top`. -/
structure Frame.At (f : Frame) (is pre : List Instruction) (top : Nat) : Prop where
  point : pre <+: is
  ip : f.ip = extent pre
  top : top = f.base + f.routine.locals + Code.depth pre

namespace Machine

open Exec

variable {g n : Nat} {i : Instruction} {m : Machine}

/-- The parts of the state that hold still while a frame runs. -/
structure Settled (g : Nat) (enclosed : Bool) (m : Machine) (is : List Instruction) : Prop where
  constants : ∀ v ∈ m.constants, v.SoundConstant m.constants g
  pool : m.constants.size ≤ 65536
  slots : g ≤ globalsSize
  frame : m.frame.Sound m.constants g enclosed is
  room : m.frame.base + m.frame.routine.locals ≤ stackSize

/-- An instruction that does not lead elsewhere takes what it pops and leaves what it pushes. -/
theorem execute_plain {enclosed : Bool} {is : List Instruction} (h : m.Values g)
    (hm : m.Settled g enclosed is) (hi : i ∈ is) (hplain : i.leads = false)
    (hsp : m.sp = n + i.pops) :
    Ensures (execute i) m (fun _ m' => Leaves g m (n + i.pushes) m') (Faults g i m.constants) := by
  have h₀ := h.leaves_of_sp hsp
  obtain ⟨free, hfree, hcode⟩ := hm.frame.body
  have hvalid := hcode.valid i hi
  cases i with
  | constant index =>
    obtain ⟨v, hv, hkind⟩ := hvalid
    refine ensures_bind (ensures_get ?_)
    have hget : m.constants[index]? = some v := hv
    simp only [hget]
    have hsound := (hm.constants v (Array.mem_of_getElem? hget)).sound hkind
    exact h₀.push hsound fun m₁ h₁ => h₁
  | add => exact h.arithmetic hsp .add
  | sub => exact h.arithmetic hsp .sub
  | mul => exact h.arithmetic hsp .mul
  | div => exact h.arithmetic hsp .div
  | equal => exact h.comparison hsp .equal
  | notEqual => exact h.comparison hsp .notEqual
  | greaterThan => exact h.comparison hsp .greaterThan
  | pop => exact ensures_bind (h₀.pop fun v m₁ _ h₁ => h₁)
  | pushTrue => exact h₀.push (.boolean true) fun m₁ h₁ => h₁
  | pushFalse => exact h₀.push (.boolean false) fun m₁ h₁ => h₁
  | pushNull => exact h₀.push .null fun m₁ h₁ => h₁
  | bang =>
    refine ensures_bind (h₀.pop fun operand m₁ _ h₁ => ?_)
    exact h₁.push (.boolean _) fun m₂ h₂ => h₂
  | minus =>
    refine ensures_bind (h₀.pop fun operand m₁ _ h₁ => ?_)
    refine ensures_bind (h₁.lift (sound_negative operand) fun v hv => ?_)
    exact h₁.push hv fun m₂ h₂ => h₂
  | index =>
    refine ensures_bind (h₀.pop fun key m₁ _ h₁ => ?_)
    refine ensures_bind (h₁.pop fun collection m₂ hcollection h₂ => ?_)
    refine ensures_bind (h₂.lift (sound_select hcollection) fun v hv => ?_)
    exact h₂.push hv fun m₃ h₃ => h₃
  | setGlobal index =>
    refine ensures_bind (h₀.pop fun v m₁ hv h₁ => ensures_bind (ensures_get ?_))
    have hlt : index < g := hvalid
    have hslots := hm.slots
    have hsize := h₁.values.globalsSize
    rw [if_pos (by omega)]
    exact ensures_modify (Values.setGlobals h₁ hv)
  | getGlobal index =>
    have hlt : index < m.globals.size := by
      have hlt : index < g := hvalid
      have hslots := hm.slots
      have hsize := h.globalsSize
      omega
    have hget := Array.getElem?_eq_getElem hlt
    refine ensures_bind (ensures_get (ensures_bind (ensures_inBounds ⟨_, hget, ?_⟩)))
    exact h₀.push (h.globals _ (Array.getElem_mem hlt)) fun m₁ h₁ => h₁
  | setLocal index =>
    have hlt : m.frame.base + index < stackSize := by
      have hlt : index < m.frame.routine.locals := hvalid
      have hroom := hm.room
      omega
    refine ensures_bind (ensures_localSlot hlt (ensures_bind (h₀.pop fun v m₁ hv h₁ => ?_)))
    refine ensures_bind (ensures_get ?_)
    rw [if_pos (by rw [h₁.values.stackSize]; exact hlt)]
    exact ensures_modify (Values.setStack h₁ hv)
  | getLocal index =>
    have hlt : m.frame.base + index < stackSize := by
      have hlt : index < m.frame.routine.locals := hvalid
      have hroom := hm.room
      omega
    have hlt' : m.frame.base + index < m.stack.size := by
      rw [h.stackSize]
      exact hlt
    have hget := Array.getElem?_eq_getElem hlt'
    refine ensures_bind (ensures_localSlot hlt (ensures_bind (ensures_get ?_)))
    refine ensures_bind (ensures_inBounds ⟨_, hget, ?_⟩)
    exact h₀.push (h.stack _ (Array.getElem_mem hlt')) fun m₁ h₁ => h₁
  | getBuiltin index =>
    have hget := List.getElem?_eq_getElem (show index < Builtin.all.length from hvalid)
    unfold execute
    simp only [hget]
    exact h₀.push (.builtin _) fun m₁ h₁ => h₁
  | getFree index =>
    have hdecodes : m.frame.routine.code.DecodesTo 0 is := by
      rw [hm.frame.code]
      exact decodesTo_assemble fun j hj =>
        (hcode.valid j hj).fits ⟨hm.pool, hm.slots, hm.frame.locals, hfree⟩
    have hlt : index < m.frame.free.length := hm.frame.reads is hdecodes index hi
    have hget := List.getElem?_eq_getElem hlt
    refine ensures_bind (ensures_get ?_)
    simp only [hget]
    exact h₀.push (hm.frame.free _ (List.getElem_mem hlt)) fun m₁ h₁ => h₁
  | currentClosure =>
    refine ensures_bind (ensures_get (h₀.push ?_ fun m₁ h₁ => h₁))
    exact .closure _ (hm.frame.routine hvalid) hm.frame.reads hm.frame.free
  | array count => exact h.gather hsp fun vs stamp _ hvs => .array stamp hvs
  | hash count =>
    refine ensures_bind (h₀.topmost fun vs _ hvs => ?_)
    obtain ⟨hpairs, herror⟩ := sound_pairsOf hvs
    refine ensures_bind (ensures_lift (fun pairs hok => ?_) fun e he => ?_)
    · refine ensures_bind (h₀.drop fun m₁ h₁ => ensures_bind (ensures_make ?_))
      refine (h₁.withHost _).push (.hash _ fun e he => ?_) fun m₂ h₂ => h₂
      exact hpairs pairs hok e (Value.mem_entriesOf he)
    · exact h₀.faults (herror e he).allowed
  | closure index count =>
    obtain ⟨-, stamp, r, hr, hreads⟩ := hvalid
    have hget : m.constants[index]? = some (.routine stamp r) := hr
    have hsound : r.Sound m.constants g := hm.constants _ (Array.mem_of_getElem? hget)
    refine ensures_bind (ensures_get ?_)
    simp only [hget]
    exact h.gather hsp fun vs stamp hlength hvs => .closure stamp hsound (hlength ▸ hreads) hvs
  | jump target => cases hplain
  | jumpNotTruthy target => cases hplain
  | call count => cases hplain
  | returnValue => cases hplain
  | returnNull => cases hplain

/-! ## Instructions that lead elsewhere -/

theorem mem_clear {stack : Array Value} {start count : Nat} {v : Value}
    (h : v ∈ clear stack start count) : v ∈ stack ∨ v = .null := by
  induction count generalizing stack start with
  | zero => exact .inl h
  | succ count ih =>
    rcases ih h with h | rfl
    · exact Array.mem_or_eq_of_mem_setIfInBounds h
    · exact .inr rfl

theorem size_clear (stack : Array Value) (start count : Nat) :
    (clear stack start count).size = stack.size := by
  induction count generalizing stack start with
  | zero => rfl
  | succ count ih =>
    rw [clear, ih]
    exact Array.size_setIfInBounds

/-- A call of a sound closure starts a frame above the function that was called. -/
theorem ensures_callClosure {stamp : Stamp} {r : Routine} {free : List Value} {count : Nat}
    (h : m.Values g) (hr : r.Sound m.constants g) (hcount : count ≤ m.sp) :
    Ensures (callClosure stamp r free count) m
      (fun _ m' => m'.Values g ∧ m'.constants = m.constants ∧ m.depth < maxFrames ∧
        m'.callers = m.callers.push m.frame ∧ m'.frame = ⟨stamp, r, free, 0, m.sp - count⟩ ∧
        m'.sp = m.sp - count + r.locals)
      (Faults g i m.constants) := by
  have h₀ := h.leaves
  have hparameters := hr.parameters
  have hsize := h.stackSize
  unfold Ensures callClosure
  by_cases harity : count ≠ r.parameters
  · rw [if_pos harity]
    exact h₀.faults ⟨rfl, nofun⟩
  rw [if_neg harity]
  by_cases hdepth : maxFrames ≤ m.depth
  · rw [if_pos hdepth]
    exact h₀.faults ⟨rfl, nofun⟩
  rw [if_neg hdepth, if_neg (Nat.not_lt_of_le hcount)]
  by_cases hroom : stackSize < m.sp - count + r.locals
  · rw [if_pos hroom]
    exact h₀.faults ⟨rfl, nofun⟩
  rw [if_neg hroom, if_neg (hsize ▸ hroom)]
  have hstack : ∀ count, ∀ v ∈ clear m.stack m.sp count, v.Sound m.constants g := by
    intro count v hv
    rcases mem_clear hv with hv | rfl
    · exact h.stack v hv
    · exact .null
  have hcleared : ∀ count, (clear m.stack m.sp count).size = stackSize := fun _ =>
    (size_clear ..).trans hsize
  exact ⟨{ h with stackSize := hcleared _, sp := Nat.le_of_not_lt hroom, stack := hstack _ }, rfl,
    Nat.lt_of_not_le hdepth, rfl, rfl, rfl⟩

/-- A call of a builtin function stays in the frame, and a call of a closure starts one. -/
theorem ensures_call {count : Nat} (h : m.Values g) (hsp : m.sp = n + (count + 1)) :
    Ensures (call count) m
      (fun _ m' => Leaves g m (n + 1) m' ∨
        ∃ stamp r free, (Value.closure stamp r free).Sound m.constants g ∧ m'.Values g ∧
          m'.constants = m.constants ∧ m.depth < maxFrames ∧
          m'.callers = m.callers.push m.frame ∧ m'.frame = ⟨stamp, r, free, 0, n + 1⟩ ∧
          m'.sp = n + 1 + r.locals)
      (Faults g (.call count) m.constants) := by
  have hresult : m.sp - count = n + 1 := by omega
  have hlt : m.sp - (count + 1) < m.stack.size := by
    have hle := h.sp
    have hsize := h.stackSize
    omega
  have hget := Array.getElem?_eq_getElem hlt
  have hsound := h.stack _ (Array.getElem_mem hlt)
  refine ensures_bind (ensures_get ?_)
  rw [if_neg (by omega)]
  refine ensures_bind (ensures_inBounds ⟨_, hget, ?_⟩)
  generalize m.stack[m.sp - (count + 1)] = callee at hsound
  cases callee with
  | closure stamp r free =>
    have hr : r.Sound m.constants g := by
      cases hsound
      assumption
    refine (ensures_callClosure h hr (by omega)).mono ?_ fun _ _ hfault => hfault
    rintro _ m' ⟨hvalues, hconstants, hdepth, hcallers, hframe, hsp'⟩
    rw [hresult] at hframe hsp'
    exact .inr ⟨stamp, r, free, hsound, hvalues, hconstants, hdepth, hcallers, hframe, hsp'⟩
  | builtin function =>
    have h₀ : Leaves g m (n + 1 + count) m := h.leaves_of_sp (by omega)
    refine ensures_bind (h₀.topmost fun arguments _ harguments => ensures_bind ?_)
    refine ensures_bind (((h.leaves_of_sp hsp).withHost _).drop fun m₁ h₁ => ?_)
    exact h₁.push (function.sound_call _ harguments) fun m₂ h₂ => .inl h₂
  | _ => exact h.leaves.faults ⟨rfl, fun _ _ => ⟨count, rfl⟩⟩

/-- A return ends a frame, or the program if there is no other. -/
theorem ensures_returnWith {v : Value} (h : m.Values g) (hv : v.Sound m.constants g)
    (hroom : m.frame.base ≤ stackSize) (hbase : m.callers ≠ #[] → 0 < m.frame.base) :
    Ensures (returnWith v) m
      (fun _ m' => m'.Values g ∧ m'.constants = m.constants ∧
        ((∃ caller, m.callers = m'.callers.push caller ∧ m'.frame = caller ∧
            m'.sp = m.frame.base) ∨
          m.callers = #[] ∧ m'.callers = #[] ∧
            m'.frame = { m.frame with ip := m.frame.routine.code.size }))
      (Faults g i m.constants) := by
  refine ensures_bind (ensures_get (ensures_bind (ensures_get ?_)))
  cases hback : m.callers.back? with
  | none =>
    have hnone : m.callers = #[] := Array.back?_eq_none_iff.1 hback
    refine ensures_bind (h.leaves.push hv fun m₁ h₁ => ?_)
    refine ensures_bind (h₁.drop fun m₂ h₂ => ?_)
    refine ⟨{ h₂.values with }, h₂.constants, .inr ⟨hnone, h₂.callers.trans hnone, ?_⟩⟩
    show ({ m₂.frame with ip := m.frame.routine.code.size } : Frame) = _
    rw [h₂.frame]
  | some caller =>
    obtain ⟨callers, hcallers⟩ := Array.back?_eq_some_iff.1 hback
    have hpos : 0 < m.frame.base := hbase (by rw [hcallers]; simp)
    refine ensures_bind (ensures_modify ?_)
    rw [if_neg (Nat.ne_of_gt hpos)]
    refine ensures_bind (ensures_modify ?_)
    have hvalues : Values g { m with
        frame := caller, callers := m.callers.pop, sp := m.frame.base - 1 } := by
      refine { h with sp := ?_ }
      show m.frame.base - 1 ≤ _
      omega
    refine hvalues.leaves.push hv fun m₁ h₁ => ?_
    refine ⟨h₁.values, h₁.constants, .inl ⟨caller, ?_, h₁.frame, ?_⟩⟩
    · rw [h₁.callers, hcallers]
      simp
    · rw [h₁.sp]
      show m.frame.base - 1 + 1 = _
      omega

/-! ## What a step can do -/

/-- The ways in which a step can go on behind the instructions `pre`, with the instruction `i`. -/
inductive Moves (g : Nat) (pre : List Instruction) (i : Instruction) (m m' : Machine) : Prop
  /-- To the next instruction. -/
  | next (hframe : m'.frame = { m.frame with ip := extent (pre ++ [i]) })
      (hcallers : m'.callers = m.callers)
      (hsp : m'.sp = m.frame.base + m.frame.routine.locals + Code.depth (pre ++ [i]))
      (hstay : i ≠ .returnValue ∧ i ≠ .returnNull)
  /-- To the target of a jump. -/
  | jump {t : Nat} (ht : i.target? = some t) (hframe : m'.frame = { m.frame with ip := t })
      (hcallers : m'.callers = m.callers)
      (hsp : m'.sp = m.frame.base + m.frame.routine.locals + i.landing (Code.depth pre))
  /-- Into a function, whose locals begin where the result of the call will be. -/
  | call {stamp : Stamp} {r : Routine} {free : List Value}
      (hr : (Value.closure stamp r free).Sound m.constants g) (hdepth : m.depth < maxFrames)
      (hcallers : m'.callers = m.callers.push { m.frame with ip := extent (pre ++ [i]) })
      (hbase : 0 < Code.depth (pre ++ [i]))
      (hframe : m'.frame = ⟨stamp, r, free, 0,
        m.frame.base + m.frame.routine.locals + Code.depth (pre ++ [i])⟩)
      (hsp : m'.sp = m'.frame.base + r.locals) (hcall : ∃ count, i = .call count)
  /-- Out of a function. -/
  | ret {caller : Frame} (hcallers : m.callers = m'.callers.push caller)
      (hframe : m'.frame = caller) (hsp : m'.sp = m.frame.base)
      (hreturn : i = .returnValue ∨ i = .returnNull)
  /-- Out of the program. -/
  | finish (hnone : m.callers = #[]) (hcallers : m'.callers = #[])
      (hframe : m'.frame = { m.frame with ip := m.frame.routine.code.size })
      (hreturn : i = .returnValue ∨ i = .returnNull)

/-- The state after a step. -/
structure Stepped (g : Nat) (pre : List Instruction) (i : Instruction) (m m' : Machine) : Prop where
  values : m'.Values g
  constants : m'.constants = m.constants
  moves : Moves g pre i m m'

variable {is pre post : List Instruction} {enclosed : Bool}

theorem Settled.fits (h : m.Settled g enclosed is) (hi : i ∈ is) : i.Fits := by
  obtain ⟨free, hfree, hcode⟩ := h.frame.body
  exact (hcode.valid i hi).fits ⟨h.pool, h.slots, h.frame.locals, hfree⟩

theorem Settled.behind (h : m.Settled g enclosed is) (i : Instruction) :
    (behind m i).Settled g enclosed is := { h with frame := h.frame.withIp _ }

/-- What holds after an instruction holds after the step that executes it. -/
theorem ensures_step {ok : Bool → Machine → Prop} {bad : Halt → Machine → Prop}
    (hcode : m.frame.routine.code = assemble (pre ++ i :: post)) (hip : m.frame.ip = extent pre)
    (hi : i.Fits) (h : Ensures (execute i) (behind m i) (fun _ m' => ok true m') bad) :
    Ensures Exec.step m ok bad := by
  refine ensures_fetched ?_ h
  rw [hcode, hip]
  exact fetch_assemble hi pre post

theorem behind_frame (hip : m.frame.ip = extent pre) (i : Instruction) :
    (behind m i).frame = { m.frame with ip := extent (pre ++ [i]) } := by
  have hnext : m.frame.ip + i.size = extent (pre ++ [i]) := by
    rw [hip, extent_append, extent_cons, extent_nil, Nat.add_zero]
  rw [← hnext]
  rfl

/-- An instruction that stays in the frame leads to the next one. -/
theorem Leaves.stepped {m' : Machine} (hip : m.frame.ip = extent pre)
    (hstay : i ≠ .returnValue ∧ i ≠ .returnNull)
    (h : Leaves g (behind m i)
      (m.frame.base + m.frame.routine.locals + (Code.depth pre - i.pops) + i.pushes) m') :
    Stepped g pre i m m' := by
  refine ⟨h.values, h.constants, .next (h.frame.trans (behind_frame hip i)) h.callers ?_ hstay⟩
  rw [h.sp, Code.depth_concat]
  omega

/-- A jump that a condition decides leads to its target or to the next instruction. -/
theorem jumpNotTruthy_stepped {t : Nat} (h : (behind m (.jumpNotTruthy t)).Values g)
    (hat : m.frame.At is pre m.sp) (hpops : 1 ≤ Code.depth pre) :
    Ensures (execute (.jumpNotTruthy t)) (behind m (.jumpNotTruthy t))
      (fun _ m' => Stepped g pre (.jumpNotTruthy t) m m')
      (Faults g (.jumpNotTruthy t) m.constants) := by
  have hsp : (behind m (.jumpNotTruthy t)).sp =
      m.frame.base + m.frame.routine.locals + (Code.depth pre - 1) + 1 := by
    show m.sp = _
    rw [hat.top]
    omega
  refine ensures_bind ((h.leaves_of_sp hsp).pop fun condition m₁ _ h₁ => ?_)
  split
  · refine ⟨{ h₁.values with }, h₁.constants, .jump rfl ?_ h₁.callers h₁.sp⟩
    show ({ m₁.frame with ip := t } : Frame) = _
    rw [h₁.frame]
    rfl
  · exact Leaves.stepped hat.ip ⟨nofun, nofun⟩ h₁

/-- A call leads to the next instruction or into a function. -/
theorem call_stepped {count : Nat} (h : (behind m (.call count)).Values g)
    (hat : m.frame.At is pre m.sp) (hpops : count + 1 ≤ Code.depth pre) :
    Ensures (execute (.call count)) (behind m (.call count))
      (fun _ m' => Stepped g pre (.call count) m m') (Faults g (.call count) m.constants) := by
  have hsp : (behind m (.call count)).sp =
      m.frame.base + m.frame.routine.locals + (Code.depth pre - (count + 1)) + (count + 1) := by
    show m.sp = _
    rw [hat.top]
    omega
  have hdepth : Code.depth (pre ++ [.call count]) = Code.depth pre - (count + 1) + 1 :=
    Code.depth_concat pre (.call count)
  refine (ensures_call h hsp).mono (fun _ m' hcall => ?_) fun _ _ hfault => hfault
  rcases hcall with hleaves |
    ⟨stamp, r, free, hclosure, hvalues, hconstants, hframes, hcallers, hframe, hsp'⟩
  · exact hleaves.stepped hat.ip ⟨nofun, nofun⟩
  · rw [Nat.add_assoc _ _ 1, ← hdepth] at hframe hsp'
    refine ⟨hvalues, hconstants,
      .call hclosure hframes (behind_frame hat.ip _ ▸ hcallers) ?_ hframe ?_ ⟨count, rfl⟩⟩
    · rw [hdepth]
      exact Nat.succ_pos _
    · rw [hsp', hframe]

/-- A return leads out of the frame, or out of the program. -/
theorem returnWith_stepped {v : Value} {m₁ : Machine} {n : Nat}
    (hreturn : i = .returnValue ∨ i = .returnNull) (h₁ : Leaves g (behind m i) n m₁)
    (hv : v.Sound m.constants g) (hroom : m.frame.base ≤ stackSize)
    (hbase : m.callers ≠ #[] → 0 < m.frame.base) :
    Ensures (returnWith v) m₁ (fun _ m' => Stepped g pre i m m') (Faults g i m.constants) := by
  have hconstants₁ : m₁.constants = m.constants := h₁.constants
  have hcallers₁ : m₁.callers = m.callers := h₁.callers
  have hreturned := ensures_returnWith (i := i) h₁.values (hconstants₁ ▸ hv)
    (h₁.frame ▸ hroom) (hcallers₁ ▸ h₁.frame ▸ hbase)
  rw [hconstants₁, hcallers₁, h₁.frame] at hreturned
  refine hreturned.mono ?_ fun _ _ hfault => hfault
  rintro _ m' ⟨hvalues, hconstants, ⟨caller, hcallers, hframe, hsp⟩ | ⟨hnone, hcallers, hframe⟩⟩
  · exact ⟨hvalues, hconstants, .ret hcallers hframe hsp hreturn⟩
  · exact ⟨hvalues, hconstants, .finish hnone hcallers hframe hreturn⟩

/-- The instruction behind `pre` either moves the machine or faults. -/
theorem execute_stepped (h : m.Values g) (hm : m.Settled g enclosed is)
    (his : is = pre ++ i :: post) (hat : m.frame.At is pre m.sp)
    (hbase : m.callers ≠ #[] → 0 < m.frame.base) :
    Ensures Exec.step m (fun more m' => more = true ∧ Stepped g pre i m m')
      (Faults g i m.constants) := by
  have hi : i ∈ is := by
    rw [his]
    simp
  obtain ⟨free, hfree, hcode⟩ := hm.frame.body
  have hpops : i.pops ≤ Code.depth pre := (hcode.flows.sits his).pops
  have hsp := hat.top
  have hroom : m.frame.base ≤ stackSize := Nat.le_trans (Nat.le_add_right ..) hm.room
  have hvalues : (behind m i).Values g := { h with }
  refine ensures_step (his ▸ hm.frame.code) hat.ip (hm.fits hi) ?_
  suffices hstepped : Ensures (execute i) (behind m i) (fun _ m' => Stepped g pre i m m')
      (Faults g i m.constants) from
    hstepped.mono (fun _ _ hstepped => ⟨rfl, hstepped⟩) fun _ _ hfault => hfault
  by_cases hleads : i.leads = false
  · have hstay : i ≠ .returnValue ∧ i ≠ .returnNull := by
      constructor
      · rintro rfl
        cases hleads
      · rintro rfl
        cases hleads
    refine (execute_plain hvalues (hm.behind i) hi hleads ?_).mono
      (fun _ m' hleaves => hleaves.stepped hat.ip hstay) fun _ _ hfault => hfault
    show m.sp = _
    omega
  cases i with
  | jump t =>
    exact ⟨{ h with }, rfl, .jump rfl rfl rfl hsp⟩
  | jumpNotTruthy t => exact jumpNotTruthy_stepped hvalues hat hpops
  | call count => exact call_stepped hvalues hat hpops
  | returnValue =>
    have hpos : 1 ≤ Code.depth pre := hpops
    have hsp' : (behind m .returnValue).sp =
        m.frame.base + m.frame.routine.locals + (Code.depth pre - 1) + 1 := by
      show m.sp = _
      omega
    refine ensures_bind ((hvalues.leaves_of_sp hsp').pop fun v m₁ hv h₁ => ?_)
    exact returnWith_stepped (.inl rfl) h₁ hv hroom hbase
  | returnNull => exact returnWith_stepped (.inr rfl) hvalues.leaves .null hroom hbase
  | _ => exact absurd rfl hleads

end Machine

end Scriptlet
