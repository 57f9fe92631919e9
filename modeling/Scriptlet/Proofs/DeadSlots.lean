import Scriptlet.Proofs.Halting
import Scriptlet.Proofs.Lockstep

/-!
# Slots that are not in use

Taking a value off the stack leaves it in its slot, and a call reserves its locals over whatever an
earlier call has left there.  None of this can be seen: a machine with another stack does the same
as long as the slots that are in use hold the same.

* `Machine.StandsIn` says of a stack that it could take the place of that of a machine.  As in
  `Machine.Abreast`, some of the lowest slots can be compared too while they are not in use.
* `Exec.Same` compares a part of a step with itself on the other stack.  Here the comparison goes on
  behind an error, since a run leaves its state behind however it ends.
* `Machine.StandsIn.execute`: an instruction keeps the comparison.  The stack of the machine matters
  only where the instruction finds its values above the locals of its frame, which
  `Machine.Sound.above` says of compiled code.

The result of a program is read from a slot that is not in use.  There has been a value in it while
the program ran, unless the program is empty (`Machine.Starts.higher_of_ended`).
-/

namespace Scriptlet

open Code

namespace Machine

open Exec

/-- The machine with another stack. -/
def withStack (m : Machine) (stack : Array Value) : Machine := { m with stack := stack }

@[simp] theorem withStack_frame (m : Machine) (stack : Array Value) :
    (m.withStack stack).frame = m.frame := rfl

@[simp] theorem withStack_callers (m : Machine) (stack : Array Value) :
    (m.withStack stack).callers = m.callers := rfl

@[simp] theorem withStack_constants (m : Machine) (stack : Array Value) :
    (m.withStack stack).constants = m.constants := rfl

/-- The stack holds what that of the machine does, in the slots that are in use and in the `low`
lowest ones. -/
structure StandsIn (low : Nat) (m : Machine) (stack : Array Value) : Prop where
  left : m.stack.size = stackSize
  right : stack.size = stackSize
  room : m.sp ≤ stackSize
  slots : ∀ k, k < low ∨ k < m.sp → stack[k]? = m.stack[k]?

namespace Exec

variable {α β : Type} {low : Nat} {m : Machine} {stack : Array Value}

/-! ## Parts of a step on both stacks -/

/-- Two parts of a step, the second with another stack: both come to the same result, and `ok` says
how the stacks compare, or both fail in the same way and the other stack still stands in. -/
def Same (low : Nat) (x y : Exec α) (m : Machine) (stack : Array Value)
    (ok : α → Machine → Array Value → Prop) : Prop :=
  (∃ a m' stack', x m = .ok a m' ∧ y (m.withStack stack) = .ok a (m'.withStack stack') ∧
      ok a m' stack') ∨
    ∃ halt m' stack', x m = .error halt m' ∧
      y (m.withStack stack) = .error halt (m'.withStack stack') ∧ StandsIn low m' stack'

variable {ok : α → Machine → Array Value → Prop}

theorem same_pure {a : α} (h : ok a m stack) : Same low (pure a) (pure a) m stack ok :=
  .inl ⟨a, m, stack, rfl, rfl, h⟩

theorem same_throw (h : StandsIn low m stack) (halt : Halt) :
    Same low (throw halt : Exec α) (throw halt) m stack ok := .inr ⟨halt, m, stack, rfl, rfl, h⟩

theorem same_fail (h : StandsIn low m stack) (e : Error) :
    Same low (fail e : Exec α) (fail e) m stack ok := same_throw h _

/-- Two sequences of parts. -/
theorem same_bind {x y : Exec β} {f g : β → Exec α}
    (h : Same low x y m stack fun b m' stack' => Same low (f b) (g b) m' stack' ok) :
    Same low (x >>= f) (y >>= g) m stack ok := by
  rcases h with ⟨b, m', stack', hx, hy, hrest⟩ | ⟨halt, m', stack', hx, hy, h'⟩
  · unfold Same
    rw [bind_of_ok hx, bind_of_ok hy]
    exact hrest
  · exact .inr ⟨halt, m', stack', bind_of_error hx, bind_of_error hy, h'⟩

/-- Parts that look at the state. -/
theorem same_get {f g : Machine → Exec α}
    (h : Same low (f m) (g (m.withStack stack)) m stack ok) :
    Same low (get >>= f) (get >>= g) m stack ok := h

/-- A change of the state that leaves the stack alone. -/
theorem same_modify {f : Machine → Machine} {ok : Unit → Machine → Array Value → Prop}
    (hf : f (m.withStack stack) = (f m).withStack stack) (hok : ok () (f m) stack) :
    Same low (modify f) (modify f) m stack ok :=
  .inl ⟨(), f m, stack, rfl, congrArg (EStateM.Result.ok ()) hf, hok⟩

theorem same_lift (h : StandsIn low m stack) {x : Except Error α}
    (hok : ∀ a, x = .ok a → ok a m stack) : Same low (lift x) (lift x) m stack ok := by
  cases x with
  | ok a => exact same_pure (hok a rfl)
  | error e => exact same_fail h e

theorem same_inBounds (h : StandsIn low m stack) {a? : Option α}
    (hok : ∀ a, a? = some a → ok a m stack) :
    Same low (inBounds a?) (inBounds a?) m stack ok := by
  cases a? with
  | some a => exact same_pure (hok a rfl)
  | none => exact same_throw h _

theorem same_ite {c : Prop} [Decidable c] {x x' y y' : Exec α} (h : c → Same low x y m stack ok)
    (h' : ¬ c → Same low x' y' m stack ok) :
    Same low (if c then x else x') (if c then y else y') m stack ok := by
  split
  · next hc => exact h hc
  · next hc => exact h' hc

theorem same_localSlot (h : StandsIn low m stack) {op : Op} {index : Nat}
    {ok : Nat → Machine → Array Value → Prop} (hok : ok (m.frame.base + index) m stack) :
    Same low (localSlot op index) (localSlot op index) m stack ok := by
  refine same_get (same_ite (fun _ => ?_) fun _ => ?_)
  · exact same_pure hok
  · exact same_fail h _

end Exec

namespace StandsIn

variable {low : Nat} {m : Machine} {stack : Array Value} {v : Value}

/-- Fewer slots are in use. -/
theorem lower (h : StandsIn low m stack) {sp : Nat} (hsp : sp ≤ m.sp) :
    StandsIn low { m with sp := sp } stack :=
  ⟨h.left, h.right, Nat.le_trans hsp h.room,
    fun k hk => h.slots k (hk.imp_right fun hlt => Nat.lt_of_lt_of_le hlt hsp)⟩

/-- All slots that are in use can be compared from now on. -/
theorem raise (h : StandsIn low m stack) : StandsIn m.sp m stack :=
  ⟨h.left, h.right, h.room, fun k hk => h.slots k (.inr (hk.elim id id))⟩

/-- The same slot is written on both stacks. -/
theorem set (h : StandsIn low m stack) (slot : Nat) (v : Value) :
    StandsIn low { m with stack := m.stack.setIfInBounds slot v } (stack.setIfInBounds slot v) := by
  refine ⟨?_, ?_, h.room, fun k hk => ?_⟩
  · exact Array.size_setIfInBounds.trans h.left
  · exact Array.size_setIfInBounds.trans h.right
  · show (stack.setIfInBounds slot v)[k]? = (m.stack.setIfInBounds slot v)[k]?
    rw [Array.getElem?_setIfInBounds, Array.getElem?_setIfInBounds, h.left, h.right, h.slots k hk]

/-- Nothing but the stack is compared. -/
theorem congr {m' : Machine} (h : StandsIn low m stack) (hstack : m'.stack = m.stack)
    (hsp : m'.sp = m.sp) : StandsIn low m' stack :=
  ⟨hstack ▸ h.left, h.right, hsp ▸ h.room, by rw [hstack, hsp]; exact h.slots⟩

theorem push {ok : Unit → Machine → Array Value → Prop} (h : StandsIn low m stack)
    (hok : ∀ m' stack', StandsIn low m' stack' → ok () m' stack') :
    Same low (Exec.push v) (Exec.push v) m stack ok := by
  have hleft := h.left
  have hright := h.right
  by_cases hfull : stackSize ≤ m.sp
  · exact .inr ⟨.error .stackOverflow, m, stack, if_pos hfull, if_pos hfull, h⟩
  · refine .inl ⟨(), { m with stack := m.stack.setIfInBounds m.sp v, sp := m.sp + 1 },
      stack.setIfInBounds m.sp v, (if_neg hfull).trans (if_pos (by omega)),
      (if_neg hfull).trans (if_pos (show m.sp < stack.size by omega)), hok _ _ ?_⟩
    obtain ⟨hleft', hright', -, hslots⟩ := h.set m.sp v
    refine ⟨hleft', hright', Nat.lt_of_not_le hfull, fun k hk => ?_⟩
    -- the slot of the value is now in use
    by_cases htop : k = m.sp
    · subst htop
      refine (Array.getElem?_setIfInBounds_self_of_lt (by omega)).trans ?_
      exact (Array.getElem?_setIfInBounds_self_of_lt (by omega)).symm
    · refine hslots k (hk.imp_right fun hlt => ?_)
      show k < m.sp
      have hlt : k < m.sp + 1 := hlt
      omega

theorem pop {ok : Value → Machine → Array Value → Prop} (h : StandsIn low m stack)
    (hok : ∀ v m', StandsIn low m' stack → m'.sp = m.sp - 1 → m'.frame = m.frame →
      ok v m' stack) : Same low Exec.pop Exec.pop m stack ok := by
  by_cases hempty : m.sp = 0
  · exact .inr ⟨.error .stackUnderflow, m, stack, if_pos hempty, if_pos hempty, h⟩
  · have hlt : m.sp - 1 < m.stack.size := by
      have hleft := h.left
      have hroom := h.room
      omega
    have hget := Array.getElem?_eq_getElem hlt
    refine .inl ⟨m.stack[m.sp - 1], { m with sp := m.sp - 1 }, stack, ?_, ?_,
      hok _ _ (h.lower (Nat.sub_le ..)) rfl rfl⟩
    · refine (if_neg hempty).trans ?_
      rw [hget]
    · have hother : (m.withStack stack).stack[(m.withStack stack).sp - 1]? =
          some m.stack[m.sp - 1] :=
        (h.slots (m.sp - 1) (.inr (by omega))).trans hget
      refine (if_neg hempty).trans ?_
      rw [hother]
      rfl

theorem topmost {ok : List Value → Machine → Array Value → Prop} {count : Nat}
    (h : StandsIn low m stack) (hok : ∀ vs, ok vs m stack) :
    Same low (Exec.topmost count) (Exec.topmost count) m stack ok := by
  have hleft := h.left
  have hright := h.right
  have hroom := h.room
  by_cases hcount : count ≤ m.sp
  · refine .inl ⟨(m.stack.extract (m.sp - count) m.sp).toList, m, stack,
      (if_pos hcount).trans (if_pos (by omega)), ?_, hok _⟩
    refine (if_pos hcount).trans ((if_pos (show m.sp ≤ stack.size by omega)).trans ?_)
    have hsame : stack.extract (m.sp - count) m.sp = m.stack.extract (m.sp - count) m.sp := by
      refine Array.ext_getElem? fun k => ?_
      rw [Array.getElem?_extract, Array.getElem?_extract, hleft, hright]
      split
      · exact h.slots _ (.inr (by omega))
      · rfl
    show EStateM.Result.ok (stack.extract (m.sp - count) m.sp).toList _ = _
    rw [hsame]
  · exact .inr ⟨.error .stackUnderflow, m, stack, if_neg hcount, if_neg hcount, h⟩

theorem drop {ok : Unit → Machine → Array Value → Prop} {count : Nat} (h : StandsIn low m stack)
    (hok : ∀ m', StandsIn low m' stack → ok () m' stack) :
    Same low (Exec.drop count) (Exec.drop count) m stack ok := by
  by_cases hcount : count ≤ m.sp
  · exact .inl ⟨(), { m with sp := m.sp - count }, stack, if_pos hcount, if_pos hcount,
      hok _ (h.lower (Nat.sub_le ..))⟩
  · exact .inr ⟨.outOfBounds, m, stack, if_neg hcount, if_neg hcount, h⟩

theorem make {value : Stamp → Value} {ok : Value → Machine → Array Value → Prop}
    (h : StandsIn low m stack) (hok : ∀ v m', StandsIn low m' stack → ok v m' stack) :
    Same low (Exec.make value) (Exec.make value) m stack ok :=
  .inl ⟨_, { m with host := m.host.used }, stack, rfl, rfl, hok _ _ (h.congr rfl rfl)⟩

theorem jump {ok : Unit → Machine → Array Value → Prop} (h : StandsIn low m stack) {target : Nat}
    (hok : ∀ m', StandsIn low m' stack → ok () m' stack) :
    Same low (Exec.jump target) (Exec.jump target) m stack ok :=
  .inl ⟨(), { m with frame := { m.frame with ip := target } }, stack, rfl, rfl,
    hok _ (h.congr rfl rfl)⟩

/-! ## Instructions -/

/-- What an instruction leaves if it comes to a result. -/
abbrev Stays (low : Nat) (_ : Unit) (m' : Machine) (stack' : Array Value) : Prop :=
  StandsIn low m' stack'

/-- The last part of most instructions. -/
theorem result (h : StandsIn low m stack) (v : Value) :
    Same low (Exec.push v) (Exec.push v) m stack (Stays low) := h.push fun _ _ h' => h'

/-- The last part of writing a local. -/
theorem setStack (h : StandsIn low m stack) (slot : Nat) (v : Value) :
    Same low
      (if slot < m.stack.size then
        modify fun m => { m with stack := m.stack.setIfInBounds slot v }
      else throw .outOfBounds)
      (if slot < stack.size then
        modify fun m => { m with stack := m.stack.setIfInBounds slot v }
      else throw .outOfBounds) m stack (Stays low) := by
  rw [h.left, h.right]
  exact same_ite (fun _ => .inl ⟨(), _, _, rfl, rfl, h.set slot v⟩) fun _ => same_throw h _

theorem arithmetic (h : StandsIn low m stack) (op : Op) :
    Same low (Exec.arithmetic op) (Exec.arithmetic op) m stack (Stays low) := by
  refine same_bind (h.pop fun right m₁ h₁ _ _ => same_bind (h₁.pop fun left m₂ h₂ _ _ => ?_))
  refine same_get (same_bind (same_lift h₂ fun value _ => ?_))
  have h₃ : StandsIn low { m₂ with host := m₂.host.used } stack := h₂.congr rfl rfl
  exact same_bind (same_modify rfl (h₃.result value))

theorem comparison (h : StandsIn low m stack) (op : Op) :
    Same low (Exec.comparison op) (Exec.comparison op) m stack (Stays low) := by
  refine same_bind (h.pop fun right m₁ h₁ _ _ => same_bind (h₁.pop fun left m₂ h₂ _ _ => ?_))
  exact same_bind (same_lift h₂ fun value _ => h₂.result _)

/-- The last parts of an instruction that makes a value out of the topmost ones. -/
theorem gather (h : StandsIn low m stack) (count : Nat) (value : Stamp → Value) :
    Same low (do
      Exec.drop count
      let v ← Exec.make value
      Exec.push v) (do
      Exec.drop count
      let v ← Exec.make value
      Exec.push v) m stack (Stays low) :=
  same_bind (h.drop fun _ h₁ => same_bind (h₁.make fun v _ h₂ => h₂.result v))

theorem callBuiltin (h : StandsIn low m stack) (function : Builtin) (count : Nat) :
    Same low (Exec.callBuiltin function count) (Exec.callBuiltin function count) m stack
      (Stays low) := by
  refine same_bind (h.topmost fun vs => same_bind ?_)
  have h₁ : StandsIn low { m with host := (function.call vs m.host).2 } stack := h.congr rfl rfl
  refine .inl ⟨(function.call vs m.host).1, _, stack, rfl, rfl, ?_⟩
  exact same_bind (h₁.drop fun _ h₂ => h₂.result _)

/-- The locals of a function start as `null` whatever was in their slots. -/
theorem enter (h : StandsIn low m stack) (stamp : Stamp) (r : Routine) (free : List Value)
    (count : Nat) (hroom : m.sp - count + r.locals ≤ stackSize) :
    StandsIn low (Exec.enter m stamp r free count)
      (clear stack m.sp (m.sp - count + r.locals - m.sp)) := by
  refine ⟨(size_clear ..).trans h.left, (size_clear ..).trans h.right, hroom, fun k hk => ?_⟩
  show _ = (clear m.stack m.sp (m.sp - count + r.locals - m.sp))[k]?
  by_cases hlt : k < stackSize
  · rw [getElem?_clear (by rwa [h.right]), getElem?_clear (by rwa [h.left])]
    split
    · rfl
    · next hold =>
      refine h.slots k (hk.imp_right fun hk => ?_)
      have hk : k < m.sp - count + r.locals := hk
      omega
  · rw [Array.getElem?_eq_none, Array.getElem?_eq_none]
    · rw [size_clear, h.left]
      exact Nat.le_of_not_lt hlt
    · rw [size_clear, h.right]
      exact Nat.le_of_not_lt hlt

/-- Whether a call of a closure goes through does not depend on what is on the stack. -/
theorem callClosure_withStack (m : Machine) (stamp : Stamp) (r : Routine) (free : List Value)
    (count : Nat) :
    (∃ halt, ∀ stack : Array Value, stack.size = stackSize →
      Exec.callClosure stamp r free count (m.withStack stack) =
        .error halt (m.withStack stack)) ∨
    (m.sp - count + r.locals ≤ stackSize ∧ ∀ stack : Array Value, stack.size = stackSize →
      Exec.callClosure stamp r free count (m.withStack stack) =
        .ok () (Exec.enter (m.withStack stack) stamp r free count)) := by
  by_cases hcount : count ≠ r.parameters
  · exact .inl ⟨_, fun stack _ => if_pos hcount⟩
  by_cases hframes : maxFrames ≤ m.depth
  · exact .inl ⟨_, fun stack _ => (if_neg hcount).trans (if_pos hframes)⟩
  by_cases harguments : m.sp < count
  · exact .inl ⟨_, fun stack _ =>
      (if_neg hcount).trans ((if_neg hframes).trans (if_pos harguments))⟩
  have hchecked : ∀ stack, Exec.callClosure stamp r free count (m.withStack stack) = _ :=
    fun stack => (if_neg hcount).trans ((if_neg hframes).trans (if_neg harguments))
  by_cases hroom : stackSize < m.sp - count + r.locals
  · exact .inl ⟨_, fun stack _ => (hchecked stack).trans (if_pos hroom)⟩
  · refine .inr ⟨Nat.le_of_not_lt hroom, fun stack hsize => ?_⟩
    refine (hchecked stack).trans ((if_neg hroom).trans (if_neg ?_))
    show ¬ stack.size < _
    rw [hsize]
    exact hroom

theorem callClosure (h : StandsIn low m stack) (stamp : Stamp) (r : Routine) (free : List Value)
    (count : Nat) : Same low (Exec.callClosure stamp r free count)
      (Exec.callClosure stamp r free count) m stack (Stays low) := by
  rcases callClosure_withStack m stamp r free count with ⟨halt, hfail⟩ | ⟨hroom, hcall⟩
  · exact .inr ⟨halt, m, stack, hfail m.stack h.left, hfail stack h.right, h⟩
  · exact .inl ⟨(), _, _, hcall m.stack h.left, hcall stack h.right,
      h.enter stamp r free count hroom⟩

theorem call (h : StandsIn low m stack) (count : Nat) :
    Same low (Exec.call count) (Exec.call count) m stack (Stays low) := by
  refine same_get (same_ite (fun _ => same_fail h _) fun hsp => ?_)
  have hslot : (m.withStack stack).stack[(m.withStack stack).sp - (count + 1)]? =
      m.stack[m.sp - (count + 1)]? :=
    h.slots _ (.inr (show m.sp - (count + 1) < m.sp by omega))
  rw [hslot]
  refine same_bind (same_inBounds h fun v _ => ?_)
  cases v with
  | closure stamp r free => exact h.callClosure stamp r free count
  | builtin function => exact h.callBuiltin function count
  | _ => exact same_fail h _

/-- A return looks for the result where the frame ends. -/
theorem returnWith (h : StandsIn low m stack) (v : Value) (hbase : m.frame.base ≤ m.sp + 1) :
    Same low (Exec.returnWith v) (Exec.returnWith v) m stack (Stays low) := by
  refine same_get (same_get ?_)
  rw [withStack_callers]
  cases m.callers.back? with
  | none =>
    refine same_bind (h.push fun m₁ stack₁ h₁ => same_bind (h₁.drop fun m₂ h₂ => ?_))
    exact h₂.jump fun _ h₃ => h₃
  | some caller =>
    have h₁ : StandsIn low { m with frame := caller, callers := m.callers.pop } stack :=
      h.congr rfl rfl
    refine same_bind (same_modify rfl (same_ite (fun _ => same_fail h₁ _) fun _ => ?_))
    have h₂ : StandsIn low
        { m with frame := caller, callers := m.callers.pop, sp := m.frame.base - 1 } stack :=
      h₁.lower (show m.frame.base - 1 ≤ m.sp by omega)
    exact same_bind (same_modify rfl (h₂.result v))

/-- An instruction does not see the slots that are not in use. -/
theorem execute (h : StandsIn low m stack) {i : Instruction} (hpops : m.frame.base + i.pops ≤ m.sp)
    (hlocal : ∀ index, i = .getLocal index → m.frame.base + index < m.sp) :
    Same low (Exec.execute i) (Exec.execute i) m stack (Stays low) := by
  cases i with
  | constant index =>
    refine same_get ?_
    rw [withStack_constants]
    cases m.constants[index]? with
    | some v => exact h.result v
    | none => exact same_fail h _
  | add => exact h.arithmetic .add
  | sub => exact h.arithmetic .sub
  | mul => exact h.arithmetic .mul
  | div => exact h.arithmetic .div
  | equal => exact h.comparison .equal
  | notEqual => exact h.comparison .notEqual
  | greaterThan => exact h.comparison .greaterThan
  | pop => exact same_bind (h.pop fun _ _ h₁ _ _ => same_pure h₁)
  | pushTrue => exact h.result _
  | pushFalse => exact h.result _
  | pushNull => exact h.result _
  | bang => exact same_bind (h.pop fun _ _ h₁ _ _ => h₁.result _)
  | minus =>
    exact same_bind (h.pop fun _ _ h₁ _ _ => same_bind (same_lift h₁ fun _ _ => h₁.result _))
  | jump target => exact h.jump fun _ h₁ => h₁
  | jumpNotTruthy target =>
    refine same_bind (h.pop fun _ _ h₁ _ _ => same_ite (fun _ => ?_) fun _ => same_pure h₁)
    exact h₁.jump fun _ h₂ => h₂
  | setGlobal index =>
    refine same_bind (h.pop fun v m₁ h₁ _ _ => same_get ?_)
    refine same_ite (fun _ => same_modify rfl (h₁.congr rfl rfl)) fun _ => same_throw h₁ _
  | getGlobal index =>
    exact same_get (same_bind (same_inBounds h fun _ _ => h.result _))
  | setLocal index =>
    refine same_bind (same_localSlot h (same_bind (h.pop fun v m₁ h₁ _ _ => same_get ?_)))
    exact h₁.setStack _ v
  | getLocal index =>
    refine same_bind (same_localSlot h (same_get ?_))
    have hslot : (m.withStack stack).stack[m.frame.base + index]? =
        m.stack[m.frame.base + index]? := h.slots _ (.inr (hlocal index rfl))
    rw [hslot]
    exact same_bind (same_inBounds h fun _ _ => h.result _)
  | getBuiltin index =>
    simp only [Exec.execute]
    cases Builtin.all[index]? with
    | none => exact same_fail h _
    | some function => exact h.result _
  | getFree index =>
    refine same_get ?_
    rw [withStack_frame]
    cases m.frame.free[index]? with
    | some v => exact h.result v
    | none => exact same_fail h _
  | currentClosure => exact same_get (h.result _)
  | array count => exact same_bind (h.topmost fun _ => h.gather count _)
  | hash count =>
    refine same_bind (h.topmost fun _ => same_bind (same_lift h fun _ _ => h.gather count _))
  | index =>
    refine same_bind (h.pop fun key m₁ h₁ _ _ => same_bind (h₁.pop fun v m₂ h₂ _ _ => ?_))
    exact same_bind (same_lift h₂ fun _ _ => h₂.result _)
  | call count => exact h.call count
  | returnValue =>
    refine same_bind (h.pop fun v m₁ h₁ hsp hframe => h₁.returnWith v ?_)
    have hpops : m.frame.base + 1 ≤ m.sp := hpops
    rw [hframe]
    omega
  | returnNull =>
    have hpops : m.frame.base + 0 ≤ m.sp := hpops
    exact h.returnWith _ (by omega)
  | closure index count =>
    refine same_get ?_
    rw [withStack_constants]
    cases m.constants[index]? with
    | none => exact same_fail h _
    | some v =>
      cases v with
      | routine stamp r => exact same_bind (h.topmost fun _ => h.gather count _)
      | _ => exact same_fail h _

end StandsIn

/-! ## Steps and runs -/

variable {g low : Nat} {m m₁ m₂ m' : Machine} {stack : Array Value} {is : List Instruction}

/-- A step does the same on the other stack. -/
theorem Sound.same_step (h : m.Sound g) (hstack : StandsIn low m stack) :
    Same low Exec.step Exec.step m stack fun _ m' stack' => StandsIn low m' stack' := by
  rcases h.stands with ⟨is, hframe, hip, -⟩ | ⟨is, pre, i, post, hm, his, hat⟩
  · have hend := fun other => step_end (m := m.withStack other) hframe.code hip
    exact .inl ⟨false, m, stack, hend m.stack, hend stack, hstack⟩
  · have habout := hm.about his hat
    obtain ⟨habove, hlocal⟩ := h.above habout
    have hbehind : StandsIn low (behind m i) stack := hstack.congr rfl rfl
    have hexecute : Same low (Exec.execute i) (Exec.execute i) (behind m i) stack
        (StandsIn.Stays low) := by
      refine hbehind.execute ?_ fun index hindex => ?_
      · show m.frame.base + i.pops ≤ m.sp
        omega
      · have hlt := hlocal index (.inl hindex)
        show m.frame.base + index < m.sp
        omega
    have hbind : Same low (Exec.execute i >>= fun _ => pure true)
        (Exec.execute i >>= fun _ => pure true) (behind m i) stack
        fun _ m' stack' => StandsIn low m' stack' :=
      same_bind (hexecute.imp_left fun ⟨u, m', stack', hx, hy, h'⟩ =>
        ⟨u, m', stack', hx, hy, same_pure h'⟩)
    unfold Same at hbind ⊢
    rw [step_of_fetch habout, step_of_fetch (m := m.withStack stack) habout]
    exact hbind

theorem Sound.same_steps (h : m.Sound g) (hstack : StandsIn low m stack) (hsteps : Steps m m') :
    ∃ stack', Steps (m.withStack stack) (m'.withStack stack') ∧ StandsIn low m' stack' := by
  induction hsteps with
  | refl => exact ⟨stack, .refl, hstack⟩
  | tail hsteps hnext ih =>
    obtain ⟨stack₁, hsteps₁, hstack₁⟩ := ih
    rcases (h.steps hsteps).1.same_step hstack₁ with
      ⟨more, m₂, stack₂, hm, hn, hstack₂⟩ | ⟨halt, m₂, stack₂, hm, -⟩
    · cases hnext.symm.trans hm
      exact ⟨stack₂, hsteps₁.tail hn, hstack₂⟩
    · cases hnext.symm.trans hm

/-- However a run comes out, it comes out in the same way on the other stack. -/
theorem Sound.same_run (h : m.Sound g) (hstack : StandsIn low m stack) (fuel : Nat) :
    Same low (Exec.run fuel) (Exec.run fuel) m stack (StandsIn.Stays low) := by
  induction fuel generalizing m stack with
  | zero => exact same_throw hstack _
  | succ fuel ih =>
    rcases h.same_step hstack with ⟨more, m', stack', hm, hn, h'⟩ | ⟨halt, m', stack', hm, hn, h'⟩
    · cases more with
      | false => exact .inl ⟨(), m', stack', run_succ_of_false hm, run_succ_of_false hn, h'⟩
      | true =>
        unfold Same
        rw [run_succ_of_true hm, run_succ_of_true hn]
        exact ih (h.steps (.single hm)).1 h'
    · exact .inr ⟨halt, m', stack', run_succ_of_error hm, run_succ_of_error hn, h'⟩

theorem Sound.same_runFor (h : m.Sound g) (hstack : StandsIn low m stack) (fuel : Nat) :
    ∃ stack', StandsIn low (m.runFor fuel).2 stack' ∧
      (m.withStack stack).runFor fuel =
        ((m.runFor fuel).1, (m.runFor fuel).2.withStack stack') := by
  unfold Machine.runFor
  rcases h.same_run hstack fuel with
    ⟨_, m', stack', hm, hn, h'⟩ | ⟨halt, m', stack', hm, hn, h'⟩
  · rw [hm, hn]
    exact ⟨stack', h', rfl⟩
  · rw [hm, hn]
    exact ⟨stack', h', rfl⟩

/-- A run that is allowed enough steps comes to the end or to an error of the machine. -/
theorem Sound.runFor_ends (h : m.Sound g) : ∃ least result m',
    (result = .ok () ∨ ∃ e, result = .error (.error e)) ∧
      ∀ fuel, least ≤ fuel → m.runFor fuel = (result, m') := by
  obtain ⟨m₁, m', hsteps, hend | ⟨e, hfail⟩⟩ := h.halts
  · obtain ⟨least, hleast⟩ := runFor_of_steps hsteps (.inl ⟨hend, rfl⟩)
    exact ⟨least, .ok (), m', .inl rfl, hleast⟩
  · obtain ⟨least, hleast⟩ := runFor_of_steps hsteps (.inr ⟨_, hfail, rfl⟩)
    exact ⟨least, _, m', .inr ⟨e, rfl⟩, hleast⟩

/-! ## The result of a program -/

/-- A program comes to its end in one state. -/
theorem ended_unique {m₁' m₂' : Machine} (h₁ : Steps m m₁) (hend₁ : Exec.step m₁ = .ok false m₁')
    (h₂ : Steps m m₂) (hend₂ : Exec.step m₂ = .ok false m₂') : m₁' = m₂' := by
  obtain ⟨least₁, hrun₁⟩ := runFor_of_steps h₁ (.inl ⟨hend₁, rfl⟩)
  obtain ⟨least₂, hrun₂⟩ := runFor_of_steps h₂ (.inl ⟨hend₂, rfl⟩)
  have hrun := hrun₁ (max least₁ least₂) (Nat.le_max_left ..)
  rw [hrun₂ _ (Nat.le_max_right ..)] at hrun
  exact (congrArg Prod.snd hrun).symm

/-- A return that ends the program takes a value off the stack. -/
theorem sp_of_finish (hsize : m.stack.size = stackSize) (hroom : m.sp ≤ stackSize)
    (hpos : 0 < m.sp) (hcallers : m.callers.back? = none) :
    Ensures (Exec.execute .returnValue) m (fun _ m' => m'.sp < m.sp) fun _ _ => True := by
  refine ensures_bind (ensures_pop hpos (by omega) fun v _ => ?_)
  refine ensures_bind (ensures_get (ensures_bind (ensures_get ?_)))
  simp only [hcallers]
  refine ensures_bind (ensures_push hsize (fun _ => ?_) trivial)
  refine ensures_bind (ensures_drop (Nat.le_add_left ..) ?_)
  show m.sp - 1 + 1 - 1 < m.sp
  omega

/-- The state in which a program with the code `is` starts. -/
structure Starts (g : Nat) (is : List Instruction) (m : Machine) : Prop where
  sound : m.Sound g
  ordered : m.Ordered
  waiting : m.waiting = []
  frame : m.frame.Sound m.constants g false is
  here : m.frame.At is [] m.sp
  empty : m.frame.base + m.frame.routine.locals + Code.depth is = 0

/-- A program that is not empty has a first step to make. -/
theorem Starts.first (h : Starts g is m) (hne : is ≠ []) (hsteps : Steps m m₁)
    (hend : Exec.step m₁ = .ok false m') : ∃ m₂, Next m m₂ ∧ Steps m₂ m₁ := by
  rcases Relation.ReflTransGen.cases_head hsteps with rfl | hfirst
  · obtain ⟨i, post, rfl⟩ := List.exists_cons_of_ne_nil hne
    have hfalse : (!m.waiting.isEmpty) = false := by simp [h.waiting]
    have hsettled := h.sound.settled (hfalse ▸ h.frame) h.here
    rw [step_of_fetch (hsettled.about (List.nil_append _).symm h.here)] at hend
    obtain ⟨_, _, -, hpure⟩ := bind_eq_ok.1 hend
    cases hpure
  · exact hfirst

/-- Before a program that is not empty has come to its end, it has had more on the stack. -/
theorem Starts.higher_of_ended (h : Starts g is m) (hne : is ≠ []) (hsteps : Steps m m₁)
    (hend : Exec.step m₁ = .ok false m') : ∃ m₀, Steps m m₀ ∧ Steps m₀ m₁ ∧ m₁.sp < m₀.sp := by
  obtain ⟨m₂, hnext₂, hsteps₂⟩ := h.first hne hsteps hend
  obtain ⟨m₀, hsteps₀, hnext₀⟩ := Relation.TransGen.tail'_iff.1 (.head' hnext₂ hsteps₂)
  have hsound₀ := (h.sound.steps hsteps₀).1
  obtain ⟨js, pre, i, post, habout, hm, hjs, -, hstepped⟩ := hsound₀.stepped hnext₀
  obtain ⟨ks, hks, ⟨before, hat⟩ | ⟨-, -, hlast, hreturn⟩⟩ :=
    hsound₀.running_of_stepped hm hjs hstepped
  · rw [← hstepped.constants] at hks
    have hsp := h.sound.sp_of_at h.ordered h.waiting h.frame h.here hsteps hend hks hat
    have hempty := h.empty
    have hpos := h.sound.sp_of_first h.waiting h.here.ip hnext₂
    exact ⟨m₂, .single hnext₂, hsteps₂, by omega⟩
  -- the program was left by a return
  · obtain rfl : i = .returnValue := hreturn.resolve_right fun hnull =>
      hsound₀.waiting_of_enclosed habout (.inr hnull) hlast
    have habove : _ + 1 ≤ m₀.sp := (hsound₀.above habout).1
    have hfinish : Ensures (Exec.execute .returnValue) (behind m₀ .returnValue)
        (fun _ m' => m'.sp < m₀.sp) fun _ _ => True := by
      refine sp_of_finish hsound₀.values.stackSize hsound₀.values.sp ?_ ?_
      · show 0 < m₀.sp
        omega
      · show m₀.callers.back? = none
        rw [waiting_eq_nil.1 hlast]
        rfl
    exact ⟨m₀, hsteps₀, .single hnext₀, hfinish.of_ok (hnext₀.execute habout)⟩

/-- The result of a program that is not empty is the same on the other stack. -/
theorem Starts.same_lastPopped {m₂' : Machine} (h : Starts g is m) (hne : is ≠ [])
    (hstack : StandsIn low m stack) (hsteps : Steps m m₁) (hend : Exec.step m₁ = .ok false m')
    (hsteps' : Steps (m.withStack stack) m₂) (hend' : Exec.step m₂ = .ok false m₂') :
    m₂'.lastPopped = m'.lastPopped := by
  obtain ⟨m₀, hsteps₀, hmore, hlt⟩ := h.higher_of_ended hne hsteps hend
  obtain ⟨stack₀, hother₀, hstack₀⟩ := h.sound.same_steps hstack hsteps₀
  have hsound₀ := (h.sound.steps hsteps₀).1
  -- the slot of the result is in use here, so it can be compared until the end
  obtain ⟨stack₁, hother₁, hstack₁⟩ := hsound₀.same_steps hstack₀.raise hmore
  have hsound₁ := (h.sound.steps hsteps).1
  obtain ⟨rfl, -⟩ := hsound₁.ended (h.sound.ordered h.ordered hsteps) hend
  rcases hsound₁.same_step hstack₁ with
    ⟨more, m₃, stack₃, hm, hn, hstack₃⟩ | ⟨halt, m₃, stack₃, hm, -⟩
  · cases hend.symm.trans hm
    rw [ended_unique hsteps' hend' (hother₀.trans hother₁) hn]
    show (stack₃[m'.sp]?).getD .null = (m'.stack[m'.sp]?).getD .null
    rw [hstack₃.slots m'.sp (.inl hlt)]
  · cases hend.symm.trans hm

end Machine

open Machine

/-- How a compiled program starts. -/
theorem Session.Sound.starts {session session' : Session} {program : Program}
    {bytecode : Bytecode} (h : session.Sound)
    (hcompile : session.compile program = (.ok bytecode, session')) :
    ∃ is, StmtsCode session.stage 0 program is session'.stage ∧
      Starts session'.table.definitions is
        (Machine.load bytecode session'.globals session'.host) := by
  obtain ⟨-, hload, hconstants⟩ := h.load hcompile
  obtain ⟨is, hcode, hframe⟩ := h.frame_load hcompile
  rw [← hconstants] at hframe
  exact ⟨is, hcode,
    { sound := hload
      ordered := ordered_load ..
      waiting := rfl
      frame := hframe
      here := ⟨List.nil_prefix, rfl, rfl⟩
      empty := (Nat.zero_add _).trans (hcode.flows [] rfl).2.1 }⟩

/-- A program that was compiled in a reachable session does not see what is on the stack before it
runs.  With any other stack, a run of it comes to the same state whatever the number of steps it is
allowed, except for slots that are not in use.  So it ends in the same way, and with the same result
unless the program is empty. -/
theorem Session.Reachable.dead_slots_unseen {session session' : Session} {program : Program}
    {bytecode : Bytecode} {m : Machine} {stack : Array Value} (hsession : session.Reachable)
    (hcompile : session.compile program = (.ok bytecode, session'))
    (hm : m = Machine.load bytecode session'.globals session'.host)
    (hsize : stack.size = stackSize) :
    (∀ fuel, ∃ stack', StandsIn 0 (m.runFor fuel).2 stack' ∧
      (m.withStack stack).runFor fuel =
        ((m.runFor fuel).1, (m.runFor fuel).2.withStack stack')) ∧
    (∃ least result, (result = .ok () ∨ ∃ e, result = .error (.error e)) ∧ ∀ fuel, least ≤ fuel →
      (m.runFor fuel).1 = result ∧ ((m.withStack stack).runFor fuel).1 = result) ∧
    (program ≠ [] → ∀ fuel, (m.runFor fuel).1 = .ok () →
      ((m.withStack stack).runFor fuel).2.lastPopped = (m.runFor fuel).2.lastPopped) := by
  obtain ⟨is, hcode, hstarts⟩ := hsession.soundSession.starts hcompile
  have hnone : ∀ k, k < 0 ∨ k < m.sp → stack[k]? = m.stack[k]? := by
    intro k hk
    rw [hm] at hk
    exact absurd (hk.elim id id) (Nat.not_lt_zero k)
  rw [← hm] at hstarts
  have hstack : StandsIn 0 m stack :=
    ⟨hstarts.sound.values.stackSize, hsize, hstarts.sound.values.sp, hnone⟩
  have hruns := hstarts.sound.same_runFor hstack
  refine ⟨hruns, ?_, fun hprogram fuel hok => ?_⟩
  · obtain ⟨least, result, m', hresult, hleast⟩ := hstarts.sound.runFor_ends
    refine ⟨least, result, hresult, fun fuel hfuel => ?_⟩
    obtain ⟨stack', -, hother⟩ := hruns fuel
    rw [hother, hleast fuel hfuel]
    exact ⟨rfl, rfl⟩
  · obtain ⟨stack', -, hother⟩ := hruns fuel
    obtain ⟨m₁, hsteps, hend⟩ := runFor_ok (Prod.ext hok rfl)
    obtain ⟨m₂, hsteps', hend'⟩ := runFor_ok (Prod.ext ((congrArg Prod.fst hother).trans hok) rfl)
    obtain ⟨first, rest, rfl⟩ := List.exists_cons_of_ne_nil hprogram
    exact hstarts.same_lastPopped hcode.ne_nil hstack hsteps hend hsteps' hend'

/-- A function with a local that a branch would have set. -/
def skippedLocal : Program :=
  [.eval (.call (.function none []
    [.eval (.conditional (.boolean false) [.bind "a" (.integer 1)] none),
      .eval (.identifier "a")]) [])]

/-- The local is `null`, though there is something else in all slots of the stack. -/
theorem skippedLocal_null : ∃ bytecode session', ∃ m : Machine,
    Session.start.compile skippedLocal = (.ok bytecode, session') ∧
      m = (Machine.load bytecode session'.globals session'.host).withStack
        (Array.replicate stackSize (.integer 7)) ∧
      (m.runFor 20).1 = .ok () ∧ (m.runFor 20).2.lastPopped.kind = .null := by
  have hok : (Session.start.compile skippedLocal).1.toOption.map (fun bytecode =>
      let run := (Machine.load bytecode (Session.start.compile skippedLocal).2.globals
        (Session.start.compile skippedLocal).2.host).runFor 20
      (run.1, run.2.lastPopped.kind)) = some (.ok (), .null) := by
    decide +kernel
  cases hcompile : Session.start.compile skippedLocal with
  | mk result session' =>
    rw [hcompile] at hok
    cases result with
    | error e => cases hok
    | ok bytecode =>
      obtain ⟨hresult, hkind⟩ := Prod.mk.inj (Option.some.inj hok)
      obtain ⟨hruns, -, hlast⟩ := Session.Reachable.dead_slots_unseen .start hcompile rfl
        (Array.size_replicate : (Array.replicate stackSize (Value.integer 7)).size = stackSize)
      obtain ⟨stack', -, hother⟩ := hruns 20
      refine ⟨bytecode, session', _, rfl, rfl, ?_, ?_⟩
      · rw [hother]
        exact hresult
      · rw [hlast (by decide) 20 hresult]
        exact hkind

end Scriptlet
