import Mathlib.Logic.Relation
import Scriptlet.Proofs.Fetching

/-!
# Steps of the machine

* `Machine.Steps` is the machine making any number of steps.  `Machine.runFor_ok` and
  `Machine.runFor_error` say what a run with a bound on its steps is: steps up to a state that has
  no next one, or up to one whose next step fails.
* `Exec.Ensures` states what holds after a part of a step, both if it comes to a result and if it
  fails.  There is one rule for a sequence of parts and one for each of the parts that the
  instructions are made of, so that a fact about an instruction is proved along its definition.
* `Exec.ensures_fetched` leads from a step to the instruction at the position, which is executed
  with the position already behind it.
-/

namespace Scriptlet

namespace Machine

open Exec

/-- The machine makes a step from one state to the next. -/
def Next (m m' : Machine) : Prop := Exec.step m = .ok true m'

/-- The machine makes any number of steps. -/
abbrev Steps : Machine → Machine → Prop := Relation.ReflTransGen Next

theorem run_succ_of_true {fuel : Nat} {m m' : Machine} (h : Exec.step m = .ok true m') :
    Exec.run (fuel + 1) m = Exec.run fuel m' := by
  unfold Exec.run
  rw [bind_of_ok h]
  cases fuel <;> rfl

theorem run_succ_of_false {fuel : Nat} {m m' : Machine} (h : Exec.step m = .ok false m') :
    Exec.run (fuel + 1) m = .ok () m' := by
  unfold Exec.run
  rw [bind_of_ok h]
  rfl

theorem run_succ_of_error {fuel : Nat} {m m' : Machine} {halt : Halt}
    (h : Exec.step m = .error halt m') : Exec.run (fuel + 1) m = .error halt m' := by
  unfold Exec.run
  rw [bind_of_error h]

/-- A run that ends has made steps to a state that has no next one. -/
theorem run_ok {fuel : Nat} {m m' : Machine} {u : Unit} (h : Exec.run fuel m = .ok u m') :
    ∃ m₁, Steps m m₁ ∧ Exec.step m₁ = .ok false m' := by
  induction fuel generalizing m with
  | zero => cases h
  | succ fuel ih =>
    cases hstep : Exec.step m with
    | error halt m₁ =>
      rw [run_succ_of_error hstep] at h
      cases h
    | ok more m₁ =>
      cases more with
      | false =>
        rw [run_succ_of_false hstep] at h
        cases h
        exact ⟨m, .refl, hstep⟩
      | true =>
        rw [run_succ_of_true hstep] at h
        obtain ⟨m₂, hsteps, hend⟩ := ih h
        exact ⟨m₂, .head hstep hsteps, hend⟩

/-- A run that fails has made as many steps as it was allowed, or steps to a state whose next step
fails. -/
theorem run_error {fuel : Nat} {m m' : Machine} {halt : Halt}
    (h : Exec.run fuel m = .error halt m') :
    ∃ m₁, Steps m m₁ ∧ (halt = .outOfFuel ∧ m' = m₁ ∨ Exec.step m₁ = .error halt m') := by
  induction fuel generalizing m with
  | zero =>
    cases h
    exact ⟨m', .refl, .inl ⟨rfl, rfl⟩⟩
  | succ fuel ih =>
    cases hstep : Exec.step m with
    | error halt' m₁ =>
      rw [run_succ_of_error hstep] at h
      cases h
      exact ⟨m, .refl, .inr hstep⟩
    | ok more m₁ =>
      cases more with
      | false =>
        rw [run_succ_of_false hstep] at h
        cases h
      | true =>
        rw [run_succ_of_true hstep] at h
        obtain ⟨m₂, hsteps, hend⟩ := ih h
        exact ⟨m₂, .head hstep hsteps, hend⟩

theorem runFor_ok {fuel : Nat} {m m' : Machine} (h : m.runFor fuel = (.ok (), m')) :
    ∃ m₁, Steps m m₁ ∧ Exec.step m₁ = .ok false m' := by
  unfold runFor at h
  split at h
  · next hrun =>
    cases h
    exact run_ok hrun
  · cases h

theorem runFor_error {fuel : Nat} {m m' : Machine} {halt : Halt}
    (h : m.runFor fuel = (.error halt, m')) :
    ∃ m₁, Steps m m₁ ∧ (halt = .outOfFuel ∧ m' = m₁ ∨ Exec.step m₁ = .error halt m') := by
  unfold runFor at h
  split at h
  · cases h
  · next hrun =>
    cases h
    exact run_error hrun

namespace Exec

variable {α β : Type} {m : Machine}

/-! ## Parts of steps -/

/-- What holds after a part of a step: `ok` if it comes to a result, `bad` if it fails. -/
def Ensures (x : Exec α) (m : Machine) (ok : α → Machine → Prop) (bad : Halt → Machine → Prop) :
    Prop :=
  match x m with
  | .ok a m' => ok a m'
  | .error halt m' => bad halt m'

variable {ok : α → Machine → Prop} {bad : Halt → Machine → Prop}

theorem Ensures.of_ok {x : Exec α} {a : α} {m' : Machine} (h : Ensures x m ok bad)
    (hx : x m = .ok a m') : ok a m' := by
  unfold Ensures at h
  rw [hx] at h
  exact h

theorem Ensures.of_error {x : Exec α} {halt : Halt} {m' : Machine} (h : Ensures x m ok bad)
    (hx : x m = .error halt m') : bad halt m' := by
  unfold Ensures at h
  rw [hx] at h
  exact h

theorem Ensures.mono {x : Exec α} {ok' : α → Machine → Prop} {bad' : Halt → Machine → Prop}
    (h : Ensures x m ok bad) (hok : ∀ a m', ok a m' → ok' a m')
    (hbad : ∀ halt m', bad halt m' → bad' halt m') : Ensures x m ok' bad' := by
  unfold Ensures at h ⊢
  split
  · next hx =>
    rw [hx] at h
    exact hok _ _ h
  · next hx =>
    rw [hx] at h
    exact hbad _ _ h

theorem Ensures.congr {x y : Exec α} (hxy : x m = y m) (h : Ensures y m ok bad) :
    Ensures x m ok bad := by
  unfold Ensures at h ⊢
  rw [hxy]
  exact h

theorem ensures_pure {a : α} (h : ok a m) : Ensures (pure a) m ok bad := h

theorem ensures_fail {e : Error} (h : bad (.error e) m) : Ensures (fail e : Exec α) m ok bad := h

theorem ensures_get {ok : Machine → Machine → Prop} (h : ok m m) : Ensures get m ok bad := h

theorem ensures_modify {f : Machine → Machine} {ok : Unit → Machine → Prop} (h : ok () (f m)) :
    Ensures (modify f) m ok bad := h

/-- A sequence of two parts. -/
theorem ensures_bind {x : Exec β} {f : β → Exec α}
    (h : Ensures x m (fun b m' => Ensures (f b) m' ok bad) bad) :
    Ensures (x >>= f) m ok bad := by
  unfold Ensures at h
  cases hx : x m with
  | ok b m' =>
    rw [hx] at h
    unfold Ensures
    rw [bind_of_ok hx]
    exact h
  | error halt m' =>
    rw [hx] at h
    unfold Ensures
    rw [bind_of_error hx]
    exact h

theorem ensures_lift {x : Except Error α} (hok : ∀ a, x = .ok a → ok a m)
    (hbad : ∀ e, x = .error e → bad (.error e) m) : Ensures (lift x) m ok bad := by
  cases x with
  | ok a => exact hok a rfl
  | error e => exact hbad e rfl

theorem ensures_push {v : Value} {ok : Unit → Machine → Prop} (hsize : m.stack.size = stackSize)
    (hok : m.sp < stackSize →
      ok () { m with stack := m.stack.setIfInBounds m.sp v, sp := m.sp + 1 })
    (hbad : bad (.error .stackOverflow) m) : Ensures (push v) m ok bad := by
  unfold Ensures push
  by_cases hfull : stackSize ≤ m.sp
  · rw [if_pos hfull]
    exact hbad
  · rw [if_neg hfull, if_pos (by omega)]
    exact hok (by omega)

theorem ensures_pop {ok : Value → Machine → Prop} (hpos : 0 < m.sp) (hsp : m.sp ≤ m.stack.size)
    (hok : ∀ v, m.stack[m.sp - 1]? = some v → ok v { m with sp := m.sp - 1 }) :
    Ensures pop m ok bad := by
  have hlt : m.sp - 1 < m.stack.size := by omega
  have hget := Array.getElem?_eq_getElem hlt
  unfold Ensures pop
  rw [if_neg (Nat.ne_of_gt hpos), hget]
  exact hok _ hget

theorem ensures_topmost {count : Nat} {ok : List Value → Machine → Prop} (hcount : count ≤ m.sp)
    (hsp : m.sp ≤ m.stack.size) (hok : ok (m.stack.extract (m.sp - count) m.sp).toList m) :
    Ensures (topmost count) m ok bad := by
  unfold Ensures topmost
  rw [if_pos hcount, if_pos hsp]
  exact hok

theorem ensures_drop {count : Nat} {ok : Unit → Machine → Prop} (hcount : count ≤ m.sp)
    (hok : ok () { m with sp := m.sp - count }) : Ensures (drop count) m ok bad := by
  unfold Ensures drop
  rw [if_pos hcount]
  exact hok

theorem ensures_make {value : Stamp → Value} {ok : Value → Machine → Prop}
    (hok : ok (value m.host.stamp) { m with host := m.host.used }) :
    Ensures (make value) m ok bad := hok

theorem ensures_inBounds {a? : Option α} (h : ∃ a, a? = some a ∧ ok a m) :
    Ensures (inBounds a?) m ok bad := by
  obtain ⟨a, rfl, ha⟩ := h
  exact ha

/-! ## Steps in assembled code -/

/-- A step executes the instruction at the position. -/
theorem step_of_fetch {i : Instruction}
    (hfetch : m.frame.routine.code.fetch m.frame.ip = .instruction i) :
    Exec.step m = (execute i >>= fun _ => pure true) (behind m i) := by
  rw [step_eq, hfetch]

/-- What holds after a step follows from what holds after the instruction at the position. -/
theorem ensures_fetched {i : Instruction} {ok : Bool → Machine → Prop}
    (hfetch : m.frame.routine.code.fetch m.frame.ip = .instruction i)
    (h : Ensures (execute i) (behind m i) (fun _ m' => ok true m') bad) :
    Ensures Exec.step m ok bad := by
  have hbind : Ensures (execute i >>= fun _ => pure true) (behind m i) ok bad := ensures_bind h
  unfold Ensures at hbind ⊢
  rw [step_of_fetch hfetch]
  exact hbind

/-- What holds after a step, whatever stands at the position. -/
theorem ensures_step_anywhere {ok : Bool → Machine → Prop}
    (hnothing : ok false m) (herror : ∀ e, bad (.error e) m)
    (hinstruction : ∀ i, m.frame.routine.code.fetch m.frame.ip = .instruction i →
      Ensures (execute i) (behind m i) (fun _ m' => ok true m') bad) :
    Ensures Exec.step m ok bad := by
  cases hfetch : m.frame.routine.code.fetch m.frame.ip with
  | instruction i => exact ensures_fetched hfetch (hinstruction i hfetch)
  | nothing =>
    unfold Ensures
    rw [step_eq, hfetch]
    exact hnothing
  | unknown byte | truncated =>
    unfold Ensures
    rw [step_eq, hfetch]
    exact herror _

/-- Behind the last instruction there is no step to make. -/
theorem step_end {is : List Instruction} (hcode : m.frame.routine.code = Code.assemble is)
    (hip : m.frame.ip = Code.extent is) : Exec.step m = .ok false m := by
  have hfetch : m.frame.routine.code.fetch m.frame.ip = .nothing := by
    rw [hcode, hip]
    exact Code.fetch_assemble_end is
  rw [step_eq, hfetch]

end Exec

end Machine

end Scriptlet
