import Scriptlet.Proofs.Safety

/-!
# What an instruction leaves alone

Most instructions only read the machine until they push their result.  Said once for all of them,
this tells which slots of the stack and which global slots a step can write.

* `Exec.Quiet` is a part of a step that moves the stack pointer and uses stamps, and does nothing
  else, even if it fails.
* `Exec.Pushing` is quiet up to one value that is pushed at its end.  `Exec.pushing_execute` lists
  the instructions for which this is all.
* The rest are the instructions that store, jump, call and return.  Each has its own lemma, and
  `Exec.execute_globals` and `Machine.Sound.spares` sum up what they do to the global slots and to
  the slots of the stack.
-/

namespace Scriptlet

open Code

namespace Machine

namespace Exec

variable {α β : Type} {m m' : Machine} {i : Instruction} {v : Value} {n : Nat}

/-- A state that differs only in the stack pointer and in the host. -/
def Still (m m' : Machine) : Prop := ∃ sp host, m' = { m with sp := sp, host := host }

/-- A state with one more value, which is the topmost. -/
def Pushed (m m' : Machine) : Prop :=
  ∃ v sp host, m' = { m with
    stack := m.stack.setIfInBounds sp v, sp := sp + 1, host := host }

theorem Still.refl (m : Machine) : Still m m := ⟨m.sp, m.host, rfl⟩

theorem Still.trans {m₁ : Machine} (h : Still m m₁) (h' : Still m₁ m') : Still m m' := by
  obtain ⟨_, _, rfl⟩ := h
  obtain ⟨sp, host, rfl⟩ := h'
  exact ⟨sp, host, rfl⟩

theorem Still.pushed {m₁ : Machine} (h : Still m m₁) (h' : Pushed m₁ m') : Pushed m m' := by
  obtain ⟨_, _, rfl⟩ := h
  obtain ⟨v, sp, host, rfl⟩ := h'
  exact ⟨v, sp, host, rfl⟩

/-- A part of a step that changes nothing but the stack pointer and the host. -/
def Quiet (x : Exec α) : Prop :=
  ∀ m, Ensures x m (fun _ m' => Still m m') (fun _ m' => Still m m')

/-- A part of a step that changes nothing but the stack pointer and the host, and pushes a value at
its end. -/
def Pushing (x : Exec Unit) : Prop :=
  ∀ m, Ensures x m (fun _ m' => Pushed m m') (fun _ m' => Still m m')

theorem Quiet.bind {x : Exec α} {f : α → Exec β} (hx : Quiet x) (hf : ∀ a, Quiet (f a)) :
    Quiet (x >>= f) := by
  intro m
  refine ensures_bind ((hx m).mono (fun a m₁ h₁ => ?_) fun _ _ h₁ => h₁)
  exact (hf a m₁).mono (fun _ _ h₂ => h₁.trans h₂) fun _ _ h₂ => h₁.trans h₂

theorem Quiet.pushing {x : Exec α} {f : α → Exec Unit} (hx : Quiet x) (hf : ∀ a, Pushing (f a)) :
    Pushing (x >>= f) := by
  intro m
  refine ensures_bind ((hx m).mono (fun a m₁ h₁ => ?_) fun _ _ h₁ => h₁)
  exact (hf a m₁).mono (fun _ _ h₂ => h₁.pushed h₂) fun _ _ h₂ => h₁.trans h₂

theorem quiet_pure (a : α) : Quiet (pure a) := fun m => Still.refl m

theorem quiet_fail (e : Error) : Quiet (fail e : Exec α) := fun m => Still.refl m

theorem pushing_fail (e : Error) : Pushing (fail e) := fun m => Still.refl m

theorem quiet_get : Quiet (get : Exec Machine) := fun m => Still.refl m

theorem quiet_lift (x : Except Error α) : Quiet (lift x) := by
  cases x with
  | ok a => exact quiet_pure a
  | error e => exact quiet_fail e

theorem quiet_inBounds (a? : Option α) : Quiet (inBounds a?) := by
  cases a? with
  | some a => exact quiet_pure a
  | none => exact fun m => Still.refl m

theorem pop_exact : Ensures pop m
    (fun v m' => m.top? = some v ∧ m' = { m with sp := m.sp - 1 }) (fun _ m' => m' = m) := by
  unfold Ensures pop
  by_cases hsp : m.sp = 0
  · rw [if_pos hsp]
  · rw [if_neg hsp]
    cases hget : m.stack[m.sp - 1]? with
    | none => rfl
    | some v =>
      refine ⟨?_, rfl⟩
      rw [top?, if_neg hsp, hget]

theorem quiet_pop : Quiet pop := by
  intro m
  refine pop_exact.mono (fun v m' h => ?_) fun _ m' h => ?_
  · exact ⟨m.sp - 1, m.host, h.2⟩
  · exact h ▸ Still.refl m

theorem quiet_topmost (count : Nat) : Quiet (topmost count) := by
  intro m
  unfold Ensures topmost
  by_cases hcount : count ≤ m.sp
  · rw [if_pos hcount]
    by_cases hsp : m.sp ≤ m.stack.size
    · rw [if_pos hsp]
      exact Still.refl m
    · rw [if_neg hsp]
      exact Still.refl m
  · rw [if_neg hcount]
    exact Still.refl m

theorem quiet_drop (count : Nat) : Quiet (drop count) := by
  intro m
  unfold Ensures drop
  by_cases hcount : count ≤ m.sp
  · rw [if_pos hcount]
    exact ⟨_, _, rfl⟩
  · rw [if_neg hcount]
    exact Still.refl m

theorem quiet_make (value : Stamp → Value) : Quiet (make value) := fun m => ⟨m.sp, m.host.used, rfl⟩

theorem quiet_used : Quiet (modify fun m => { m with host := m.host.used }) :=
  fun m => ⟨m.sp, m.host.used, rfl⟩

theorem quiet_localSlot (op : Op) (index : Nat) : Quiet (localSlot op index) := by
  refine quiet_get.bind fun m => ?_
  dsimp only
  split
  · exact quiet_pure _
  · exact quiet_fail _

theorem push_exact (v : Value) : Ensures (push v) m
    (fun _ m' => m' = { m with stack := m.stack.setIfInBounds m.sp v, sp := m.sp + 1 })
    (fun _ m' => m' = m) := by
  unfold Ensures push
  by_cases hfull : stackSize ≤ m.sp
  · rw [if_pos hfull]
  · rw [if_neg hfull]
    by_cases hsp : m.sp < m.stack.size
    · rw [if_pos hsp]
    · rw [if_neg hsp]

theorem pushing_push (v : Value) : Pushing (push v) := by
  intro m
  refine (push_exact v).mono (fun _ m' h => ?_) fun _ m' h => ?_
  · exact ⟨v, m.sp, m.host, h⟩
  · exact h ▸ Still.refl m

theorem pushing_arithmetic (op : Op) : Pushing (arithmetic op) :=
  quiet_pop.pushing fun _ => quiet_pop.pushing fun _ => quiet_get.pushing fun _ =>
    (quiet_lift _).pushing fun _ => quiet_used.pushing fun _ => pushing_push _

theorem pushing_comparison (op : Op) : Pushing (comparison op) :=
  quiet_pop.pushing fun _ => quiet_pop.pushing fun _ => (quiet_lift _).pushing fun _ =>
    pushing_push _

theorem pushing_callBuiltin (function : Builtin) (count : Nat) :
    Pushing (callBuiltin function count) := by
  refine (quiet_topmost _).pushing fun arguments => Quiet.pushing (fun m => ?_) fun answer =>
    (quiet_drop _).pushing fun _ => pushing_push answer
  exact ⟨m.sp, _, rfl⟩

theorem pushing_makeClosure (index count : Nat) : Pushing (makeClosure index count) := by
  refine quiet_get.pushing fun m => ?_
  split
  · exact (quiet_topmost _).pushing fun _ => (quiet_drop _).pushing fun _ =>
      (quiet_make _).pushing fun _ => pushing_push _
  · exact pushing_fail _
  · exact pushing_fail _

/-- An instruction that stays in its frame and leaves a value does nothing but push that value. -/
theorem pushing_execute (hplain : i.leads = false) (hpushes : i.pushes = 1) :
    Pushing (execute i) := by
  cases i with
  | constant index =>
    refine quiet_get.pushing fun m => ?_
    split
    · exact pushing_push _
    · exact pushing_fail _
  | add => exact pushing_arithmetic .add
  | sub => exact pushing_arithmetic .sub
  | mul => exact pushing_arithmetic .mul
  | div => exact pushing_arithmetic .div
  | equal => exact pushing_comparison .equal
  | notEqual => exact pushing_comparison .notEqual
  | greaterThan => exact pushing_comparison .greaterThan
  | pushTrue => exact pushing_push _
  | pushFalse => exact pushing_push _
  | pushNull => exact pushing_push _
  | bang => exact quiet_pop.pushing fun _ => pushing_push _
  | minus => exact quiet_pop.pushing fun _ => (quiet_lift _).pushing fun _ => pushing_push _
  | getGlobal index =>
    exact quiet_get.pushing fun _ => (quiet_inBounds _).pushing fun _ => pushing_push _
  | getLocal index =>
    exact (quiet_localSlot _ _).pushing fun _ => quiet_get.pushing fun _ =>
      (quiet_inBounds _).pushing fun _ => pushing_push _
  | getBuiltin index =>
    simp only [execute]
    split
    · exact pushing_push _
    · exact pushing_fail _
  | getFree index =>
    refine quiet_get.pushing fun m => ?_
    split
    · exact pushing_push _
    · exact pushing_fail _
  | currentClosure => exact quiet_get.pushing fun _ => pushing_push _
  | array count =>
    exact (quiet_topmost _).pushing fun _ => (quiet_drop _).pushing fun _ =>
      (quiet_make _).pushing fun _ => pushing_push _
  | hash count =>
    exact (quiet_topmost _).pushing fun _ => (quiet_lift _).pushing fun _ =>
      (quiet_drop _).pushing fun _ => (quiet_make _).pushing fun _ => pushing_push _
  | index =>
    exact quiet_pop.pushing fun _ => quiet_pop.pushing fun _ => (quiet_lift _).pushing fun _ =>
      pushing_push _
  | closure index count => exact pushing_makeClosure index count
  | call count => cases hplain
  | jump target => cases hplain
  | jumpNotTruthy target => cases hplain
  | returnValue => cases hplain
  | returnNull => cases hplain
  | pop => cases hpushes
  | setGlobal index => cases hpushes
  | setLocal index => cases hpushes

/-! ## Stores, jumps, calls and returns -/

theorem execute_setGlobal (index : Nat) : Ensures (execute (.setGlobal index)) m
    (fun _ m' => ∃ v sp host, m' = { m with
      sp := sp, host := host, globals := m.globals.setIfInBounds index v })
    (fun _ m' => Still m m') := by
  refine ensures_bind ((quiet_pop m).mono (fun v m₁ h₁ => ?_) fun _ _ h₁ => h₁)
  obtain ⟨sp, host, rfl⟩ := h₁
  refine ensures_bind (ensures_get ?_)
  by_cases hindex : index < m.globals.size
  · rw [if_pos hindex]
    exact ensures_modify ⟨v, sp, host, rfl⟩
  · rw [if_neg hindex]
    exact ⟨sp, host, rfl⟩

theorem execute_setLocal (index : Nat) : Ensures (execute (.setLocal index)) m
    (fun _ m' => ∃ v sp host, m' = { m with
      sp := sp, host := host, stack := m.stack.setIfInBounds (m.frame.base + index) v })
    (fun _ m' => Still m m') := by
  refine ensures_bind (ensures_bind (ensures_get ?_))
  dsimp only
  by_cases hslot : m.frame.base + index < stackSize
  · rw [if_pos hslot]
    refine ensures_bind ((quiet_pop m).mono (fun v m₁ h₁ => ?_) fun _ _ h₁ => h₁)
    obtain ⟨sp, host, rfl⟩ := h₁
    refine ensures_bind (ensures_get ?_)
    by_cases hsize : m.frame.base + index < m.stack.size
    · rw [if_pos hsize]
      exact ensures_modify ⟨v, sp, host, rfl⟩
    · rw [if_neg hsize]
      exact ⟨sp, host, rfl⟩
  · rw [if_neg hslot]
    exact Still.refl m

theorem execute_jumpNotTruthy (target : Nat) : Ensures (execute (.jumpNotTruthy target)) m
    (fun _ m' => ∃ sp host ip, m' = { m with
      sp := sp, host := host, frame := { m.frame with ip := ip } }) (fun _ m' => Still m m') := by
  refine ensures_bind ((quiet_pop m).mono (fun v m₁ h₁ => ?_) fun _ _ h₁ => h₁)
  obtain ⟨sp, host, rfl⟩ := h₁
  split
  · exact ⟨sp, host, target, rfl⟩
  · exact ⟨sp, host, m.frame.ip, rfl⟩

/-- The state in which the body of a function starts. -/
def enter (m : Machine) (stamp : Stamp) (r : Routine) (free : List Value) (count : Nat) : Machine :=
  { m with
    stack := clear m.stack m.sp (m.sp - count + r.locals - m.sp)
    sp := m.sp - count + r.locals
    frame := ⟨stamp, r, free, 0, m.sp - count⟩
    callers := m.callers.push m.frame }

theorem callClosure_enter (stamp : Stamp) (r : Routine) (free : List Value) (count : Nat) :
    Ensures (callClosure stamp r free count) m (fun _ m' => m' = enter m stamp r free count)
      (fun _ m' => m' = m) := by
  unfold Ensures callClosure
  by_cases hcount : count ≠ r.parameters
  · rw [if_pos hcount]
  rw [if_neg hcount]
  by_cases hdepth : maxFrames ≤ m.depth
  · rw [if_pos hdepth]
  rw [if_neg hdepth]
  by_cases harguments : m.sp < count
  · rw [if_pos harguments]
  rw [if_neg harguments]
  dsimp only
  by_cases hroom : stackSize < m.sp - count + r.locals
  · rw [if_pos hroom]
  rw [if_neg hroom]
  by_cases hsize : m.stack.size < m.sp - count + r.locals
  · rw [if_pos hsize]
  · rw [if_neg hsize]
    rfl

/-- A call of a closure starts its body; any other call pushes an answer. -/
theorem call_enter (count : Nat) : Ensures (call count) m
    (fun _ m' => (∃ function, m.stack[m.sp - (count + 1)]? = some (.builtin function) ∧
        Pushed m m') ∨
      ∃ stamp r free, m.stack[m.sp - (count + 1)]? = some (.closure stamp r free) ∧
        count + 1 ≤ m.sp ∧ m' = enter m stamp r free count)
    (fun _ m' => Still m m') := by
  refine ensures_bind (ensures_get ?_)
  by_cases hsp : m.sp < count + 1
  · rw [if_pos hsp]
    exact Still.refl m
  rw [if_neg hsp]
  refine ensures_bind ?_
  cases hcallee : m.stack[m.sp - (count + 1)]? with
  | none => exact Still.refl m
  | some callee =>
    cases callee with
    | closure stamp r free =>
      refine (callClosure_enter stamp r free count).mono (fun _ m' h => ?_) fun _ m' h => ?_
      · exact .inr ⟨stamp, r, free, rfl, Nat.le_of_not_lt hsp, h⟩
      · exact h ▸ Still.refl m
    | builtin function =>
      refine (pushing_callBuiltin function count m).mono (fun _ _ h => ?_) fun _ _ h => h
      exact .inl ⟨function, rfl, h⟩
    | _ => exact Still.refl m

/-- The state after the running call has come back with a value. -/
def comeBack (m : Machine) (caller : Frame) (v : Value) : Machine :=
  { m with
    stack := m.stack.setIfInBounds (m.frame.base - 1) v
    sp := m.frame.base - 1 + 1
    frame := caller
    callers := m.callers.pop }

/-- The state after the program itself has returned a value. -/
def comeToEnd (m : Machine) (v : Value) : Machine :=
  { m with
    stack := m.stack.setIfInBounds m.sp v
    frame := { m.frame with ip := m.frame.routine.code.size } }

/-- The state in which an instruction has failed: nothing is written. -/
def Unwritten (m m' : Machine) : Prop := m'.globals = m.globals ∧ m'.stack = m.stack

theorem Still.unwritten (h : Still m m') : Unwritten m m' := by
  obtain ⟨sp, host, rfl⟩ := h
  exact ⟨rfl, rfl⟩

/-- A return leads back to the caller, or to the end of the program if there is none. -/
theorem returnWith_comeBack (v : Value) : Ensures (returnWith v) m
    (fun _ m' => (∃ caller, m.callers.back? = some caller ∧ m' = comeBack m caller v) ∨
      m.callers.back? = none ∧ m' = comeToEnd m v)
    (fun _ m' => Unwritten m m') := by
  refine ensures_bind (ensures_get (ensures_bind (ensures_get ?_)))
  cases hback : m.callers.back? with
  | none =>
    refine ensures_bind ((push_exact v).mono (fun _ m₁ h₁ => ?_) fun _ m₁ h₁ => ?_)
    · rw [h₁]
      refine ensures_bind (ensures_drop (Nat.le_add_left 1 m.sp) ?_)
      exact .inr ⟨rfl, rfl⟩
    · rw [h₁]
      exact ⟨rfl, rfl⟩
  | some caller =>
    refine ensures_bind (ensures_modify ?_)
    by_cases hbase : m.frame.base = 0
    · rw [if_pos hbase]
      exact ⟨rfl, rfl⟩
    rw [if_neg hbase]
    refine ensures_bind (ensures_modify ?_)
    refine (push_exact v).mono (fun _ m₁ h₁ => ?_) fun _ m₁ h₁ => ?_
    · exact .inl ⟨caller, rfl, h₁⟩
    · rw [h₁]
      exact ⟨rfl, rfl⟩

/-- The value that a return hands over. -/
def handsOver (m : Machine) : Instruction → Option Value
  | .returnValue => m.top?
  | .returnNull => some .null
  | _ => none

theorem execute_return (hreturn : i = .returnValue ∨ i = .returnNull) : Ensures (execute i) m
    (fun _ m' => ∃ v, handsOver m i = some v ∧
      ((∃ caller, m.callers.back? = some caller ∧ m' = comeBack m caller v) ∨
        m.callers.back? = none ∧ m' = comeToEnd { m with sp := m.sp - i.pops } v))
    (fun _ m' => Unwritten m m') := by
  rcases hreturn with rfl | rfl
  · refine ensures_bind (pop_exact.mono (fun v m₁ h₁ => ?_) fun _ m₁ h₁ => ?_)
    · obtain ⟨htop, rfl⟩ := h₁
      exact (returnWith_comeBack v).mono (fun _ m' h => ⟨v, htop, h⟩) fun _ _ h => h
    · rw [h₁]
      exact ⟨rfl, rfl⟩
  · exact (returnWith_comeBack .null).mono (fun _ m' h => ⟨.null, rfl, h⟩) fun _ _ h => h

/-- Only one instruction writes a global slot, and an instruction that fails writes nothing. -/
theorem execute_globals (i : Instruction) : Ensures (execute i) m
    (fun _ m' => m'.globals = m.globals ∨
      ∃ n v, i = .setGlobal n ∧ m'.globals = m.globals.setIfInBounds n v)
    (fun _ m' => Unwritten m m') := by
  have hpushed : ∀ {m'}, Pushed m m' → m'.globals = m.globals := by
    rintro m' ⟨v, sp, host, rfl⟩
    rfl
  by_cases hpushes : i.leads = false ∧ i.pushes = 1
  · exact (pushing_execute hpushes.1 hpushes.2 m).mono (fun _ _ h => .inl (hpushed h))
      fun _ _ h => h.unwritten
  by_cases hreturn : i = .returnValue ∨ i = .returnNull
  · refine (execute_return hreturn).mono (fun _ m' h => .inl ?_) fun _ _ h => h
    obtain ⟨v, -, ⟨caller, -, rfl⟩ | ⟨-, rfl⟩⟩ := h
    · rfl
    · rfl
  cases i with
  | pop =>
    refine ensures_bind ((quiet_pop m).mono (fun _ _ h => ?_) fun _ _ h => h.unwritten)
    exact .inl h.unwritten.1
  | setGlobal index =>
    refine (execute_setGlobal index).mono (fun _ m' h => ?_) fun _ _ h => h.unwritten
    obtain ⟨v, sp, host, rfl⟩ := h
    exact .inr ⟨index, v, rfl, rfl⟩
  | setLocal index =>
    refine (execute_setLocal index).mono (fun _ m' h => ?_) fun _ _ h => h.unwritten
    obtain ⟨v, sp, host, rfl⟩ := h
    exact .inl rfl
  | jump target => exact .inl rfl
  | jumpNotTruthy target =>
    refine (execute_jumpNotTruthy target).mono (fun _ m' h => ?_) fun _ _ h => h.unwritten
    obtain ⟨sp, host, ip, rfl⟩ := h
    exact .inl rfl
  | call count =>
    refine (call_enter count).mono (fun _ m' h => .inl ?_) fun _ _ h => h.unwritten
    rcases h with ⟨function, -, h⟩ | ⟨stamp, r, free, -, -, rfl⟩
    · exact hpushed h
    · rfl
  | returnValue => exact absurd (.inl rfl) hreturn
  | returnNull => exact absurd (.inr rfl) hreturn
  | _ => exact absurd ⟨rfl, rfl⟩ hpushes

/-- What a step does to the global slots. -/
theorem step_globals (m : Machine) : Ensures Exec.step m
    (fun _ m' => m'.globals = m.globals ∨
      ∃ n v, m.About (.setGlobal n) ∧ m'.globals = m.globals.setIfInBounds n v)
    (fun _ m' => Unwritten m m') := by
  refine ensures_step_anywhere (.inl rfl) (fun _ => ⟨rfl, rfl⟩) fun i hfetch => ?_
  refine (execute_globals i).mono (fun _ m' h => ?_) fun _ _ h => h
  rcases h with h | ⟨n, v, rfl, h⟩
  · exact .inl h
  · exact .inr ⟨n, v, hfetch, h⟩

end Exec

end Machine

end Scriptlet
