import Scriptlet.Proofs.Footprint
import Scriptlet.Proofs.TopLevel

/-!
# Calls keep to their part of the stack

The frames of a machine share one stack.  A call has the part of it above the function that was
called; the part below belongs to the frames that wait.

* `Machine.Rises`: the locals of every frame lie above those of the frames that wait for it, with
  the function that was called in between.  This holds of every machine that runs compiled code.
* `Machine.Sound.spares`: a step writes no slot below the locals of the running frame, unless it is
  a return, and then it writes the one slot of the function that was called
  (`Machine.Sound.comesBack`).
* `Machine.Within` carries both through a call, and through the calls inside of it.
-/

namespace Scriptlet

open Code

/-- Frames that differ in their positions at most. -/
theorem Frame.eq_withIp {f f' : Frame} (h : { f with ip := 0 } = { f' with ip := 0 }) :
    f = { f' with ip := f.ip } := by
  obtain ⟨stamp, routine, free, ip, base⟩ := f
  obtain ⟨stamp', routine', free', ip', base'⟩ := f'
  cases h
  rfl

namespace Machine

open Exec

variable {g k : Nat} {i : Instruction} {m m₀ m₁ m' : Machine} {is pre post : List Instruction}

/-! ## Steps and instructions -/

theorem Next.about (h : Next m m') : ∃ i, m.About i := by
  cases hfetch : m.frame.routine.code.fetch m.frame.ip with
  | instruction i => exact ⟨i, hfetch⟩
  | _ =>
    rw [Next, step_eq, hfetch] at h
    cases h

/-- A step is the execution of the instruction at the position. -/
theorem Next.execute (h : Next m m') (habout : m.About i) :
    Exec.execute i (behind m i) = .ok () m' := by
  unfold Next at h
  rw [step_of_fetch habout] at h
  obtain ⟨_, _, hexecute, hpure⟩ := bind_eq_ok.1 h
  cases hpure
  exact hexecute

/-- A step of a sound machine starts at a point of sound code. -/
theorem Sound.stepped (h : m.Sound g) (hnext : Next m m') :
    ∃ is pre i post, m.About i ∧ m.Settled g (!m.waiting.isEmpty) is ∧ is = pre ++ i :: post ∧
      m.frame.At is pre m.sp ∧ Stepped g pre i m m' := by
  obtain ⟨i, habout⟩ := hnext.about
  obtain ⟨is, pre, post, hm, his, hat⟩ := h.about habout
  have hensures := execute_stepped h.values hm his hat h.base_pos
  exact ⟨is, pre, i, post, habout, hm, his, hat, (hensures.of_ok hnext).2⟩

/-! ## Slots that a step does not write -/

/-- The slots of the stack below a limit are the same. -/
def Spares (limit : Nat) (m m' : Machine) : Prop := ∀ k < limit, m'.stack[k]? = m.stack[k]?

theorem Spares.trans {limit : Nat} (h : Spares limit m m₁) (h' : Spares limit m₁ m') :
    Spares limit m m' := by
  intro k hk
  exact (h' k hk).trans (h k hk)

theorem Spares.mono {limit limit' : Nat} (h : Spares limit m m') (hle : limit' ≤ limit) :
    Spares limit' m m' := fun k hk => h k (Nat.lt_of_lt_of_le hk hle)

theorem spares_of_eq {limit : Nat} (h : m'.stack = m.stack) : Spares limit m m' := by
  intro k _
  rw [h]

theorem spares_of_set {limit slot : Nat} {v : Value} (h : m'.stack = m.stack.setIfInBounds slot v)
    (hslot : limit ≤ slot) : Spares limit m m' := by
  intro k hk
  rw [h, Array.getElem?_setIfInBounds_ne (by omega)]

theorem getElem?_clear_of_lt {stack : Array Value} {start count : Nat} (h : k < start) :
    (clear stack start count)[k]? = stack[k]? := by
  induction count generalizing stack start with
  | zero => rfl
  | succ count ih =>
    rw [clear, ih (Nat.lt_succ_of_lt h), Array.getElem?_setIfInBounds_ne (by omega)]

/-- A value that is pushed lies above the locals. -/
theorem Moves.lt_of_pushes (h : Moves g pre i m m') (hpushes : i.pushes = 1)
    (hcallers : m'.callers = m.callers) : m.frame.base + m.frame.routine.locals < m'.sp := by
  cases h with
  | next _ _ hsp =>
    rw [depth_concat] at hsp
    omega
  | jump ht _ _ _ =>
    cases i with
    | jump t => cases hpushes
    | jumpNotTruthy t => cases hpushes
    | _ => cases ht
  | call _ _ hpush _ _ _ =>
    have hsize := congrArg Array.size (hcallers.symm.trans hpush)
    rw [Array.size_push] at hsize
    omega
  | ret hpush _ _ _ =>
    have hsize := congrArg Array.size (hcallers.trans hpush)
    rw [Array.size_push] at hsize
    omega
  | finish _ _ _ hreturn =>
    rcases hreturn with rfl | rfl
    · cases hpushes
    · cases hpushes

theorem Pushed.spares (h : Pushed (behind m i) m') (hmoves : Moves g pre i m m')
    (hpushes : i.pushes = 1) : Spares m.frame.base m m' := by
  obtain ⟨v, sp, host, rfl⟩ := h
  have hsp := hmoves.lt_of_pushes hpushes rfl
  refine spares_of_set rfl ?_
  have hlt : m.frame.base + m.frame.routine.locals < sp + 1 := hsp
  omega

/-- A step that does not return writes no slot below the locals of the running frame. -/
theorem Sound.spares (h : m.Sound g) (hnext : Next m m') (hdepth : m.depth ≤ m'.depth) :
    Spares m.frame.base m m' := by
  obtain ⟨is, pre, i, post, habout, hm, his, hat, hstepped⟩ := h.stepped hnext
  have hexecute := hnext.execute habout
  obtain ⟨free, -, hcode⟩ := hm.frame.body
  have hpops : i.pops ≤ Code.depth pre := (hcode.flows.sits his).pops
  have htop := hat.top
  by_cases hpushes : i.leads = false ∧ i.pushes = 1
  · have hpushed := (pushing_execute hpushes.1 hpushes.2 (behind m i)).of_ok hexecute
    exact Pushed.spares hpushed hstepped.moves hpushes.2
  by_cases hreturn : i = .returnValue ∨ i = .returnNull
  · obtain ⟨v, -, ⟨caller, hback, rfl⟩ | ⟨-, rfl⟩⟩ := (execute_return hreturn).of_ok hexecute
    · obtain ⟨callers, hcallers⟩ := Array.back?_eq_some_iff.1 hback
      have hle : m.callers.size + 1 ≤ m.callers.pop.size + 1 := hdepth
      have hpush : m.callers = callers.push caller := hcallers
      rw [hpush, Array.pop_push, Array.size_push] at hle
      omega
    · -- a return of the program writes the slot above those in use
      refine spares_of_set rfl ?_
      show m.frame.base ≤ m.sp - i.pops
      omega
  cases i with
  | pop =>
    obtain ⟨_, _, hpop, hpure⟩ := bind_eq_ok.1 hexecute
    cases hpure
    obtain ⟨sp, host, rfl⟩ := (quiet_pop (behind m .pop)).of_ok hpop
    exact spares_of_eq rfl
  | setGlobal index =>
    obtain ⟨v, sp, host, rfl⟩ := (execute_setGlobal index).of_ok hexecute
    exact spares_of_eq rfl
  | setLocal index =>
    obtain ⟨v, sp, host, rfl⟩ := (execute_setLocal index).of_ok hexecute
    exact spares_of_set rfl (Nat.le_add_right _ index)
  | jump target =>
    cases hexecute
    exact spares_of_eq rfl
  | jumpNotTruthy target =>
    obtain ⟨sp, host, ip, rfl⟩ := (execute_jumpNotTruthy target).of_ok hexecute
    exact spares_of_eq rfl
  | call count =>
    rcases (call_enter count).of_ok hexecute with ⟨_, -, hpushed⟩ | ⟨stamp, r, free, -, -, rfl⟩
    · exact Pushed.spares hpushed hstepped.moves rfl
    · intro k hk
      refine getElem?_clear_of_lt (Nat.lt_of_lt_of_le hk ?_)
      show m.frame.base ≤ m.sp
      omega
  | returnValue => exact absurd (.inl rfl) hreturn
  | returnNull => exact absurd (.inr rfl) hreturn
  | _ => exact absurd ⟨rfl, rfl⟩ hpushes

/-- A step that returns hands a value over to the caller. -/
theorem Sound.comesBack (h : m.Sound g) (hnext : Next m m') (hdepth : m'.depth < m.depth) :
    ∃ i v caller, m.About i ∧ handsOver m i = some v ∧ m.callers.back? = some caller ∧
      m' = comeBack m caller v := by
  obtain ⟨is, pre, i, post, habout, hm, his, hat, hstepped⟩ := h.stepped hnext
  have hreturn : i = .returnValue ∨ i = .returnNull := by
    unfold depth at hdepth
    cases hstepped.moves with
    | next _ hcallers _ =>
      rw [hcallers] at hdepth
      omega
    | jump _ _ hcallers _ =>
      rw [hcallers] at hdepth
      omega
    | call _ _ hcallers _ _ _ =>
      rw [hcallers, Array.size_push] at hdepth
      omega
    | ret _ _ _ hreturn => exact hreturn
    | finish _ _ _ hreturn => exact hreturn
  obtain ⟨v, hv, ⟨caller, hback, rfl⟩ | ⟨-, rfl⟩⟩ :=
    (execute_return hreturn).of_ok (hnext.execute habout)
  · refine ⟨i, v, caller, habout, ?_, hback, rfl⟩
    rcases hreturn with rfl | rfl
    · exact hv
    · exact hv
  · exact absurd hdepth (Nat.lt_irrefl _)

/-! ## Frames above one another -/

/-- The running frame and those that wait for it, innermost first. -/
def active (m : Machine) : List Frame := m.frame :: m.waiting

theorem length_active (m : Machine) : m.active.length = m.depth := by
  simp [active, waiting, depth]

/-- What a step can do to the frames. -/
inductive Shifts (m m' : Machine) : Prop
  /-- The running frame goes on. -/
  | stay {ip : Nat} (h : m'.active = { m.frame with ip := ip } :: m.waiting)
  /-- A frame starts above the locals of the running one. -/
  | enter {f : Frame} {ip : Nat} (h : m'.active = f :: { m.frame with ip := ip } :: m.waiting)
      (habove : m.frame.base + m.frame.routine.locals < f.base)
  /-- The running frame ends. -/
  | leave (h : m'.active = m.waiting)

theorem Moves.shifts (h : Moves g pre i m m') : Shifts m m' := by
  cases h with
  | next hframe hcallers _ => exact .stay (by rw [active, hframe, waiting, hcallers]; rfl)
  | jump _ hframe hcallers _ => exact .stay (by rw [active, hframe, waiting, hcallers]; rfl)
  | call _ _ hcallers hbase hframe _ =>
    refine .enter (by rw [active, waiting_push hcallers]; rfl) ?_
    rw [hframe]
    exact Nat.lt_add_of_pos_right hbase
  | ret hcallers hframe _ _ => exact .leave (by rw [active, hframe, waiting_push hcallers]; rfl)
  | finish hnone hcallers hframe _ =>
    exact .stay (by rw [active, hframe, waiting, hcallers, waiting, hnone])

/-- The locals of every frame lie below the function that it has called. -/
def Rises (frames : List Frame) : Prop :=
  frames.IsChain fun f caller => caller.base + caller.routine.locals < f.base

theorem Shifts.rises (h : Shifts m m') (hrises : Rises m.active) : Rises m'.active := by
  have hrest : Rises m.waiting := List.IsChain.of_cons hrises
  have hmoved : ∀ ip, Rises ({ m.frame with ip := ip } :: m.waiting) := by
    intro ip
    unfold active at hrises
    cases hwaiting : m.waiting with
    | nil => exact .singleton _
    | cons caller rest =>
      rw [hwaiting] at hrises
      exact .cons_cons (List.isChain_cons_cons.1 hrises).1 (List.isChain_cons_cons.1 hrises).2
  cases h with
  | stay h => exact h ▸ hmoved _
  | enter h habove => exact h ▸ .cons_cons habove (hmoved _)
  | leave h => exact h ▸ hrest

/-- The locals of a frame lie above those of all frames that wait for it. -/
theorem Rises.lt {f caller : Frame} {inner rest : List Frame}
    (h : Rises (f :: inner ++ caller :: rest)) : caller.base < f.base := by
  induction inner generalizing f with
  | nil =>
    have hfirst := (List.isChain_cons_cons.1 h).1
    omega
  | cons f' inner ih =>
    obtain ⟨hfirst, hrest⟩ := List.isChain_cons_cons.1 h
    have hlt := ih hrest
    omega

/-! ## Functions do not run past their end -/

/-- The frames of functions have instructions before them; the last frame is that of the program. -/
def Pending : List Frame → Prop
  | [] => True
  | f :: rest => (rest ≠ [] → f.ip < f.routine.code.size) ∧ Pending rest

theorem Settled.decodes {enclosed : Bool} (h : m.Settled g enclosed is) :
    m.frame.routine.code.DecodesTo 0 is := by
  rw [h.frame.code]
  exact decodesTo_assemble fun j hj => h.fits hj

/-- The code of a function ends in a return. -/
theorem Settled.getLast? (h : m.Settled g true is) :
    is.getLast? = some .returnValue ∨ is.getLast? = some .returnNull := by
  obtain ⟨js, free, hbytes, hfree, hcode, hreturns⟩ := (h.frame.routine rfl).body
  have his := h.decodes
  rw [hbytes] at his
  rw [hcode.decoded ⟨h.pool, h.slots, h.frame.locals, hfree⟩ his]
  exact hreturns

/-- Behind an instruction of a function that is no return there are others. -/
theorem Settled.extent_lt (h : m.Settled g true is) (his : is = pre ++ i :: post)
    (hstay : i ≠ .returnValue ∧ i ≠ .returnNull) :
    extent (pre ++ [i]) < m.frame.routine.code.size := by
  have hlast := h.getLast?
  rw [h.frame.code, size_assemble]
  cases post with
  | nil =>
    rw [his] at hlast
    simp only [List.getLast?_concat, Option.some.injEq] at hlast
    rcases hlast with hlast | hlast
    · exact absurd hlast hstay.1
    · exact absurd hlast hstay.2
  | cons j post =>
    have hpos := extent_pos (List.cons_ne_nil j post)
    have hextent : extent is = extent (pre ++ [i]) + extent (j :: post) := by
      rw [← extent_append, his]
      simp
    omega

/-- A step leaves no function behind its last instruction. -/
theorem Settled.pending_of_stepped (hm : m.Settled g (!m.waiting.isEmpty) is)
    (hpending : Pending m.active) (his : is = pre ++ i :: post)
    (hstep : Stepped g pre i m m') : Pending m'.active := by
  have hrest : Pending m.waiting := hpending.2
  have hsettled : m.waiting ≠ [] → m.Settled g true is := by
    intro hwaiting
    rwa [List.isEmpty_eq_false_iff.2 hwaiting] at hm
  have hnext : (i ≠ .returnValue ∧ i ≠ .returnNull) →
      Pending ({ m.frame with ip := extent (pre ++ [i]) } :: m.waiting) :=
    fun hstay => ⟨fun hwaiting => (hsettled hwaiting).extent_lt his hstay, hrest⟩
  cases hstep.moves with
  | next hframe hcallers _ hstay =>
    rw [active, hframe, waiting, hcallers]
    exact hnext hstay
  | @jump t ht hframe hcallers _ =>
    rw [active, hframe, waiting, hcallers]
    refine ⟨fun hwaiting => ?_, hrest⟩
    obtain ⟨free, -, hcode⟩ := hm.frame.body
    obtain ⟨before, hbefore, hextent, -, -⟩ := (hcode.flows.sits his).target t ht
    -- a jump leads to a place before the last instruction
    obtain ⟨more, hmore⟩ := hbefore
    have hne : is ≠ [] := by simp [his]
    have hpos := extent_pos (List.cons_ne_nil (is.getLast hne) [])
    show t < m.frame.routine.code.size
    rw [hm.frame.code, size_assemble, ← hextent, ← List.dropLast_append_getLast hne, ← hmore,
      extent_append, extent_append]
    omega
  | @call stamp r free hr _ hcallers _ hframe _ hcall =>
    obtain ⟨count, rfl⟩ := hcall
    rw [active, waiting_push hcallers]
    refine ⟨fun _ => ?_, hnext (by simp)⟩
    rw [hframe]
    cases hr with
    | closure _ hr _ _ =>
      obtain ⟨js, _, hbytes, -, -, hreturns⟩ := hr.body
      have hne : js ≠ [] := by
        rintro rfl
        simp at hreturns
      show 0 < r.code.size
      rw [hbytes, size_assemble]
      exact extent_pos hne
  | ret hcallers hframe _ _ =>
    rw [waiting_push hcallers] at hrest
    rw [active, hframe]
    exact hrest
  | finish hnone hcallers _ _ =>
    rw [active, waiting_eq_nil.2 hcallers]
    exact ⟨fun hne => absurd rfl hne, trivial⟩

/-- How the frames of a machine that runs compiled code lie. -/
structure Ordered (m : Machine) : Prop where
  rises : Rises m.active
  pending : Pending m.active

theorem Sound.ordered (h : m.Sound g) (hordered : m.Ordered) (hsteps : Steps m m') :
    m'.Ordered := by
  induction hsteps with
  | refl => exact hordered
  | tail hsteps hnext ih =>
    have hsound := (h.steps hsteps).1
    obtain ⟨is, pre, i, post, -, hm, his, -, hstepped⟩ := hsound.stepped hnext
    exact ⟨hstepped.moves.shifts.rises ih.rises,
      hm.pending_of_stepped ih.pending his hstepped⟩

/-- A run ends in the frame of the program, behind its last instruction. -/
theorem Sound.ended (h : m.Sound g) (hordered : m.Ordered) (hend : Exec.step m = .ok false m') :
    m' = m ∧ m.waiting = [] := by
  rcases h.stands with ⟨is, hframe, hip, hat⟩ | ⟨is, pre, i, post, hm, his, hat⟩
  · cases hend.symm.trans (step_end hframe.code hip)
    have hwaiting : m.waiting = [] := by
      by_contra hne
      have hlt := hordered.pending.1 hne
      rw [hframe.code, size_assemble, hip] at hlt
      exact absurd hlt (Nat.lt_irrefl _)
    exact ⟨rfl, hwaiting⟩
  · obtain ⟨hmore, -⟩ := (execute_stepped h.values hm his hat h.base_pos).of_ok hend
    cases hmore

/-! ## Inside of a call -/

/-- The call that started in the state `m₁` has not come back in the state `m`: its frame is still
there, and nothing below its locals has been written. -/
structure Within (m₁ m : Machine) : Prop where
  frames : ∃ inner f, m.active = inner ++ f :: m₁.waiting ∧ f.base = m₁.frame.base
  spares : Spares m₁.frame.base m₁ m

theorem Within.refl (m : Machine) : Within m m :=
  ⟨⟨[], m.frame, rfl, rfl⟩, spares_of_eq rfl⟩

theorem Within.base_le (h : Within m₁ m) (hrises : Rises m.active) :
    m₁.frame.base ≤ m.frame.base := by
  obtain ⟨⟨inner, f, hactive, hbase⟩, -⟩ := h
  rw [← hbase]
  cases inner with
  | nil =>
    obtain ⟨rfl, -⟩ := List.cons.inj hactive
    exact Nat.le_refl _
  | cons f' inner =>
    obtain ⟨rfl, -⟩ := List.cons.inj hactive
    rw [hactive] at hrises
    exact Nat.le_of_lt hrises.lt

/-- A step keeps within a call unless it leaves it. -/
theorem Within.next (h : Within m₁ m) (hsound : m.Sound g) (hrises : Rises m.active)
    (hnext : Next m m') (hdepth : m₁.depth ≤ m'.depth) : Within m₁ m' := by
  obtain ⟨is, pre, i, post, -, -, -, -, hstepped⟩ := hsound.stepped hnext
  have hbase := h.base_le hrises
  obtain ⟨⟨inner, f, hactive, hf⟩, hspares⟩ := h
  have hsize : m₁.active.length ≤ m'.active.length := by
    rw [length_active, length_active]
    exact hdepth
  -- a frame that goes on is the frame of the call or one that it has called
  have hmoved : ∀ ip, ∃ inner f, { m.frame with ip := ip } :: m.waiting = inner ++ f :: m₁.waiting ∧
      f.base = m₁.frame.base := by
    intro ip
    cases inner with
    | nil =>
      obtain ⟨rfl, hwaiting⟩ := List.cons.inj hactive
      exact ⟨[], { m.frame with ip := ip }, by rw [hwaiting]; rfl, hf⟩
    | cons f' inner =>
      obtain ⟨rfl, hwaiting⟩ := List.cons.inj hactive
      exact ⟨_ :: inner, f, by rw [hwaiting]; rfl, hf⟩
  cases hstepped.moves.shifts with
  | stay hstay =>
    refine ⟨hstay ▸ hmoved _, hspares.trans ((hsound.spares hnext ?_).mono hbase)⟩
    rw [← length_active, ← length_active, hstay]
    exact Nat.le_refl _
  | enter henter habove =>
    obtain ⟨inner', f', hactive', hf'⟩ := hmoved _
    refine ⟨⟨_ :: inner', f', henter.trans (congrArg _ hactive'), hf'⟩,
      hspares.trans ((hsound.spares hnext ?_).mono hbase)⟩
    rw [← length_active, ← length_active, henter]
    exact Nat.le_succ _
  | leave hleave =>
    cases inner with
    | nil =>
      -- the frame of the call itself would have ended
      obtain ⟨rfl, hwaiting⟩ := List.cons.inj hactive
      rw [hleave, hwaiting] at hsize
      exact absurd hsize (Nat.not_succ_le_self _)
    | cons f' inner =>
      obtain ⟨rfl, hwaiting⟩ := List.cons.inj hactive
      rw [hactive] at hrises
      have hlt := hrises.lt
      refine ⟨⟨inner, f, hleave.trans hwaiting, hf⟩, hspares.trans ?_⟩
      have hless : m'.depth < m.depth := by
        rw [← length_active, ← length_active, hleave]
        exact Nat.lt_succ_self _
      obtain ⟨_, v, caller, -, -, -, rfl⟩ := hsound.comesBack hnext hless
      refine spares_of_set rfl ?_
      omega

/-- The states of a call that has started in the state `m₁`, until it comes back. -/
def During (m₁ : Machine) : Machine → Prop :=
  Relation.ReflTransGen (fun m m' => Next m m' ∧ m₁.depth ≤ m'.depth) m₁

theorem During.steps (h : During m₁ m) : Steps m₁ m := by
  induction h with
  | refl => exact .refl
  | tail _ hnext ih => exact ih.tail hnext.1

theorem Sound.rises (h : m.Sound g) (hrises : Rises m.active) (hsteps : Steps m m') :
    Rises m'.active := by
  induction hsteps with
  | refl => exact hrises
  | tail hsteps hnext ih =>
    obtain ⟨is, pre, i, post, -, -, -, -, hstepped⟩ := (h.steps hsteps).1.stepped hnext
    exact hstepped.moves.shifts.rises ih

/-- Through all of its states, a call is within its part of the stack. -/
theorem During.within (h : During m₁ m) (hsound : m₁.Sound g) (hrises : Rises m₁.active) :
    Within m₁ m := by
  induction h with
  | refl => exact .refl m₁
  | tail hduring hnext ih =>
    have hsteps := During.steps hduring
    exact ih.next (hsound.steps hsteps).1 (hsound.rises hrises hsteps) hnext.1 hnext.2

/-- The machine calls a closure that lies below `count` arguments. -/
structure Calls (m₀ : Machine) (count : Nat) (m₁ : Machine) : Prop where
  about : m₀.About (.call count)
  callee : ∃ stamp r free, m₀.stack[m₀.sp - (count + 1)]? = some (.closure stamp r free)
  next : Next m₀ m₁

/-- A call of a closure starts its body above the function. -/
theorem Calls.enters {count : Nat} (h : Calls m₀ count m₁) :
    count + 1 ≤ m₀.sp ∧ m₁.frame.base = m₀.sp - (count + 1) + 1 ∧
      m₁.callers = m₀.callers.push (behind m₀ (.call count)).frame ∧ Spares m₀.sp m₀ m₁ := by
  obtain ⟨stamp, r, free, hcallee⟩ := h.callee
  rcases (call_enter count).of_ok (h.next.execute h.about) with
    ⟨function, hbuiltin, -⟩ | ⟨stamp', r', free', -, hsp, rfl⟩
  · cases hcallee.symm.trans hbuiltin
  · have hle : count + 1 ≤ m₀.sp := hsp
    refine ⟨hle, ?_, rfl, fun k hk => getElem?_clear_of_lt hk⟩
    show m₀.sp - count = _
    omega

theorem Within.waiting_ne_nil (h : Within m₁ m) (h₁ : m₁.waiting ≠ []) : m.waiting ≠ [] := by
  obtain ⟨inner, f, hactive, -⟩ := h.frames
  cases inner with
  | nil =>
    obtain ⟨-, hwaiting⟩ := List.cons.inj hactive
    exact hwaiting ▸ h₁
  | cons f' inner =>
    obtain ⟨-, hwaiting⟩ := List.cons.inj hactive
    simp [hwaiting]

/-- The locals of a function that runs are in use. -/
theorem Sound.locals_le (h : m.Sound g) (hwaiting : m.waiting ≠ []) :
    m.frame.base + m.frame.routine.locals ≤ m.sp := by
  obtain ⟨is, -, ⟨pre, hat⟩ | ⟨hnone, -⟩⟩ := h.running
  · rw [hat.top]
    exact Nat.le_add_right ..
  · exact absurd hnone hwaiting

/-- A call comes back to the frame that it has started from, with a value in the place of the
function. -/
theorem Within.comesBack {callers : Array Frame} {caller : Frame} (h : Within m₁ m)
    (hsound : m.Sound g) (hcallers : m₁.callers = callers.push caller) (hnext : Next m m')
    (hdepth : m'.depth < m₁.depth) :
    ∃ i v, m.About i ∧ handsOver m i = some v ∧
      m'.stack = m.stack.setIfInBounds (m₁.frame.base - 1) v ∧ m'.sp = m₁.frame.base - 1 + 1 ∧
      m'.frame = caller ∧ m'.callers = callers := by
  obtain ⟨inner, f, hactive, hbase⟩ := h.frames
  have hlength : m.depth = inner.length + m₁.depth := by
    rw [← length_active, ← length_active, hactive, List.length_append]
    rfl
  obtain ⟨i, v, caller', habout, hv, hback, rfl⟩ := hsound.comesBack hnext (by omega)
  have hpop : (comeBack m caller' v).depth = m.callers.size - 1 + 1 := by
    show m.callers.pop.size + 1 = _
    rw [Array.size_pop]
  -- the frame that ends is that of the call itself
  have hinner : inner = [] := by
    have hsize : m.depth = m.callers.size + 1 := rfl
    apply List.eq_nil_of_length_eq_zero
    omega
  subst hinner
  obtain ⟨rfl, hwaiting⟩ := List.cons.inj hactive
  have hsame : m.callers = callers.push caller := by
    rw [← hcallers]
    exact Array.toList_inj.1 (List.reverse_inj.1 hwaiting)
  rw [hsame, Array.back?_push, Option.some.injEq] at hback
  refine ⟨i, v, habout, hv, ?_, ?_, hback.symm, ?_⟩
  · rw [← hbase]
    rfl
  · rw [← hbase]
    rfl
  · show m.callers.pop = callers
    rw [hsame, Array.pop_push]

/-! ## The frame of the program -/

/-- The frame that waits for all others, without its position. -/
def home (m : Machine) : Option Frame := m.active.getLast?.map fun f => { f with ip := 0 }

theorem home_of_waiting (h : m.waiting = []) : m.home = some { m.frame with ip := 0 } := by
  rw [home, active, h]
  rfl

/-- A step does not exchange the frame of the program. -/
theorem Shifts.home_eq (h : Shifts m m') : m'.home = m.home := by
  have hmoved : ∀ ip, ({ m.frame with ip := ip } :: m.waiting).getLast?.map
      (fun f => ({ f with ip := 0 } : Frame)) = m.home := by
    intro ip
    unfold home active
    cases m.waiting with
    | nil => rfl
    | cons f rest => rw [List.getLast?_cons_cons, List.getLast?_cons_cons]
  cases h with
  | stay h =>
    rw [home, h]
    exact hmoved _
  | enter h _ =>
    rw [home, h, List.getLast?_cons_cons]
    exact hmoved _
  | leave h =>
    rw [home, h, home, active]
    cases hwaiting : m.waiting with
    | nil => cases h.trans hwaiting
    | cons f rest => rw [List.getLast?_cons_cons]

theorem Sound.home_eq (h : m.Sound g) (hsteps : Steps m m') : m'.home = m.home := by
  induction hsteps with
  | refl => rfl
  | tail hsteps hnext ih =>
    obtain ⟨is, pre, i, post, -, -, -, -, hstepped⟩ := (h.steps hsteps).1.stepped hnext
    exact hstepped.moves.shifts.home_eq.trans ih

theorem Sound.settled (h : m.Sound g)
    (hframe : m.frame.Sound m.constants g (!m.waiting.isEmpty) is) (hat : m.frame.At is pre m.sp) :
    m.Settled g (!m.waiting.isEmpty) is := by
  refine { h with frame := hframe, room := ?_ }
  have hsp := h.values.sp
  have htop := hat.top
  omega

/-- The frame of a program that does not return stands at a point of its code until the end. -/
theorem Sound.at_of_steps (h : m.Sound g) (hwaiting : m.waiting = [])
    (hframe : m.frame.Sound m.constants g false is) (hat : m.frame.At is pre m.sp)
    (hreturn : .returnValue ∉ is) (hsteps : Steps m m') :
    ∃ js before, m'.frame.Sound m'.constants g (!m'.waiting.isEmpty) js ∧
      m'.frame.At js before m'.sp := by
  have hfalse : (!m.waiting.isEmpty) = false := by simp [hwaiting]
  induction hsteps with
  | refl => exact ⟨is, pre, hfalse ▸ hframe, hat⟩
  | @tail m₁ m₂ hsteps hnext _ =>
    obtain ⟨hsound, hconstants⟩ := h.steps hsteps
    obtain ⟨ks, before, i, post, -, hm, hks, -, hstepped⟩ := hsound.stepped hnext
    rw [hstepped.constants]
    obtain ⟨js, hjs, hat' | ⟨-, -, hlast, hi⟩⟩ := hsound.running_of_stepped hm hks hstepped
    · obtain ⟨before', hbefore'⟩ := hat'
      exact ⟨js, before', hjs, hbefore'⟩
    -- only the program itself can be left by a return that leads nowhere
    · have hhome := h.home_eq hsteps
      rw [home_of_waiting hlast, home_of_waiting hwaiting, Option.some.injEq, Frame.mk.injEq]
        at hhome
      have hmem : i ∈ ks := by simp [hks]
      have hsettled : m.Settled g false is := hfalse ▸ h.settled (hfalse ▸ hframe) hat
      have heq : ks = is := hm.decodes.unique (hhome.2.1 ▸ hsettled.decodes)
      rcases hi with rfl | rfl
      · exact absurd (heq ▸ hmem) hreturn
      · obtain ⟨free, -, hcode⟩ := hm.frame.body
        have hvalid : (!m₁.waiting.isEmpty) = true := hcode.valid _ hmem
        simp [hlast] at hvalid

/-- A program that comes to its end at a point of its code ends with the stack as its code leaves
it. -/
theorem Sound.sp_of_at {js before : List Instruction} (h : m.Sound g) (hordered : m.Ordered)
    (hwaiting : m.waiting = []) (hframe : m.frame.Sound m.constants g false is)
    (hat : m.frame.At is pre m.sp) (hsteps : Steps m m₁) (hend : Exec.step m₁ = .ok false m')
    (hjs : m₁.frame.Sound m₁.constants g (!m₁.waiting.isEmpty) js)
    (hat' : m₁.frame.At js before m₁.sp) :
    m₁.sp = m.frame.base + m.frame.routine.locals + Code.depth is := by
  obtain ⟨hsound, -⟩ := h.steps hsteps
  obtain ⟨-, hlast⟩ := hsound.ended (h.ordered hordered hsteps) hend
  have hhome := h.home_eq hsteps
  rw [home_of_waiting hlast, home_of_waiting hwaiting, Option.some.injEq, Frame.mk.injEq] at hhome
  obtain ⟨-, hroutine, -, -, hbase⟩ := hhome
  have hfalse : (!m.waiting.isEmpty) = false := by simp [hwaiting]
  have hsettled : m.Settled g false is := hfalse ▸ h.settled (hfalse ▸ hframe) hat
  have heq : js = is := (hsound.settled hjs hat').decodes.unique (hroutine ▸ hsettled.decodes)
  -- nothing is left of the code
  have hbefore : before = js := by
    rcases hsound.stands with ⟨ks, hks, hip, -⟩ | ⟨ks, pre', i, post, hm, hks, hpoint⟩
    · obtain ⟨post, hpost⟩ := hat'.point
      have hsize : extent ks = extent js := by
        rw [← size_assemble, ← size_assemble, ← hks.code, ← hjs.code]
      have hextent : extent js = extent before + extent post := by rw [← hpost, extent_append]
      have hipe := hat'.ip
      cases post with
      | nil => simpa using hpost
      | cons i post =>
        have hpos := extent_pos (List.cons_ne_nil i post)
        omega
    · obtain ⟨hmore, -⟩ := (execute_stepped hsound.values hm hks hpoint hsound.base_pos).of_ok hend
      cases hmore
  rw [hat'.top, hbefore, heq, hroutine, hbase]

/-- A program that does not return ends with the stack as its code leaves it. -/
theorem Sound.sp_of_ended (h : m.Sound g) (hordered : m.Ordered) (hwaiting : m.waiting = [])
    (hframe : m.frame.Sound m.constants g false is) (hat : m.frame.At is pre m.sp)
    (hreturn : .returnValue ∉ is) (hsteps : Steps m m₁) (hend : Exec.step m₁ = .ok false m') :
    m'.sp = m.frame.base + m.frame.routine.locals + Code.depth is := by
  obtain ⟨rfl, -⟩ := (h.steps hsteps).1.ended (h.ordered hordered hsteps) hend
  obtain ⟨js, before, hjs, hat'⟩ := h.at_of_steps hwaiting hframe hat hreturn hsteps
  exact h.sp_of_at hordered hwaiting hframe hat hsteps hend hjs hat'

theorem ordered_load (bytecode : Bytecode) (globals : Array Value) (host : Host) :
    (load bytecode globals host).Ordered :=
  ⟨.singleton _, fun hne => absurd rfl hne, trivial⟩

end Machine

open Machine Machine.Exec

/-- Calls in a program that was compiled in a reachable session keep to their part of the stack.
While a call runs, nothing at or below the function that was called is written, and every frame has
its locals below the stack pointer; when it comes back, its value is in the place of the function,
which is the topmost, and the caller goes on behind the call.  A run that ends has come back from
all calls, and it has an empty stack if the program does not return. -/
theorem Session.Reachable.calls_disciplined {session session' : Session} {program : Program}
    {bytecode : Bytecode} (hsession : session.Reachable)
    (hcompile : session.compile program = (.ok bytecode, session')) :
    (∀ m₀ count m₁, Steps (load bytecode session'.globals session'.host) m₀ →
      Calls m₀ count m₁ →
      (∀ m, During m₁ m →
        (∀ k ≤ m₀.sp - (count + 1), m.stack[k]? = m₀.stack[k]?) ∧
        m.frame.base + m.frame.routine.locals ≤ m.sp ∧
        (∀ i, m.About i → m.frame.base + m.frame.routine.locals + i.pops ≤ m.sp) ∧
        (∀ n, m.About (.getLocal n) → n < m.frame.routine.locals) ∧
        ∀ halt m', Exec.step m = .error halt m' → m'.stack = m.stack) ∧
      ∀ m m', During m₁ m → Next m m' → m'.depth < m₁.depth →
        m'.sp = m₀.sp - (count + 1) + 1 ∧
        (∃ i v, m.About i ∧ handsOver m i = some v ∧
          m'.stack[m₀.sp - (count + 1)]? = some v) ∧
        m'.frame = { m₀.frame with ip := m₀.frame.ip + (Instruction.call count).size } ∧
        m'.callers = m₀.callers) ∧
    ∀ fuel m, (load bytecode session'.globals session'.host).runFor fuel = (.ok (), m) →
      m.depth = 1 ∧ (Program.returns program = false → m.sp = 0) := by
  obtain ⟨-, hload, hconstants⟩ := hsession.soundSession.load hcompile
  have hordered := ordered_load bytecode session'.globals session'.host
  refine ⟨fun m₀ count m₁ hsteps hcalls => ?_, fun fuel m hrun => ?_⟩
  · obtain ⟨hcount, hbase, hcallers, hspares⟩ := hcalls.enters
    have hsteps₁ := hsteps.tail hcalls.next
    have hsound₁ := (hload.steps hsteps₁).1
    have hrises := (hload.ordered hordered hsteps₁).rises
    refine ⟨fun m hduring => ?_, fun m m' hduring hnext hdepth => ?_⟩
    · have hsound := (hsound₁.steps hduring.steps).1
      have hwithin := hduring.within hsound₁ hrises
      refine ⟨fun k hk => ?_, ?_, fun i hi => (hsound.above hi).1, fun n hn => ?_, ?_⟩
      · rw [hwithin.spares k (by omega), hspares k (by omega)]
      · exact hsound.locals_le (hwithin.waiting_ne_nil (by simp [waiting, hcallers]))
      · exact (hsound.above hn).2 n (.inl rfl)
      · intro halt m' hfail
        exact ((step_globals m).of_error hfail).2
    · have hsound := (hsound₁.steps hduring.steps).1
      have hwithin := hduring.within hsound₁ hrises
      obtain ⟨i, v, habout, hv, hstack, hsp, hframe, hcallers'⟩ :=
        hwithin.comesBack hsound hcallers hnext hdepth
      refine ⟨by omega, ⟨i, v, habout, hv, ?_⟩, hframe, hcallers'⟩
      have hsize := hsound.values.stackSize
      have hle := (hload.steps hsteps).1.values.sp
      rw [hstack, hbase, Nat.add_sub_cancel, Array.getElem?_setIfInBounds_self_of_lt (by omega)]
  · obtain ⟨m₁, hsteps, hend⟩ := runFor_ok hrun
    obtain ⟨rfl, hwaiting⟩ := (hload.steps hsteps).1.ended (hload.ordered hordered hsteps) hend
    refine ⟨?_, fun hreturns => ?_⟩
    · rw [← length_active, active, hwaiting]
      rfl
    · obtain ⟨is, hcode, hframe⟩ := hsession.soundSession.frame_load hcompile
      rw [← hconstants] at hframe
      have hsp := hload.sp_of_ended hordered rfl hframe ⟨List.nil_prefix, rfl, rfl⟩
        (hcode.returnValue_notMem hreturns) hsteps hend
      have hdepth := (hcode.flows [] rfl).2.1
      rw [hsp]
      exact (Nat.zero_add _).trans hdepth

/-! ## A return in the middle of an expression -/

namespace Machine

/-- The state after so many steps. -/
def advance (m : Machine) : Nat → Machine
  | 0 => m
  | k + 1 =>
    match Exec.step (m.advance k) with
    | .ok _ m' => m'
    | .error _ m' => m'

/-- Whether there is a step to make that does not fail. -/
def goesOn (m : Machine) : Bool :=
  match Exec.step m with
  | .ok more _ => more
  | .error _ _ => false

/-- Whether the machine is about to execute an instruction. -/
def isAbout (m : Machine) (i : Instruction) : Bool :=
  match m.frame.routine.code.fetch m.frame.ip with
  | .instruction j => j == i
  | _ => false

theorem about_of_isAbout {m : Machine} {i : Instruction} (h : m.isAbout i = true) : m.About i := by
  unfold isAbout at h
  unfold About
  split at h
  · next hfetch => rw [hfetch, eq_of_beq h]
  · cases h

theorem next_advance {m : Machine} {k : Nat} (h : (m.advance k).goesOn = true) :
    Next (m.advance k) (m.advance (k + 1)) := by
  unfold goesOn at h
  unfold Next
  rw [advance]
  split at h
  · next hstep => rw [hstep, h]
  · cases h

/-- Whether so many steps can be made without leaving the running call. -/
def lasts (m : Machine) : Nat → Bool
  | 0 => true
  | k + 1 => m.lasts k && (m.advance k).goesOn && decide (m.depth ≤ (m.advance (k + 1)).depth)

theorem during_advance {m : Machine} {k : Nat} (h : m.lasts k = true) :
    During m (m.advance k) := by
  induction k with
  | zero => exact .refl
  | succ k ih =>
    simp only [lasts, Bool.and_eq_true, decide_eq_true_eq] at h
    exact .tail (ih h.1.1) ⟨next_advance h.1.2, h.2⟩

end Machine

/-- A call of a function that returns while one operand of an addition lies on the stack. -/
def earlyReturn : Program :=
  [.eval (.call (.function none ["x"]
    [.eval (.binary (.integer 1) .add
      (.conditional (.identifier "x") [.ret (.integer 7)] none))]) [.boolean true])]

/-- The operand is gone when the function has come back. -/
theorem earlyReturn_comesBack : ∃ bytecode session' m₀ m₁ m m',
    Session.start.compile earlyReturn = (.ok bytecode, session') ∧
      Steps (load bytecode session'.globals session'.host) m₀ ∧ Calls m₀ 1 m₁ ∧
      During m₁ m ∧ Next m m' ∧ m.sp = 4 ∧ m'.sp = 1 ∧ m'.callers = m₀.callers := by
  have hok : (Session.start.compile earlyReturn).1.toOption.map (fun bytecode =>
      let m := load bytecode (Session.start.compile earlyReturn).2.globals
        (Session.start.compile earlyReturn).2.host
      let m₀ := m.advance 2
      let m₁ := m₀.advance 1
      decide (m.lasts 2 = true ∧ m₀.isAbout (.call 1) = true ∧
        m₀.stack[m₀.sp - (1 + 1)]?.map Value.kind = some .closure ∧ m₀.goesOn = true ∧
        m₁.lasts 4 = true ∧ (m₁.advance 4).goesOn = true ∧ (m₁.advance 4).sp = 4 ∧
        (m₁.advance 5).depth < m₁.depth ∧ m₀.sp = 2)) = some true := by
    decide +kernel
  cases hcompile : Session.start.compile earlyReturn with
  | mk result session' =>
    rw [hcompile] at hok
    cases result with
    | error e => cases hok
    | ok bytecode =>
      obtain ⟨hstart, habout, hkind, hcall, hbody, hreturn, hsp, hdepth, hsp₀⟩ :=
        of_decide_eq_true (Option.some.inj hok)
      have hsteps := (during_advance hstart).steps
      obtain ⟨callee, hcallee, hclosure⟩ := Option.map_eq_some_iff.1 hkind
      obtain ⟨stamp, r, free, rfl⟩ : ∃ stamp r free, callee = .closure stamp r free := by
        cases callee with
        | closure stamp r free => exact ⟨stamp, r, free, rfl⟩
        | _ => cases hclosure
      have hcalls := Calls.mk (about_of_isAbout habout) ⟨stamp, r, free, hcallee⟩
        (next_advance (k := 0) hcall)
      have hduring := during_advance hbody
      have hnext := next_advance hreturn
      obtain ⟨hcalls', -⟩ := Session.Reachable.calls_disciplined .start hcompile
      obtain ⟨-, hback⟩ := hcalls' _ _ _ hsteps hcalls
      obtain ⟨hsp', -, -, hcallers⟩ := hback _ _ hduring hnext hdepth
      exact ⟨bytecode, session', _, _, _, _, rfl, hsteps, hcalls, hduring, hnext, hsp,
        by rw [hsp', hsp₀], hcallers⟩

end Scriptlet
