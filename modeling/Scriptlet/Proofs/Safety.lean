import Scriptlet.Proofs.Reachable
import Scriptlet.Proofs.StepOutcomes

/-!
# Compiled code is safe to run

`Machine.Sound` is the invariant of a machine that runs compiled code.  Every frame stands at a
point of sound code and has the stack up to where the depth of the code at that point says; a frame
that waits for another has it up to where the result of the other will be.  All values that the
machine holds are sound, which covers closures that outlive the frame they were made in, and
closures that an earlier program has left in a global slot.

A step keeps the invariant (`Machine.Sound.of_stepped`), so steps do (`Machine.Sound.steps`), and a
fault leaves sound values behind, so every reachable session has sound values in its global slots
(`Session.Reachable.soundSession`).
-/

namespace Scriptlet

open Code

namespace Machine

open Exec

variable {g n : Nat} {i : Instruction} {m : Machine} {is pre post : List Instruction}
  {enclosed : Bool}

/-! ## The invariant of a running machine -/

/-- Frames, innermost first, that wait for one whose locals start at `base`: when that one returns,
its result is where the stack of the first of them ends. -/
def Waits (constants : Array Value) (g : Nat) : (base : Nat) → List Frame → Prop
  | _, [] => True
  | base, f :: rest => 0 < base ∧
      (∃ is pre, f.Sound constants g (!rest.isEmpty) is ∧ f.At is pre base) ∧
      Waits constants g f.base rest

/-- The frames that wait for the running one, innermost first. -/
def waiting (m : Machine) : List Frame := m.callers.toList.reverse

/-- The invariant of a machine that runs compiled code.  The program ends behind its last
instruction; how much of the stack it then leaves in use is not known, since it may have been left
by a return. -/
structure Sound (g : Nat) (m : Machine) : Prop where
  values : m.Values g
  constants : ∀ v ∈ m.constants, v.SoundConstant m.constants g
  pool : m.constants.size ≤ 65536
  slots : g ≤ globalsSize
  frames : m.depth ≤ maxFrames
  running : ∃ is, m.frame.Sound m.constants g (!m.waiting.isEmpty) is ∧
    ((∃ pre, m.frame.At is pre m.sp) ∨ m.waiting = [] ∧ m.frame.ip = extent is)
  waits : Waits m.constants g m.frame.base m.waiting

variable {m' : Machine}

theorem waiting_eq_nil : m.waiting = [] ↔ m.callers = #[] := by
  simp [waiting]

theorem waiting_push {callers : Array Frame} {f : Frame} (h : m.callers = callers.push f) :
    m.waiting = f :: callers.toList.reverse := by
  simp [waiting, h]

theorem Sound.base_pos (h : m.Sound g) (hcallers : m.callers ≠ #[]) : 0 < m.frame.base := by
  have hwaits := h.waits
  cases hwaiting : m.waiting with
  | nil => exact absurd (waiting_eq_nil.1 hwaiting) hcallers
  | cons f rest =>
    rw [hwaiting] at hwaits
    exact hwaits.1

/-- A machine stands behind the last instruction of sound code or before one of its instructions. -/
theorem Sound.stands (h : m.Sound g) :
    (∃ is, m.frame.Sound m.constants g (!m.waiting.isEmpty) is ∧ m.frame.ip = extent is ∧
        (m.frame.At is is m.sp ∨ m.waiting = [])) ∨
      ∃ is pre i post, m.Settled g (!m.waiting.isEmpty) is ∧ is = pre ++ i :: post ∧
        m.frame.At is pre m.sp := by
  obtain ⟨is, hframe, ⟨pre, hat⟩ | ⟨hwaiting, hend⟩⟩ := h.running
  · obtain ⟨post, hpost⟩ := hat.point
    cases post with
    | nil =>
      rw [List.append_nil] at hpost
      subst hpost
      exact .inl ⟨pre, hframe, hat.ip, .inl hat⟩
    | cons i post =>
      refine .inr ⟨is, pre, i, post, { h with frame := hframe, room := ?_ }, hpost.symm, hat⟩
      have hsp := h.values.sp
      have htop := hat.top
      omega
  · exact .inl ⟨is, hframe, hend, .inr hwaiting⟩

/-- A machine stands before an instruction of sound code, or its program has ended. -/
theorem Sound.point (h : m.Sound g) :
    Exec.step m = .ok false m ∨ ∃ is pre i post, m.Settled g (!m.waiting.isEmpty) is ∧
      is = pre ++ i :: post ∧ m.frame.At is pre m.sp := by
  rcases h.stands with ⟨is, hframe, hip, -⟩ | hpoint
  · exact .inl (step_end hframe.code hip)
  · exact .inr hpoint

/-- After a step, the running frame stands at a point of its code, unless the program was left by a
return. -/
theorem Sound.running_of_stepped (h : m.Sound g) (hm : m.Settled g (!m.waiting.isEmpty) is)
    (his : is = pre ++ i :: post) (hstep : Stepped g pre i m m') :
    ∃ js, m'.frame.Sound m.constants g (!m'.waiting.isEmpty) js ∧
      ((∃ before, m'.frame.At js before m'.sp) ∨ m'.waiting = [] ∧ m'.frame.ip = extent js ∧
        m.waiting = [] ∧ (i = .returnValue ∨ i = .returnNull)) := by
  obtain ⟨-, -, hmoves⟩ := hstep
  obtain ⟨free, hfree, hcode⟩ := hm.frame.body
  have hpre : pre ++ [i] <+: is := ⟨post, by rw [his]; simp⟩
  cases hmoves with
  | next hframe hcallers hsp =>
    have hwaiting : m'.waiting = m.waiting := by rw [waiting, hcallers, waiting]
    rw [hframe, hwaiting]
    exact ⟨is, hm.frame.withIp _, .inl ⟨pre ++ [i], hpre, rfl, hsp⟩⟩
  | @jump t ht hframe hcallers hsp =>
    obtain ⟨before, hbefore, hextent, -, hdepth⟩ := (hcode.flows.sits his).target t ht
    have hwaiting : m'.waiting = m.waiting := by rw [waiting, hcallers, waiting]
    rw [hframe, hwaiting]
    refine ⟨is, hm.frame.withIp _, .inl ⟨before, ?_, hextent.symm, ?_⟩⟩
    · exact hbefore.trans (List.dropLast_prefix is)
    · rw [hdepth]
      exact hsp
  | @call stamp r free hclosure hframes hcallers hbase hframe hsp =>
    rw [hframe, waiting_push hcallers]
    cases hclosure with
    | closure _ hr hreads hfree =>
      obtain ⟨js, free', hbytes, hfree', hbody, -⟩ := hr.body
      refine ⟨js,
        { code := hbytes
          body := ⟨free', hfree', hbody⟩
          routine := fun _ => hr
          locals := hr.locals
          reads := hreads
          free := hfree }, .inl ⟨[], List.nil_prefix, rfl, ?_⟩⟩
      rw [hsp, hframe]
      rfl
  | @ret caller hcallers hframe hsp =>
    have hwaits := h.waits
    rw [waiting_push hcallers] at hwaits
    obtain ⟨-, ⟨js, before, hsound, hbefore⟩, -⟩ := hwaits
    rw [hframe]
    refine ⟨js, hsound, .inl ⟨before, ?_⟩⟩
    rw [hsp]
    exact hbefore
  | finish hnone hcallers hframe hreturn =>
    have hwaiting : m'.waiting = m.waiting := by rw [waiting, hcallers, waiting, hnone]
    have hempty := waiting_eq_nil.2 hnone
    rw [hframe, hwaiting]
    refine ⟨is, hm.frame.withIp _, .inr ⟨hempty, ?_, hempty, hreturn⟩⟩
    show m.frame.routine.code.size = _
    rw [hm.frame.code, size_assemble]

/-- A step of a machine keeps the invariant. -/
theorem Sound.of_stepped (h : m.Sound g) (hm : m.Settled g (!m.waiting.isEmpty) is)
    (his : is = pre ++ i :: post) (hstep : Stepped g pre i m m') : m'.Sound g := by
  have hrunning : ∃ js, m'.frame.Sound m.constants g (!m'.waiting.isEmpty) js ∧
      ((∃ before, m'.frame.At js before m'.sp) ∨ m'.waiting = [] ∧ m'.frame.ip = extent js) := by
    obtain ⟨js, hframe, hat | ⟨hwaiting, hip, -⟩⟩ := h.running_of_stepped hm his hstep
    · exact ⟨js, hframe, .inl hat⟩
    · exact ⟨js, hframe, .inr ⟨hwaiting, hip⟩⟩
  obtain ⟨hvalues, hconstants, hmoves⟩ := hstep
  have hpre : pre ++ [i] <+: is := ⟨post, by rw [his]; simp⟩
  suffices hrest : m'.depth ≤ maxFrames ∧ Waits m.constants g m'.frame.base m'.waiting by
    obtain ⟨hframes, hwaits⟩ := hrest
    exact
      { values := hvalues
        constants := hconstants ▸ h.constants
        pool := hconstants ▸ h.pool
        slots := h.slots
        frames := hframes
        running := hconstants ▸ hrunning
        waits := hconstants ▸ hwaits }
  cases hmoves with
  | next hframe hcallers hsp =>
    have hwaiting : m'.waiting = m.waiting := by rw [waiting, hcallers, waiting]
    rw [hframe, hwaiting, depth, hcallers]
    exact ⟨h.frames, h.waits⟩
  | jump ht hframe hcallers hsp =>
    have hwaiting : m'.waiting = m.waiting := by rw [waiting, hcallers, waiting]
    rw [hframe, hwaiting, depth, hcallers]
    exact ⟨h.frames, h.waits⟩
  | call hclosure hframes hcallers hbase hframe hsp =>
    rw [hframe, waiting_push hcallers, depth, hcallers, Array.size_push]
    refine ⟨hframes, Nat.lt_of_lt_of_le hbase (Nat.le_add_left ..), ?_, h.waits⟩
    exact ⟨is, pre ++ [i], hm.frame.withIp _, hpre, rfl, rfl⟩
  | ret hcallers hframe hsp =>
    have hwaits := h.waits
    rw [waiting_push hcallers] at hwaits
    have hframes := h.frames
    rw [depth, hcallers, Array.size_push] at hframes
    rw [hframe]
    exact ⟨Nat.le_of_succ_le hframes, hwaits.2.2⟩
  | finish hnone hcallers hframe =>
    have hwaiting : m'.waiting = [] := waiting_eq_nil.2 hcallers
    rw [hwaiting, depth, hcallers]
    exact ⟨by decide, trivial⟩

/-- The instruction that the machine is about to execute. -/
def About (m : Machine) (i : Instruction) : Prop :=
  m.frame.routine.code.fetch m.frame.ip = .instruction i

/-- At a point of sound code, a machine is about to execute the instruction there. -/
theorem Settled.about (h : m.Settled g enclosed is) (his : is = pre ++ i :: post)
    (hat : m.frame.At is pre m.sp) : m.About i := by
  unfold About
  rw [h.frame.code, hat.ip, his]
  exact fetch_assemble (h.fits (by rw [his]; simp)) pre post

/-- The point of sound code at which a machine is about to execute an instruction. -/
theorem Sound.about (h : m.Sound g) (habout : m.About i) :
    ∃ is pre post, m.Settled g (!m.waiting.isEmpty) is ∧ is = pre ++ i :: post ∧
      m.frame.At is pre m.sp := by
  rcases h.point with hend | ⟨is, pre, j, post, hm, rfl, hat⟩
  · rw [step_of_fetch habout] at hend
    obtain ⟨_, _, -, hpure⟩ := bind_eq_ok.1 hend
    cases hpure
  · have hj : j ∈ pre ++ j :: post := by simp
    unfold About at habout
    rw [hm.frame.code, hat.ip, fetch_assemble (hm.fits hj)] at habout
    cases habout
    exact ⟨_, pre, post, hm, rfl, hat⟩

/-- An instruction finds its values above the locals of its frame, and names locals of its frame. -/
theorem Sound.above (h : m.Sound g) (habout : m.About i) :
    m.frame.base + m.frame.routine.locals + i.pops ≤ m.sp ∧
      ∀ n, i = .getLocal n ∨ i = .setLocal n → n < m.frame.routine.locals := by
  obtain ⟨is, pre, post, hm, rfl, hat⟩ := h.about habout
  obtain ⟨free, -, hcode⟩ := hm.frame.body
  have hpops : i.pops ≤ Code.depth pre := (hcode.flows.sits rfl).pops
  have htop := hat.top
  refine ⟨by omega, ?_⟩
  rintro n (rfl | rfl)
  · exact hcode.valid (.getLocal n) (by simp)
  · exact hcode.valid (.setLocal n) (by simp)

/-- What a step of a machine that runs compiled code comes to: the program has ended, or the machine
moves on and keeps the invariant, or the instruction faults. -/
theorem Sound.step (h : m.Sound g) :
    Exec.step m = .ok false m ∨ ∃ i, m.About i ∧
      Ensures Exec.step m (fun more m' => more = true ∧ m'.Sound g ∧ m'.constants = m.constants)
        (Faults g i m.constants) := by
  rcases h.point with hend | ⟨is, pre, i, post, hm, his, hat⟩
  · exact .inl hend
  · refine .inr ⟨i, hm.about his hat, ?_⟩
    refine (execute_stepped h.values hm his hat h.base_pos).mono ?_ fun _ _ hf => hf
    rintro more m' ⟨rfl, hstepped⟩
    exact ⟨rfl, h.of_stepped hm his hstepped, hstepped.constants⟩

/-- Any number of steps keep the invariant. -/
theorem Sound.steps (h : m.Sound g) (hsteps : Steps m m') :
    m'.Sound g ∧ m'.constants = m.constants := by
  induction hsteps with
  | refl => exact ⟨h, rfl⟩
  | tail _ hnext ih =>
    obtain ⟨hsound, hconstants⟩ := ih
    rcases hsound.step with hend | ⟨i, -, hensures⟩
    · cases hend.symm.trans hnext
    · obtain ⟨-, hsound', hconstants'⟩ := hensures.of_ok hnext
      exact ⟨hsound', hconstants'.trans hconstants⟩

/-- However a run ends, it leaves sound values. -/
theorem Sound.runFor (h : m.Sound g) (fuel : Nat) :
    (m.runFor fuel).2.Values g ∧ (m.runFor fuel).2.constants = m.constants := by
  cases hrun : m.runFor fuel with
  | mk result m' =>
    cases result with
    | ok u =>
      obtain ⟨m₁, hsteps, hend⟩ := runFor_ok hrun
      obtain ⟨hsound, hconstants⟩ := h.steps hsteps
      rcases hsound.step with hend' | ⟨i, -, hensures⟩
      · cases hend.symm.trans hend'
        exact ⟨hsound.values, hconstants⟩
      · exact absurd (hensures.of_ok hend).1 Bool.false_ne_true
    | error halt =>
      obtain ⟨m₁, hsteps, ⟨-, rfl⟩ | hfail⟩ := runFor_error hrun
      · obtain ⟨hsound, hconstants⟩ := h.steps hsteps
        exact ⟨hsound.values, hconstants⟩
      · obtain ⟨hsound, hconstants⟩ := h.steps hsteps
        rcases hsound.step with hend | ⟨i, -, hensures⟩
        · cases hend.symm.trans hfail
        · have hfault := hensures.of_error hfail
          exact ⟨hfault.values, hfault.constants.trans hconstants⟩

theorem mem_fitGlobals {globals : Array Value} {v : Value} (h : v ∈ fitGlobals globals) :
    v ∈ globals ∨ v = .null := by
  unfold fitGlobals at h
  rcases Array.mem_append.1 h with h | h
  · rw [Array.mem_def, Array.toList_shrink] at h
    exact .inl (Array.mem_def.2 (List.mem_of_mem_take h))
  · exact .inr (Array.mem_replicate.1 h).2

theorem size_fitGlobals (globals : Array Value) : (fitGlobals globals).size = globalsSize := by
  unfold fitGlobals
  rw [Array.size_append, Array.size_shrink, Array.size_replicate]
  omega

end Machine

/-! ## Sessions -/

namespace Session

/-- The tables and constants of a session are sound, and so are the values in its global slots. -/
structure Sound (session : Session) : Prop where
  stage : session.stage.Sound
  globals : ∀ v ∈ session.globals, v.Sound session.constants session.table.definitions

open Machine

/-- The frame of a compiled program has the code of the program. -/
theorem Sound.frame_load {session session' : Session} {program : Program} {bytecode : Bytecode}
    (h : session.Sound) (hcompile : session.compile program = (.ok bytecode, session')) :
    ∃ is, StmtsCode session.stage 0 program is session'.stage ∧
      (Machine.load bytecode session'.globals session'.host).frame.Sound session'.constants
        session'.table.definitions false is := by
  obtain ⟨is, hcode, hbytes, -, -, -⟩ := compile_ok hcompile h.stage
  have hreaches := hcode.reaches h.stage
  have hsound : Code.Sound session'.bounds is := by
    refine ⟨(hcode.flows [] rfl).1, ?_, nofun⟩
    rw [← bounds_stage hreaches.sound]
    exact hreaches.valid
  have hreads : Routine.ReadsBelow { code := bytecode.code } 0 :=
    hsound.readsBelow (small_bounds hreaches.sound) hbytes
  exact ⟨is, hcode,
    { code := hbytes
      body := ⟨0, Nat.zero_le _, hsound⟩
      routine := nofun
      locals := Nat.zero_le _
      reads := hreads
      free := nofun }⟩

/-- A compiled program is about to run in a sound machine. -/
theorem Sound.load {session session' : Session} {program : Program} {bytecode : Bytecode}
    (h : session.Sound) (hcompile : session.compile program = (.ok bytecode, session')) :
    session'.Sound ∧
      (Machine.load bytecode session'.globals session'.host).Sound session'.table.definitions ∧
      bytecode.constants = session'.constants := by
  obtain ⟨is, hcode, hframe⟩ := h.frame_load hcompile
  obtain ⟨-, -, -, hconstants, hglobals, -⟩ := compile_ok hcompile h.stage
  obtain ⟨code, constants⟩ := bytecode
  obtain rfl : constants = session'.constants := hconstants
  obtain ⟨hstage, hgrows, -⟩ := hcode.reaches h.stage
  have hvalues : ∀ v ∈ session'.globals,
      v.Sound session'.constants session'.table.definitions := by
    intro v hv
    rw [hglobals] at hv
    exact (h.globals v hv).mono hgrows.constants hgrows.globals
  have hstack : ∀ v ∈ Array.replicate stackSize Value.null,
      v.Sound session'.constants session'.table.definitions := by
    intro v hv
    rw [(Array.mem_replicate.1 hv).2]
    exact .null
  have hslots : ∀ v ∈ fitGlobals session'.globals,
      v.Sound session'.constants session'.table.definitions := by
    intro v hv
    rcases mem_fitGlobals hv with hv | rfl
    · exact hvalues v hv
    · exact .null
  refine ⟨⟨hstage, hvalues⟩, ?_, rfl⟩
  exact
    { values :=
        { stackSize := Array.size_replicate
          sp := Nat.zero_le _
          stack := hstack
          globalsSize := size_fitGlobals _
          globals := hslots }
      constants := hstage.constants
      pool := hstage.pool
      slots := hstage.slots
      frames := (by decide : 1 ≤ maxFrames)
      running := ⟨is, hframe, .inl ⟨[], List.nil_prefix, rfl, rfl⟩⟩
      waits := trivial }

/-- Reachable sessions are sound. -/
theorem Reachable.soundSession {session : Session} (h : session.Reachable) : session.Sound := by
  induction h with
  | start =>
    refine ⟨sound_start, fun v hv => ?_⟩
    rw [(Array.mem_replicate.1 hv).2]
    exact .null
  | @compile session program _ ih =>
    cases hcompile : session.compile program with
    | mk result session' =>
      cases result with
      | error e => exact compile_error hcompile ▸ ih
      | ok bytecode => exact (ih.load hcompile).1
  | run fuel _ hcompile ih =>
    obtain ⟨hsound, hload, hconstants⟩ := ih.load hcompile
    obtain ⟨hvalues, hsame⟩ := hload.runFor fuel
    refine ⟨hsound.stage, fun v hv => ?_⟩
    have hv' := hvalues.globals v hv
    rw [hsame] at hv'
    exact hconstants ▸ hv'
  | print output _ ih => exact ⟨ih.stage, ih.globals⟩

/-- A run of a program that was compiled in a reachable session fails, if at all, with an error that
a script can bring about: no instruction is unknown or cut off, no operand leads nowhere, nothing
is taken off an empty stack, and nothing but a call finds that a value is no function. -/
theorem Reachable.run_error_not_malformed {session session' : Session} {program : Program}
    {bytecode : Bytecode} (hsession : session.Reachable)
    (hcompile : session.compile program = (.ok bytecode, session')) {fuel : Nat} {halt : Halt}
    {m' : Machine}
    (hrun : (Machine.load bytecode session'.globals session'.host).runFor fuel =
      (.error halt, m')) :
    halt = .outOfFuel ∨ ∃ e m i, halt = .error e ∧ e.isMalformed = false ∧
      Steps (Machine.load bytecode session'.globals session'.host) m ∧ m.About i ∧
      Exec.step m = .error (.error e) m' ∧ ∀ kind, e = .notAFunction kind → ∃ n, i = .call n := by
  obtain ⟨-, hload, -⟩ := hsession.soundSession.load hcompile
  obtain ⟨m, hsteps, ⟨hfuel, -⟩ | hfail⟩ := runFor_error hrun
  · exact .inl hfuel
  · obtain ⟨hsound, -⟩ := hload.steps hsteps
    rcases hsound.step with hend | ⟨i, habout, hensures⟩
    · cases hend.symm.trans hfail
    · obtain ⟨hallowed, -, -⟩ := hensures.of_error hfail
      cases halt with
      | error e => exact .inr ⟨e, m, i, rfl, hallowed.1, hsteps, habout, hfail, hallowed.2⟩
      | outOfBounds => exact hallowed.elim
      | outOfFuel => exact .inl rfl

end Session

open Machine

/-- A function that calls what it is given, given an integer. -/
def calledInteger : Program :=
  [.eval (.call (.function none ["f"] [.eval (.call (.identifier "f") [])]) [.integer 7])]

/-- The error of a call of something that is no function does come from a call. -/
theorem calledInteger_fails : ∃ bytecode session' m' m n,
    Session.start.compile calledInteger = (.ok bytecode, session') ∧
      (Machine.load bytecode session'.globals session'.host).runFor 10 =
        (.error (.error (.notAFunction .integer)), m') ∧
      Exec.step m = .error (.error (.notAFunction .integer)) m' ∧ m.About (.call n) := by
  have hok : (Session.start.compile calledInteger).1.toOption.map (fun bytecode =>
      ((Machine.load bytecode (Session.start.compile calledInteger).2.globals
        (Session.start.compile calledInteger).2.host).runFor 10).1) =
      some (.error (.error (.notAFunction .integer))) := by
    decide +kernel
  cases hcompile : Session.start.compile calledInteger with
  | mk result session' =>
    rw [hcompile] at hok
    cases result with
    | error e => cases hok
    | ok bytecode =>
      cases hrun : (Machine.load bytecode session'.globals session'.host).runFor 10 with
      | mk result m' =>
        have hresult : ((Machine.load bytecode session'.globals session'.host).runFor 10).1 =
            .error (.error (.notAFunction .integer)) := Option.some.inj hok
        rw [hrun] at hresult
        cases hresult
        obtain hfuel | ⟨e, m, i, he, -, -, habout, hfail, hcall⟩ :=
          Session.Reachable.run_error_not_malformed .start hcompile hrun
        · cases hfuel
        · cases he
          obtain ⟨n, rfl⟩ := hcall .integer rfl
          exact ⟨bytecode, session', m', m, n, rfl, hrun, hfail, habout⟩

end Scriptlet
