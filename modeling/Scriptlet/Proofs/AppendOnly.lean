import Scriptlet.Proofs.Calls
import Scriptlet.Proofs.Halting
import Scriptlet.Proofs.Stores

/-!
# Sessions only add

Whatever a session is fed, it keeps its constants and the values of its global slots, and a name
stands for the slot it stood for or for a new one (`Session.Extends`).  A function that was compiled
earlier refers to constants and slots by number, so nothing that comes later changes what it finds.

During a run the global slots are written by the stores of the program itself.  These are in no
function, they are into new slots, no two are into the same slot (`Stage.Stores`), and the machine
comes to none of them a second time, since it does not come to a position of the program a second
time (`Machine.Sound.not_again`).  So a slot is written once at most (`Machine.WritesOnce`).
-/

namespace Scriptlet

open Code

namespace Machine

open Exec

variable {g n : Nat} {m m₀ m₁ m₂ m' : Machine} {is : List Instruction}

/-! ## Stores of a program -/

/-- A machine about to store into a global slot runs the program and not a function. -/
theorem Sound.waiting_of_setGlobal (h : m.Sound g) (habout : m.About (.setGlobal n)) :
    m.waiting = [] := by
  obtain ⟨js, pre, post, hm, hjs, -⟩ := h.about habout
  obtain ⟨free, -, hcode⟩ := hm.frame.body
  by_contra hwaiting
  have henclosed : (!m.waiting.isEmpty) = true := by simpa using hwaiting
  exact hcode.stores henclosed n (by simp [hjs])

/-- A machine about to store into a global slot stands at a store of the program that it runs. -/
theorem Sound.at_setGlobal (h : m₀.Sound g) (hwaiting : m₀.waiting = [])
    (hframe : m₀.frame.Sound m₀.constants g false is) (hat₀ : m₀.frame.At is [] m₀.sp)
    (hsteps : Steps m₀ m) (habout : m.About (.setGlobal n)) :
    ∃ pre post, is = pre ++ .setGlobal n :: post ∧
      m.frame = { m₀.frame with ip := extent pre } := by
  have hsound := (h.steps hsteps).1
  obtain ⟨js, pre, post, hm, hjs, hat⟩ := hsound.about habout
  have hhome := h.home_eq hsteps
  rw [home_of_waiting (hsound.waiting_of_setGlobal habout), home_of_waiting hwaiting,
    Option.some.injEq] at hhome
  have hsame : m.frame = { m₀.frame with ip := extent pre } := by
    rw [← hat.ip]
    exact Frame.eq_withIp hhome
  have hfalse : (!m₀.waiting.isEmpty) = false := by simp [hwaiting]
  have hsettled : m₀.Settled g false is := hfalse ▸ h.settled (hfalse ▸ hframe) hat₀
  have hdecodes := hm.decodes
  rw [hsame] at hdecodes
  rw [hsettled.decodes.unique hdecodes]
  exact ⟨pre, post, hjs, hsame⟩

/-- Of each global slot, the machine comes to one store at most, and to that only once. -/
theorem Sound.setGlobal_once (h : m₀.Sound g) (hwaiting : m₀.waiting = [])
    (hframe : m₀.frame.Sound m₀.constants g false is) (hat₀ : m₀.frame.At is [] m₀.sp)
    (hrise : StoresRise is) (hsteps : Steps m₀ m) (habout : m.About (.setGlobal n))
    (hnext : Next m m') (hsteps' : Steps m' m₂) : ¬ m₂.About (.setGlobal n) := by
  intro habout₂
  have hsteps₂ : Steps m₀ m₂ := (hsteps.tail hnext).trans hsteps'
  obtain ⟨pre, post, his, hsame⟩ := h.at_setGlobal hwaiting hframe hat₀ hsteps habout
  obtain ⟨pre₂, post₂, his₂, hsame₂⟩ := h.at_setGlobal hwaiting hframe hat₀ hsteps₂ habout₂
  have hpre : pre = pre₂ := by
    rw [his] at hrise
    exact hrise.unique (his.symm.trans his₂)
  have hsound := (h.steps hsteps).1
  have hcallers := waiting_eq_nil.1 (hsound.waiting_of_setGlobal habout)
  have hcallers₂ := waiting_eq_nil.1 ((h.steps hsteps₂).1.waiting_of_setGlobal habout₂)
  refine hsound.not_again (.head' hnext hsteps') ?_ (hcallers₂.trans hcallers.symm)
  rw [hsame₂, hsame, hpre]

/-! ## Slots that a run does not write -/

/-- A step changes no slot but the one it stores into. -/
theorem Next.getElem?_globals (h : Next m m') (habout : ¬ m.About (.setGlobal n)) :
    m'.globals[n]? = m.globals[n]? := by
  rcases (step_globals m).of_ok h with heq | ⟨k, v, hk, heq⟩
  · rw [heq]
  · have hne : k ≠ n := by
      rintro rfl
      exact habout hk
    rw [heq, Array.getElem?_setIfInBounds_ne hne]

/-- A slot that is not stored into keeps its value. -/
theorem Steps.getElem?_globals (h : Steps m m')
    (habout : ∀ m₁, Steps m m₁ → ¬ m₁.About (.setGlobal n)) :
    m'.globals[n]? = m.globals[n]? := by
  induction h with
  | refl => rfl
  | tail hsteps hnext ih => rw [hnext.getElem?_globals (habout _ hsteps), ih]

/-- However a run ends, the global slots are as some steps have left them. -/
theorem Sound.globals_runFor (h : m.Sound g) (fuel : Nat) :
    ∃ m₁, Steps m m₁ ∧ (m.runFor fuel).2.globals = m₁.globals := by
  cases hrun : m.runFor fuel with
  | mk result m' =>
    cases result with
    | ok u =>
      obtain ⟨m₁, hsteps, hend⟩ := runFor_ok hrun
      rcases (h.steps hsteps).1.step with hend' | ⟨i, -, hensures⟩
      · cases hend.symm.trans hend'
        exact ⟨_, hsteps, rfl⟩
      · exact absurd (hensures.of_ok hend).1 Bool.false_ne_true
    | error halt =>
      obtain ⟨m₁, hsteps, ⟨-, rfl⟩ | hfail⟩ := runFor_error hrun
      · exact ⟨_, hsteps, rfl⟩
      · exact ⟨m₁, hsteps, ((step_globals m₁).of_error hfail).1⟩

/-- What the next step of a machine may do to the global slots, if those below `old` had been taken
before the program and those below `new` have been taken with it. -/
structure WritesOnce (old new : Nat) (m : Machine) : Prop where
  /-- A slot changes only where it is stored into. -/
  stored : ∀ n m', Next m m' → m'.globals[n]? ≠ m.globals[n]? → m.About (.setGlobal n)
  /-- A step that fails writes nothing. -/
  failed : ∀ halt m', Exec.step m = .error halt m' → m'.globals = m.globals
  /-- The program stores into slots of its own. -/
  new : ∀ n, m.About (.setGlobal n) → old ≤ n ∧ n < new
  /-- No slot is stored into a second time. -/
  once : ∀ n m' m₂, m.About (.setGlobal n) → Next m m' → Steps m' m₂ → ¬ m₂.About (.setGlobal n)

end Machine

open Machine Machine.Exec

namespace Session

/-! ## One input -/

theorem Reachable.size_globals {session : Session} (h : session.Reachable) :
    session.globals.size = globalsSize := by
  induction h with
  | start => exact Array.size_replicate
  | compile program _ ih => exact ih
  | run fuel h hcompile _ =>
    obtain ⟨-, hload, -⟩ := h.soundSession.load hcompile
    exact (hload.runFor fuel).1.globalsSize
  | print output _ ih => exact ih

theorem fitGlobals_of_size {globals : Array Value} (h : globals.size = globalsSize) :
    fitGlobals globals = globals := by
  have hshrink : globals.shrink globalsSize = globals := by
    rw [← Array.toList_inj, Array.toList_shrink, ← h]
    exact List.take_length
  unfold fitGlobals
  rw [hshrink, h, Nat.sub_self, Array.replicate_zero, Array.append_empty]

/-- What a session is fed: a program that is compiled, or that is compiled and run for some steps,
whether it is refused, fails or ends; or what was printed is taken away. -/
inductive Step : Session → Session → Prop
  | compile {session : Session} (program : Program) : Step session (session.compile program).2
  | run {session session' : Session} {program : Program} {bytecode : Bytecode} (fuel : Nat)
      (hcompile : session.compile program = (.ok bytecode, session')) :
      Step session (session'.after
        ((Machine.load bytecode session'.globals session'.host).runFor fuel).2)
  | print {session : Session} (output : String) :
      Step session { session with host := { session.host with output := output } }

theorem Reachable.step {session session' : Session} (h : session.Reachable)
    (hstep : session.Step session') : session'.Reachable := by
  cases hstep with
  | compile program => exact h.compile program
  | run fuel hcompile => exact h.run fuel hcompile
  | print output => exact h.print output

/-- What a session has is kept: the constants, the slots that were taken with their values, and the
names, unless they stand for new slots. -/
structure Extends (session session' : Session) : Prop where
  constants : session.constants.toList <+: session'.constants.toList
  definitions : session.table.definitions ≤ session'.table.definitions
  names : ∀ name symbol, session.symbol? name = some symbol → symbol.place = .globalSlot →
    ∃ symbol', session'.symbol? name = some symbol' ∧ symbol'.place = .globalSlot ∧
      (symbol'.index = symbol.index ∨ session.table.definitions ≤ symbol'.index)
  slots : ∀ n < session.table.definitions, session'.globals[n]? = session.globals[n]?

variable {session session' session'' : Session} {program : Program} {bytecode : Bytecode}

theorem Extends.refl (session : Session) : session.Extends session :=
  ⟨List.prefix_refl _, Nat.le_refl _, fun _ symbol h hplace => ⟨symbol, h, hplace, .inl rfl⟩,
    fun _ _ => rfl⟩

theorem Extends.trans (h : session.Extends session') (h' : session'.Extends session'') :
    session.Extends session'' := by
  refine ⟨h.constants.trans h'.constants, Nat.le_trans h.definitions h'.definitions,
    fun name symbol hget hplace => ?_, fun n hn => ?_⟩
  · obtain ⟨symbol', hget', hplace', hindex'⟩ := h.names name symbol hget hplace
    obtain ⟨symbol'', hget'', hplace'', hindex''⟩ := h'.names name symbol' hget' hplace'
    have hle := h.definitions
    exact ⟨symbol'', hget'', hplace'', by omega⟩
  · rw [h'.slots n (Nat.lt_of_lt_of_le hn h.definitions), h.slots n hn]

/-- A program that is compiled adds its constants, its slots and its names. -/
theorem Reachable.extends_compile (h : session.Reachable)
    (hcompile : session.compile program = (.ok bytecode, session')) :
    session.Extends session' := by
  obtain ⟨is, hcode, -, -, hglobals, -⟩ := compile_ok hcompile h.sound
  have hreaches := hcode.reaches h.sound
  have hstores := hcode.stores h.sound
  refine ⟨hreaches.grows.constants, hstores.globals, fun name symbol hget hplace => ?_,
    fun n _ => by rw [hglobals]⟩
  obtain ⟨symbol', hget', rfl | ⟨hplace', hindex⟩⟩ := hstores.names name symbol hget
  · exact ⟨symbol', hget', hplace, .inl rfl⟩
  · exact ⟨symbol', hget', hplace', .inr hindex⟩

/-- Every state of a run stores into slots of the program that runs, and into each only once. -/
theorem Reachable.writesOnce (h : session.Reachable)
    (hcompile : session.compile program = (.ok bytecode, session')) {m : Machine}
    (hsteps : Steps (load bytecode session'.globals session'.host) m) :
    m.WritesOnce session.table.definitions session'.table.definitions := by
  obtain ⟨is, hcode, hframe⟩ := h.soundSession.frame_load hcompile
  obtain ⟨-, hload, hconstants⟩ := h.soundSession.load hcompile
  have hstores := hcode.stores h.sound
  rw [← hconstants] at hframe
  have hat : (load bytecode session'.globals session'.host).frame.At is [] 0 :=
    ⟨List.nil_prefix, rfl, rfl⟩
  refine ⟨fun n m' hnext hne => ?_, fun halt m' hfail => ((step_globals m).of_error hfail).1,
    fun n habout => ?_, fun n m' m₂ habout hnext hsteps' => ?_⟩
  · by_contra habout
    exact hne (hnext.getElem?_globals habout)
  · obtain ⟨pre, post, rfl, -⟩ := hload.at_setGlobal rfl hframe hat hsteps habout
    exact hstores.fresh n (by simp)
  · exact hload.setGlobal_once rfl hframe hat hstores.rise hsteps habout hnext hsteps'

/-- Throughout a run, the slots that were taken before it have the values they had. -/
theorem Reachable.getElem?_globals (h : session.Reachable)
    (hcompile : session.compile program = (.ok bytecode, session')) {m : Machine}
    (hsteps : Steps (load bytecode session'.globals session'.host) m) {n : Nat}
    (hn : n < session.table.definitions) : m.globals[n]? = session.globals[n]? := by
  obtain ⟨is, -, -, -, hglobals, -⟩ := compile_ok hcompile h.sound
  have hload : (load bytecode session'.globals session'.host).globals = session.globals := by
    rw [hglobals]
    exact fitGlobals_of_size h.size_globals
  rw [← hload]
  refine hsteps.getElem?_globals fun m₁ hsteps₁ habout => ?_
  have hnew := ((h.writesOnce hcompile hsteps₁).new n habout).1
  omega

/-- Whatever a session is fed, it keeps what it has. -/
theorem Reachable.extends (h : session.Reachable) (hstep : session.Step session') :
    session.Extends session' := by
  cases hstep with
  | compile program =>
    cases hcompile : session.compile program with
    | mk result session' =>
      cases result with
      | error e => exact compile_error hcompile ▸ .refl _
      | ok bytecode => exact h.extends_compile hcompile
  | run fuel hcompile =>
    obtain ⟨-, hload, -⟩ := h.soundSession.load hcompile
    obtain ⟨m₁, hsteps, hglobals⟩ := hload.globals_runFor fuel
    obtain ⟨hconstants, hdefinitions, hnames, -⟩ := h.extends_compile hcompile
    refine ⟨hconstants, hdefinitions, hnames, fun n hn => ?_⟩
    rw [← h.getElem?_globals hcompile hsteps hn, ← hglobals]
    rfl
  | print output =>
    exact ⟨List.prefix_refl _, Nat.le_refl _,
      fun _ symbol hget hplace => ⟨symbol, hget, hplace, .inl rfl⟩, fun _ _ => rfl⟩

/-! ## Any number of inputs -/

theorem Reachable.extends_steps (h : session.Reachable)
    (hsteps : Relation.ReflTransGen Step session session') :
    session'.Reachable ∧ session.Extends session' := by
  induction hsteps with
  | refl => exact ⟨h, .refl _⟩
  | tail _ hstep ih => exact ⟨ih.1.step hstep, ih.2.trans (ih.1.extends hstep)⟩

/-- A function that a session has compiled, or that one of its global slots holds. -/
def Knows (session : Session) (r : Routine) : Prop :=
  (∃ stamp, .routine stamp r ∈ session.constants) ∨
    ∃ stamp free, .closure stamp r free ∈ session.globals

theorem Reachable.valid_of_knows (h : session.Reachable) {r : Routine} (hr : session.Knows r)
    {is : List Instruction} (hdecodes : r.code.DecodesTo 0 is) :
    ∃ free, ∀ i ∈ is,
      i.Valid ⟨session.constants, session.table.definitions, true, r.locals, free⟩ := by
  have hsound : r.Sound session.constants session.table.definitions := by
    rcases hr with ⟨stamp, hr⟩ | ⟨stamp, free, hr⟩
    · exact h.sound.constants _ hr
    · cases h.soundSession.globals _ hr with
      | closure _ hr _ _ => exact hr
  obtain ⟨js, free, hbytes, hfree, hcode, -⟩ := hsound.body
  rw [hbytes] at hdecodes
  rw [hcode.decoded ⟨h.sound.pool, h.sound.slots, hsound.locals, hfree⟩ hdecodes]
  exact ⟨free, hcode.valid⟩

/-- A session only adds.  Whatever it is fed, it keeps its constants, and the slots that were taken
keep their values, also in the middle of a run; a run writes new slots only, and each of them at
most once.  So the slots and the constants to which its functions refer are the same after any
number of inputs. -/
theorem Reachable.append_only (h : session.Reachable) :
    (∀ session', session.Step session' → session.Extends session') ∧
    (∀ program bytecode session', session.compile program = (.ok bytecode, session') →
      ∀ m, Steps (load bytecode session'.globals session'.host) m →
        (∀ n < session.table.definitions, m.globals[n]? = session.globals[n]?) ∧
        m.WritesOnce session.table.definitions session'.table.definitions) ∧
    ∀ session', Relation.ReflTransGen Step session session' →
      ∀ r is, session.Knows r → r.code.DecodesTo 0 is →
        (∀ n, .getGlobal n ∈ is → n < session.table.definitions ∧
          session'.globals[n]? = session.globals[n]?) ∧
        ∀ n, (.constant n ∈ is ∨ ∃ count, .closure n count ∈ is) →
          ∃ v, session.constants[n]? = some v ∧ session'.constants[n]? = some v := by
  refine ⟨fun _ hstep => h.extends hstep, fun _ _ _ hcompile m hsteps => ?_,
    fun session' hsteps r is hr hdecodes => ?_⟩
  · exact ⟨fun n hn => h.getElem?_globals hcompile hsteps hn, h.writesOnce hcompile hsteps⟩
  · obtain ⟨-, hextends⟩ := h.extends_steps hsteps
    obtain ⟨free, hvalid⟩ := h.valid_of_knows hr hdecodes
    refine ⟨fun n hn => ?_, fun n hn => ?_⟩
    · have hlt : n < session.table.definitions := hvalid _ hn
      exact ⟨hlt, hextends.slots n hlt⟩
    · obtain ⟨v, hv⟩ : ∃ v, session.constants[n]? = some v := by
        rcases hn with hn | ⟨count, hn⟩
        · obtain ⟨v, hv, -⟩ := hvalid _ hn
          exact ⟨v, hv⟩
        · obtain ⟨-, stamp, r', hr', -⟩ := hvalid _ hn
          exact ⟨_, hr'⟩
      exact ⟨v, hv, getElem?_of_prefix hextends.constants hv⟩

end Session

/-- A name, and a function that refers to it. -/
def nameInFunction : Program :=
  [.bind "a" (.integer 1), .bind "f" (.function (some "f") [] [.eval (.identifier "a")])]

/-- The same name once more. -/
def nameAgain : Program := [.bind "a" (.integer 2)]

/-- Binding a name again gives it another slot, and the slot of the function keeps its value. -/
theorem nameAgain_keeps : ∃ session bytecode session', Session.Reachable session ∧
    session.compile nameAgain = (.ok bytecode, session') ∧
    session.symbol? "a" = some ⟨"a", .globalSlot, 0⟩ ∧
    session'.symbol? "a" = some ⟨"a", .globalSlot, 2⟩ ∧
    ∀ fuel, ((load bytecode session'.globals session'.host).runFor fuel).2.globals[0]? =
      session.globals[0]? := by
  have hok : (Session.start.compile nameInFunction).1.toOption.map (fun bytecode =>
      let compiled := (Session.start.compile nameInFunction).2
      let session := compiled.after
        ((load bytecode compiled.globals compiled.host).runFor 10).2
      decide ((session.compile nameAgain).1.toOption.isSome = true ∧
        session.symbol? "a" = some ⟨"a", .globalSlot, 0⟩ ∧ session.table.definitions = 2 ∧
        (session.compile nameAgain).2.symbol? "a" = some ⟨"a", .globalSlot, 2⟩)) = some true := by
    decide +kernel
  cases hcompile : Session.start.compile nameInFunction with
  | mk result compiled =>
    rw [hcompile] at hok
    cases result with
    | error e => cases hok
    | ok bytecode =>
      obtain ⟨hsome, hname, hdefinitions, hname'⟩ := of_decide_eq_true (Option.some.inj hok)
      have hreachable := Session.Reachable.start.run 10 hcompile
      revert hreachable hsome hname hdefinitions hname'
      generalize compiled.after _ = session
      intro hsome hname hdefinitions hname' hreachable
      cases hcompile' : session.compile nameAgain with
      | mk result session' =>
        rw [hcompile'] at hsome hname'
        cases result with
        | error e => cases hsome
        | ok bytecode' =>
          refine ⟨session, bytecode', session', hreachable, hcompile', hname, hname', ?_⟩
          intro fuel
          have hextends := hreachable.append_only.1 _ (.run fuel hcompile')
          exact hextends.slots 0 (by omega)

end Scriptlet
