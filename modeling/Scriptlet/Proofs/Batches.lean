import Scriptlet.Proofs.AppendOnly
import Scriptlet.Proofs.Completeness
import Scriptlet.Proofs.Lockstep

/-!
# Sessions and batches

Programs can be run one by one in a session, or they can be written one behind the other and run as
one program.  If they do not return outside of functions, this makes no difference.

* `Session.compile_unit`: a program that compiles behind others compiles in a session that has seen
  those others, with the same names and constants, and its instructions are the same further
  forward.
* `Batch` compares the machine that runs all programs at once, between two of them, with a session
  that has run those before.  `Batch.feed` leads from one program to the next.
* `Session.feedAll_flatten` is the comparison as a whole.

The session uses up one stamp for every program, so running numbers differ; `skip` makes room for
that stamp in a renaming.
-/

namespace Scriptlet

open Code Machine Instruction

namespace Session

/-- What a session answers to a program: the program is refused, or it is run, and then the machine
is there as the run has left it. -/
abbrev Answer := Except CompileError (Except Halt Unit × Machine)

/-- Compiles a program and runs it for at most so many steps. -/
def feed (fuel : Nat) (session : Session) (program : Program) : Answer × Session :=
  match session.compile program with
  | (.error e, session') => (.error e, session')
  | (.ok bytecode, session') =>
    let outcome := (load bytecode session'.globals session'.host).runFor fuel
    (.ok outcome, session'.after outcome.2)

/-- Compiles and runs programs, one behind the other. -/
def feedAll (fuel : Nat) : Session → List Program → List Answer × Session
  | session, [] => ([], session)
  | session, program :: rest =>
    let (answer, session') := session.feed fuel program
    let (answers, final) := feedAll fuel session' rest
    (answer :: answers, final)

/-- With the number of steps that sessions allow, this is to compile and to execute. -/
theorem feed_patience (session : Session) (program : Program) :
    session.feed patience program =
      match session.compile program with
      | (.error e, session') => (.error e, session')
      | (.ok bytecode, session') =>
        let (result, m, final) := session'.execute bytecode
        (.ok (result, m), final) := by
  unfold feed
  split
  · rfl
  · rfl

theorem feed_of_compile {session session' : Session} {program : Program} {bytecode : Bytecode}
    (h : session.compile program = (.ok bytecode, session')) (fuel : Nat) :
    session.feed fuel program =
      (.ok ((load bytecode session'.globals session'.host).runFor fuel),
        session'.after ((load bytecode session'.globals session'.host).runFor fuel).2) := by
  unfold feed
  rw [h]

theorem feedAll_cons (fuel : Nat) (session : Session) (program : Program) (rest : List Program) :
    session.feedAll fuel (program :: rest) =
      ((session.feed fuel program).1 :: ((session.feed fuel program).2.feedAll fuel rest).1,
        ((session.feed fuel program).2.feedAll fuel rest).2) := rfl

theorem length_feedAll (fuel : Nat) (session : Session) (units : List Program) :
    (session.feedAll fuel units).1.length = units.length := by
  induction units generalizing session with
  | nil => rfl
  | cons program rest ih => rw [feedAll_cons, List.length_cons, List.length_cons, ih]

end Session

/-! ## Compilation -/

theorem Gen.stmts_append {u v : Program} {c c' : Compiler} {r : Unit}
    (h : Gen.stmts (u ++ v) c = .ok r c') :
    ∃ c₁, Gen.stmts u c = .ok () c₁ ∧ Gen.stmts v c₁ = .ok r c' := by
  induction u generalizing c with
  | nil => exact ⟨c, rfl, h⟩
  | cons first u ih =>
    obtain ⟨_, c₁, hfirst, hrest⟩ := bind_eq_ok.1 h
    obtain ⟨c₂, hu, hv⟩ := ih hrest
    exact ⟨c₂, (bind_of_ok hfirst).trans hu, hv⟩

/-- Compilation of a batch, with the instructions `is` so far, and a session that has seen the same
programs. -/
structure Session.Meets (session : Session) (c : Compiler) (is : List Instruction) : Prop where
  reachable : session.Reachable
  stage : c.stage = session.stage
  records : c.buffers.inner.Records is
  outer : c.buffers.outer = []

/-- The next program is compiled in the session too. -/
theorem Session.Meets.compile_unit {session : Session} {c c' : Compiler} {is : List Instruction}
    {program : Program} (h : session.Meets c is) (hstmts : Gen.stmts program c = .ok () c') :
    ∃ js bytecode session', session.compile program = (.ok bytecode, session') ∧
      StmtsCode session.stage 0 program js session'.stage ∧
      (load bytecode session'.globals session'.host).frame.Sound session'.constants
        session'.table.definitions false js ∧
      c'.stage = session'.stage ∧
      c'.buffers.inner.Records (is ++ js.map (shift (extent is))) ∧ c'.buffers.outer = [] := by
  obtain ⟨ks, hcode', hemits⟩ := Gen.stmts_code program hstmts h.records
  -- the program has a code behind the batch, so it is compiled at the start of a buffer
  have hsucceeds : Gen.Succeeds (Gen.stmts program)
      (Compiler.resume session.table session.constants) :=
    hcode'.succeeds (Nat.add_zero _).symm h.stage Buffer.records_empty
  obtain ⟨_, d, halone⟩ := hsucceeds
  have hcompile : (Compiler.resume session.table session.constants).compile program =
      (.ok (), d) := by
    unfold Compiler.compile
    rw [halone]
  have hcompile' := Session.compile_eq hcompile
  obtain ⟨js, hcode, hframe⟩ := h.reachable.soundSession.frame_load hcompile'
  obtain ⟨rfl, hstage⟩ := hcode'.relocated (Nat.add_zero _).symm h.stage hcode
  exact ⟨js, _, _, hcompile', hcode, hframe, hstage, hemits.records, hemits.outer.trans h.outer⟩

/-- The session goes on from the run of a program, however it ended. -/
theorem Session.Meets.feed {session session' : Session} {c c' : Compiler}
    {is js : List Instruction} {program : Program} {bytecode : Bytecode} (h : session.Meets c is)
    (hcompile : session.compile program = (.ok bytecode, session'))
    (hstage : c'.stage = session'.stage) (hrecords : c'.buffers.inner.Records js)
    (houter : c'.buffers.outer = []) (fuel : Nat) :
    (session.feed fuel program).2.Meets c' js := by
  rw [Session.feed_of_compile hcompile]
  exact ⟨h.reachable.run fuel hcompile, hstage, hrecords, houter⟩

/-- A session compiles all programs that compile as a batch, and ends with the names and constants
of the batch. -/
theorem Session.Meets.feedAll {session : Session} {c c' : Compiler} {is : List Instruction}
    {units : List Program} (h : session.Meets c is)
    (hstmts : Gen.stmts units.flatten c = .ok () c') (fuel : Nat) :
    (∀ answer ∈ (session.feedAll fuel units).1, ∃ outcome, answer = .ok outcome) ∧
      c'.stage = (session.feedAll fuel units).2.stage := by
  induction units generalizing session c is with
  | nil =>
    cases hstmts
    exact ⟨fun _ hanswer => absurd hanswer List.not_mem_nil, h.stage⟩
  | cons program rest ih =>
    obtain ⟨c₁, hprogram, hrest⟩ := Gen.stmts_append hstmts
    obtain ⟨js, bytecode, session', hcompile, -, -, hstage, hrecords, houter⟩ :=
      h.compile_unit hprogram
    obtain ⟨hanswers, hfinal⟩ := ih (h.feed hcompile hstage hrecords houter fuel) hrest
    rw [Session.feedAll_cons]
    refine ⟨fun answer hanswer => ?_, hfinal⟩
    rcases List.mem_cons.1 hanswer with rfl | hanswer
    · exact ⟨_, by rw [Session.feed_of_compile hcompile]⟩
    · exact hanswers answer hanswer

/-- The code of statements, one behind the other, can be taken apart. -/
theorem StmtsCode.append_inv {s s' : Stage} {p : Nat} {u v : Program} {ks : List Instruction}
    (h : StmtsCode s p (u ++ v) ks s') : ∃ s₁ is js, ks = is ++ js ∧ StmtsCode s p u is s₁ ∧
      StmtsCode s₁ (p + extent is) v js s' := by
  induction u generalizing s p ks with
  | nil => exact ⟨s, [], ks, rfl, .nil, h⟩
  | cons first u ih =>
    cases h with
    | cons hfirst hrest =>
      obtain ⟨s₁, is, js, rfl, hu, hv⟩ := ih hrest
      rw [Nat.add_assoc, ← extent_append] at hv
      exact ⟨s₁, _, js, (List.append_assoc ..).symm, .cons hfirst hu, hv⟩

theorem StmtsCode.eq_nil {s s' : Stage} {p : Nat} {ks : List Instruction}
    (h : StmtsCode s p [] ks s') : ks = [] := by
  cases h
  rfl

theorem Code.DecodesTo.size_eq {code : Code} {offset : Nat} {is : List Instruction}
    (h : code.DecodesTo offset is) : code.size = offset + extent is := by
  induction is generalizing offset with
  | nil => exact h.symm
  | cons i is ih => rw [ih h.2, extent_cons, Nat.add_assoc]

/-! ## Running numbers -/

/-- A renaming that leaves out one number more, from the bound `b` on. -/
def skip (b : Nat) (f : Nat → Nat) (k : Nat) : Nat := if k < b then f k else f k + 1

theorem skip_of_lt {b k : Nat} {f : Nat → Nat} (h : k < b) : skip b f k = f k := if_pos h

theorem skip_add {b c : Nat} {f : Nat → Nat} (hlink : ∀ k, f (b + k) = c + k) (k : Nat) :
    skip b f (b + k) = c + 1 + k := by
  unfold skip
  rw [if_neg (by omega), hlink]
  omega

theorem skip_injective {b c : Nat} {f : Nat → Nat} (hf : Function.Injective f)
    (hlink : ∀ k, f (b + k) = c + k) : Function.Injective (skip b f) := by
  -- a number below the bound is not sent to where one from the bound on is sent
  have hne : ∀ x y, x < b → b ≤ y → f x ≠ f y + 1 := by
    intro x y hx hy heq
    obtain ⟨k, rfl⟩ := Nat.exists_eq_add_of_le hy
    rw [hlink, Nat.add_assoc, ← hlink] at heq
    have hxy := hf heq
    omega
  intro x y hxy
  unfold skip at hxy
  split at hxy <;> split at hxy
  · exact hf hxy
  · next hx hy => exact absurd hxy (hne x y hx (Nat.le_of_not_lt hy))
  · next hx hy => exact absurd hxy.symm (hne y x hy (Nat.le_of_not_lt hx))
  · exact hf (Nat.succ.inj hxy)

/-! ## Runs -/

/-- A machine that runs the batch `all` has come behind the instructions `is`, and a session has
come to the same point.  The session is about to use a stamp for its next program. -/
structure Batch (f : Nat → Nat) (all is : List Instruction) (g : Nat) (m : Machine)
    (session : Session) : Prop where
  sound : m.Sound g
  injective : Function.Injective f
  decodes : m.frame.routine.code.DecodesTo 0 all
  waiting : m.waiting = []
  ip : m.frame.ip = extent is
  base : m.frame.base = 0
  free : m.frame.free = []
  sp : m.sp = 0
  globals : Value.AlikeAll f m.host.made m.globals.toList session.globals.toList
  link : ∀ k, f (m.host.made + k) = session.host.made + 1 + k
  pos : 0 < m.host.made

namespace Batch

variable {f : Nat → Nat} {all is js ks : List Instruction} {g : Nat} {m m' n' : Machine}
  {session session' : Session} {program : Program} {bytecode : Bytecode}

/-- The next program of the session starts in lockstep with the batch. -/
theorem lockstep (h : Batch f all is g m session) (hsession : session.Reachable)
    (hcompile : session.compile program = (.ok bytecode, session'))
    (hframe : (load bytecode session'.globals session'.host).frame.Sound session'.constants
      session'.table.definitions false js)
    (hall : all = is ++ js.map (shift (extent is)) ++ ks)
    (hconstants : session'.constants.toList <+: m.constants.toList) :
    Lockstep f 0 (extent is) js g session'.table.definitions m
      (load bytecode session'.globals session'.host) := by
  obtain ⟨-, hload, hpool⟩ := hsession.soundSession.load hcompile
  have hpool : (load bytecode session'.globals session'.host).constants = session'.constants :=
    hpool
  obtain ⟨-, -, -, -, hglobals, hhost⟩ := Session.compile_ok hcompile hsession.sound
  have hslots : (load bytecode session'.globals session'.host).globals = session.globals := by
    rw [hglobals]
    exact Session.fitGlobals_of_size hsession.size_globals
  have hat : (load bytecode session'.globals session'.host).frame.At js [] 0 :=
    ⟨List.nil_prefix, rfl, rfl⟩
  rw [← hpool] at hframe hconstants
  have habreast : Abreast f 0 m (load bytecode session'.globals session'.host) :=
    { left := h.sound.values.stackSize
      right := hload.values.stackSize
      sp := h.sp.symm
      room := h.sound.values.sp
      slots := fun k hk => by
        rw [h.sp] at hk
        omega
      globals := hslots ▸ h.globals
      link := fun k => by
        rw [h.link, ← hhost]
        rfl
      pos := h.pos }
  have hframes : ∃ d, FramesAlike f m.host.made (extent is) js d m.active
      (load bytecode session'.globals session'.host).active := by
    refine ⟨extent is, ?_⟩
    have hshows := h.decodes.shows
    rw [hall, shows_append, shows_append, Nat.zero_add] at hshows
    unfold active
    rw [h.waiting]
    exact .program
      { shows := hshows.1.2
        decodes := (hload.settled hframe hat).decodes
        ip := h.ip
        base := h.base.symm
        free := ⟨h.free, rfl⟩ }
  exact
    { left := h.sound
      right := hload
      constants := hconstants
      abreast := habreast
      frames := hframes }

/-- Where the program of the session has ended, the batch has come behind its instructions. -/
theorem ended {g' low : Nat} (h : Batch f all is g m session)
    (hlockstep : Lockstep f low (extent is) js g g' m' n') (hsteps : Steps m m')
    (hend : Exec.step n' = .ok false n') (hwaiting : n'.waiting = []) (hsp : n'.sp = 0)
    (hsession : session'.globals = n'.globals ∧ session'.host = n'.host) :
    Batch (skip m'.host.made f) all (is ++ js.map (shift (extent is))) g m' session' := by
  have habreast := hlockstep.abreast
  obtain ⟨d, hframes⟩ := hlockstep.frames
  unfold active at hframes
  rw [hwaiting] at hframes
  rcases hframes.cases_cons with ⟨-, hwaiting', -, hmoved⟩ | ⟨-, -, d', hrest⟩
  · have hhome := h.sound.home_eq hsteps
    rw [home_of_waiting hwaiting', home_of_waiting h.waiting, Option.some.injEq] at hhome
    have hframe := Frame.eq_withIp hhome
    have hip : n'.frame.ip = extent js := by
      have hsize := hmoved.decodes.size_eq
      rcases hlockstep.right.stands with ⟨ls, hls, hip, -⟩ | ⟨ls, pre, i, post, hm, hls, hat⟩
      · rw [hip, ← size_assemble, ← hls.code, hsize, Nat.zero_add]
      · cases ((execute_stepped hlockstep.right.values hm hls hat
          hlockstep.right.base_pos).of_ok hend).1
    refine
      { sound := hlockstep.left
        injective := skip_injective h.injective habreast.link
        decodes := ?_
        waiting := hwaiting'
        ip := ?_
        base := ?_
        free := ?_
        sp := habreast.sp.symm.trans hsp
        globals := ⟨?_, habreast.globals.below⟩
        link := fun k => ?_
        pos := habreast.pos }
    · rw [hframe]
      exact h.decodes
    · rw [hmoved.ip, hip, extent_append, extent_map_shift]
    · rw [hframe]
      exact h.base
    · rw [hframe]
      exact h.free
    · rw [hsession.1, habreast.globals.renamed]
      refine List.map_congr_left fun v hv => ?_
      have hbelow := Value.map_rename_cap_eq_self.1 habreast.globals.below v hv
      exact hbelow.rename_congr habreast.pos fun k hk => (skip_of_lt hk).symm
    · rw [skip_add habreast.link, hsession.2]
  · obtain ⟨_, _, _, _, -, hcons⟩ := hrest.exists_cons
    cases hcons

/-- The lowest slot holds what a program has left, and the machines have no other in use. -/
theorem lastPopped_eq {low q g' : Nat} (h : Lockstep f low q js g g' m' n') (hsp : n'.sp = 0)
    (hlow : 0 < low) : n'.lastPopped = m'.lastPopped.rename (skip m'.host.made f) := by
  obtain ⟨v, w, hv, hw, hvw⟩ := h.abreast.slots 0 (.inl hlow)
  have hleft : m'.lastPopped = v := by
    rw [lastPopped, ← h.abreast.sp, hsp, hv]
    rfl
  have hright : n'.lastPopped = w := by
    rw [lastPopped, hsp, hw]
    rfl
  rw [hleft, hright, hvw.renamed]
  exact hvw.below.rename_congr h.abreast.pos fun k hk => (skip_of_lt hk).symm

/-- How the next program comes out in the session and in the batch. -/
theorem feed {left fuel : Nat} (h : Batch f all is g m session) (hsession : session.Reachable)
    (hcompile : session.compile program = (.ok bytecode, session'))
    (hcode : StmtsCode session.stage 0 program js session'.stage)
    (hframe : (load bytecode session'.globals session'.host).frame.Sound session'.constants
      session'.table.definitions false js)
    (hreturns : Program.returns program = false)
    (hall : all = is ++ js.map (shift (extent is)) ++ ks)
    (hconstants : session'.constants.toList <+: m.constants.toList) (hle : left ≤ fuel)
    (hfuel : ∀ m', Exec.run left m ≠ .error .outOfFuel m') :
    (∃ left' m' n', Exec.run left m = Exec.run left' m' ∧ left' ≤ left ∧
      m'.constants = m.constants ∧
      (load bytecode session'.globals session'.host).runFor fuel = (.ok (), n') ∧
      Batch (skip m'.host.made f) all (is ++ js.map (shift (extent is))) g m' (session'.after n') ∧
      (program ≠ [] → n'.lastPopped = m'.lastPopped.rename (skip m'.host.made f))) ∨
    ∃ halt m' n', Exec.run left m = .error halt m' ∧
      (load bytecode session'.globals session'.host).runFor fuel = (.error halt, n') ∧
      n'.globals = m'.globals.map (Value.rename f) := by
  have hlockstep := h.lockstep hsession hcompile hframe hall hconstants
  have hreturn := hcode.returnValue_notMem hreturns
  have hat : (load bytecode session'.globals session'.host).frame.At js [] 0 :=
    ⟨List.nil_prefix, rfl, rfl⟩
  obtain ⟨-, hload, hpool⟩ := hsession.soundSession.load hcompile
  rw [← show (load bytecode session'.globals session'.host).constants = session'.constants from
    hpool] at hframe
  -- the lowest slot can be compared if there is anything to run
  obtain ⟨low, hpaired, hlow⟩ : ∃ low, Paired f low (extent is) js g session'.table.definitions
      left fuel m (load bytecode session'.globals session'.host) ∧ (program ≠ [] → 0 < low) := by
    by_cases hprogram : program = []
    · exact ⟨0, hlockstep.run h.injective hreturn hle hfuel, fun hne => absurd hprogram hne⟩
    · refine ⟨1, ?_, fun _ => Nat.one_pos⟩
      obtain ⟨first, body, rfl⟩ := List.exists_cons_of_ne_nil hprogram
      obtain ⟨i, post, hjs⟩ := List.exists_cons_of_ne_nil hcode.ne_nil
      have hdecodes := (hload.settled hframe hat).decodes
      rw [hjs] at hdecodes
      exact hlockstep.run_program h.injective hreturn hle hfuel rfl rfl hdecodes.1
  cases hpaired with
  | @ended left' m' n' hrun hleft hsteps hrun' hsteps' hend h' =>
    have hordered := ordered_load bytecode session'.globals session'.host
    obtain ⟨-, hwaiting⟩ := h'.right.ended (hload.ordered hordered hsteps') hend
    have hsp : n'.sp = 0 := by
      rw [hload.sp_of_ended hordered rfl hframe hat hreturn hsteps' hend]
      exact (Nat.zero_add _).trans (hcode.flows [] rfl).2.1
    refine .inl ⟨left' + 1, m', n', hrun, hleft, (h.sound.steps hsteps).2, ?_,
      h.ended h' hsteps hend hwaiting hsp ⟨rfl, rfl⟩,
      fun hne => lastPopped_eq h' hsp (hlow hne)⟩
    unfold runFor
    rw [hrun']
  | @failed halt m' n' hrun hrun' hglobals =>
    refine .inr ⟨halt, m', n', hrun, ?_, ?_⟩
    · unfold runFor
      rw [hrun']
    · rw [← Array.toList_inj, Array.toList_map]
      exact hglobals

theorem globals_eq (h : Batch f all is g m session) :
    session.globals = m.globals.map (Value.rename f) := by
  rw [← Array.toList_inj, Array.toList_map]
  exact h.globals.renamed

/-- Behind its last instruction the batch has ended. -/
theorem run_end {left : Nat} (h : Batch f all all g m session)
    (hfuel : ∀ m', Exec.run left m ≠ .error .outOfFuel m') : Exec.run left m = .ok () m := by
  have hend : Exec.step m = .ok false m := by
    rcases h.sound.point with hend | ⟨ls, pre, i, post, hm, hls, hat⟩
    · exact hend
    · have hsize := h.decodes.size_eq
      have hip := h.ip
      have hpos := i.size_pos
      rw [hm.frame.code, size_assemble, hls, extent_append, extent_cons] at hsize
      rw [hat.ip] at hip
      omega
  cases left with
  | zero => exact absurd rfl (hfuel m)
  | succ left => exact run_succ_of_false hend

end Batch

namespace Session

/-- The answers of a session to programs that were run as a batch, where the batch has ended. -/
structure Ended (units : List Program) (answers : List Answer) (final : Session) (m : Machine) :
    Prop where
  succeeded : ∀ answer ∈ answers, ∃ n, answer = .ok (.ok (), n)
  same : ∃ f : Nat → Nat, Function.Injective f ∧ final.globals = m.globals.map (Value.rename f) ∧
    ∀ program, units.getLast? = some program → program ≠ [] →
      ∃ n, answers.getLast? = some (.ok (.ok (), n)) ∧ n.lastPopped = m.lastPopped.rename f

/-- The answers of a session to programs that were run as a batch, where the batch has failed: the
first answer that is a failure. -/
def Failed (halt : Halt) (answers : List Answer) (m : Machine) : Prop :=
  ∃ before n rest, answers = before ++ .ok (.error halt, n) :: rest ∧
    (∀ answer ∈ before, ∃ n, answer = .ok (.ok (), n)) ∧
    ∃ f : Nat → Nat, Function.Injective f ∧ n.globals = m.globals.map (Value.rename f)

/-- One more program in front, which the session has run to its end. -/
theorem Ended.cons {program : Program} {units : List Program} {answers : List Answer}
    {final : Session} {m n : Machine} (h : Ended units answers final m) (hunits : units ≠ [])
    (hanswers : answers ≠ []) :
    Ended (program :: units) (.ok (.ok (), n) :: answers) final m := by
  obtain ⟨hsucceeded, f, hf, hglobals, hlast⟩ := h
  refine ⟨fun answer hanswer => ?_, f, hf, hglobals, ?_⟩
  · rcases List.mem_cons.1 hanswer with rfl | hanswer
    · exact ⟨n, rfl⟩
    · exact hsucceeded answer hanswer
  · rw [List.getLast?_cons_of_ne_nil hunits, List.getLast?_cons_of_ne_nil hanswers]
    exact hlast

theorem Failed.cons {halt : Halt} {answers : List Answer} {m n : Machine}
    (h : Failed halt answers m) : Failed halt (.ok (.ok (), n) :: answers) m := by
  obtain ⟨before, n', rest, rfl, hbefore, hsame⟩ := h
  refine ⟨.ok (.ok (), n) :: before, n', rest, rfl, fun answer hanswer => ?_, hsame⟩
  rcases List.mem_cons.1 hanswer with rfl | hanswer
  · exact ⟨n, rfl⟩
  · exact hbefore answer hanswer

end Session

/-- However a batch comes out, the session comes out the same. -/
theorem Batch.feedAll {f : Nat → Nat} {all is : List Instruction} {g left fuel : Nat}
    {m : Machine} {session : Session} {c c' : Compiler} {units : List Program}
    (h : Batch f all is g m session) (hmeets : session.Meets c is)
    (hstmts : Gen.stmts units.flatten c = .ok () c')
    (hcode : ∃ ks, all = is ++ ks ∧ StmtsCode c.stage (extent is) units.flatten ks c'.stage)
    (hconstants : m.constants = c'.constants) (hreturns : ∀ u ∈ units, Program.returns u = false)
    (hle : left ≤ fuel) (hfuel : ∀ m', Exec.run left m ≠ .error .outOfFuel m') :
    (∃ m', Exec.run left m = .ok () m' ∧
      Session.Ended units (session.feedAll fuel units).1 (session.feedAll fuel units).2 m') ∨
    ∃ halt m', Exec.run left m = .error halt m' ∧
      Session.Failed halt (session.feedAll fuel units).1 m' := by
  induction units generalizing f is left m session c with
  | nil =>
    obtain ⟨ks, rfl, hks⟩ := hcode
    rw [hks.eq_nil, List.append_nil] at h
    have hended : Session.Ended [] [] session m :=
      { succeeded := fun _ hmem => absurd hmem List.not_mem_nil
        same := ⟨f, h.injective, h.globals_eq, nofun⟩ }
    exact .inl ⟨m, h.run_end hfuel, hended⟩
  | cons program rest ih =>
    obtain ⟨c₁, hprogram, hrest⟩ := Gen.stmts_append hstmts
    obtain ⟨js, bytecode, session', hcompile, hjs, hframe, hstage, hrecords, houter⟩ :=
      hmeets.compile_unit hprogram
    -- the instructions of the program in the batch are those of the session
    obtain ⟨ks, hall, hks⟩ := hcode
    obtain ⟨s₁, ls, ks, rfl, hls, hks⟩ := hks.append_inv
    obtain ⟨rfl, rfl⟩ := hls.relocated (Nat.add_zero _).symm hmeets.stage hjs
    rw [← extent_append] at hks
    rw [← List.append_assoc] at hall
    have hpool : session'.constants.toList <+: m.constants.toList := by
      have happends := Gen.stmts_appends rest.flatten c₁
      rw [hrest, show c₁.constants = session'.constants from congrArg Stage.constants hstage]
        at happends
      rw [hconstants]
      exact happends
    rw [Session.feedAll_cons, Session.feed_of_compile hcompile]
    rcases h.feed hmeets.reachable hcompile hjs hframe (hreturns program (by simp)) hall hpool hle
      hfuel with ⟨left', m', n', hrun, hleft, hsame, hrun', hbatch, hlast⟩ |
        ⟨halt, m', n', hrun, hrun', hglobals⟩
    · have hnext := hmeets.feed hcompile hstage hrecords houter fuel
      rw [Session.feed_of_compile hcompile] at hnext
      rw [hrun'] at hnext ⊢
      rw [hrun] at hfuel ⊢
      cases rest with
      | nil =>
        rw [hks.eq_nil, List.append_nil] at hall
        subst hall
        refine .inl ⟨m', hbatch.run_end hfuel,
          { succeeded := fun answer hanswer => ⟨n', List.mem_singleton.1 hanswer⟩
            same := ⟨_, hbatch.injective, hbatch.globals_eq, fun u hu hne => ⟨n', rfl, ?_⟩⟩ }⟩
        cases hu
        exact hlast hne
      | cons u rest =>
        rcases ih hbatch hnext hrest ⟨ks, hall, hstage ▸ hks⟩ (hsame.trans hconstants)
          (fun u hu => hreturns u (by simp [hu])) (Nat.le_trans hleft hle) hfuel with
          ⟨m'', hrun'', hended⟩ | ⟨halt, m'', hrun'', hfailed⟩
        · refine .inl ⟨m'', hrun'', hended.cons (List.cons_ne_nil _ _) ?_⟩
          rw [Session.feedAll_cons]
          exact List.cons_ne_nil _ _
        · exact .inr ⟨halt, m'', hrun'', hfailed.cons⟩
    · rw [hrun']
      exact .inr ⟨halt, m', hrun, [], n', _, rfl, fun _ hmem => absurd hmem List.not_mem_nil, f,
        h.injective, hglobals⟩

/-- The machine that is about to run a batch, and a session that has not been fed anything. -/
theorem Batch.start {bytecode : Bytecode} {session : Session} {program : Program}
    {all : List Instruction}
    (hcompile : Session.start.compile program = (.ok bytecode, session))
    (hframe : (Machine.start bytecode).frame.Sound session.constants session.table.definitions
      false all) :
    Batch id all [] session.table.definitions (Machine.start bytecode) Session.start := by
  obtain ⟨-, hload, hpool⟩ := Session.Reachable.start.soundSession.load hcompile
  obtain ⟨-, -, -, -, hglobals, hhost⟩ := Session.compile_ok hcompile Session.sound_start
  rw [hglobals, hhost] at hload
  have hload : (Machine.start bytecode).Sound session.table.definitions := hload
  have hat : (Machine.start bytecode).frame.At all [] 0 := ⟨List.nil_prefix, rfl, rfl⟩
  rw [← show (Machine.start bytecode).constants = session.constants from hpool] at hframe
  have hempty : (Machine.start bytecode).globals = Machine.emptyGlobals :=
    Session.fitGlobals_of_size Array.size_replicate
  have hnull : ∀ g : Nat → Nat, Machine.emptyGlobals.toList.map (Value.rename g) =
      Machine.emptyGlobals.toList := by
    intro g
    unfold Machine.emptyGlobals
    rw [Array.toList_replicate, List.map_replicate]
    rfl
  exact
    { sound := hload
      injective := Function.injective_id
      decodes := (hload.settled hframe hat).decodes
      waiting := rfl
      ip := rfl
      base := rfl
      free := rfl
      sp := rfl
      globals := by
        rw [hempty]
        exact ⟨(hnull id).symm, hnull _⟩
      link := fun k => rfl
      pos := Nat.one_pos }

/-- Programs without a return outside of functions can be fed to a session one by one or be compiled
and run as one program.  The session compiles each of them and ends with the same constants and the
same table of names.  If the run of the whole ends, all runs of the session end, with the same
values in the global slots and the same result up to running numbers; if it fails, then the first
run of the session that fails does so with the same error and with the same values in the global
slots. -/
theorem Session.feedAll_flatten {units : List Program} {c : Compiler}
    (hreturns : ∀ u ∈ units, Program.returns u = false)
    (hcompile : Compiler.start.compile units.flatten = (.ok (), c)) (fuel : Nat) :
    ((start.feedAll fuel units).1.length = units.length ∧
      ∀ answer ∈ (start.feedAll fuel units).1, ∃ outcome, answer = .ok outcome) ∧
    (start.feedAll fuel units).2.constants = c.constants ∧
    (start.feedAll fuel units).2.table = c.globals ∧
    (∀ m, (Machine.start c.bytecode).runFor fuel = (.ok (), m) →
      Ended units (start.feedAll fuel units).1 (start.feedAll fuel units).2 m) ∧
    ∀ e m, (Machine.start c.bytecode).runFor fuel = (.error (.error e), m) →
      Failed (.error e) (start.feedAll fuel units).1 m := by
  have hstmts : Gen.stmts units.flatten Compiler.start = .ok () c := by
    unfold Compiler.compile at hcompile
    split at hcompile
    · next hstmts =>
      cases hcompile
      exact hstmts
    · cases hcompile
  have hmeets : Session.start.Meets Compiler.start [] :=
    ⟨.start, rfl, Buffer.records_empty, rfl⟩
  have hbatch := @Session.compile_eq Session.start units.flatten (.ok ()) c hcompile
  obtain ⟨all, hcode, hframe⟩ := Session.Reachable.start.soundSession.frame_load hbatch
  obtain ⟨ks, hcode', -⟩ := Gen.stmts_code units.flatten hstmts Buffer.records_empty
  obtain ⟨hks, -⟩ := hcode'.relocated (n := 0) rfl rfl hcode
  rw [map_shift_zero] at hks
  subst hks
  obtain ⟨hanswers, hstage⟩ := hmeets.feedAll hstmts fuel
  have hall := (Batch.start hbatch hframe).feedAll hmeets hstmts ⟨_, rfl, hcode'⟩ rfl hreturns
    (Nat.le_refl fuel)
  refine ⟨⟨length_feedAll .., hanswers⟩, (congrArg Stage.constants hstage).symm,
    (congrArg (fun s => s.tables.outermost) hstage).symm, fun m hrun => ?_, fun e m hrun => ?_⟩
  · unfold Machine.runFor at hrun
    split at hrun
    · next u m' hok =>
      cases hrun
      rcases hall (fun m' => by rw [hok]; nofun) with
        ⟨m'', hrun, hended⟩ | ⟨halt, m'', hrun, -⟩
      · cases hok.symm.trans hrun
        exact hended
      · cases hok.symm.trans hrun
    · cases hrun
  · unfold Machine.runFor at hrun
    split at hrun
    · cases hrun
    · next halt m' herror =>
      cases hrun
      rcases hall (fun m' => by rw [herror]; nofun) with ⟨m'', hrun, -⟩ | ⟨halt, m'', hrun, hfailed⟩
      · cases herror.symm.trans hrun
      · cases herror.symm.trans hrun
        exact hfailed

/-- An array, a function that adds to it, and a call of that function, each on its own. -/
def carriedArray : List Program :=
  [[.bind "a" (.array [.integer 1])],
    [.bind "f" (.function (some "f") ["x"]
      [.eval (.call (.identifier "push") [.identifier "a", .identifier "x"])])],
    [.eval (.call (.identifier "f") [.integer 2])]]

theorem carriedArray_same : ∃ c m, Compiler.start.compile carriedArray.flatten = (.ok (), c) ∧
    (Machine.start c.bytecode).runFor 50 = (.ok (), m) ∧
    Session.Ended carriedArray (Session.start.feedAll 50 carriedArray).1
      (Session.start.feedAll 50 carriedArray).2 m := by
  have hreturns : ∀ u ∈ carriedArray, Program.returns u = false := by decide
  have hok : (Compiler.start.compile carriedArray.flatten).1.toOption.isSome = true := by
    decide +kernel
  have hends : ((Machine.start (Compiler.start.compile carriedArray.flatten).2.bytecode).runFor
      50).1 = .ok () := by
    decide +kernel
  cases hcompile : Compiler.start.compile carriedArray.flatten with
  | mk result c =>
    rw [hcompile] at hok hends
    cases result with
    | error e => cases hok
    | ok u =>
      cases hrun : (Machine.start c.bytecode).runFor 50 with
      | mk result m =>
        rw [hrun] at hends
        cases hends
        obtain ⟨-, -, -, hended, -⟩ := Session.feedAll_flatten hreturns hcompile 50
        exact ⟨c, m, rfl, hrun, hended m hrun⟩

end Scriptlet
