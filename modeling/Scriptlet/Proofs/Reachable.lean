import Scriptlet.Console
import Scriptlet.Proofs.Effects
import Scriptlet.Proofs.Operands

/-!
# Reachable sessions

A session goes from program to program.  A program is compiled; if it is refused, the session is the
one before it, and if not, it may be run, for as long as it takes or until it fails.  The sessions
that can come about in this way are the `Session.Reachable` ones.  The programs are arbitrary trees,
not only those that can be written down.

* `Session.compile_error`: a refused program leaves a session as it was.  Compilation adds constants
  in front of the error, and they are all cut off again, because constants are only ever appended
  (`Gen.stmts_appends`, for results and errors alike).
* `Session.Reachable.sound`: the tables and constants of a reachable session satisfy the invariant
  of compilation.
* `Console.reachable_feed`: every line that a console is fed leads to a reachable session.
-/

namespace Scriptlet

namespace Gen

/-- Appending to the constants, and changing anything else. -/
def Effects.appending : Effects where
  changes c c' := c.constants.toList <+: c'.constants.toList
  errors _ := True
  refl _ := List.prefix_refl _
  trans := List.IsPrefix.trans

instance : Effects.appending.Unlimited where
  buffers _ _ := List.prefix_refl _
  tables _ _ := List.prefix_refl _
  constants c value := by
    show c.constants.toList <+: (c.constants.push value).toList
    simp
  error _ := trivial

/-- Compiling statements only appends to the constants, even if the statements are refused. -/
theorem stmts_appends (body : List Stmt) (c : Compiler) :
    c.constants.toList <+: (after (stmts body c)).constants.toList :=
  (stmts_within body : Within .appending (stmts body)).after c

end Gen

/-- Statements of a program leave no function open. -/
theorem StmtsCode.outer_nil {s s' : Stage} {p : Nat} {body : List Stmt} {is : List Instruction}
    (h : StmtsCode s p body is s') (hs : s.Sound) (houter : s.tables.outer = []) :
    s'.tables.outer = [] := by
  obtain ⟨-, htables⟩ := List.forall₂_cons.1 (h.reaches hs).grows.tables
  rw [houter] at htables
  exact List.forall₂_nil_left_iff.1 htables

/-- A program that is refused leaves neither names nor constants behind. -/
theorem Compiler.compile_error {c c' : Compiler} {program : Program} {e : CompileError}
    (h : c.compile program = (.error e, c')) :
    c'.globals = c.globals ∧ c'.constants = c.constants := by
  have happends := Gen.stmts_appends program c
  unfold Compiler.compile at h
  split at h
  · cases h
  · next e' c₁ hresult =>
    rw [hresult] at happends
    obtain ⟨more, hmore⟩ : c.constants.toList <+: c₁.constants.toList := happends
    cases h
    refine ⟨rfl, Array.toList_inj.1 ?_⟩
    show (Array.shrink _ c.constants.size).toList = _
    rw [Array.toList_shrink, ← hmore]
    exact List.take_left

namespace Session

/-- The tables and constants on which the next program of a session is compiled. -/
def stage (session : Session) : Stage := ⟨session.constants, ⟨session.table, []⟩⟩

theorem compile_eq {session : Session} {program : Program} {result : Except CompileError Unit}
    {c : Compiler}
    (h : (Compiler.resume session.table session.constants).compile program = (result, c)) :
    session.compile program = (result.map fun _ => c.bytecode,
      { session with table := c.globals, constants := c.constants }) := by
  have hcompile : session.compile program =
      (((Compiler.resume session.table session.constants).compile program).1.map fun _ =>
        ((Compiler.resume session.table session.constants).compile program).2.bytecode,
      { session with
        table := ((Compiler.resume session.table session.constants).compile program).2.globals
        constants :=
          ((Compiler.resume session.table session.constants).compile program).2.constants }) := rfl
  rw [hcompile, h]

/-- A program that is refused leaves a session as it was. -/
theorem compile_error {session session' : Session} {program : Program} {e : CompileError}
    (h : session.compile program = (.error e, session')) : session' = session := by
  cases hcompile : (Compiler.resume session.table session.constants).compile program with
  | mk result c =>
    rw [compile_eq hcompile] at h
    cases result with
    | ok u => cases h
    | error e' =>
      obtain ⟨htable, hconstants⟩ := Compiler.compile_error hcompile
      cases h
      rw [htable, hconstants]
      rfl

/-- A program that is compiled has a code, which is all of its bytecode. -/
theorem compile_ok {session session' : Session} {program : Program} {bytecode : Bytecode}
    (h : session.compile program = (.ok bytecode, session')) (hs : session.stage.Sound) :
    ∃ is, StmtsCode session.stage 0 program is session'.stage ∧
      bytecode.code = Code.assemble is ∧ bytecode.constants = session'.constants ∧
      session'.globals = session.globals ∧ session'.host = session.host := by
  cases hcompile : (Compiler.resume session.table session.constants).compile program with
  | mk result c =>
    rw [compile_eq hcompile] at h
    cases result with
    | error e => cases h
    | ok u =>
      cases h
      have hempty : (Compiler.resume session.table session.constants).buffers.inner.Records [] :=
        Buffer.records_empty
      obtain ⟨is, hcode, hrecords, -⟩ := Compiler.compile_code hcompile hempty
      have htables : c.tables.outer = [] := hcode.outer_nil hs rfl
      have hstage : c.stage = ⟨c.constants, ⟨c.globals, []⟩⟩ := by
        obtain ⟨constants', ⟨inner, outer⟩, buffers⟩ := c
        cases htables
        rfl
      rw [hstage] at hcode
      exact ⟨is, hcode, hrecords.code, rfl, rfl, rfl⟩

/-- What the code of a program may refer to. -/
def bounds (session : Session) : Bounds :=
  ⟨session.constants, session.table.definitions, false, 0, 0⟩

theorem bounds_stage {session : Session} (hs : session.stage.Sound) :
    session.stage.bounds = session.bounds := by
  have henclosed : session.table.enclosed = false := hs.tables.enclosed
  have hcaptures : session.table.captures = #[] := hs.tables.captures
  unfold Stage.bounds
  simp [stage, henclosed, hcaptures]
  rfl

theorem small_bounds {session : Session} (hs : session.stage.Sound) : session.bounds.Small :=
  ⟨hs.pool, hs.slots, Nat.zero_le _, Nat.zero_le _⟩

/-- The code of a program that is compiled is sound. -/
theorem compile_sound {session session' : Session} {program : Program} {bytecode : Bytecode}
    (h : session.compile program = (.ok bytecode, session')) (hs : session.stage.Sound) :
    session'.stage.Sound ∧ session.stage.Grows session'.stage ∧
      ∃ is, bytecode = ⟨Code.assemble is, session'.constants⟩ ∧
        Code.Sound session'.bounds is := by
  obtain ⟨is, hcode, hbytes, hconstants, -, -⟩ := compile_ok h hs
  have hreaches := hcode.reaches hs
  refine ⟨hreaches.sound, hreaches.grows, is, ?_, (hcode.flows [] rfl).1, ?_, nofun⟩
  · rw [← hbytes, ← hconstants]
  · rw [← bounds_stage hreaches.sound]
    exact hreaches.valid

/-- What a run leaves behind for the programs after it. -/
def after (session : Session) (m : Machine) : Session :=
  { session with globals := m.globals, host := m.host }

/-- The sessions that come about by compiling and running programs.  A run may be stopped after any
number of steps, and what was printed may be taken away. -/
inductive Reachable : Session → Prop
  | start : Reachable start
  | compile {session : Session} (program : Program) (h : Reachable session) :
      Reachable (session.compile program).2
  | run {session session' : Session} {program : Program} {bytecode : Bytecode} (fuel : Nat)
      (h : Reachable session) (hcompile : session.compile program = (.ok bytecode, session')) :
      Reachable (session'.after
        ((Machine.load bytecode session'.globals session'.host).runFor fuel).2)
  | print {session : Session} (output : String) (h : Reachable session) :
      Reachable { session with host := { session.host with output := output } }

theorem sound_start : start.stage.Sound :=
  ⟨SymbolTable.soundProgram_withBuiltins, by simp [stage, start], by simp [stage, start],
    by decide⟩

/-- Compiling keeps the invariant of compilation, whether the program is refused or not. -/
theorem sound_compile {session : Session} (h : session.stage.Sound) (program : Program) :
    (session.compile program).2.stage.Sound := by
  cases hcompile : session.compile program with
  | mk result session' =>
    cases result with
    | error e => exact compile_error hcompile ▸ h
    | ok bytecode => exact (compile_sound hcompile h).1

theorem Reachable.sound {session : Session} (h : Reachable session) : session.stage.Sound := by
  induction h with
  | start => exact sound_start
  | compile program _ ih => exact sound_compile ih program
  | @run session session' program bytecode fuel _ hcompile ih =>
    have hsound := sound_compile ih program
    rw [hcompile] at hsound
    exact hsound
  | print output _ ih => exact ih

end Session

namespace Console

/-- Running a program leads from a reachable session to a reachable one. -/
theorem reachable_runProgram {console : Console} (h : console.session.Reachable)
    (program : Program) : (console.runProgram program).session.Reachable := by
  obtain ⟨session, listing, ended, report⟩ := console
  have hreachable := h.compile program
  unfold runProgram
  cases hcompile : session.compile program with
  | mk result session' =>
    simp only [hcompile] at hreachable ⊢
    cases result with
    | error e => exact hreachable
    | ok bytecode =>
      have hrun := (Session.Reachable.run Machine.patience h hcompile).print ""
      dsimp only
      split
      · exact hrun
      · split
        · exact hrun
        · exact hrun

/-- Every line leads from a reachable session to a reachable one. -/
theorem reachable_feed {console : Console} (h : console.session.Reachable) (line : String) :
    (console.feed line).session.Reachable := by
  unfold feed
  split
  · exact h
  · split
    · exact h
    · exact h
    · exact h
    · unfold runLine
      split
      · exact h
      · exact h
      · exact reachable_runProgram h _

/-- The session of a console is reachable after any lines. -/
theorem reachable_foldl_feed (lines : List String) :
    (lines.foldl feed start).session.Reachable := by
  have hfeed : ∀ console : Console, console.session.Reachable →
      (lines.foldl feed console).session.Reachable := by
    induction lines with
    | nil => exact fun _ h => h
    | cons line rest ih => exact fun console h => ih (console.feed line) (reachable_feed h line)
  exact hfeed start .start

end Console

end Scriptlet
