import Scriptlet.Proofs.Reachable

/-!
# Well-formed bytecode

What can be said about the bytes of compiled code without running them.  A stream decodes into whole
instructions from its first byte to its last; its jumps lead forward to the start of an instruction
of the same stream; and every operand leads to something that exists.  Functions are streams of
their own, which stand in the pool of constants, and the program is one more stream, in which
nothing refers to a running function.

`Session.Reachable.compile_wellFormed` proves all of this for a program that is compiled in any
reachable session.  The functions of earlier programs are in the same pool and are covered too.
-/

namespace Scriptlet

open Code

namespace Code

/-- Every jump leads to the start of an instruction that stands behind the jump. -/
def JumpsForward (is : List Instruction) : Prop :=
  ∀ pre i post t, is = pre ++ i :: post → i.target? = some t →
    ∃ before j rest, is = before ++ j :: rest ∧ extent before = t ∧ extent pre < t

theorem Flows.jumpsForward {is : List Instruction} (h : Flows is.dropLast [] is) :
    JumpsForward is := by
  intro pre i post t his ht
  obtain ⟨before, hbefore, hextent, hlt, -⟩ := (h.sits his).target t ht
  -- the limit leaves out the last instruction, so something follows the target
  have hne : is ≠ [] := by
    rw [his]
    simp
  obtain ⟨js, last, rfl⟩ := List.eq_nil_or_concat is |>.resolve_left hne
  rw [List.concat_eq_append] at hbefore ⊢
  rw [List.dropLast_concat] at hbefore
  obtain ⟨between, rfl⟩ := hbefore
  cases between with
  | nil => exact ⟨before, last, [], by simp, hextent, hlt⟩
  | cons j rest => exact ⟨before, j, rest ++ [last], by simp, hextent, hlt⟩

/-- The stream consists of whole instructions of which the jumps lead forward and the operands lead
to something. -/
structure Reads (code : Code) (b : Bounds) (is : List Instruction) : Prop where
  decodes : code.DecodesTo 0 is
  jumps : JumpsForward is
  valid : ∀ i ∈ is, i.Valid b

theorem Sound.reads {b : Bounds} {is : List Instruction} (h : Code.Sound b is) (hb : b.Small) :
    (assemble is).Reads b is :=
  ⟨decodesTo_assemble fun i hi => (h.valid i hi).fits hb, h.flows.jumpsForward, h.valid⟩

end Code

/-- Well-formed bytecode, where so many global slots have been taken. -/
structure Bytecode.WellFormed (bytecode : Bytecode) (globals : Nat) : Prop where
  /-- The program refers to no local and to no captured value, not to the running function either,
  and does not end the way a function without a result ends. -/
  program : ∃ is, bytecode.code.Reads ⟨bytecode.constants, globals, false, 0, 0⟩ is ∧
    ∀ n, .getLocal n ∉ is ∧ .setLocal n ∉ is ∧ .getFree n ∉ is ∧ .currentClosure ∉ is ∧
      .returnNull ∉ is
  /-- Every function in the pool has room for its parameters among its locals, and its last
  instruction is a return. -/
  routines : ∀ stamp r, .routine stamp r ∈ bytecode.constants →
    r.parameters ≤ r.locals ∧ r.locals ≤ 255 ∧
      ∃ is free, r.code.Reads ⟨bytecode.constants, globals, true, r.locals, free⟩ is ∧
        (is.getLast? = some .returnValue ∨ is.getLast? = some .returnNull)

/-- A program that is compiled in a reachable session has well-formed bytecode. -/
theorem Session.Reachable.compile_wellFormed {session session' : Session} {program : Program}
    {bytecode : Bytecode} (hsession : session.Reachable)
    (hcompile : session.compile program = (.ok bytecode, session')) :
    bytecode.WellFormed session'.table.definitions := by
  obtain ⟨hsound, -, is, rfl, hcode⟩ := compile_sound hcompile hsession.sound
  refine ⟨⟨is, hcode.reads (small_bounds hsound), fun n => ?_⟩, fun stamp r hr => ?_⟩
  · refine ⟨fun h => ?_, fun h => ?_, fun h => ?_, fun h => ?_, fun h => ?_⟩
    · exact Nat.not_lt_zero n (hcode.valid _ h)
    · exact Nat.not_lt_zero n (hcode.valid _ h)
    · exact Nat.not_lt_zero n (hcode.valid _ h)
    · exact Bool.false_ne_true (hcode.valid _ h)
    · exact Bool.false_ne_true (hcode.valid _ h)
  · obtain ⟨⟨js, free, hbytes, hfree, hbody, hreturns⟩, hparameters, hlocals⟩ :=
      hsound.constants _ hr
    refine ⟨hparameters, hlocals, js, free, ?_, hreturns⟩
    rw [hbytes]
    exact hbody.reads ⟨hsound.pool, hsound.slots, hlocals, hfree⟩

/-- A program that defines a function with a closure in it, of which a branch depends on what the
closure is given. -/
def curriedSum : Program :=
  [.bind "add" (.function (some "add") ["a"]
    [.bind "b" (.integer 2),
      .eval (.function none ["c"] [.eval (.conditional (.identifier "c")
        [.eval (.binary (.identifier "a") .add (.identifier "b"))] none)])])]

/-- In the session that `curriedSum` leaves behind, a program that calls its function twice. -/
theorem curriedSum_wellFormed :
    ∃ bytecode, ((Session.start.compile curriedSum).2.compile
        [.eval (.call (.call (.identifier "add") [.integer 1]) [.integer 3])]).1 = .ok bytecode ∧
      bytecode.constants.size = 5 ∧ bytecode.WellFormed 1 := by
  have hok : ((Session.start.compile curriedSum).2.compile
      [.eval (.call (.call (.identifier "add") [.integer 1]) [.integer 3])]).1.toOption.map
        (·.constants.size) = some 5 := by
    decide +kernel
  have hslots : ((Session.start.compile curriedSum).2.compile
      [.eval (.call (.call (.identifier "add") [.integer 1]) [.integer 3])]).2.table.definitions
        = 1 := by
    decide +kernel
  cases hcompile : (Session.start.compile curriedSum).2.compile
      [.eval (.call (.call (.identifier "add") [.integer 1]) [.integer 3])] with
  | mk result session' =>
    rw [hcompile] at hok hslots
    cases result with
    | error e => cases hok
    | ok bytecode =>
      refine ⟨bytecode, rfl, Option.some.inj hok, ?_⟩
      rw [← hslots]
      exact Session.Reachable.compile_wellFormed (.compile curriedSum .start) hcompile

end Scriptlet
