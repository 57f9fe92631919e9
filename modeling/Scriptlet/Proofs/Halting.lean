import Mathlib.Data.DFinsupp.WellFounded
import Scriptlet.Proofs.Safety

/-!
# Compiled code halts

Nothing counts the steps of a machine, and a function may call itself.  A run ends all the same: the
jumps of compiled code lead forward, and no more than `Machine.maxFrames` calls run at a time.

`Machine.rest` lists, from the outermost frame inwards, how many bytes each frame still has before
it, one more than that for a frame that runs or waits and zero where there is no frame.  A step
makes this list smaller in the lexicographic order, in which the outermost frame counts most:

* an instruction or a jump brings its own frame forward,
* a call brings its frame forward too, and what the new frame adds stands behind,
* a return takes a frame away, while the frame it returns to was brought forward by the call.

The order is well-founded because the list has a fixed length.
-/

namespace Scriptlet

open Code

namespace Machine

/-- The frames of a machine, outermost first. -/
def frames (m : Machine) : Array Frame := m.callers.push m.frame

/-- How many bytes a frame has before it, and one more for the frame itself. -/
def restOf : Option Frame → Nat
  | some f => f.routine.code.size - f.ip + 1
  | none => 0

/-- The bytes before each of the frames there can be. -/
def rest (m : Machine) : Fin maxFrames → Nat := fun k => restOf m.frames[k.val]?

/-- The lexicographic order, in which the outermost frame counts most. -/
def Shrinks (m' m : Machine) : Prop := Pi.Lex (· < ·) (· < ·) m'.rest m.rest

theorem wellFounded_shrinks : WellFounded Shrinks :=
  InvImage.wf rest (Pi.Lex.wellFounded (· < ·) fun _ => Nat.lt_wfRel.wf)

variable {g : Nat} {m m' : Machine} {i : Instruction} {is pre post : List Instruction}

theorem getElem?_frames_of_lt {k : Nat} (h : k < m.callers.size) :
    m.frames[k]? = m.callers[k]? := by
  rw [frames, Array.getElem?_push, if_neg (Nat.ne_of_lt h)]

theorem getElem?_frames_size (m : Machine) : m.frames[m.callers.size]? = some m.frame :=
  Array.getElem?_push_size

/-- The frames below the running one are the same, and that one has come forward or has gone. -/
theorem shrinks_of_frames (hdepth : m.depth ≤ maxFrames)
    (hsame : ∀ k < m.callers.size, m'.frames[k]? = m.callers[k]?)
    (hless : restOf m'.frames[m.callers.size]? < restOf (some m.frame)) : m'.Shrinks m := by
  refine ⟨⟨m.callers.size, hdepth⟩, fun k hk => ?_, ?_⟩
  · show restOf m'.frames[k.val]? = restOf m.frames[k.val]?
    rw [hsame k hk, getElem?_frames_of_lt hk]
  · show restOf m'.frames[m.callers.size]? < restOf m.frames[m.callers.size]?
    rw [getElem?_frames_size]
    exact hless

/-- Every step makes what is before the frames smaller. -/
theorem Stepped.shrinks (hdepth : m.depth ≤ maxFrames) (hflows : Flows is.dropLast [] is)
    (hcode : m.frame.routine.code = assemble is) (his : is = pre ++ i :: post)
    (hip : m.frame.ip = extent pre) (h : Stepped g pre i m m') : m'.Shrinks m := by
  have hpos := i.size_pos
  have hsize : m.frame.routine.code.size = extent pre + (i.size + extent post) := by
    rw [hcode, size_assemble, his, extent_append, extent_cons]
  have hnext : extent pre < extent (pre ++ [i]) := by
    rw [extent_append, extent_cons]
    omega
  -- the running frame at a later position
  have hforward : ∀ ip, extent pre < ip →
      restOf (some { m.frame with ip := ip }) < restOf (some m.frame) := by
    intro ip hlt
    show m.frame.routine.code.size - ip + 1 < m.frame.routine.code.size - m.frame.ip + 1
    omega
  -- a step that stays in the frame
  have hstay : ∀ ip, m'.frame = { m.frame with ip := ip } → m'.callers = m.callers →
      extent pre < ip → m'.Shrinks m := by
    intro ip hframe hcallers hlt
    refine shrinks_of_frames hdepth (fun k hk => ?_) ?_
    · rw [getElem?_frames_of_lt (hcallers ▸ hk), hcallers]
    · rw [← hcallers, getElem?_frames_size, hframe]
      exact hforward ip hlt
  cases h.moves with
  | next hframe hcallers _ => exact hstay _ hframe hcallers hnext
  | @jump t ht hframe hcallers _ =>
    obtain ⟨-, -, -, hlt, -⟩ := (hflows.sits his).target t ht
    exact hstay t hframe hcallers hlt
  | call _ _ hcallers _ _ _ =>
    have hlt : m.callers.size < m'.callers.size := by
      rw [hcallers, Array.size_push]
      exact Nat.lt_succ_self _
    refine shrinks_of_frames hdepth (fun k hk => ?_) ?_
    · rw [getElem?_frames_of_lt (Nat.lt_trans hk hlt), hcallers, Array.getElem?_push,
        if_neg (Nat.ne_of_lt hk)]
    · rw [getElem?_frames_of_lt hlt, hcallers, Array.getElem?_push_size]
      exact hforward _ hnext
  | ret hcallers hframe _ =>
    have hframes : m'.frames = m.callers := by rw [frames, hframe, hcallers]
    refine shrinks_of_frames hdepth (fun k _ => by rw [hframes]) ?_
    rw [hframes, Array.getElem?_eq_none (Nat.le_refl _)]
    exact Nat.succ_pos _
  | finish hnone hcallers hframe =>
    refine hstay _ hframe (hcallers.trans hnone.symm) ?_
    omega

theorem Next.shrinks (h : m.Sound g) (hnext : Next m m') : m'.Shrinks m := by
  rcases h.point with hend | ⟨is, pre, i, post, hm, his, hat⟩
  · cases hend.symm.trans hnext
  · obtain ⟨-, hstepped⟩ := (execute_stepped h.values hm his hat h.base_pos).of_ok hnext
    obtain ⟨free, -, hcode⟩ := hm.frame.body
    exact hstepped.shrinks h.frames hcode.flows hm.frame.code his hat.ip

/-- What is before the frames after some steps is smaller than before them. -/
theorem Sound.transGen_lex (h : m.Sound g) (hsteps : Relation.TransGen Next m m') :
    Relation.TransGen (Pi.Lex (· < ·) (· < ·)) m'.rest m.rest := by
  induction hsteps with
  | single hnext => exact .single (hnext.shrinks h)
  | tail hsteps hnext ih => exact .head (hnext.shrinks (h.steps hsteps.to_reflTransGen).1) ih

/-- Steps do not lead back to a position of a call. -/
theorem Sound.not_again (h : m.Sound g) (hsteps : Relation.TransGen Next m m')
    (hframe : m'.frame = m.frame) (hcallers : m'.callers = m.callers) : False := by
  have hless := h.transGen_lex hsteps
  have hrest : m'.rest = m.rest := by
    unfold rest Machine.frames
    rw [hframe, hcallers]
  rw [hrest] at hless
  have hlex : WellFounded (Relation.TransGen
      (Pi.Lex (· < ·) (· < ·) : (Fin maxFrames → Nat) → (Fin maxFrames → Nat) → Prop)) :=
    (Pi.Lex.wellFounded (· < ·) fun _ => Nat.lt_wfRel.wf).transGen
  exact hlex.irrefl.irrefl _ hless

/-- A machine that runs compiled code comes to an end or to an error. -/
theorem Sound.halts (h : m.Sound g) :
    ∃ m₁ m', Steps m m₁ ∧
      (Exec.step m₁ = .ok false m' ∨ ∃ e, Exec.step m₁ = .error (.error e) m') := by
  induction m using wellFounded_shrinks.induction with
  | _ m ih =>
    rcases h.point with hend | ⟨is, pre, i, post, hm, his, hat⟩
    · exact ⟨m, m, .refl, .inl hend⟩
    · have hstep := execute_stepped h.values hm his hat h.base_pos
      obtain ⟨free, -, hcode⟩ := hm.frame.body
      cases hresult : Exec.step m with
      | ok more m' =>
        obtain ⟨rfl, hstepped⟩ := hstep.of_ok hresult
        have hshrinks := hstepped.shrinks h.frames hcode.flows hm.frame.code his hat.ip
        obtain ⟨m₁, m₂, hsteps, hend⟩ := ih m' hshrinks (h.of_stepped hm his hstepped)
        exact ⟨m₁, m₂, .head hresult hsteps, hend⟩
      | error halt m' =>
        obtain ⟨hallowed, -, -⟩ := hstep.of_error hresult
        cases halt with
        | error e => exact ⟨m, m', .refl, .inr ⟨e, hresult⟩⟩
        | outOfBounds => exact hallowed.elim
        | outOfFuel => exact hallowed.elim

/-- A run that is allowed enough steps ends as the steps do. -/
theorem runFor_of_steps {m₁ : Machine} {result : Except Halt Unit} (hsteps : Steps m m₁)
    (hend : Exec.step m₁ = .ok false m' ∧ result = .ok () ∨
      ∃ halt, Exec.step m₁ = .error halt m' ∧ result = .error halt) :
    ∃ least, ∀ fuel, least ≤ fuel → m.runFor fuel = (result, m') := by
  induction hsteps using Relation.ReflTransGen.head_induction_on with
  | refl =>
    refine ⟨1, fun fuel hfuel => ?_⟩
    obtain ⟨fuel, rfl⟩ := Nat.exists_eq_add_of_le' hfuel
    unfold runFor
    rcases hend with ⟨hstep, rfl⟩ | ⟨halt, hstep, rfl⟩
    · rw [run_succ_of_false hstep]
    · rw [run_succ_of_error hstep]
  | head hnext _ ih =>
    obtain ⟨least, hleast⟩ := ih
    refine ⟨least + 1, fun fuel hfuel => ?_⟩
    obtain ⟨fuel, rfl⟩ := Nat.exists_eq_add_of_le' (Nat.le_trans (Nat.le_add_left 1 least) hfuel)
    have hrun := hleast fuel (Nat.le_of_succ_le_succ hfuel)
    unfold runFor at hrun ⊢
    rw [run_succ_of_true hnext]
    exact hrun

end Machine

open Machine

/-- A program that was compiled in a reachable session halts: there is a number of steps after which
its run has ended, or has failed with an error of the machine, and more steps make no difference. -/
theorem Session.Reachable.run_halts {session session' : Session} {program : Program}
    {bytecode : Bytecode} (hsession : session.Reachable)
    (hcompile : session.compile program = (.ok bytecode, session')) :
    ∃ least result m', (result = .ok () ∨ ∃ e, result = .error (.error e)) ∧
      ∀ fuel, least ≤ fuel →
        (Machine.load bytecode session'.globals session'.host).runFor fuel = (result, m') := by
  obtain ⟨-, hload, -⟩ := hsession.soundSession.load hcompile
  obtain ⟨m₁, m', hsteps, hend | ⟨e, hfail⟩⟩ := hload.halts
  · obtain ⟨least, hleast⟩ := runFor_of_steps hsteps (.inl ⟨hend, rfl⟩)
    exact ⟨least, .ok (), m', .inl rfl, hleast⟩
  · obtain ⟨least, hleast⟩ := runFor_of_steps hsteps (.inr ⟨_, hfail, rfl⟩)
    exact ⟨least, .error (.error e), m', .inr ⟨e, rfl⟩, hleast⟩

/-- A function that does nothing but call itself, and a call of it. -/
def endlessRecursion : Program :=
  [.bind "again" (.function (some "again") [] [.eval (.call (.identifier "again") [])]),
    .eval (.call (.identifier "again") [])]

theorem endlessRecursion_halts : ∃ bytecode session',
    Session.start.compile endlessRecursion = (.ok bytecode, session') ∧
      ∃ least result m', (result = .ok () ∨ ∃ e, result = .error (.error e)) ∧
        ∀ fuel, least ≤ fuel →
          (Machine.load bytecode session'.globals session'.host).runFor fuel = (result, m') := by
  have hok : (Session.start.compile endlessRecursion).1.toOption.isSome = true := by
    decide +kernel
  cases hcompile : Session.start.compile endlessRecursion with
  | mk result session' =>
    rw [hcompile] at hok
    cases result with
    | error e => cases hok
    | ok bytecode =>
      exact ⟨bytecode, session', rfl, Session.Reachable.run_halts .start hcompile⟩

end Scriptlet
