import Scriptlet.Proofs.Abreast

/-!
# Programs in lockstep

A program that is compiled behind others has the same instructions as on its own, further back in a
longer stream, with a longer pool of constants.  A machine that has come to it there and a machine
that starts with it make the same steps.

* `FramesAlike` compares the frames.  Those of functions are the same up to running numbers; the
  last one is that of the program, and there the first machine stands further back.
* `Machine.Lockstep.step`: a step keeps the machines in lockstep, or fails in both in the same way.
* `Machine.Lockstep.run`: so the shorter program ends, with the longer one at the same place behind
  it, or both fail in the same way.
-/

namespace Scriptlet

open Code Instruction

/-- Frames of functions that are the same up to running numbers. -/
structure Frame.Alike (f : Nat → Nat) (b : Nat) (x y : Frame) : Prop where
  closure : Value.Alike f b (.closure x.stamp x.routine x.free) (.closure y.stamp y.routine y.free)
  ip : y.ip = x.ip
  base : y.base = x.base

/-- Frames of programs: the second has the instructions `js`, and the first has them too, `q` bytes
further back. -/
structure Frame.Moved (q : Nat) (js : List Instruction) (x y : Frame) : Prop where
  shows : x.routine.code.Shows q (js.map (shift q))
  decodes : y.routine.code.DecodesTo 0 js
  ip : x.ip = q + y.ip
  base : y.base = x.base
  free : x.free = [] ∧ y.free = []

/-- Frames, innermost first, that are alike up to the last one; the last are those of the programs.
The number says how much further back the first of the frames stands. -/
inductive FramesAlike (f : Nat → Nat) (b q : Nat) (js : List Instruction) :
    (distance : Nat) → List Frame → List Frame → Prop
  | program {x y : Frame} (h : Frame.Moved q js x y) : FramesAlike f b q js q [x] [y]
  | call {distance : Nat} {x y : Frame} {xs ys : List Frame} (h : Frame.Alike f b x y)
      (hrest : FramesAlike f b q js distance xs ys) : FramesAlike f b q js 0 (x :: xs) (y :: ys)

namespace FramesAlike

variable {f : Nat → Nat} {b b' q d : Nat} {js : List Instruction} {x y : Frame}
  {xs ys : List Frame}

theorem mono (h : FramesAlike f b q js d xs ys) (hle : b ≤ b') : FramesAlike f b' q js d xs ys := by
  induction h with
  | program h => exact .program h
  | call h _ ih => exact .call ⟨h.closure.mono hle, h.ip, h.base⟩ ih

theorem length_eq (h : FramesAlike f b q js d xs ys) : ys.length = xs.length := by
  induction h with
  | program _ => rfl
  | call _ _ ih => rw [List.length_cons, List.length_cons, ih]

theorem exists_cons (h : FramesAlike f b q js d xs ys) :
    ∃ x y xs' ys', xs = x :: xs' ∧ ys = y :: ys' := by
  cases h with
  | program _ => exact ⟨_, _, _, _, rfl, rfl⟩
  | call _ _ => exact ⟨_, _, _, _, rfl, rfl⟩

/-- Both frames go on at corresponding positions. -/
theorem withIp (h : FramesAlike f b q js d (x :: xs) (y :: ys)) (ip : Nat) :
    FramesAlike f b q js d ({ x with ip := d + ip } :: xs) ({ y with ip := ip } :: ys) := by
  cases h with
  | program h => exact .program { h with ip := rfl }
  | call h hrest => exact .call ⟨h.closure, (Nat.zero_add ip).symm, h.base⟩ hrest

/-- The first frames are those of the programs, or of functions. -/
theorem cases_cons (h : FramesAlike f b q js d (x :: xs) (y :: ys)) :
    d = q ∧ xs = [] ∧ ys = [] ∧ Frame.Moved q js x y ∨
      d = 0 ∧ Frame.Alike f b x y ∧ ∃ distance, FramesAlike f b q js distance xs ys := by
  cases h with
  | program h => exact .inl ⟨rfl, rfl, rfl, h⟩
  | call h hrest => exact .inr ⟨rfl, h, _, hrest⟩

theorem ip_eq (h : FramesAlike f b q js d (x :: xs) (y :: ys)) : x.ip = d + y.ip := by
  cases h with
  | program h => exact h.ip
  | call h _ => rw [h.ip, Nat.zero_add]

theorem base_eq (h : FramesAlike f b q js d (x :: xs) (y :: ys)) : y.base = x.base := by
  cases h with
  | program h => exact h.base
  | call h _ => exact h.base

theorem free (h : FramesAlike f b q js d (x :: xs) (y :: ys)) :
    Value.AlikeAll f b x.free y.free := by
  cases h with
  | program h =>
    rw [h.free.1, h.free.2]
    exact ⟨rfl, rfl⟩
  | call h _ => exact h.closure.free

end FramesAlike

/-- The constants that are loaded have no running numbers. -/
theorem Value.SoundConstant.rename_eq {constants : Array Value} {g : Nat} {v : Value}
    (h : v.SoundConstant constants g) (hkind : v.kind ≠ .routine) (f : Nat → Nat) :
    v.rename f = v := by
  cases v with
  | integer value => rfl
  | string stamp contents =>
    obtain ⟨index, rfl⟩ := h
    rfl
  | routine stamp r => exact absurd rfl hkind
  | _ => exact h.elim

namespace Machine

open Exec Value

variable {f : Nat → Nat} {low q d g g' : Nat} {js : List Instruction} {i j : Instruction}
  {m m' n n' : Machine}

/-- The instruction at the position in both machines. -/
theorem Exec.both_fetched {ok : Bool → Bool → Machine → Machine → Prop} (hi : m.About i)
    (hj : n.About j) (h : Both (execute i) (execute j) (Exec.behind m i) (Exec.behind n j)
      fun _ _ m' n' => ok true true m' n') : Both Exec.step Exec.step m n ok := by
  have hbind : Both (execute i >>= fun _ => pure true) (execute j >>= fun _ => pure true)
      (Exec.behind m i) (Exec.behind n j) ok := both_bind (h.mono fun _ _ _ _ h' => both_pure h')
  unfold Both at hbind ⊢
  rw [step_of_fetch hi, step_of_fetch hj]
  exact hbind

/-- Both machines run compiled code, are abreast, and stand at corresponding positions. -/
structure Lockstep (f : Nat → Nat) (low q : Nat) (js : List Instruction) (g g' : Nat)
    (m n : Machine) : Prop where
  left : m.Sound g
  right : n.Sound g'
  constants : n.constants.toList <+: m.constants.toList
  abreast : Abreast f low m n
  frames : ∃ distance, FramesAlike f m.host.made q js distance m.active n.active

/-- The program of the second machine has the instructions `js`. -/
theorem Sound.mem_of_moved (hn : n.Sound g') (habout : n.About i) {x : Frame}
    (hmoved : Frame.Moved q js x n.frame) :
    ∃ pre post, js = pre ++ i :: post ∧ n.frame.ip = extent pre := by
  obtain ⟨is, pre, post, hsettled, his, hat⟩ := hn.about habout
  rw [hmoved.decodes.unique hsettled.decodes]
  exact ⟨pre, post, his, hat.ip⟩

/-- The first machine is about to execute the instruction of the second. -/
theorem Sound.about_shift (hn : n.Sound g') (habout : n.About i)
    (hframes : FramesAlike f m.host.made q js d m.active n.active) : m.About (i.shift d) := by
  rcases hframes.cases_cons with ⟨rfl, -, -, hmoved⟩ | ⟨rfl, halike, -⟩
  · obtain ⟨pre, post, rfl, hip⟩ := hn.mem_of_moved habout hmoved
    have hshows := hmoved.shows
    rw [List.map_append, List.map_cons, shows_append, extent_map_shift] at hshows
    unfold About
    rw [hmoved.ip, hip]
    exact hshows.2.1
  · obtain ⟨-, hroutine, -⟩ := Value.closure.inj halike.closure.renamed
    rw [shift_zero]
    unfold About at habout ⊢
    rw [← halike.ip, ← hroutine]
    exact habout

/-- A machine about to do what only a function can do runs a function. -/
theorem Sound.waiting_of_enclosed (hn : n.Sound g') (habout : n.About i)
    (hi : i = .currentClosure ∨ i = .returnNull) : n.waiting ≠ [] := by
  obtain ⟨is, pre, post, hsettled, rfl, -⟩ := hn.about habout
  obtain ⟨free, -, hcode⟩ := hsettled.frame.body
  have hvalid := hcode.valid i (by simp)
  intro hwaiting
  rw [hwaiting] at hvalid
  rcases hi with rfl | rfl
  · exact absurd hvalid Bool.false_ne_true
  · exact absurd hvalid Bool.false_ne_true

/-- What an instruction reads is the same in both machines. -/
theorem Lockstep.finds (h : Lockstep f low q js g g' m n) (habout : n.About i) :
    Finds f (Exec.behind m i) (Exec.behind n i) i := by
  obtain ⟨d, hframes⟩ := h.frames
  obtain ⟨is, pre, post, hsettled, rfl, -⟩ := h.right.about habout
  obtain ⟨free, -, hcode⟩ := hsettled.frame.body
  have hvalid := hcode.valid i (by simp)
  cases i with
  | constant index =>
    obtain ⟨v, hv, hkind⟩ := hvalid
    refine ⟨v, getElem?_of_prefix h.constants hv, hv, fun g => ?_⟩
    exact (h.right.constants v (Array.mem_of_getElem? hv)).rename_eq hkind g
  | closure index count =>
    obtain ⟨-, stamp, r, hr, -⟩ := hvalid
    exact ⟨stamp, r, getElem?_of_prefix h.constants hr, hr⟩
  | getLocal index =>
    obtain ⟨habove, hlocal⟩ := h.right.above habout
    have hlt := hlocal index (.inl rfl)
    have hbase := hframes.base_eq
    have hsp := h.abreast.sp
    refine ⟨hbase, ?_⟩
    show m.frame.base + index < m.sp
    omega
  | setLocal index => exact hframes.base_eq
  | getFree index => exact hframes.free
  | currentClosure =>
    rcases hframes.cases_cons with ⟨-, -, hwaiting, -⟩ | ⟨-, halike, -⟩
    · exact absurd hwaiting (h.right.waiting_of_enclosed habout (.inl rfl))
    · exact halike.closure
  | _ => trivial

/-- The frames after an instruction that stays in its frame. -/
theorem Onward.frames (h : Onward f low (Exec.behind m (i.shift d)) (Exec.behind n i) m' n')
    (hframes : FramesAlike f m.host.made q js d m.active n.active) :
    FramesAlike f m'.host.made q js d m'.active n'.active := by
  have hnext := (hframes.withIp (n.frame.ip + i.size)).mono h.made
  have hip : m.frame.ip + (i.shift d).size = d + (n.frame.ip + i.size) := by
    rw [hframes.ip_eq, size_shift, Nat.add_assoc]
  unfold active waiting
  rw [h.frame.1, h.frame.2, h.callers.1, h.callers.2]
  show FramesAlike f m'.host.made q js d
    ({ m.frame with ip := m.frame.ip + (i.shift d).size } :: m.waiting) _
  rw [hip]
  exact hnext

/-- The state after a step of both machines. -/
def Keeps (f : Nat → Nat) (low q : Nat) (js : List Instruction) (m' n' : Machine) : Prop :=
  Abreast f low m' n' ∧ ∃ d, FramesAlike f m'.host.made q js d m'.active n'.active

theorem Onward.keeps (h : Onward f low (Exec.behind m (i.shift d)) (Exec.behind n i) m' n')
    (hframes : FramesAlike f m.host.made q js d m.active n.active) : Keeps f low q js m' n' :=
  ⟨h.abreast, d, h.frames hframes⟩

/-- Jumps of both machines. -/
theorem Onward.jump (h : Onward f low (Exec.behind m (i.shift d)) (Exec.behind n i) m' n')
    (hframes : FramesAlike f m.host.made q js d m.active n.active) (target : Nat) :
    Both (Exec.jump (d + target)) (Exec.jump target) m' n'
      fun _ _ m'' n'' => Keeps f low q js m'' n'' := by
  refine .inl ⟨(), (), _, _, rfl, rfl, ?_, d, ?_⟩
  · exact { h.abreast with }
  · exact (h.frames hframes).withIp target

theorem waiting_cons {caller : Frame} {rest : List Frame} (h : m.waiting = caller :: rest) :
    m.callers.back? = some caller ∧ m.callers.pop.toList.reverse = rest := by
  have hcallers : m.callers = rest.reverse.toArray.push caller := by
    rw [← Array.toList_inj, Array.toList_push, ← List.reverse_cons, ← h, waiting,
      List.reverse_reverse]
  rw [hcallers]
  simp

/-- Returns of both machines. -/
theorem Onward.returnWith {v w : Value}
    (h : Onward f low (Exec.behind m (i.shift d)) (Exec.behind n i) m' n')
    (hframes : FramesAlike f m.host.made q js d m.active n.active) (hwaiting : n.waiting ≠ [])
    (hvw : Alike f m'.host.made v w) (hroom : m.frame.base ≤ m'.sp + 1) :
    Both (Exec.returnWith v) (Exec.returnWith w) m' n'
      fun _ _ m'' n'' => Keeps f low q js m'' n'' := by
  rcases (h.frames hframes).cases_cons with ⟨-, -, hnone, -⟩ | ⟨-, halike, d', hrest⟩
  · rw [waiting, h.callers.2] at hnone
    exact absurd hnone hwaiting
  · obtain ⟨caller, caller', rest, rest', hm, hn⟩ := hrest.exists_cons
    rw [hm, hn] at hrest
    obtain ⟨hback, hpop⟩ := waiting_cons hm
    obtain ⟨hback', hpop'⟩ := waiting_cons hn
    have hroom' : m'.frame.base ≤ m'.sp + 1 := by
      rw [h.frame.1]
      exact hroom
    refine (h.abreast.returnWith hvw halike.base hroom' hback hback').mono ?_
    rintro _ _ m'' n'' ⟨habreast, hmade, hframe, hframe', hcallers, hcallers'⟩
    refine ⟨habreast, d', ?_⟩
    unfold active waiting
    rw [hframe, hframe', hcallers, hcallers', hpop, hpop']
    exact hrest.mono hmade

/-- What one step comes to in both machines. -/
theorem Lockstep.both_step (h : Lockstep f low q js g g' m n) (hf : Function.Injective f)
    (hreturn : .returnValue ∉ js) (habout : n.About i) :
    Both Exec.step Exec.step m n
      fun more more' m' n' => more = true ∧ more' = true ∧ Keeps f low q js m' n' := by
  obtain ⟨d, hframes⟩ := h.frames
  have hshift := h.right.about_shift habout hframes
  have habreast := h.abreast.behind (i.shift d) i
  have hbase := hframes.base_eq
  have hsp := h.abreast.sp
  obtain ⟨habove, -⟩ := h.right.above habout
  refine both_fetched hshift habout ?_
  suffices hboth : Both (execute (i.shift d)) (execute i) (Exec.behind m (i.shift d))
      (Exec.behind n i) fun _ _ m' n' => Keeps f low q js m' n' from
    hboth.mono fun _ _ _ _ hkeeps => ⟨rfl, rfl, hkeeps⟩
  by_cases hplain : i.leads = false
  · have hsame : i.shift d = i := by
      cases i <;> first | rfl | cases hplain
    rw [hsame] at habreast ⊢
    refine (habreast.execute_plain hf (h.finds habout) hplain).mono fun _ _ m' n' h' => ?_
    have hkeeps : Onward f low (Exec.behind m (i.shift d)) (Exec.behind n i) m' n' := by
      rw [hsame]
      exact h'
    exact hkeeps.keeps hframes
  cases i with
  | jump target => exact habreast.onward.jump hframes target
  | jumpNotTruthy target =>
    refine both_bind (habreast.onward.pop fun v w hvw h₁ => ?_)
    rw [hvw.renamed, isTruthy_rename]
    split
    · exact h₁.jump hframes target
    · exact both_pure (h₁.keeps hframes)
  | call count =>
    have hdepth : n.depth = m.depth := by
      rw [← length_active, ← length_active, hframes.length_eq]
    refine (habreast.call hdepth count).mono fun _ _ m' n' hcall => ?_
    rcases hcall with h' | ⟨stamp, stamp', r, free, free', halike, rfl, rfl, h'⟩
    · exact Onward.keeps (i := .call count) h' hframes
    -- a function starts above the frames as they are behind the call
    · refine ⟨h', 0, ?_⟩
      have hcaller := habreast.onward.frames hframes
      unfold active at hcaller ⊢
      rw [waiting_push rfl, waiting_push rfl]
      refine .call ⟨halike, rfl, ?_⟩ hcaller
      show n.sp - count = m.sp - count
      rw [hsp]
  | returnValue =>
    have hwaiting : n.waiting ≠ [] := by
      intro hwaiting
      rcases hframes.cases_cons with ⟨-, -, -, hmoved⟩ | ⟨-, -, d', hrest⟩
      · obtain ⟨pre, post, hjs, -⟩ := h.right.mem_of_moved habout hmoved
        exact hreturn (by simp [hjs])
      · obtain ⟨_, _, _, _, -, hcons⟩ := hrest.exists_cons
        rw [hwaiting] at hcons
        cases hcons
    refine both_bind (habreast.onward.pop fun v w hvw h₁ => ?_)
    refine h₁.returnWith hframes hwaiting hvw ?_
    show m.frame.base ≤ m.sp - 1 + 1
    omega
  | returnNull =>
    have hwaiting := h.right.waiting_of_enclosed habout (.inr rfl)
    refine habreast.onward.returnWith hframes hwaiting (alike_self fun _ => rfl) ?_
    show m.frame.base ≤ m.sp + 1
    omega
  | _ => exact absurd rfl hplain

/-- A step keeps the machines in lockstep, or fails in both in the same way. -/
theorem Lockstep.step (h : Lockstep f low q js g g' m n) (hf : Function.Injective f)
    (hreturn : .returnValue ∉ js) (habout : n.About i) :
    (∃ m' n', Next m m' ∧ Next n n' ∧ Lockstep f low q js g g' m' n') ∨
      ∃ halt m' n', Exec.step m = .error halt m' ∧ Exec.step n = .error halt n' := by
  rcases h.both_step hf hreturn habout with
    ⟨_, _, m', n', hm, hn, rfl, rfl, habreast, hframes⟩ | hfail
  · obtain ⟨hleft, hconstants⟩ := h.left.steps (.single hm)
    obtain ⟨hright, hconstants'⟩ := h.right.steps (.single hn)
    have hprefix := h.constants
    rw [← hconstants, ← hconstants'] at hprefix
    exact .inl ⟨m', n', hm, hn, hleft, hright, hprefix, habreast, hframes⟩
  · exact .inr hfail

/-! ## Runs -/

/-- How runs of two machines in lockstep come out, of which the first is allowed `fuel` steps and
the second `total`. -/
inductive Paired (f : Nat → Nat) (low q : Nat) (js : List Instruction) (g g' fuel total : Nat)
    (m n : Machine) : Prop
  /-- The second run ends, and the first goes on from there. -/
  | ended {left : Nat} {m' n' : Machine} (hrun : Exec.run fuel m = Exec.run (left + 1) m')
      (hleft : left + 1 ≤ fuel) (hsteps : Steps m m') (hrun' : Exec.run total n = .ok () n')
      (hsteps' : Steps n n') (hend : Exec.step n' = .ok false n')
      (h : Lockstep f low q js g g' m' n')
  /-- Both runs fail in the same way and leave the same values in the global slots. -/
  | failed {halt : Halt} {m' n' : Machine} (hrun : Exec.run fuel m = .error halt m')
      (hrun' : Exec.run total n = .error halt n')
      (hglobals : n'.globals.toList = m'.globals.toList.map (Value.rename f))

variable {fuel total : Nat}

theorem Paired.head (h : Paired f low q js g g' fuel total m' n') (hm : Next m m')
    (hn : Next n n') : Paired f low q js g g' (fuel + 1) (total + 1) m n := by
  cases h with
  | ended hrun hleft hsteps hrun' hsteps' hend h =>
    exact .ended ((run_succ_of_true hm).trans hrun) (Nat.le_succ_of_le hleft) (.head hm hsteps)
      ((run_succ_of_true hn).trans hrun') (.head hn hsteps') hend h
  | failed hrun hrun' hglobals =>
    exact .failed ((run_succ_of_true hm).trans hrun) ((run_succ_of_true hn).trans hrun') hglobals

/-- A step that fails in both machines. -/
theorem Abreast.failed {low' : Nat} {halt : Halt} (h : Abreast f low m n)
    (hm : Exec.step m = .error halt m') (hn : Exec.step n = .error halt n') :
    Paired f low' q js g g' (fuel + 1) (total + 1) m n := by
  refine .failed (run_succ_of_error hm) (run_succ_of_error hn) ?_
  rw [((step_globals m).of_error hm).1, ((step_globals n).of_error hn).1]
  exact h.globals.renamed

/-- Machines in lockstep run in lockstep, unless the first runs out of steps. -/
theorem Lockstep.run (h : Lockstep f low q js g g' m n) (hf : Function.Injective f)
    (hreturn : .returnValue ∉ js) (hle : fuel ≤ total)
    (hfuel : ∀ m', Exec.run fuel m ≠ .error .outOfFuel m') :
    Paired f low q js g g' fuel total m n := by
  induction fuel generalizing total m n with
  | zero => exact absurd rfl (hfuel m)
  | succ fuel ih =>
    obtain ⟨total, rfl⟩ := Nat.exists_eq_add_of_le' (Nat.le_trans (Nat.le_add_left 1 fuel) hle)
    rcases h.right.step with hend | ⟨i, habout, -⟩
    · exact .ended rfl (Nat.le_refl _) .refl (run_succ_of_false hend) .refl hend h
    · rcases h.step hf hreturn habout with ⟨m', n', hm, hn, h'⟩ | ⟨halt, m', n', hm, hn⟩
      · have hfuel' : ∀ m'', Exec.run fuel m' ≠ .error .outOfFuel m'' := by
          rw [← run_succ_of_true hm]
          exact hfuel
        exact (ih h' (Nat.le_of_succ_le_succ hle) hfuel').head hm hn
      · exact h.abreast.failed hm hn

theorem Instruction.pushes_of_pops {i : Instruction} (hpops : i.pops = 0) (hi : i ≠ .returnNull) :
    i.pushes = 1 ∧ i.target? = none := by
  cases i <;> simp_all [Instruction.pops, Instruction.pushes, Instruction.target?]

/-- The first step of a program leaves a value on the stack. -/
theorem Sound.sp_of_first (hn : n.Sound g') (hwaiting : n.waiting = []) (hip : n.frame.ip = 0)
    (hnext : Next n n') : 1 ≤ n'.sp := by
  obtain ⟨is, pre, i, post, habout, hsettled, his, hat, hstepped⟩ := hn.stepped hnext
  obtain ⟨free, -, hcode⟩ := hsettled.frame.body
  have hpre : pre = [] := by
    by_contra hne
    have hpos := extent_pos hne
    rw [← hat.ip] at hpos
    omega
  have hpops : i.pops = 0 := by
    have hle := (hcode.flows.sits his).pops
    rw [hpre] at hle
    exact Nat.le_zero.1 hle
  have hnull : i ≠ .returnNull := by
    rintro rfl
    exact hn.waiting_of_enclosed habout (.inr rfl) hwaiting
  obtain ⟨hpushes, htarget⟩ := Instruction.pushes_of_pops hpops hnull
  have hdepth : Code.depth (pre ++ [i]) = 1 := by
    rw [hpre, depth_concat, hpops, hpushes]
    rfl
  have hreturns : ¬ (i = .returnValue ∨ i = .returnNull) := by
    rintro (rfl | rfl)
    · cases hpops
    · exact hnull rfl
  cases hstepped.moves with
  | next _ _ hsp _ => omega
  | jump ht _ _ _ =>
    rw [htarget] at ht
    cases ht
  | call _ _ _ _ _ _ hcall =>
    obtain ⟨count, rfl⟩ := hcall
    cases hpops
  | ret _ _ _ hreturn => exact absurd hreturn hreturns
  | finish _ _ _ hreturn => exact absurd hreturn hreturns

/-- A program that is not empty leaves something in the lowest slot, which is then the same in both
machines. -/
theorem Lockstep.run_program (h : Lockstep f 0 q js g g' m n) (hf : Function.Injective f)
    (hreturn : .returnValue ∉ js) (hle : fuel ≤ total)
    (hfuel : ∀ m', Exec.run fuel m ≠ .error .outOfFuel m') (hwaiting : n.waiting = [])
    (hip : n.frame.ip = 0) (habout : n.About i) :
    Paired f 1 q js g g' fuel total m n := by
  cases fuel with
  | zero => exact absurd rfl (hfuel m)
  | succ fuel =>
    obtain ⟨total, rfl⟩ := Nat.exists_eq_add_of_le' (Nat.le_trans (Nat.le_add_left 1 fuel) hle)
    rcases h.step hf hreturn habout with ⟨m', n', hm, hn, h'⟩ | ⟨halt, m', n', hm, hn⟩
    · have hsp : 1 ≤ m'.sp := by
        rw [← h'.abreast.sp]
        exact h.right.sp_of_first hwaiting hip hn
      have hlow : Lockstep f 1 q js g g' m' n' :=
        { h' with abreast := h'.abreast.raise hsp }
      have hfuel' : ∀ m'', Exec.run fuel m' ≠ .error .outOfFuel m'' := by
        rw [← run_succ_of_true hm]
        exact hfuel
      exact (hlow.run hf hreturn (Nat.le_of_succ_le_succ hle) hfuel').head hm hn
    · exact h.abreast.failed hm hn

end Machine

end Scriptlet
