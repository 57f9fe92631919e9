import Scriptlet.Proofs.Batches
import Scriptlet.Proofs.Moves
import Scriptlet.Proofs.Streams

/-!
# The last instruction

A buffer remembers which instruction was emitted last and where it stands.  Nothing else in a buffer
says where an instruction begins, and two changes to emitted code go by this memory: a block that
stands for a value takes its last `pop` back, and a function turns it into a return.  If the memory
were ever wrong, such a change would hit an operand or the code of an earlier statement.

`Compiler.Reachable.last_accurate` says that it is never wrong, at any point of any compilation,
whether the program is refused in the end or not.  The points are those between two moves, and what
is proved of them is an invariant with three parts.

* `Recorded`: every open buffer holds the bytes of some instructions and remembers the last of them.
* `Gen.AllDue`: the jobs at hand will find what they rely on.  A jump that is to be filled in stands
  where it was emitted (`Buffer.HoldsJump`), and a `pop` that is to be changed stands behind the
  last expression of the statements at hand (`Gen.PopBehind`).  Most jobs rely on nothing, and what
  a job relies on is established by the move that leaves it, with `Gen.stmts_code` for the jobs in
  between.
* `Gen.AllOwned`: a job that closes a block or a body belongs to that block or body.  It was left by
  a job for just these statements, with the same jobs behind it.

Only one instruction of history is kept, and taking a `pop` back does not restore what was
remembered before it.  This does no harm because an expression never ends in a `pop`: the next `pop`
that is taken back is one that was emitted since.
-/

namespace Scriptlet

open Code

/-! ## Accurate buffers -/

/-- If a last instruction is remembered, then the code consists of whole instructions, the last of
them begins where it is remembered to begin, and the byte there is that of its operation. -/
def Buffer.Accurate (buffer : Buffer) : Prop :=
  ∀ last, buffer.last = some last → ∃ is i, buffer.code.DecodesTo 0 (is ++ [i]) ∧
    last = ⟨i.op, extent is⟩ ∧ buffer.code[last.position]? = some last.op.toByte

/-- A buffer with the bytes of some instructions that remembers the last of them is accurate. -/
theorem Buffer.Records.accurate {buffer : Buffer} {is : List Instruction}
    (h : buffer.Records is) : buffer.Accurate := by
  intro last hlast
  rcases List.eq_nil_or_concat is with rfl | ⟨js, i, rfl⟩
  · rw [h.last] at hlast
    cases hlast
  rw [List.concat_eq_append] at h
  rw [h.last, Emitted.ofLast_concat] at hlast
  cases hlast
  have hcode : buffer.code = assemble (js.map Instruction.stored ++ [i.stored]) := by
    rw [h.code, ← assemble_map_stored, List.map_append]
    rfl
  have hfits : ∀ j ∈ js.map Instruction.stored ++ [i.stored], j.Fits := by
    intro j hj
    rw [← List.map_singleton, ← List.map_append] at hj
    obtain ⟨k, -, rfl⟩ := List.mem_map.1 hj
    exact k.fits_stored
  refine ⟨js.map Instruction.stored, i.stored, ?_, ?_, ?_⟩
  · rw [hcode]
    exact decodesTo_assemble hfits
  · rw [extent_map_stored, Instruction.op_stored]
  · have hfetch := fetch_assemble i.fits_stored (js.map Instruction.stored) []
    rw [extent_map_stored, ← hcode] at hfetch
    rw [(fetch_eq_instruction hfetch).1, Instruction.op_stored]

/-- Every buffer holds the bytes of some instructions and remembers the last of them. -/
def Recorded (buffers : Nest Buffer) : Prop := ∀ b ∈ buffers.toList, ∃ is, b.Records is

theorem Recorded.inner {buffers : Nest Buffer} (h : Recorded buffers) :
    ∃ is, buffers.inner.Records is := h _ (List.mem_cons_self ..)

theorem Recorded.modify {buffers : Nest Buffer} {f : Buffer → Buffer} (h : Recorded buffers)
    (hf : ∃ is, (f buffers.inner).Records is) : Recorded (buffers.modify f) := by
  intro b hb
  rcases List.mem_cons.1 hb with rfl | hb
  · exact hf
  · exact h b (List.mem_cons_of_mem _ hb)

theorem Recorded.enter {buffers : Nest Buffer} (h : Recorded buffers) :
    Recorded (buffers.enter {}) := by
  intro b hb
  rcases List.mem_cons.1 hb with rfl | hb
  · exact ⟨[], Buffer.records_empty⟩
  · exact h b hb

theorem Recorded.leave {buffers : Nest Buffer} (h : Recorded buffers) :
    Recorded buffers.leave := by
  obtain ⟨inner, outer⟩ := buffers
  cases outer with
  | nil => exact h
  | cons item outer => exact fun b hb => h b (List.mem_cons_of_mem _ hb)

theorem Recorded.accurate {buffers : Nest Buffer} (h : Recorded buffers) :
    ∀ b ∈ buffers.toList, b.Accurate := by
  intro b hb
  obtain ⟨is, his⟩ := h b hb
  exact his.accurate

/-! ## Changes to the last instruction -/

theorem Instruction.eq_pop {i : Instruction} (h : i.op = .pop) : i = .pop := by
  cases i <;> first | rfl | cases h

namespace Buffer

/-- A jump stands at a position. -/
def HoldsJump (buffer : Buffer) (position : Nat) : Prop :=
  ∃ pre i post, buffer.Records (pre ++ i :: post) ∧ position = extent pre ∧
    ∃ target, i = .jump target ∨ i = .jumpNotTruthy target

theorem HoldsJump.patch {buffer : Buffer} {position : Nat} (h : buffer.HoldsJump position)
    (target : Nat) : ∃ is, (buffer.patch position target).Records is := by
  obtain ⟨pre, i, post, hrecords, rfl, old, rfl | rfl⟩ := h
  · exact ⟨_, hrecords.patch_jump⟩
  · exact ⟨_, hrecords.patch_jumpNotTruthy⟩

theorem Records.not_endsIn_pop {buffer : Buffer} {is : List Instruction} {i : Instruction}
    (h : buffer.Records (is ++ [i])) (hi : i ≠ .pop) : ¬ buffer.endsIn .pop := by
  rw [h.endsIn, List.getLast?_concat]
  exact fun hop => hi (Instruction.eq_pop (by simpa using hop))

/-- Taking back what was emitted leaves a buffer as it was, apart from the second memory. -/
theorem dropLast_emit (buffer : Buffer) (i : Instruction) :
    (buffer.emit i).dropLast = { buffer with previous := buffer.last } := by
  have hcode : (buffer.code ++ i.encode).shrink buffer.code.size = buffer.code := by
    apply Array.toList_inj.1
    rw [Array.toList_shrink, Array.toList_appendList]
    exact List.take_left
  rw [dropLast, emit]
  simp only [hcode]

/-- Turning a `pop` into a return is as good as emitting the return in its place. -/
theorem returnLast_emit_pop (buffer : Buffer) :
    (buffer.emit .pop).returnLast = buffer.emit .returnValue := by
  have hcode : (buffer.code ++ Instruction.pop.encode).setIfInBounds buffer.code.size
      Op.returnValue.toByte = buffer.code ++ Instruction.returnValue.encode := by
    apply Array.toList_inj.1
    simp [Instruction.encode, Op.encode, Instruction.operands, Instruction.op]
  rw [returnLast, emit, emit]
  simp only [hcode]
  rfl

end Buffer

namespace Gen

/-- What stands last at `c` is the `pop` behind the expression in the last of some statements, which
were compiled from `before` on; `c₁` is the state in front of that `pop`. -/
structure PopBehind (body : List Stmt) (before c₁ c : Compiler) : Prop where
  /-- The statements in front of the last one leave code, and the last one adds to it. -/
  statements : ∃ earlier value c₀, body = earlier ++ [.eval value] ∧
    stmts earlier before = .ok () c₀ ∧ expr value c₀ = .ok () c₁ ∧
    before.buffers.inner.code.toList <+: c₀.buffers.inner.code.toList ∧
    c₀.buffers.inner.code.toList <+: c₁.buffers.inner.code.toList
  pop : emit .pop c₁ = .ok () c
  /-- The expression does not end in a `pop` itself. -/
  value : ∃ last, c₁.buffers.inner.last = some last ∧ last.op ≠ .pop

variable {body : List Stmt} {before c₁ c c' : Compiler} {is js : List Instruction}

theorem PopBehind.inner (h : PopBehind body before c₁ c) :
    c.buffers.inner = c₁.buffers.inner.emit .pop := by
  have hpop := h.pop
  cases hpop
  rfl

/-- Behind such a `pop`, a buffer records it and an instruction before it that is none. -/
theorem PopBehind.records (h : PopBehind body before c₁ c) (hc : c.buffers.inner.Records is) :
    ∃ js, is = js ++ [.pop] ∧ js.getLast? ≠ some .pop := by
  have hinner := h.inner
  have hlast := hc.last
  rw [hinner] at hlast
  rcases List.eq_nil_or_concat is with rfl | ⟨js, i, rfl⟩
  · cases hlast
  rw [List.concat_eq_append] at hc hlast ⊢
  rw [Emitted.ofLast_concat] at hlast
  obtain rfl := Instruction.eq_pop (congrArg Emitted.op (Option.some.inj hlast)).symm
  refine ⟨js, rfl, fun hpop => ?_⟩
  obtain ⟨ks, rfl⟩ := List.getLast?_eq_some_iff.1 hpop
  obtain ⟨last, hvalue, hne⟩ := h.value
  have hprevious := hc.previous _ rfl
  rw [Emitted.ofLast_concat, hinner] at hprevious
  cases hvalue.symm.trans hprevious
  exact hne rfl

theorem Emits.code_starts (h : Emits c (is ++ js) c') (hc : c.buffers.inner.Records is) :
    c.buffers.inner.code.toList <+: c'.buffers.inner.code.toList := by
  rw [hc.code, h.records.code, assemble_append, Array.toList_append]
  exact List.prefix_append ..

/-- Statements that end in a `pop` end in an expression, and the `pop` is the one behind it. -/
theorem popBehind_of_endsIn (h : stmts body before = .ok () c)
    (hbefore : before.buffers.inner.Records is) (hbody : body ≠ [])
    (hpop : c.buffers.inner.endsIn .pop) : ∃ c₁, PopBehind body before c₁ c := by
  rcases List.eq_nil_or_concat body with rfl | ⟨earlier, s, rfl⟩
  · exact absurd rfl hbody
  rw [List.concat_eq_append] at h ⊢
  obtain ⟨c₀, hearlier, hlast⟩ := stmts_append h
  obtain ⟨ks, -, hemits₀⟩ := stmts_code earlier hearlier hbefore
  obtain ⟨_, c', hlast, hnil⟩ := bind_eq_ok.1 hlast
  cases hnil
  cases s with
  | eval value =>
    obtain ⟨_, c₁, hvalue, hemit⟩ := bind_eq_ok.1 hlast
    obtain ⟨ls, hcode, hemits₁⟩ := expr_code value hvalue hemits₀.records
    refine ⟨c₁, ⟨earlier, value, c₀, rfl, hearlier, hvalue, hemits₀.code_starts hbefore,
      hemits₁.code_starts hemits₀.records⟩, hemit, ?_⟩
    obtain ⟨ms, i, rfl, hi⟩ := hcode.endsInValue
    have hlast := hemits₁.records.last
    rw [← List.append_assoc, Emitted.ofLast_concat] at hlast
    exact ⟨_, hlast, fun hop => hi (Instruction.eq_pop hop)⟩
  | bind name value =>
    obtain ⟨_, c₁, hvalue, hbind⟩ := bind_eq_ok.1 hlast
    obtain ⟨ls, -, hemits₁⟩ := expr_code value hvalue hemits₀.records
    obtain ⟨-, -, hemits₂⟩ := bind_code hbind hemits₁.records
    exact absurd hpop (hemits₂.records.not_endsIn_pop (Symbol.store_ne_pop _))
  | ret value =>
    obtain ⟨_, c₁, hvalue, hemit⟩ := bind_eq_ok.1 hlast
    obtain ⟨ls, -, hemits₁⟩ := expr_code value hvalue hemits₀.records
    obtain ⟨-, hemits₂⟩ := emit_code hemit hemits₁.records
    exact absurd hpop (hemits₂.records.not_endsIn_pop Instruction.noConfusion)

/-! ## What jobs rely on -/

namespace Job

/-- What has to hold in the state in which a job is begun, beyond what holds in every state. -/
def Due : Job → Compiler → Prop
  | otherwise toAlternative _, c => ∃ pre old post,
      c.buffers.inner.Records (pre ++ .jumpNotTruthy old :: post) ∧ toAlternative = extent pre
  | patch jump, c => c.buffers.inner.HoldsJump jump
  | closeBranch block before, c =>
      (∃ is, before.buffers.inner.Records is) ∧ Gen.stmts block before = .ok () c
  | dropLast block before, c => ∃ c₁, PopBehind block before c₁ c
  | closeBody body before, c => before.buffers.inner = {} ∧ Gen.stmts body before = .ok () c
  | returnLast body before, c => before.buffers.inner = {} ∧ ∃ c₁, PopBehind body before c₁ c
  | _, _ => True

theorem Simple.due {job : Job} (h : job.Simple) (c : Compiler) : job.Due c := by
  cases job <;> trivial

end Job

/-- Every job finds what it relies on when it is begun, if the jobs before it come to a result. -/
def AllDue : List Job → Compiler → Prop
  | [], _ => True
  | job :: rest, c => job.Due c ∧ ∀ c', job.run c = .ok () c' → AllDue rest c'

theorem AllDue.append {js rest : List Job} (h : AllDue js c)
    (hrest : ∀ c', runAll js c = .ok () c' → AllDue rest c') : AllDue (js ++ rest) c := by
  induction js generalizing c with
  | nil => exact hrest c rfl
  | cons job js ih =>
    refine ⟨h.1, fun c₁ hjob => ih (h.2 c₁ hjob) fun c' hjs => hrest c' ?_⟩
    exact (bind_of_ok hjob).trans hjs

theorem allDue_simple {js : List Job} (h : ∀ j ∈ js, j.Simple) (c : Compiler) : AllDue js c := by
  induction js generalizing c with
  | nil => trivial
  | cons job js ih =>
    exact ⟨(h job (List.mem_cons_self ..)).due c,
      fun c' _ => ih (fun j hj => h j (List.mem_cons_of_mem _ hj)) c'⟩

/-- A move leaves a recorded state, whether it fails or not. -/
theorem recorded_step {job : Job} (hc : Recorded c.buffers) (hdue : job.Due c) :
    Recorded (after (job.step c)).buffers := by
  have htouches := job.step_touches c
  generalize (after (job.step c)).buffers = buffers at htouches
  obtain ⟨is, his⟩ := hc.inner
  cases htouches with
  | nothing => exact hc
  | @emit i => exact hc.modify ⟨_, his.emit i⟩
  | patch => exact hc.modify (Buffer.HoldsJump.patch hdue _)
  | dropLast =>
    obtain ⟨c₁, hpop⟩ := hdue
    obtain ⟨js, rfl, hjs⟩ := hpop.records his
    exact hc.modify ⟨js, his.dropLast hjs⟩
  | returnLast =>
    obtain ⟨-, c₁, hpop⟩ := hdue
    obtain ⟨js, rfl, -⟩ := hpop.records his
    exact hc.modify ⟨_, his.returnLast⟩
  | enter => exact hc.enter
  | leave => exact hc.leave

/-- A block that stands for a value is emitted behind what was there before. -/
theorem branch_code {block : List Stmt} (h : branch block c = .ok () c')
    (hc : c.buffers.inner.Records is) : ∃ js, Emits c (is ++ js) c' := by
  obtain ⟨_, _, hposition, h⟩ := bind_eq_ok.1 h
  cases hposition
  obtain ⟨_, c₁, hblock, hclose⟩ := bind_eq_ok.1 h
  obtain ⟨js, hcode, hemits⟩ := stmts_code block hblock hc
  exact ⟨_, (closeBranch_stmts hclose hcode hc hemits).2⟩

/-- The jumps of a conditional stand where they were emitted when they are filled in. -/
theorem allDue_otherwise {pre post : List Instruction} {old : Nat} {between : Job}
    (hc : c.buffers.inner.Records (pre ++ .jumpNotTruthy old :: post))
    (hbetween : between = .emit .pushNull ∨ ∃ block, between = .branch block) :
    AllDue [.emit (.jump placeholder), .patch (extent pre), between,
      .patch c.buffers.inner.code.size] c := by
  have hsimple : between.Simple := by
    obtain rfl | ⟨block, rfl⟩ := hbetween <;> trivial
  refine ⟨trivial, fun c₁ hemit => ?_⟩
  obtain ⟨-, hemits₁⟩ := emit_code hemit hc
  have hrecords₁ : c₁.buffers.inner.Records
      (pre ++ .jumpNotTruthy old :: (post ++ [.jump placeholder])) := by
    simpa using hemits₁.records
  refine ⟨⟨pre, _, _, hrecords₁, rfl, old, .inr rfl⟩, fun c₂ hpatch => ?_⟩
  obtain ⟨-, hemits₂⟩ := patchHere_jumpNotTruthy hpatch hrecords₁
  generalize extent (pre ++ .jumpNotTruthy old :: (post ++ [.jump placeholder])) = q at hemits₂
  refine ⟨hsimple.due _, fun c₃ hrun => ⟨?_, fun _ _ => trivial⟩⟩
  -- what stands between the jumps is emitted behind the second one
  obtain ⟨js, hemits₃⟩ : ∃ js, c₃.buffers.inner.Records
      (pre ++ .jumpNotTruthy q :: (post ++ [.jump placeholder]) ++ js) := by
    obtain rfl | ⟨block, rfl⟩ := hbetween
    · exact ⟨_, (emit_code hrun hemits₂.records).2.records⟩
    · obtain ⟨js, hemits⟩ := branch_code hrun hemits₂.records
      exact ⟨js, hemits.records⟩
  refine ⟨pre ++ .jumpNotTruthy q :: post, .jump placeholder, js, by simpa using hemits₃, ?_,
    placeholder, .inl rfl⟩
  rw [hc.size]
  simp

/-- A move leaves jobs that will find what they rely on. -/
theorem allDue_step {job : Job} {js : List Job} (hc : Recorded c.buffers) (hdue : job.Due c)
    (h : job.step c = .ok js c') : AllDue js c' := by
  obtain ⟨is, his⟩ := hc.inner
  cases Job.step_leaves h with
  | simple hjs => exact allDue_simple hjs c'
  | choose =>
    refine ⟨trivial, fun c₁ hemit => ⟨trivial, fun c₂ hbranch => ⟨?_, fun _ _ => trivial⟩⟩⟩
    obtain ⟨-, hemits₁⟩ := emit_code hemit his
    obtain ⟨js, hemits₂⟩ := branch_code hbranch hemits₁.records
    exact ⟨is, placeholder, js, by simpa using hemits₂.records, his.size⟩
  | otherwise hbetween =>
    obtain ⟨pre, old, post, hrecords, rfl⟩ := hdue
    exact allDue_otherwise hrecords hbetween
  | branch => exact ⟨trivial, fun c₁ hblock => ⟨⟨⟨is, his⟩, hblock⟩, fun _ _ => trivial⟩⟩
  | closeBranch hsize hpop =>
    obtain ⟨⟨ks, hbefore⟩, hblock⟩ := hdue
    refine ⟨popBehind_of_endsIn hblock hbefore ?_ hpop, fun _ _ => trivial⟩
    rintro rfl
    cases hblock
    exact Nat.lt_irrefl _ hsize
  | function hopen =>
    have hempty : c'.buffers.inner = {} := by rw [(openFunction_code hopen).2]; rfl
    exact ⟨trivial, fun c₁ hbody => ⟨⟨hempty, hbody⟩, fun _ _ => ⟨trivial, fun _ _ => trivial⟩⟩⟩
  | closeBody hpop =>
    obtain ⟨hempty, hbody⟩ := hdue
    refine ⟨⟨hempty, popBehind_of_endsIn hbody (hempty ▸ Buffer.records_empty) ?_ hpop⟩,
      fun _ _ => ⟨trivial, fun _ _ => trivial⟩⟩
    rintro rfl
    cases hbody
    rw [hempty] at hpop
    cases hpop

/-! ## What jobs at the end of a block belong to -/

/-- The jobs at hand and the state after fewer than `moves` moves of the compilation of a program.
-/
def Passed (program : Program) (c : Compiler) (moves : Nat) (jobs : List Job) (c' : Compiler) :
    Prop :=
  ∃ earlier < moves, advanceFor earlier [.stmts program] c = .ok jobs c'

theorem Passed.mono {program : Program} {m n : Nat} {jobs : List Job}
    (h : Passed program c m jobs c') (hmn : m ≤ n) : Passed program c n jobs c' := by
  obtain ⟨earlier, hearlier, hjobs⟩ := h
  exact ⟨earlier, by omega, hjobs⟩

/-- The statements are the body of a function literal that was passed by, with the same jobs behind
it, and `before` is the state in which the body was begun. -/
def BodyOf (passed : List Job → Compiler → Prop) (body : List Stmt) (before : Compiler)
    (rest : List Job) : Prop :=
  ∃ name parameters outside c, rest = .leaveFunction parameters.length :: outside ∧
    passed (.expr (.function name parameters body) :: outside) c ∧
    openFunction name parameters c = .ok () before

/-- A job at the end of a block or a body was left by a job for just that block or body, with the
same jobs behind it. -/
def Job.Owned (passed : List Job → Compiler → Prop) : Job → List Job → Prop
  | closeBranch block before, rest => passed (branch block :: rest) before
  | dropLast block before, rest => passed (branch block :: rest) before
  | closeBody body before, rest => BodyOf passed body before rest
  | returnLast body before, rest =>
      ∃ outside, rest = endBody :: outside ∧ BodyOf passed body before outside
  | _, _ => True

def AllOwned (passed : List Job → Compiler → Prop) : List Job → Prop
  | [] => True
  | job :: rest => job.Owned passed rest ∧ AllOwned passed rest

variable {passed : List Job → Compiler → Prop} {job : Job} {jobs rest : List Job}

theorem Job.Simple.owned (h : job.Simple) (rest : List Job) : job.Owned passed rest := by
  cases job <;> trivial

theorem BodyOf.mono {passed' : List Job → Compiler → Prop}
    (h : BodyOf passed body before rest) (hmono : ∀ jobs c, passed jobs c → passed' jobs c) :
    BodyOf passed' body before rest := by
  obtain ⟨name, parameters, outside, c, hrest, hpassed, hopen⟩ := h
  exact ⟨name, parameters, outside, c, hrest, hmono _ _ hpassed, hopen⟩

theorem AllOwned.mono {passed' : List Job → Compiler → Prop}
    (hmono : ∀ jobs c, passed jobs c → passed' jobs c) (h : AllOwned passed jobs) :
    AllOwned passed' jobs := by
  induction jobs with
  | nil => trivial
  | cons job rest ih =>
    refine ⟨?_, ih h.2⟩
    have hjob := h.1
    cases job with
    | closeBranch block before => exact hmono _ _ hjob
    | dropLast block before => exact hmono _ _ hjob
    | closeBody body before => exact BodyOf.mono hjob hmono
    | returnLast body before =>
      obtain ⟨outside, hrest, hbody⟩ := hjob
      exact ⟨outside, hrest, hbody.mono hmono⟩
    | _ => trivial

theorem AllOwned.simple {js : List Job} (h : ∀ j ∈ js, j.Simple) (hrest : AllOwned passed rest) :
    AllOwned passed (js ++ rest) := by
  induction js with
  | nil => exact hrest
  | cons job js ih =>
    exact ⟨(h job (List.mem_cons_self ..)).owned _,
      ih fun j hj => h j (List.mem_cons_of_mem _ hj)⟩

/-- The jobs that a move leaves belong to the block or the body that the move is for. -/
theorem allOwned_step {js : List Job} (hpassed : passed (job :: rest) c)
    (h : AllOwned passed (job :: rest)) (hstep : job.step c = .ok js c') :
    AllOwned passed (js ++ rest) := by
  obtain ⟨hjob, hrest⟩ := h
  cases Job.step_leaves hstep with
  | simple hjs => exact hrest.simple hjs
  | choose => exact ⟨trivial, trivial, trivial, hrest⟩
  | otherwise hbetween =>
    refine ⟨trivial, trivial, Job.Simple.owned ?_ _, trivial, hrest⟩
    obtain rfl | ⟨block, rfl⟩ := hbetween <;> trivial
  | branch => exact ⟨trivial, hpassed, hrest⟩
  | closeBranch => exact ⟨hjob, hrest⟩
  | function hopen => exact ⟨trivial, ⟨_, _, rest, c, rfl, hpassed, hopen⟩, trivial, hrest⟩
  | closeBody => exact ⟨⟨rest, rfl, hjob⟩, trivial, hrest⟩

/-! ## Any number of moves -/

theorem advanceFor_succ (moves : Nat) (jobs : List Job) :
    advanceFor (moves + 1) jobs = advanceFor moves jobs >>= advance := by
  rw [advanceFor_add]
  exact congrArg (advanceFor moves jobs >>= ·) (funext fun left => by simp [advanceFor])

theorem advance_eq_ok (h : advance (job :: rest) c = .ok jobs c') :
    ∃ js, job.step c = .ok js c' ∧ jobs = js ++ rest := by
  obtain ⟨js, _, hstep, h⟩ := bind_eq_ok.1 h
  cases h
  exact ⟨js, hstep, rfl⟩

theorem after_advance (job : Job) (rest : List Job) (c : Compiler) :
    after (advance (job :: rest) c) = after (job.step c) := by
  cases hstep : job.step c with
  | ok js c' =>
    have hmove : advance (job :: rest) c = .ok (js ++ rest) c' := bind_of_ok hstep
    rw [hmove]
    rfl
  | error e c' =>
    have hmove : advance (job :: rest) c = .error e c' := bind_of_error hstep
    rw [hmove]

theorem recorded_advance (hc : Recorded c.buffers) (hdue : AllDue jobs c) :
    Recorded (after (advance jobs c)).buffers := by
  cases jobs with
  | nil => exact hc
  | cons job rest =>
    rw [after_advance]
    exact recorded_step hc hdue.1

theorem allDue_advance (hc : Recorded c.buffers) (hdue : AllDue jobs c) {left : List Job}
    (h : advance jobs c = .ok left c') : AllDue left c' := by
  cases jobs with
  | nil =>
    cases h
    trivial
  | cons job rest =>
    obtain ⟨js, hstep, rfl⟩ := advance_eq_ok h
    refine (allDue_step hc hdue.1 hstep).append fun c₁ hjs => hdue.2 c₁ ?_
    rw [job.run_eq]
    exact (bind_of_ok hstep).trans hjs

/-- What holds after any number of moves that do not fail. -/
theorem advanceFor_invariant {program : Program} (hc : Recorded c.buffers) (moves : Nat)
    (h : advanceFor moves [.stmts program] c = .ok jobs c') :
    Recorded c'.buffers ∧ AllDue jobs c' ∧ AllOwned (Passed program c moves) jobs := by
  induction moves generalizing jobs c' with
  | zero =>
    cases h
    exact ⟨hc, ⟨trivial, fun _ _ => trivial⟩, trivial, trivial⟩
  | succ moves ih =>
    rw [advanceFor_succ] at h
    obtain ⟨jobs₁, c₁, hbefore, h⟩ := bind_eq_ok.1 h
    obtain ⟨hrecorded, hdue, howned⟩ := ih hbefore
    have hmove := recorded_advance hrecorded hdue
    rw [h] at hmove
    refine ⟨hmove, allDue_advance hrecorded hdue h, ?_⟩
    have howned' : AllOwned (Passed program c (moves + 1)) jobs₁ :=
      howned.mono fun _ _ hpassed => hpassed.mono (Nat.le_succ _)
    cases jobs₁ with
    | nil =>
      cases h
      trivial
    | cons job rest =>
      obtain ⟨js, hstep, rfl⟩ := advance_eq_ok h
      exact allOwned_step ⟨moves, Nat.lt_succ_self _, hbefore⟩ howned' hstep

/-- After any number of moves all buffers are recorded, also if one of the moves failed. -/
theorem recorded_advanceFor {program : Program} (hc : Recorded c.buffers) (moves : Nat) :
    Recorded (after (advanceFor moves [.stmts program] c)).buffers := by
  induction moves with
  | zero => exact hc
  | succ moves ih =>
    rw [advanceFor_succ]
    cases hbefore : advanceFor moves [.stmts program] c with
    | error e c' =>
      rw [hbefore] at ih
      rw [bind_of_error hbefore]
      exact ih
    | ok jobs c' =>
      obtain ⟨hrecorded, hdue, -⟩ := advanceFor_invariant hc moves hbefore
      rw [bind_of_ok hbefore]
      exact recorded_advance hrecorded hdue

end Gen

open Gen

theorem Compiler.Closed.recorded {c : Compiler} (h : c.Closed) : Recorded c.buffers := by
  intro b hb
  rw [Nest.toList, h.buffers, List.mem_singleton] at hb
  exact hb ▸ h.records

/-- A program is compiled by a number of moves, after each of which every buffer has an accurate
memory of its last instruction, also after one that fails.  A move changes the buffers at most once.
When the last instruction is taken back, it is the `pop` behind the last expression of the block
that is being closed, and the buffer is then as it was before that `pop`; when it is turned into a
return, it is that `pop` of the body that is being closed, and the return is emitted in its place.
-/
theorem Compiler.Reachable.last_accurate {c : Compiler} (h : c.Reachable) (program : Program) :
    (∃ moves, advanceFor moves [.stmts program] c = (stmts program >>= fun _ => pure []) c) ∧
    ∀ moves,
      (∀ b ∈ (after (advanceFor moves [.stmts program] c)).buffers.toList, b.Accurate) ∧
      ∀ job rest c', advanceFor moves [.stmts program] c = .ok (job :: rest) c' →
        Touches job c'.buffers (after (job.step c')).buffers ∧
        (∀ block before, job = .dropLast block before →
          Passed program c moves (.branch block :: rest) before ∧
          ∃ c₁, PopBehind block before c₁ c' ∧
            (after (job.step c')).buffers = c'.buffers.modify fun _ =>
              { c₁.buffers.inner with previous := c₁.buffers.inner.last }) ∧
        (∀ body before, job = .returnLast body before →
          before.buffers.inner = {} ∧
          (∃ outside, rest = .endBody :: outside ∧
            BodyOf (Passed program c moves) body before outside) ∧
          ∃ c₁, PopBehind body before c₁ c' ∧
            (after (job.step c')).buffers = c'.buffers.modify fun _ =>
              c₁.buffers.inner.emit .returnValue) := by
  have hc := h.closed.recorded
  constructor
  · obtain ⟨moves, hmoves⟩ := stmts_finishes program [] c
    refine ⟨moves, ?_⟩
    rw [List.append_nil] at hmoves
    simpa [runAll, Job.run] using hmoves
  intro moves
  refine ⟨(recorded_advanceFor hc moves).accurate, fun job rest c' hjobs => ?_⟩
  obtain ⟨-, ⟨hdue, -⟩, howned, -⟩ := advanceFor_invariant hc moves hjobs
  refine ⟨job.step_touches c', ?_, ?_⟩
  · rintro block before rfl
    obtain ⟨c₁, hpop⟩ := hdue
    refine ⟨howned, c₁, hpop, ?_⟩
    show c'.buffers.modify (·.dropLast) = _
    rw [Nest.modify, Nest.modify, hpop.inner, Buffer.dropLast_emit]
  · rintro body before rfl
    obtain ⟨hempty, c₁, hpop⟩ := hdue
    refine ⟨hempty, howned, c₁, hpop, ?_⟩
    show c'.buffers.modify (·.returnLast) = _
    rw [Nest.modify, Nest.modify, hpop.inner, Buffer.returnLast_emit_pop]

/-- A block that stands for a value. -/
def fiveInBranch : Program :=
  [.eval (.conditional (.boolean true) [.eval (.integer 5)] none)]

/-- A body that ends in an expression. -/
def fiveInFunction : Program := [.eval (.function none [] [.eval (.integer 5)])]

/-- In `fiveInBranch` the `pop` behind 5 is taken back, in `fiveInFunction` it becomes a return. -/
theorem fiveInBranch_changes :
    (∃ before rest c' c₁, advanceFor 15 [.stmts fiveInBranch] Compiler.start =
        .ok (.dropLast [.eval (.integer 5)] before :: rest) c' ∧
      PopBehind [.eval (.integer 5)] before c₁ c') ∧
    ∃ before rest c' c₁, advanceFor 10 [.stmts fiveInFunction] Compiler.start =
        .ok (.returnLast [.eval (.integer 5)] before :: rest) c' ∧
      PopBehind [.eval (.integer 5)] before c₁ c' := by
  have hstart : Compiler.start.Reachable := .resume _ _
  constructor
  · obtain ⟨before, rest, c', hmoves⟩ : ∃ before rest c',
        advanceFor 15 [.stmts fiveInBranch] Compiler.start =
          .ok (.dropLast [.eval (.integer 5)] before :: rest) c' := ⟨_, _, _, rfl⟩
    have haccurate := (Compiler.Reachable.last_accurate hstart fiveInBranch).2
    obtain ⟨-, hdrop, -⟩ := (haccurate 15).2 _ _ _ hmoves
    obtain ⟨-, c₁, hpop, -⟩ := hdrop _ _ rfl
    exact ⟨before, rest, c', c₁, hmoves, hpop⟩
  · obtain ⟨before, rest, c', hmoves⟩ : ∃ before rest c',
        advanceFor 10 [.stmts fiveInFunction] Compiler.start =
          .ok (.returnLast [.eval (.integer 5)] before :: rest) c' := ⟨_, _, _, rfl⟩
    have haccurate := (Compiler.Reachable.last_accurate hstart fiveInFunction).2
    obtain ⟨-, -, hreturn⟩ := (haccurate 10).2 _ _ _ hmoves
    obtain ⟨-, -, c₁, hpop, -⟩ := hreturn _ _ rfl
    exact ⟨before, rest, c', c₁, hmoves, hpop⟩

end Scriptlet
