import Scriptlet.Proofs.Reachable

/-!
# A refused program leaves no trace

Compilation changes its state in place and gives up in the middle: functions are open, constants
have been added, names have been bound, jumps have been filled in and a `pop` may have been taken
back.  Going back to the state before the program only cuts off what is too long and puts the old
table back.  That is enough if nothing that was there before the program has been written over.

* `Gen.Abandons` describes a state in which compilation was given up.  The buffer that was the
  innermost one is still among the buffers, below those of functions that are still open, and it
  still starts with the instructions that it held.
* `Gen.stmts_abandons` proves this of every refused list of statements, along the definition of
  compilation.  The parts in front of the error came to a result, so `Gen.stmts_code` says exactly
  which instructions they left, and filling in a jump or taking a `pop` back happens behind the
  instructions that were there first.
* `Compiler.Reachable` are the states that programs, refused ones among them, lead to.  In all of
  them every function is closed, although the table that compilation goes on from is arbitrary.
-/

namespace Scriptlet

open Code

namespace Gen

/-- Compilation that started with the instructions `is` in the innermost buffer was given up. -/
structure Abandons (c : Compiler) (is : List Instruction) (c' : Compiler) : Prop where
  buffers : ∃ opened buffer, c'.buffers.toList = opened ++ buffer :: c.buffers.outer ∧
    (assemble is).toList <+: buffer.code.toList

variable {c c₁ c' : Compiler} {is js : List Instruction} {e : CompileError}

/-- An error that changes no buffer. -/
theorem abandons_of_buffers (hc : c.buffers.inner.Records is) (h : c'.buffers = c.buffers) :
    Abandons c is c' := by
  refine ⟨[], c.buffers.inner, congrArg Nest.toList h, ?_⟩
  exact hc.code ▸ List.prefix_refl _

/-- An error behind instructions that were emitted. -/
theorem Emits.abandons (h : Emits c (is ++ js) c₁) (h' : Abandons c₁ (is ++ js) c') :
    Abandons c is c' := by
  obtain ⟨opened, buffer, hbuffers, hprefix⟩ := h'.buffers
  refine ⟨opened, buffer, by rw [hbuffers, h.outer], List.IsPrefix.trans ?_ hprefix⟩
  rw [assemble_append, Array.toList_append]
  exact List.prefix_append ..

/-- An error inside of a function that was opened. -/
theorem Abandons.of_enter (hc : c.buffers.inner.Records is)
    (hopen : c₁.buffers = c.buffers.enter {}) (h : Abandons c₁ js c') : Abandons c is c' := by
  obtain ⟨opened, buffer, hbuffers, -⟩ := h.buffers
  refine ⟨opened ++ [buffer], c.buffers.inner, ?_, ?_⟩
  · rw [hbuffers, List.append_assoc]
    exact congrArg (fun b => opened ++ buffer :: b.outer) hopen
  · exact hc.code ▸ List.prefix_refl _

/-! ## Steps that fail -/

theorem checkLimit_eq_error {resource : Resource} {count : Nat}
    (h : checkLimit resource count c = .error e c') : c' = c := by
  unfold checkLimit at h
  split at h
  · cases h
  · cases h
    rfl

theorem emitOperator_eq_error {operator : Operator} {i? : Option Instruction}
    (h : emitOperator operator i? c = .error e c') : c' = c := by
  cases i? with
  | none =>
    cases h
    rfl
  | some i => cases h

theorem patchHere_eq_error {position : Nat} (h : patchHere position c = .error e c') : c' = c := by
  rcases bind_eq_error.1 h with h | ⟨_, _, hposition, h⟩
  · cases h
  · cases hposition
    rcases bind_eq_error.1 h with h | ⟨_, _, -, h⟩
    · exact checkLimit_eq_error h
    · cases h

theorem bindName_eq_error {name : String} (h : Gen.bind name c = .error e c') :
    c'.buffers = c.buffers := by
  rcases bind_eq_error.1 h with h | ⟨_, _, hdefine, h⟩
  · cases h
  · cases hdefine
    cases hplace : (c.tables.inner.nextSymbol name).place
    all_goals
      simp only [hplace] at h
      rcases bind_eq_error.1 h with h | ⟨_, _, -, h⟩
      · rw [checkLimit_eq_error h]
      · cases h

theorem loadAll_ne_error (symbols : List Symbol) : loadAll symbols c ≠ .error e c' :=
  (within_loadAll symbols).ne_error

theorem openFunction_ne_error (name : Option String) (parameters : List String) :
    openFunction name parameters c ≠ .error e c' :=
  (within_openFunction name parameters).ne_error

theorem closeBranch_ne_error (start : Nat) : closeBranch start c ≠ .error e c' :=
  (within_closeBranch start).ne_error

theorem closeBody_ne_error : closeBody c ≠ .error e c' := within_closeBody.ne_error

/-- Closing a function fails once the function is closed, in the buffer around it. -/
theorem closeFunction_abandons {n : Nat} {outer : Nest Buffer}
    (h : closeFunction n c = .error e c') (hc : c.buffers.inner.Records js)
    (houter : c.buffers.outer = outer.toList) (hrecords : outer.inner.Records is) :
    ∃ buffer, c'.buffers.toList = buffer :: outer.outer ∧
      (assemble is).toList <+: buffer.code.toList := by
  -- behind the first part, the buffers are those around the function; the first holds `is` and more
  suffices hsuffix : ∃ (ks : List Instruction) (c₂ : Compiler), c'.buffers = c₂.buffers ∧
      c₂.buffers.outer = outer.outer ∧ c₂.buffers.inner.Records (is ++ ks) by
    obtain ⟨ks, c₂, hsame, houter₂, hrecords₂⟩ := hsuffix
    refine ⟨c₂.buffers.inner, ?_, ?_⟩
    · rw [hsame, ← houter₂]
      rfl
    · rw [hrecords₂.code, assemble_append, Array.toList_append]
      exact List.prefix_append ..
  rcases bind_eq_error.1 h with h | ⟨_, c₁, hbody, h⟩
  · exact absurd h closeBody_ne_error
  obtain ⟨-, hemits₁⟩ := closeBody_code hbody hc
  rcases bind_eq_error.1 h with h | ⟨_, c₂, hleave, h⟩
  · cases h
  cases hleave
  have hbuffers : c₁.buffers.leave = outer := by
    rw [Nest.leave, hemits₁.outer, houter]
    rfl
  have hinner : c₁.buffers.leave.inner.Records (is ++ []) := by
    rw [hbuffers, List.append_nil]
    exact hrecords
  have houter₂ : c₁.buffers.leave.outer = outer.outer := by rw [hbuffers]
  rcases bind_eq_error.1 h with h | ⟨_, c₃, hcheck₃, h⟩
  · exact ⟨[], _, by rw [checkLimit_eq_error h], houter₂, hinner⟩
  obtain ⟨-, rfl⟩ := checkLimit_eq_ok hcheck₃
  rcases bind_eq_error.1 h with h | ⟨_, c₄, hcheck₄, h⟩
  · exact ⟨[], _, by rw [checkLimit_eq_error h], houter₂, hinner⟩
  obtain ⟨-, rfl⟩ := checkLimit_eq_ok hcheck₄
  rcases bind_eq_error.1 h with h | ⟨_, c₅, hcheck₅, h⟩
  · exact ⟨[], _, by rw [checkLimit_eq_error h], houter₂, hinner⟩
  obtain ⟨-, rfl⟩ := checkLimit_eq_ok hcheck₅
  rcases bind_eq_error.1 h with h | ⟨_, c₆, hload, h⟩
  · exact absurd h (loadAll_ne_error _)
  have hinner₂ : c₁.buffers.leave.inner.Records is := hbuffers ▸ hrecords
  obtain ⟨-, hemits₆⟩ := loadAll_code hload hinner₂
  rcases bind_eq_error.1 h with h | ⟨_, c₇, -, h⟩
  · exact ⟨_, c₆, by rw [Within.buffers_eq (within_addConstant _) h], hemits₆.outer.trans houter₂,
      hemits₆.records⟩
  · cases h

/-! ## Trees that are refused -/

mutual

theorem expr_abandons : (x : Expr) → {c c' : Compiler} → {e : CompileError} →
    {is : List Instruction} → expr x c = .error e c' → c.buffers.inner.Records is →
    Abandons c is c'
  | .identifier name, c, c', e, is, h, hc => by
    rcases bind_eq_error.1 h with h | ⟨_, c₁, -, h⟩
    · exact abandons_of_buffers hc (Within.buffers_eq (within_resolve trivial) h)
    · cases h
  | .integer value, c, c', e, is, h, hc => by
    rcases bind_eq_error.1 h with h | ⟨_, c₁, -, h⟩
    · exact abandons_of_buffers hc (Within.buffers_eq (within_addConstant _) h)
    · cases h
  | .boolean value, c, c', e, is, h, hc => by cases h
  | .string contents, c, c', e, is, h, hc => by
    rcases bind_eq_error.1 h with h | ⟨_, c₁, -, h⟩
    · exact abandons_of_buffers hc (Within.buffers_eq (within_addConstant _) h)
    · cases h
  | .array elements, c, c', e, is, h, hc => by
    rcases bind_eq_error.1 h with h | ⟨_, c₁, helements, h⟩
    · exact exprs_abandons elements h hc
    obtain ⟨js, -, hemits⟩ := exprs_code elements helements hc
    rcases bind_eq_error.1 h with h | ⟨_, c₂, -, h⟩
    · rw [checkLimit_eq_error h]
      exact hemits.abandons (abandons_of_buffers hemits.records rfl)
    · cases h
  | .hash pairs, c, c', e, is, h, hc => by
    rcases bind_eq_error.1 h with h | ⟨_, c₁, hentries, h⟩
    · exact entries_abandons pairs h hc
    obtain ⟨js, -, hemits⟩ := entries_code pairs hentries hc
    rcases bind_eq_error.1 h with h | ⟨_, c₂, -, h⟩
    · rw [checkLimit_eq_error h]
      exact hemits.abandons (abandons_of_buffers hemits.records rfl)
    · cases h
  | .unary operator operand, c, c', e, is, h, hc => by
    rcases bind_eq_error.1 h with h | ⟨_, c₁, hoperand, h⟩
    · exact expr_abandons operand h hc
    obtain ⟨js, -, hemits⟩ := expr_code operand hoperand hc
    rw [emitOperator_eq_error h]
    exact hemits.abandons (abandons_of_buffers hemits.records rfl)
  | .binary left operator right, c, c', e, is, h, hc => by
    unfold expr at h
    split at h
    · rcases bind_eq_error.1 h with h | ⟨_, c₁, hright, h⟩
      · exact expr_abandons right h hc
      obtain ⟨js, -, hemits₁⟩ := expr_code right hright hc
      rcases bind_eq_error.1 h with h | ⟨_, c₂, -, h⟩
      · exact hemits₁.abandons (expr_abandons left h hemits₁.records)
      · cases h
    · rcases bind_eq_error.1 h with h | ⟨_, c₁, hleft, h⟩
      · exact expr_abandons left h hc
      obtain ⟨js, -, hemits₁⟩ := expr_code left hleft hc
      refine hemits₁.abandons ?_
      rcases bind_eq_error.1 h with h | ⟨_, c₂, hright, h⟩
      · exact expr_abandons right h hemits₁.records
      obtain ⟨ks, -, hemits₂⟩ := expr_code right hright hemits₁.records
      rw [emitOperator_eq_error h]
      exact hemits₂.abandons (abandons_of_buffers hemits₂.records rfl)
  | .conditional condition consequence alternative, c, c', e, is, h, hc => by
    unfold expr at h
    rcases bind_eq_error.1 h with h | ⟨_, c₁, hcondition, h⟩
    · exact expr_abandons condition h hc
    obtain ⟨js, -, hemits₁⟩ := expr_code condition hcondition hc
    refine hemits₁.abandons ?_
    rcases bind_eq_error.1 h with h | ⟨_, c₂, hjump₂, h⟩
    · cases h
    obtain ⟨rfl, -, hemits₂⟩ := emitAt_code hjump₂ hemits₁.records
    rcases bind_eq_error.1 h with h | ⟨_, _, hposition, h⟩
    · cases h
    cases hposition
    rcases bind_eq_error.1 h with h | ⟨_, c₃, hconsequence, h⟩
    · exact hemits₂.abandons (stmts_abandons consequence h hemits₂.records)
    obtain ⟨ks, hcode₃, hemits₃⟩ := stmts_code consequence hconsequence hemits₂.records
    rcases bind_eq_error.1 h with h | ⟨_, c₄, hclose, h⟩
    · exact absurd h (closeBranch_ne_error _)
    obtain ⟨-, hemits₄⟩ := closeBranch_stmts hclose hcode₃ hemits₂.records hemits₃
    rcases bind_eq_error.1 h with h | ⟨_, c₅, hjump₅, h⟩
    · cases h
    obtain ⟨rfl, -, hemits₅⟩ := emitAt_code hjump₅ hemits₄.records
    have hrecords₅ : c₅.buffers.inner.Records
        (is ++ js ++ .jumpNotTruthy placeholder :: (branchCode ks ++ [.jump placeholder])) := by
      simpa using hemits₅.records
    have houter₅ : c₅.buffers.outer = c₁.buffers.outer := by
      rw [hemits₅.outer, hemits₄.outer, hemits₂.outer]
    rcases bind_eq_error.1 h with h | ⟨_, c₆, hpatch, h⟩
    · rw [patchHere_eq_error h]
      exact Emits.abandons ⟨hrecords₅, houter₅⟩ (abandons_of_buffers hrecords₅ rfl)
    -- the jump that was filled in stands behind the condition
    obtain ⟨-, hemits₆⟩ := patchHere_jumpNotTruthy hpatch hrecords₅
    refine Emits.abandons ⟨hemits₆.records, hemits₆.outer.trans houter₅⟩ ?_
    cases alternative with
    | none =>
      rcases bind_eq_error.1 h with h | ⟨_, c₇, hnull, h⟩
      · cases h
      obtain ⟨-, hemits₇⟩ := emit_code hnull hemits₆.records
      rw [patchHere_eq_error h]
      exact hemits₇.abandons (abandons_of_buffers hemits₇.records rfl)
    | some alternative =>
      rcases bind_eq_error.1 h with h | ⟨_, _, hposition, h⟩
      · cases h
      cases hposition
      rcases bind_eq_error.1 h with h | ⟨_, c₇, halternative, h⟩
      · exact stmts_abandons alternative h hemits₆.records
      obtain ⟨ls, hcode₇, hemits₇⟩ := stmts_code alternative halternative hemits₆.records
      rcases bind_eq_error.1 h with h | ⟨_, c₈, hclose, h⟩
      · exact absurd h (closeBranch_ne_error _)
      obtain ⟨-, hemits₈⟩ := closeBranch_stmts hclose hcode₇ hemits₆.records hemits₇
      rw [patchHere_eq_error h]
      exact hemits₈.abandons (abandons_of_buffers hemits₈.records rfl)
  | .function name parameters body, c, c', e, is, h, hc => by
    rcases bind_eq_error.1 h with h | ⟨_, c₁, hopen, h⟩
    · exact absurd h (openFunction_ne_error name parameters)
    obtain ⟨-, hbuffers₁⟩ := openFunction_code hopen
    have hempty : c₁.buffers.inner.Records [] := by
      rw [hbuffers₁]
      exact Buffer.records_empty
    rcases bind_eq_error.1 h with h | ⟨_, c₂, hbody, h⟩
    · exact (stmts_abandons body h hempty).of_enter hc hbuffers₁
    obtain ⟨js, -, hemits₂⟩ := stmts_code body hbody hempty
    have houter : c₂.buffers.outer = c.buffers.toList := by
      rw [hemits₂.outer, hbuffers₁]
      rfl
    obtain ⟨buffer, hbuffers, hprefix⟩ := closeFunction_abandons h hemits₂.records houter hc
    exact ⟨[], buffer, hbuffers, hprefix⟩
  | .call callee arguments, c, c', e, is, h, hc => by
    rcases bind_eq_error.1 h with h | ⟨_, c₁, hcallee, h⟩
    · exact expr_abandons callee h hc
    obtain ⟨js, -, hemits₁⟩ := expr_code callee hcallee hc
    refine hemits₁.abandons ?_
    rcases bind_eq_error.1 h with h | ⟨_, c₂, harguments, h⟩
    · exact exprs_abandons arguments h hemits₁.records
    obtain ⟨ks, -, hemits₂⟩ := exprs_code arguments harguments hemits₁.records
    rcases bind_eq_error.1 h with h | ⟨_, c₃, -, h⟩
    · rw [checkLimit_eq_error h]
      exact hemits₂.abandons (abandons_of_buffers hemits₂.records rfl)
    · cases h
  | .index collection key, c, c', e, is, h, hc => by
    rcases bind_eq_error.1 h with h | ⟨_, c₁, hcollection, h⟩
    · exact expr_abandons collection h hc
    obtain ⟨js, -, hemits₁⟩ := expr_code collection hcollection hc
    rcases bind_eq_error.1 h with h | ⟨_, c₂, -, h⟩
    · exact hemits₁.abandons (expr_abandons key h hemits₁.records)
    · cases h

theorem exprs_abandons : (es : List Expr) → {c c' : Compiler} → {e : CompileError} →
    {is : List Instruction} → exprs es c = .error e c' → c.buffers.inner.Records is →
    Abandons c is c'
  | [], c, c', e, is, h, hc => by cases h
  | first :: rest, c, c', e, is, h, hc => by
    rcases bind_eq_error.1 h with h | ⟨_, c₁, hfirst, h⟩
    · exact expr_abandons first h hc
    · obtain ⟨js, -, hemits⟩ := expr_code first hfirst hc
      exact hemits.abandons (exprs_abandons rest h hemits.records)

theorem entries_abandons : (pairs : List (Expr × Expr)) → {c c' : Compiler} →
    {e : CompileError} → {is : List Instruction} → entries pairs c = .error e c' →
    c.buffers.inner.Records is → Abandons c is c'
  | [], c, c', e, is, h, hc => by cases h
  | (key, value) :: rest, c, c', e, is, h, hc => by
    unfold entries at h
    split at h
    · rcases bind_eq_error.1 h with h | ⟨_, c₁, hkey, h⟩
      · exact expr_abandons key h hc
      obtain ⟨js, -, hemits₁⟩ := expr_code key hkey hc
      refine hemits₁.abandons ?_
      rcases bind_eq_error.1 h with h | ⟨_, c₂, hvalue, h⟩
      · exact expr_abandons value h hemits₁.records
      obtain ⟨ks, -, hemits₂⟩ := expr_code value hvalue hemits₁.records
      exact hemits₂.abandons (entries_abandons rest h hemits₂.records)
    · cases h
      exact abandons_of_buffers hc rfl

theorem stmt_abandons : (first : Stmt) → {c c' : Compiler} → {e : CompileError} →
    {is : List Instruction} → stmt first c = .error e c' → c.buffers.inner.Records is →
    Abandons c is c'
  | .bind name value, c, c', e, is, h, hc => by
    rcases bind_eq_error.1 h with h | ⟨_, c₁, hvalue, h⟩
    · exact expr_abandons value h hc
    · obtain ⟨js, -, hemits⟩ := expr_code value hvalue hc
      exact hemits.abandons (abandons_of_buffers hemits.records (bindName_eq_error h))
  | .ret value, c, c', e, is, h, hc => by
    rcases bind_eq_error.1 h with h | ⟨_, c₁, -, h⟩
    · exact expr_abandons value h hc
    · cases h
  | .eval value, c, c', e, is, h, hc => by
    rcases bind_eq_error.1 h with h | ⟨_, c₁, -, h⟩
    · exact expr_abandons value h hc
    · cases h

/-- Statements that are refused leave what was emitted before them in place. -/
theorem stmts_abandons : (body : List Stmt) → {c c' : Compiler} → {e : CompileError} →
    {is : List Instruction} → stmts body c = .error e c' → c.buffers.inner.Records is →
    Abandons c is c'
  | [], c, c', e, is, h, hc => by cases h
  | first :: rest, c, c', e, is, h, hc => by
    rcases bind_eq_error.1 h with h | ⟨_, c₁, hfirst, h⟩
    · exact stmt_abandons first h hc
    · obtain ⟨js, -, hemits⟩ := stmt_code first hfirst hc
      exact hemits.abandons (stmts_abandons rest h hemits.records)

end

end Gen

/-! ## States of compilation -/

theorem Nest.outermost_of_toList {α : Type} {nest : Nest α} {items : List α} {item : α}
    (h : nest.toList = items ++ [item]) : nest.outermost = item := by
  obtain ⟨inner, outer⟩ := nest
  cases items with
  | nil =>
    cases h
    rfl
  | cons first items =>
    obtain ⟨rfl, rfl⟩ := List.cons.inj h
    simp [outermost]

namespace Compiler

/-- The states between programs that are compiled one behind the other, refused ones among them. -/
inductive Reachable : Compiler → Prop
  | resume (table : SymbolTable) (constants : Array Value) : Reachable (resume table constants)
  | compile {c : Compiler} (program : Program) (h : Reachable c) :
      Reachable (c.compile program).2

/-- Every function is closed, and the code is that of some instructions. -/
structure Closed (c : Compiler) : Prop where
  records : ∃ is, c.buffers.inner.Records is
  buffers : c.buffers.outer = []
  tables : c.tables.outer = []

/-- A program that is refused on top of closed functions leaves the state as it was. -/
theorem Closed.compile_error {c c' : Compiler} {program : Program} {e : CompileError}
    (h : c.Closed) (hcompile : c.compile program = (.error e, c')) : c' = c := by
  obtain ⟨-, hconstants⟩ := Compiler.compile_error hcompile
  obtain ⟨⟨is, hrecords⟩, hbuffers, htables⟩ := h
  unfold Compiler.compile at hcompile
  split at hcompile
  · cases hcompile
  next e' c₁ hrefused =>
    obtain ⟨opened, buffer, hopened, hprefix⟩ :=
      (Gen.stmts_abandons program hrefused hrecords).buffers
    rw [hbuffers] at hopened
    cases hcompile
    obtain ⟨constants, ⟨table, outer⟩, ⟨first, others⟩⟩ := c
    cases hbuffers
    cases htables
    -- what is too long is cut off, and the rest is what the buffer held before
    have hcode : buffer.code.shrink first.code.size = first.code := by
      obtain ⟨more, hmore⟩ := hprefix
      rw [← hrecords.code] at hmore
      apply Array.toList_inj.1
      rw [Array.toList_shrink, ← hmore]
      exact List.take_left
    generalize hsaved : checkpoint ⟨constants, ⟨table, []⟩, ⟨first, []⟩⟩ = saved at hconstants ⊢
    have hrestored : (c₁.restore saved).buffers = ⟨first, []⟩ := by
      rw [← hsaved, Compiler.restore, Nest.outermost_of_toList hopened]
      show Nest.mk (Buffer.mk (buffer.code.shrink first.code.size) first.last first.previous) [] = _
      rw [hcode]
    have htable : saved.table = table := by rw [← hsaved]; rfl
    show Compiler.mk (c₁.restore saved).constants ⟨saved.table, []⟩ (c₁.restore saved).buffers = _
    rw [hconstants, hrestored, htable]

theorem closed_resume (table : SymbolTable) (constants : Array Value) :
    (Compiler.resume table constants).Closed :=
  ⟨⟨[], Buffer.records_empty⟩, rfl, rfl⟩

/-- Compiling leaves all functions closed, whether the program is refused or not. -/
theorem Closed.compile {c : Compiler} (h : c.Closed) (program : Program) :
    (c.compile program).2.Closed := by
  cases hcompile : c.compile program with
  | mk result c' =>
    cases result with
    | error e => exact h.compile_error hcompile ▸ h
    | ok u =>
      obtain ⟨is, hrecords⟩ := h.records
      obtain ⟨js, hcode, hemits⟩ := Compiler.compile_code hcompile hrecords
      refine ⟨⟨_, hemits.records⟩, hemits.outer.trans h.buffers, List.length_eq_zero_iff.1 ?_⟩
      have hlength := congrArg List.length hcode.encloses.same
      simp only [Stage.enclosures, Compiler.stage, Nest.toList, List.map_cons, List.length_cons,
        List.length_map, h.tables, List.length_nil] at hlength
      exact Nat.succ.inj hlength

theorem Reachable.closed {c : Compiler} (h : c.Reachable) : c.Closed := by
  induction h with
  | resume table constants => exact closed_resume table constants
  | compile program _ ih => exact ih.compile program

/-- A program that is refused leaves the state of compilation as it was, with no function open. -/
theorem Reachable.compile_refused {c c' : Compiler} {program : Program} {e : CompileError}
    (h : c.Reachable) (hcompile : c.compile program = (.error e, c')) :
    c' = c ∧ c'.tables.depth = 1 ∧ c'.buffers.depth = 1 := by
  have heq := h.closed.compile_error hcompile
  refine ⟨heq, ?_, ?_⟩
  · rw [heq, Nest.depth, h.closed.tables]
    rfl
  · rw [heq, Nest.depth, h.closed.buffers]
    rfl

end Compiler

/-- A program with a name that is bound nowhere, in a branch in a function that captures, behind an
operand, after a name was bound. -/
def unboundInBranch : Program :=
  [.bind "b" (.integer 2),
    .eval (.binary (.identifier "a") .add (.call (.function none ["x"]
      [.eval (.function none []
        [.eval (.conditional (.identifier "x") [.eval (.integer 3)]
          (some [.eval (.identifier "nowhere")]))])]) [.integer 4]))]

/-- After a program that is compiled, `unboundInBranch` is refused without a trace. -/
theorem unboundInBranch_refused :
    ∃ e, ((Compiler.start.compile [.bind "a" (.integer 1)]).2.compile unboundInBranch) =
        (.error e, (Compiler.start.compile [.bind "a" (.integer 1)]).2) ∧
      (Compiler.start.compile [.bind "a" (.integer 1)]).2.constants.size = 1 := by
  have hrefused : ((Compiler.start.compile [.bind "a" (.integer 1)]).2.compile
      unboundInBranch).1.toOption.isNone = true := by
    decide +kernel
  cases hcompile : (Compiler.start.compile [.bind "a" (.integer 1)]).2.compile
      unboundInBranch with
  | mk result c' =>
    rw [hcompile] at hrefused
    cases result with
    | ok u => cases hrefused
    | error e =>
      obtain ⟨hsame, -⟩ := Compiler.Reachable.compile_refused
        (.compile [.bind "a" (.integer 1)] (.resume _ _)) hcompile
      exact ⟨e, congrArg _ hsame, by decide +kernel⟩

end Scriptlet
