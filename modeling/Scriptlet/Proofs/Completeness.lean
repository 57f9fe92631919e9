import Scriptlet.Proofs.Relocation
import Scriptlet.Proofs.Rollback

/-!
# From code to compilation

`Gen.stmts_code` leads from compilation to the code of a tree; here is the way back.  If a tree has
a code at some place, it is compiled there, and also at any place in front of it
(`StmtsCode.succeeds`).  The rules of the relation list the checks that compilation makes, all of
them but one are about the tables and constants, and the number of bytes that is checked when a jump
is filled in is smaller further in front.

So what can be compiled behind other programs can be compiled on its own.

* `Gen.Succeeds` says that a step comes to a result, with a rule for one step behind another.  Most
  steps cannot fail at all (`Gen.Within.succeeds`); there is one rule for each of the others.
* `ExprCode.emitted` and its companions say what a tree with a code leaves behind when it is
  compiled further in front, which is what the trees behind it start from.
-/

namespace Scriptlet

open Code Instruction

namespace Gen

variable {α β : Type} {c : Compiler}

/-- A step comes to a result. -/
def Succeeds (x : Gen α) (c : Compiler) : Prop := ∃ a c', x c = .ok a c'

theorem Succeeds.bind {x : Gen α} {f : α → Gen β} (hx : Succeeds x c)
    (hf : ∀ a c₁, x c = .ok a c₁ → Succeeds (f a) c₁) : Succeeds (x >>= f) c := by
  obtain ⟨a, c₁, hfirst⟩ := hx
  obtain ⟨b, c₂, hsecond⟩ := hf a c₁ hfirst
  exact ⟨b, c₂, by rw [bind_of_ok hfirst, hsecond]⟩

/-- A step that cannot fail comes to a result. -/
theorem Within.succeeds {x : Gen α} (h : Within .unfailing x) (c : Compiler) : Succeeds x c := by
  cases hresult : x c with
  | ok a c' => exact ⟨a, c', hresult⟩
  | error e c' => exact absurd hresult h.ne_error

theorem succeeds_checkLimit {resource : Resource} {count : Nat} (h : count ≤ resource.limit) :
    Succeeds (checkLimit resource count) c := by
  unfold checkLimit
  rw [if_pos h]
  exact ⟨(), c, rfl⟩

/-- An instruction whose operand is checked first. -/
theorem succeeds_checkedEmit {resource : Resource} {count : Nat} (h : count ≤ resource.limit)
    (i : Instruction) : Succeeds (do checkLimit resource count; emit i : Gen Unit) c :=
  (succeeds_checkLimit h).bind fun _ c₁ _ => (within_emit i).succeeds c₁

theorem succeeds_addConstant {make : Stamp → Value} (h : c.constants.size ≤ 65535) :
    Succeeds (addConstant make) c := by
  refine Succeeds.bind ⟨c, c, rfl⟩ fun _ _ hget => ?_
  cases hget
  exact (succeeds_checkLimit h).bind fun _ _ _ => ⟨_, _, rfl⟩

theorem succeeds_resolve {name : String} {symbol : Symbol} {tables : Chain}
    (h : c.tables.resolve name = (some symbol, tables)) : Succeeds (resolve name) c := by
  refine ⟨symbol, { c with tables := tables }, ?_⟩
  unfold resolve
  rw [h]

theorem succeeds_patchHere {jump : Nat} (h : c.buffers.inner.code.size ≤ 65535) :
    Succeeds (patchHere jump) c := by
  refine Succeeds.bind ⟨_, c, rfl⟩ fun _ _ hposition => ?_
  cases hposition
  exact (succeeds_checkLimit h).bind fun _ _ _ => ⟨_, _, rfl⟩

theorem succeeds_bind {name : String} (h : (c.tables.inner.nextSymbol name).index ≤
    (c.tables.inner.nextSymbol name).slots.limit) : Succeeds (Gen.bind name) c := by
  refine ((within_define name).succeeds c).bind fun _ _ hdefine => ?_
  cases hdefine
  unfold Symbol.slots at h
  split
  · next hplace =>
    rw [hplace] at h
    exact succeeds_checkedEmit h _
  · next hplace =>
    refine succeeds_checkedEmit ?_ _
    revert h
    split
    · next hglobal => exact absurd hglobal hplace
    · exact id

/-- Changing nothing but the buffers. -/
def Effects.writing : Effects where
  changes c c' := c'.stage = c.stage
  errors _ := True
  refl _ := rfl
  trans h h' := h'.trans h

instance : Effects.writing.Writes := ⟨fun _ _ => rfl⟩

theorem Within.stage_eq {x : Gen α} {a : α} {c' : Compiler} (h : Within .writing x)
    (hx : x c = .ok a c') : c'.stage = c.stage := by
  have hstage := h.after c
  rw [hx] at hstage
  exact hstage

/-- A function of which the numbers fit can be closed. -/
theorem succeeds_closeFunction {n : Nat} (hlocals : c.tables.inner.definitions ≤ 255)
    (hparameters : n ≤ 255) (hcaptures : c.tables.inner.captures.size ≤ 255)
    (hpool : c.constants.size ≤ 65535) : Succeeds (closeFunction n) c := by
  refine (within_closeBody.succeeds c).bind fun _ c₁ hbody => ?_
  obtain ⟨hconstants, htables⟩ := Stage.mk.inj (Within.stage_eq within_closeBody hbody)
  rw [← htables] at hlocals hcaptures
  rw [← hconstants] at hpool
  refine Succeeds.bind ⟨_, _, rfl⟩ fun closed c₂ hleave => ?_
  cases hleave
  refine (succeeds_checkLimit hlocals).bind fun _ _ hcheck => ?_
  obtain ⟨-, rfl⟩ := checkLimit_eq_ok hcheck
  refine (succeeds_checkLimit hparameters).bind fun _ _ hcheck => ?_
  obtain ⟨-, rfl⟩ := checkLimit_eq_ok hcheck
  refine (succeeds_checkLimit hcaptures).bind fun _ _ hcheck => ?_
  obtain ⟨-, rfl⟩ := checkLimit_eq_ok hcheck
  refine ((within_loadAll _).succeeds _).bind fun _ c₃ hload => ?_
  have hconstants₃ := (Stage.mk.inj (Within.stage_eq (within_loadAll _) hload)).1
  refine (succeeds_addConstant ?_).bind fun _ c₄ _ => (within_emit _).succeeds c₄
  rw [hconstants₃]
  exact hpool

end Gen

/-! ## What is left behind -/

variable {s s' : Stage} {p q n : Nat} {is js : List Instruction} {c c' : Compiler} {u : Unit}

theorem ExprCode.emitted {e : Expr} (h : ExprCode s q e js s') (hq : q = n + extent is)
    (hs : s = c.stage) (hc : c.buffers.inner.Records is) (hexpr : Gen.expr e c = .ok u c') :
    ∃ ks, q + extent js = n + extent (is ++ ks) ∧ s' = c'.stage ∧ Gen.Emits c (is ++ ks) c' := by
  obtain ⟨ks, hcode, hemits⟩ := Gen.expr_code e hexpr hc
  obtain ⟨rfl, hs'⟩ := h.relocated hq hs hcode
  refine ⟨ks, ?_, hs', hemits⟩
  rw [extent_map_shift, extent_append, hq, Nat.add_assoc]

theorem StmtCode.emitted {first : Stmt} (h : StmtCode s q first js s') (hq : q = n + extent is)
    (hs : s = c.stage) (hc : c.buffers.inner.Records is) (hstmt : Gen.stmt first c = .ok u c') :
    ∃ ks, q + extent js = n + extent (is ++ ks) ∧ s' = c'.stage ∧ Gen.Emits c (is ++ ks) c' := by
  obtain ⟨ks, hcode, hemits⟩ := Gen.stmt_code first hstmt hc
  obtain ⟨rfl, hs'⟩ := h.relocated hq hs hcode
  refine ⟨ks, ?_, hs', hemits⟩
  rw [extent_map_shift, extent_append, hq, Nat.add_assoc]

/-- A block that is compiled further in front and closed as a branch. -/
theorem StmtsCode.emitted_branch {body : List Stmt} {c₁ : Compiler} {u' : Unit}
    (h : StmtsCode s q body js s') (hq : q = n + extent is) (hs : s = c.stage)
    (hc : c.buffers.inner.Records is) (hstmts : Gen.stmts body c = .ok u c₁)
    (hclose : Gen.closeBranch c.buffers.inner.code.size c₁ = .ok u' c') :
    ∃ ks, q + extent (branchCode js) = n + extent (is ++ ks) ∧ s' = c'.stage ∧
      Gen.Emits c (is ++ ks) c' := by
  obtain ⟨ks, hcode, hemits⟩ := Gen.stmts_code body hstmts hc
  obtain ⟨rfl, hs'⟩ := h.relocated hq hs hcode
  obtain ⟨hstage, hemits'⟩ := Gen.closeBranch_stmts hclose hcode hc hemits
  refine ⟨branchCode ks, ?_, hs'.trans hstage.symm, hemits'⟩
  rw [branchCode_map_shift, extent_map_shift, extent_append, hq, Nat.add_assoc]

/-! ## Trees -/

open Gen

mutual

theorem ExprCode.succeeds {s s' : Stage} {q : Nat} {e : Expr} {js : List Instruction} :
    ExprCode s q e js s' → ∀ {n : Nat} {is : List Instruction} {c : Compiler}, q = n + extent is →
      s = c.stage → c.buffers.inner.Records is → Succeeds (expr e) c
  | .identifier hresolve, _, _, c, _, hs, _ => by
    subst hs
    exact (succeeds_resolve hresolve).bind fun symbol c₁ _ => (within_emit symbol.load).succeeds c₁
  | .integer hpool, _, _, c, _, hs, _ => by
    subst hs
    exact (succeeds_addConstant hpool).bind fun _ c₁ _ => (within_emit _).succeeds c₁
  | .boolean, _, _, c, _, _, _ => (within_emit _).succeeds c
  | .string hpool, _, _, c, _, hs, _ => by
    subst hs
    exact (succeeds_addConstant hpool).bind fun _ c₁ _ => (within_emit _).succeeds c₁
  | .array helements hcount, _, _, c, hq, hs, hc =>
    (helements.succeeds hq hs hc).bind fun _ _ _ => succeeds_checkedEmit hcount _
  | .hash hpairs hcount, _, _, c, hq, hs, hc =>
    (hpairs.succeeds hq hs hc).bind fun _ _ _ => succeeds_checkedEmit hcount _
  | .unary hoperand hoperator, _, _, c, hq, hs, hc => by
    refine (hoperand.succeeds hq hs hc).bind fun _ c₁ _ => ?_
    rw [hoperator]
    exact (within_emit _).succeeds c₁
  | .lessThan hright hleft, _, _, c, hq, hs, hc => by
    unfold expr
    rw [if_pos rfl]
    refine (hright.succeeds hq hs hc).bind fun _ c₁ hfirst => ?_
    obtain ⟨ks, hq₁, hs₁, hemits₁⟩ := hright.emitted hq hs hc hfirst
    exact (hleft.succeeds hq₁ hs₁ hemits₁.records).bind fun _ c₂ _ => (within_emit _).succeeds c₂
  | @ExprCode.binary _ _ _ _ _ _ operator _ _ _ hleft hright hoperator, _, _, c, hq, hs, hc => by
    have hless : operator ≠ .lessThan := by
      rintro rfl
      cases hoperator
    unfold expr
    rw [if_neg hless]
    refine (hleft.succeeds hq hs hc).bind fun _ c₁ hfirst => ?_
    obtain ⟨ks, hq₁, hs₁, hemits₁⟩ := hleft.emitted hq hs hc hfirst
    refine (hright.succeeds hq₁ hs₁ hemits₁.records).bind fun _ c₂ _ => ?_
    rw [hoperator]
    exact (within_emit _).succeeds c₂
  | @ExprCode.conditional _ _ _ _ p q r _ _ alternative ds _ _ hcondition hconsequence
      halternative htoAlternative htoEnd hlimit, n, is, c, hq, hs, hc => by
    unfold expr
    refine (hcondition.succeeds hq hs hc).bind fun _ c₁ hfirst => ?_
    obtain ⟨js, hq₁, hs₁, hemits₁⟩ := hcondition.emitted hq hs hc hfirst
    refine ((within_emitAt _).succeeds c₁).bind fun _ c₂ hjump₂ => ?_
    obtain ⟨rfl, hstage₂, hemits₂⟩ := emitAt_code hjump₂ hemits₁.records
    have hs₂ := hs₁.trans hstage₂.symm
    have hq₂ : p + extent ds + 3 = n + extent (is ++ js ++ [.jumpNotTruthy placeholder]) := by
      rw [hq₁, extent_append _ [_], Nat.add_assoc]
      rfl
    refine Succeeds.bind ⟨_, c₂, rfl⟩ fun _ _ hposition => ?_
    cases hposition
    refine (hconsequence.succeeds hq₂ hs₂ hemits₂.records).bind fun _ c₃ hthen => ?_
    refine ((within_closeBranch _).succeeds c₃).bind fun _ c₄ hclose => ?_
    obtain ⟨ks, hq₄, hs₄, hemits₄⟩ :=
      hconsequence.emitted_branch hq₂ hs₂ hemits₂.records hthen hclose
    refine ((within_emitAt _).succeeds c₄).bind fun _ c₅ hjump₅ => ?_
    obtain ⟨rfl, hstage₅, hemits₅⟩ := emitAt_code hjump₅ hemits₄.records
    have hrecords₅ : c₅.buffers.inner.Records
        (is ++ js ++ .jumpNotTruthy placeholder :: (ks ++ [.jump placeholder])) := by
      simpa using hemits₅.records
    have hq₅ : q = n + extent (is ++ js ++ .jumpNotTruthy placeholder ::
        (ks ++ [.jump placeholder])) := by
      rw [htoAlternative, hq₄]
      simp [Nat.add_assoc]
    refine (succeeds_patchHere ?_).bind fun _ c₆ hpatch => ?_
    · rw [hrecords₅.size]
      omega
    obtain ⟨hstage₆, hemits₆⟩ := patchHere_jumpNotTruthy hpatch hrecords₅
    generalize extent (is ++ js ++ .jumpNotTruthy placeholder :: (ks ++ [.jump placeholder])) =
      target at hemits₆
    have hs₆ := hs₄.trans (hstage₅.symm.trans hstage₆.symm)
    have hq₆ : q = n + extent (is ++ js ++ .jumpNotTruthy target ::
        (ks ++ [.jump placeholder])) := by
      rw [hq₅]
      simp
    have helse := halternative.succeeds hq₆ hs₆ hemits₆.records
    -- behind either alternative, the code is no longer than where the second jump leads
    cases alternative with
    | none =>
      cases halternative
      refine ((within_emit _).succeeds c₆).bind fun _ c₇ hnull => succeeds_patchHere ?_
      obtain ⟨-, hemits₇⟩ := emit_code hnull hemits₆.records
      rw [hemits₇.records.size, extent_append]
      rw [branchCode_nil] at htoEnd
      omega
    | some alternative =>
      refine Succeeds.bind ⟨_, c₆, rfl⟩ fun _ _ hposition => ?_
      cases hposition
      refine Succeeds.bind helse fun _ c₇ hstmts => ?_
      refine ((within_closeBranch _).succeeds c₇).bind fun _ c₈ hclose => succeeds_patchHere ?_
      obtain ⟨ls, hq₈, -, hemits₈⟩ :=
        halternative.emitted_branch hq₆ hs₆ hemits₆.records hstmts hclose
      rw [hemits₈.records.size]
      omega
  | @ExprCode.function _ _ _ name parameters _ _ hbody hlocals hparameters hcaptures hpool, _, _, c,
      _, hs, _ => by
    refine ((within_openFunction name parameters).succeeds c).bind fun _ c₁ hopen => ?_
    obtain ⟨hstage₁, hbuffers₁⟩ := openFunction_code hopen
    have hs₁ : _ = c₁.stage := (congrArg (Stage.enter · name parameters) hs).trans hstage₁.symm
    have hempty : c₁.buffers.inner.Records [] := by
      rw [hbuffers₁]
      exact Buffer.records_empty
    -- a body is compiled at the start of a buffer of its own, wherever the function stands
    refine (hbody.succeeds (Nat.zero_add 0).symm hs₁ hempty).bind fun _ c₂ hstmts => ?_
    obtain ⟨ks, hcode, -⟩ := stmts_code _ hstmts hempty
    obtain ⟨-, rfl⟩ := hbody.relocated (Nat.zero_add 0).symm hs₁ hcode
    exact succeeds_closeFunction hlocals hparameters hcaptures hpool
  | .call hcallee harguments hcount, _, _, c, hq, hs, hc => by
    refine (hcallee.succeeds hq hs hc).bind fun _ c₁ hfirst => ?_
    obtain ⟨ks, hq₁, hs₁, hemits₁⟩ := hcallee.emitted hq hs hc hfirst
    exact (harguments.succeeds hq₁ hs₁ hemits₁.records).bind fun _ _ _ =>
      succeeds_checkedEmit hcount _
  | .index hcollection hkey, _, _, c, hq, hs, hc => by
    refine (hcollection.succeeds hq hs hc).bind fun _ c₁ hfirst => ?_
    obtain ⟨ks, hq₁, hs₁, hemits₁⟩ := hcollection.emitted hq hs hc hfirst
    exact (hkey.succeeds hq₁ hs₁ hemits₁.records).bind fun _ c₂ _ => (within_emit _).succeeds c₂
termination_by structural h => h

theorem ExprsCode.succeeds {s s' : Stage} {q : Nat} {es : List Expr} {js : List Instruction} :
    ExprsCode s q es js s' → ∀ {n : Nat} {is : List Instruction} {c : Compiler}, q = n + extent is →
      s = c.stage → c.buffers.inner.Records is → Succeeds (exprs es) c
  | .nil, _, _, c, _, _, _ => ⟨(), c, rfl⟩
  | .cons hfirst hrest, _, _, c, hq, hs, hc => by
    refine (hfirst.succeeds hq hs hc).bind fun _ c₁ hexpr => ?_
    obtain ⟨ks, hq₁, hs₁, hemits₁⟩ := hfirst.emitted hq hs hc hexpr
    exact hrest.succeeds hq₁ hs₁ hemits₁.records
termination_by structural h => h

theorem EntriesCode.succeeds {s s' : Stage} {q : Nat} {pairs : List (Expr × Expr)}
    {js : List Instruction} :
    EntriesCode s q pairs js s' → ∀ {n : Nat} {is : List Instruction} {c : Compiler},
      q = n + extent is → s = c.stage → c.buffers.inner.Records is → Succeeds (entries pairs) c
  | .nil, _, _, c, _, _, _ => ⟨(), c, rfl⟩
  | .cons hform hkey hvalue hrest, _, _, c, hq, hs, hc => by
    unfold entries
    rw [if_pos hform]
    refine (hkey.succeeds hq hs hc).bind fun _ c₁ hfirst => ?_
    obtain ⟨ks, hq₁, hs₁, hemits₁⟩ := hkey.emitted hq hs hc hfirst
    refine (hvalue.succeeds hq₁ hs₁ hemits₁.records).bind fun _ c₂ hsecond => ?_
    obtain ⟨ls, hq₂, hs₂, hemits₂⟩ := hvalue.emitted hq₁ hs₁ hemits₁.records hsecond
    exact hrest.succeeds hq₂ hs₂ hemits₂.records
termination_by structural h => h

theorem StmtCode.succeeds {s s' : Stage} {q : Nat} {first : Stmt} {js : List Instruction} :
    StmtCode s q first js s' → ∀ {n : Nat} {is : List Instruction} {c : Compiler},
      q = n + extent is → s = c.stage → c.buffers.inner.Records is → Succeeds (stmt first) c
  | .bind hvalue hsymbol hlimit, _, _, c, hq, hs, hc => by
    refine (hvalue.succeeds hq hs hc).bind fun _ c₁ hexpr => succeeds_bind ?_
    obtain ⟨ks, -, rfl, -⟩ := hvalue.emitted hq hs hc hexpr
    exact hsymbol ▸ hlimit
  | .ret hvalue, _, _, c, hq, hs, hc =>
    (hvalue.succeeds hq hs hc).bind fun _ c₁ _ => (within_emit _).succeeds c₁
  | .eval hvalue, _, _, c, hq, hs, hc =>
    (hvalue.succeeds hq hs hc).bind fun _ c₁ _ => (within_emit _).succeeds c₁
termination_by structural h => h

/-- Statements that have a code at some place are compiled at every place in front of it. -/
theorem StmtsCode.succeeds {s s' : Stage} {q : Nat} {body : List Stmt} {js : List Instruction} :
    StmtsCode s q body js s' → ∀ {n : Nat} {is : List Instruction} {c : Compiler},
      q = n + extent is → s = c.stage → c.buffers.inner.Records is → Succeeds (stmts body) c
  | .nil, _, _, c, _, _, _ => ⟨(), c, rfl⟩
  | .cons hfirst hrest, _, _, c, hq, hs, hc => by
    refine (hfirst.succeeds hq hs hc).bind fun _ c₁ hstmt => ?_
    obtain ⟨ks, hq₁, hs₁, hemits₁⟩ := hfirst.emitted hq hs hc hstmt
    exact hrest.succeeds hq₁ hs₁ hemits₁.records
termination_by structural h => h

end

end Scriptlet
