import Scriptlet.Proofs.Tandem

/-!
# Instructions beside evaluation

The comparison of both engines for the last instruction of a form of tree, once its operands are on
the stack.  There is one lemma for each kind of instruction; what the instruction does to the stack
is followed with the rules of `Machine.Holding`, and what it computes is known to agree with the
evaluator from the operations on related values.

* `Gives` is the postcondition of everything that comes to a value: the machine has come to a
  position with one more value on the stack, and that value is related to the result.
* `outcome_loads` is about the values that a closure captures, which the evaluator does not look at
  when it makes a function.
* `outcome_function` gives a value that is related to the function only where the function is bound
  to its own name, which is true of it once the `let` around it is done.
-/

namespace Scriptlet

open Code Machine Exec Value

/-- The machine has come to the position `ip` with one more value on top of `xs`, which is related
to the result of the evaluation.  All environments show what they did. -/
structure Gives (final : Stage) (W : World) (m : Machine) (xs : List Value) (ip : Nat) (w : Value)
    (W' : World) (m' : Machine) : Prop where
  linked : Linked final W' m'
  le : W.Le W.store.next W'
  value : ∃ v, v.Related final W' w ∧ m.Stands ip (xs ++ [v]) m'

/-- The machine has come to the position `ip` with `count` more values on the stack, which are
related to what a list of values holds behind those of `acc`. -/
structure GivesAll (final : Stage) (W : World) (m : Machine) (ip : Nat) (acc : List Value)
    (count : Nat) (ws : List Value) (W' : World) (m' : Machine) : Prop where
  linked : Linked final W' m'
  le : W.Le W.store.next W'
  values : ∃ vs ws', ws = acc.reverse ++ ws' ∧ vs.length = count ∧ RelatedAll final W' vs ws' ∧
    m.Stands ip (m.slots ++ vs) m'

variable {final : Stage} {k n ip : Nat} {W W' W₁ : World} {m m₁ m' : Machine} {i : Instruction}
  {v v₁ v₂ w w₁ w₂ : Value} {vs ws xs ys : List Value} {x : Nat → Eval Value}

theorem Gives.after (h : Gives final W₁ m₁ xs ip w W' m') (hle : W.Le W.store.next W₁)
    (hstands : m.Stands n ys m₁) : Gives final W m xs ip w W' m' := by
  obtain ⟨v, hrelated, hstands'⟩ := h.value
  exact ⟨h.linked, hle.trans h.le hle.next, v, hrelated, hstands.trans hstands'⟩

/-- One value in front of others. -/
theorem Gives.cons {acc : List Value} {count : Nat} (h : Gives final W m m.slots n w W₁ m₁)
    (h' : GivesAll final W₁ m₁ ip (w :: acc) count ws W' m') :
    GivesAll final W m ip acc (count + 1) ws W' m' := by
  obtain ⟨v, hrelated, hstands⟩ := h.value
  obtain ⟨vs, ws', rfl, hcount, hall, hstands'⟩ := h'.values
  have htrans := hstands.trans hstands'
  rw [hstands.slots, List.append_assoc, List.singleton_append] at htrans
  exact
    { linked := h'.linked
      le := h.le.trans h'.le h.le.next
      values := ⟨v :: vs, w :: ws', by simp, by simp [hcount],
        .cons (hrelated.mono h'.le.toExt) hall, htrans⟩ }

/-- A value that an instruction has come to, in both engines. -/
theorem Linked.gives (h : Linked final W m) (hnext : Next m m')
    (hheld : Holding (behind m i) (xs ++ [v]) m') (hrelated : v.Related final W' w)
    (hle : W.Le W.store.next W') (hgood : W'.Good) (hmade : W'.made ≤ m'.host.made) :
    Gives final W m xs (m.frame.ip + i.size) w W' m' :=
  ⟨(h.stays hnext hheld).grow hle h.root hgood hmade, hle, v, hrelated, hheld.stands⟩

/-! ## Loads -/

/-- An instruction that pushes a value. -/
theorem outcome_push (hlinked : Linked final W m)
    (hfetch : m.frame.routine.code.fetch m.frame.ip = .instruction i)
    (hexecute : execute i (behind m i) = Exec.push v (behind m i))
    (hsettles : Eval.Settles k x W.store w W'.store) (hle : W.Le W.store.next W') (hgood : W'.Good)
    (hmade : W'.made ≤ m.host.made) (hrelated : v.Related final W' w) :
    Outcome k x W m (Gives final W m m.slots (m.frame.ip + i.size)) := by
  refine .fetched hfetch (Ensures.congr hexecute ?_)
  refine (hlinked.holding rfl i).push fails_stackOverflow fun m' hm' _ _ hnext => ?_
  exact .done W' hsettles
    (hlinked.gives hnext hm' hrelated hle hgood (Nat.le_trans hmade hm'.made))

/-- An instruction that pushes a value that the evaluator comes to without changing anything. -/
theorem outcome_push_pure (hlinked : Linked final W m)
    (hfetch : m.frame.routine.code.fetch m.frame.ip = .instruction i)
    (hexecute : execute i (behind m i) = Exec.push v (behind m i))
    (hx : ∀ d, x d W.store = .ok w W.store) (hrelated : v.Related final W w) :
    Outcome k x W m (Gives final W m m.slots (m.frame.ip + i.size)) :=
  outcome_push hlinked hfetch hexecute (Eval.settles_of_eq hx) (.refl _ W) hlinked.good hlinked.made
    hrelated

/-- Loads of symbols that a function captures. -/
theorem outcome_loads {s : Stage} {captures : List Symbol} {env : Nat} (symbols : List Symbol)
    (hruns : Runs final k W s captures env m) (hlinked : Linked final W m)
    (hbelow : s.captures <+: captures)
    (hcode : m.frame.routine.code.Shows m.frame.ip (symbols.map Symbol.load))
    (hsymbols : ∀ c ∈ symbols, s.tables.inner.get? c.name = some c ∧ c.isShared = false) :
    Outcome k (fun _ => pure ()) W m fun _ W' m' => W = W' ∧ Linked final W m' ∧
      ∃ vs ws, RelatedAll final W vs ws ∧
        symbols.map (fun c => W.store.get? env c.name) = ws.map some ∧
        m.Stands (m.frame.ip + extent (symbols.map Symbol.load)) (m.slots ++ vs) m' := by
  induction symbols generalizing m with
  | nil =>
    refine .done W (Eval.settles_of_eq fun _ => rfl) ⟨rfl, hlinked, [], [], .nil, rfl, ?_, rfl, rfl⟩
    exact (List.append_nil _).symm
  | cons c rest ih =>
    obtain ⟨hget, hshared⟩ := hsymbols c (List.mem_cons_self ..)
    obtain ⟨v, w, hexecute, hw, hrelated⟩ := hruns.load_unshared hlinked hbelow hget hshared
    refine .fetched hcode.1 (Ensures.congr (hexecute _) ?_)
    refine (hlinked.holding rfl c.load).push fails_stackOverflow fun m₁ hm₁ _ _ hnext => ?_
    have hstands := hm₁.stands
    have hcode₁ : m₁.frame.routine.code.Shows m₁.frame.ip (rest.map Symbol.load) := by
      rw [hstands.routine_eq, hstands.ip_eq]
      exact hcode.2
    refine (ih (hruns.mono (.refl W) hstands) (hlinked.stays hnext hm₁) hcode₁ fun c' hc' =>
      hsymbols c' (List.mem_cons_of_mem c hc')).mono ?_
    rintro _ W' m' ⟨rfl, hlinked', vs, ws, hall, hws, hstands'⟩
    refine ⟨rfl, hlinked', v :: vs, w :: ws, .cons hrelated hall, ?_, ?_⟩
    · rw [List.map_cons, List.map_cons, hws, hw]
    · have htrans := hstands.trans hstands'
      rw [hstands.ip_eq, hstands.slots, List.append_assoc, List.singleton_append] at htrans
      rw [List.map_cons, extent_cons, ← Nat.add_assoc]
      exact htrans

/-! ## Operators -/

theorem Value.Agree.cases {r : Except Machine.Error Value} {r' : Except EvalError Value}
    (h : Agree final W r r') :
    (∃ v w, r = .ok v ∧ r' = .ok w ∧ v.Related final W w) ∨
      ∃ e e', r = .error e ∧ r' = .error e' := by
  cases r with
  | ok v =>
    cases r' with
    | ok w => exact .inl ⟨v, w, rfl, rfl, h⟩
    | error e' => exact h.elim
  | error e =>
    cases r' with
    | ok w => exact h.elim
    | error e' => exact .inr ⟨e, e', rfl, rfl⟩

section Operators

variable {bad : Halt → Machine → Prop} {ok : Unit → Machine → Prop}

theorem Machine.Holding.arithmetic (h : Holding m (xs ++ [v₁] ++ [v₂]) m₁) (op : Op)
    (hfull : ∀ m₂, bad (.error .stackOverflow) m₂)
    (hfail : ∀ e m₂, Machine.arithmetic op v₁ v₂ m₁.host.stamp = .error e → bad (.error e) m₂)
    (hok : ∀ v m₂, Machine.arithmetic op v₁ v₂ m₁.host.stamp = .ok v → Holding m (xs ++ [v]) m₂ →
      ok () m₂) : Ensures (Exec.arithmetic op) m₁ ok bad := by
  refine ensures_bind (h.pop fun m₂ h₂ hhost₂ _ => ensures_bind (h₂.pop fun m₃ h₃ hhost₃ _ => ?_))
  refine ensures_bind (ensures_get ?_)
  rw [hhost₃.trans hhost₂]
  refine ensures_bind (ensures_lift (fun v hv => ?_) fun e he => hfail e _ he)
  refine ensures_bind (ensures_modify ?_)
  exact (h₃.withHost (Nat.le_succ _)).push hfull fun m₄ h₄ _ _ => hok v m₄ hv h₄

theorem Machine.Holding.comparison (h : Holding m (xs ++ [v₁] ++ [v₂]) m₁) (op : Op)
    (hfull : ∀ m₂, bad (.error .stackOverflow) m₂)
    (hfail : ∀ e m₂, Machine.comparison op v₁ v₂ = .error e → bad (.error e) m₂)
    (hok : ∀ b m₂, Machine.comparison op v₁ v₂ = .ok b → Holding m (xs ++ [.boolean b]) m₂ →
      ok () m₂) : Ensures (Exec.comparison op) m₁ ok bad := by
  refine ensures_bind (h.pop fun m₂ h₂ _ _ => ensures_bind (h₂.pop fun m₃ h₃ _ _ => ?_))
  refine ensures_bind (ensures_lift (fun b hb => ?_) fun e he => hfail e _ he)
  exact h₃.push hfull fun m₄ h₄ _ _ => hok b m₄ hb h₄

theorem map_boolean_eq_ok {r : Except Machine.Error Bool} {b : Bool} (h : r = .ok b) :
    Value.boolean <$> r = .ok (.boolean b) := by rw [h]; rfl

theorem map_boolean_eq_error {r : Except Machine.Error Bool} {e : Machine.Error}
    (h : r = .error e) : Value.boolean <$> r = .error e := by rw [h]; rfl

/-- The instruction of an operator between two operands. -/
theorem Machine.Holding.operate {operator : Operator} (h : Holding m (xs ++ [v₁] ++ [v₂]) m₁)
    (hi : Gen.binaryInstruction? operator = some i)
    (hfull : ∀ m₂, bad (.error .stackOverflow) m₂)
    (hfail : ∀ e m₂, Machine.operate operator v₁ v₂ m₁.host.stamp = .error e → bad (.error e) m₂)
    (hok : ∀ v m₂, Machine.operate operator v₁ v₂ m₁.host.stamp = .ok v →
      Holding m (xs ++ [v]) m₂ → ok () m₂) : Ensures (execute i) m₁ ok bad := by
  have hcompare : ∀ op, Machine.operate operator v₁ v₂ m₁.host.stamp =
      Value.boolean <$> Machine.comparison op v₁ v₂ →
      Ensures (Exec.comparison op) m₁ ok bad := by
    intro op hop
    refine h.comparison op hfull (fun e m₂ he => hfail e m₂ ?_) fun b m₂ hb => hok _ m₂ ?_
    · rw [hop, map_boolean_eq_error he]
    · rw [hop, map_boolean_eq_ok hb]
  cases operator <;> simp only [Gen.binaryInstruction?, Option.some.injEq, reduceCtorEq] at hi <;>
    subst hi
  · exact h.arithmetic .add hfull hfail hok
  · exact h.arithmetic .sub hfull hfail hok
  · exact h.arithmetic .mul hfull hfail hok
  · exact h.arithmetic .div hfull hfail hok
  · exact hcompare .equal rfl
  · exact hcompare .notEqual rfl
  · exact hcompare .greaterThan rfl

end Operators

theorem settles_binary {operator : Operator}
    (h : operator.applyBinary w₁ w₂ W.store.host.stamp = .ok w) :
    Eval.Settles k (fun _ => Eval.binary operator w₁ w₂) W.store w
      (W.withHost W.store.host.used).store := by
  refine Eval.settles_of_eq fun _ => ?_
  refine (bind_of_ok (get_apply _)).trans ?_
  rw [h]
  rfl

theorem never_binary {operator : Operator} {e : EvalError}
    (h : operator.applyBinary w₁ w₂ W.store.host.stamp = .error e) :
    Eval.Never (fun _ => Eval.binary operator w₁ w₂) W.store := by
  have hfail : Eval.binary operator w₁ w₂ W.store = .error (.error e) W.store := by
    refine (bind_of_ok (get_apply _)).trans ?_
    rw [h]
    rfl
  exact Eval.never_of_error fun _ => hfail

theorem settles_lift {r : Except EvalError Value} (h : r = .ok w) :
    Eval.Settles k (fun _ => Eval.lift r) W.store w W.store :=
  Eval.settles_of_eq fun _ => by rw [h]; rfl

theorem never_lift {r : Except EvalError Value} {e : EvalError} (h : r = .error e) :
    Eval.Never (fun _ => Eval.lift r) W.store := by
  subst h
  exact fun _ _ _ hok => nomatch hok

/-- What an operator makes of two operands, which the machine may have taken in either order. -/
theorem outcome_operate {operator : Operator} (hlinked : Linked final W m)
    (hfetch : m.frame.routine.code.fetch m.frame.ip = .instruction i)
    (h₁ : v₁.Related final W w₁) (h₂ : v₂.Related final W w₂)
    (hexecute : ∀ {ok : Unit → Machine → Prop} {bad : Halt → Machine → Prop},
      (∀ m₂, bad (.error .stackOverflow) m₂) →
      (∀ e m₂, Machine.operate operator v₁ v₂ m.host.stamp = .error e → bad (.error e) m₂) →
      (∀ v m₂, Machine.operate operator v₁ v₂ m.host.stamp = .ok v →
        Holding (behind m i) (xs ++ [v]) m₂ → ok () m₂) →
      Ensures (execute i) (behind m i) ok bad) :
    Outcome k (fun _ => Eval.binary operator w₁ w₂) W m
      (Gives final W m xs (m.frame.ip + i.size)) := by
  have hagree := agree_operate hlinked.good h₁ h₂ operator m.host.stamp W.store.host.stamp
  refine .fetched hfetch
    (hexecute fails_stackOverflow (fun e m₂ he => ?_) fun v m₂ hv hm₂ hnext => ?_)
  · rcases hagree.cases with ⟨v, w, hv, -⟩ | ⟨_, e', -, he'⟩
    · cases hv.symm.trans he
    · exact fails_of_never (never_binary he') m₂
  · rcases hagree.cases with ⟨v', w, hv', hw, hrelated⟩ | ⟨e, -, he, -⟩
    · cases hv'.symm.trans hv
      have hused : W.store.host.made ≤ W.store.host.used.made := Nat.le_succ _
      have hle := World.le_withHost hused W.store.next
      exact .done _ (settles_binary hw) (hlinked.gives hnext hm₂ (hrelated.mono hle.toExt) hle
        (hlinked.good.withHost hused) (Nat.le_trans hlinked.made hm₂.made))
    · cases he.symm.trans hv

/-- An operator whose operands were evaluated from left to right. -/
theorem outcome_binary {operator : Operator} (hlinked : Linked final W m)
    (hfetch : m.frame.routine.code.fetch m.frame.ip = .instruction i)
    (hi : Gen.binaryInstruction? operator = some i) (hslots : m.slots = xs ++ [v₁] ++ [v₂])
    (h₁ : v₁.Related final W w₁) (h₂ : v₂.Related final W w₂) :
    Outcome k (fun _ => Eval.binary operator w₁ w₂) W m
      (Gives final W m xs (m.frame.ip + i.size)) :=
  outcome_operate hlinked hfetch h₁ h₂ fun hfull hfail hok =>
    (hlinked.holding hslots i).operate hi hfull hfail hok

/-- The operator `<`, whose operands were evaluated from right to left. -/
theorem outcome_lessThan (hlinked : Linked final W m)
    (hfetch : m.frame.routine.code.fetch m.frame.ip = .instruction .greaterThan)
    (hslots : m.slots = xs ++ [v₂] ++ [v₁]) (h₁ : v₁.Related final W w₁)
    (h₂ : v₂.Related final W w₂) :
    Outcome k (fun _ => Eval.binary .lessThan w₁ w₂) W m (Gives final W m xs (m.frame.ip + 1)) := by
  refine outcome_operate hlinked hfetch h₁ h₂ fun hfull hfail hok => ?_
  refine (hlinked.holding hslots .greaterThan).comparison .greaterThan hfull (fun e m₂ he => ?_)
    fun b m₂ hb => ?_
  · exact hfail e m₂ (map_boolean_eq_error he)
  · exact hok _ m₂ (map_boolean_eq_ok hb)

/-- An operator before one operand. -/
theorem outcome_unary {operator : Operator} (hlinked : Linked final W m)
    (hfetch : m.frame.routine.code.fetch m.frame.ip = .instruction i)
    (hi : Gen.unaryInstruction? operator = some i) (hslots : m.slots = xs ++ [v])
    (h : v.Related final W w) :
    Outcome k (fun _ => Eval.lift (operator.applyUnary w)) W m
      (Gives final W m xs (m.frame.ip + i.size)) := by
  refine .fetched hfetch ?_
  cases operator <;> simp only [Gen.unaryInstruction?, Option.some.injEq, reduceCtorEq] at hi <;>
    subst hi
  · refine ensures_bind ((hlinked.holding hslots .bang).pop fun m₂ h₂ _ _ => ?_)
    refine h₂.push fails_stackOverflow fun m₃ h₃ _ _ hnext => ?_
    refine .done W (settles_lift rfl) (hlinked.gives hnext h₃ ?_ (.refl _ W) hlinked.good
      (Nat.le_trans hlinked.made h₃.made))
    rw [h.isTruthy_eq]
    exact .boolean _
  · have hagree := agree_negative h
    refine ensures_bind ((hlinked.holding hslots .minus).pop fun m₂ h₂ _ _ => ?_)
    refine ensures_bind (ensures_lift (fun r hr => ?_) fun e he => ?_)
    · rcases hagree.cases with ⟨r', w', hr', hw', hrelated⟩ | ⟨e, -, he, -⟩
      · cases hr'.symm.trans hr
        refine h₂.push fails_stackOverflow fun m₃ h₃ _ _ hnext => ?_
        exact .done W (settles_lift hw') (hlinked.gives hnext h₃ hrelated (.refl _ W)
          hlinked.good (Nat.le_trans hlinked.made h₃.made))
      · cases he.symm.trans hr
    · rcases hagree.cases with ⟨r, -, hr, -⟩ | ⟨-, e', -, he'⟩
      · cases hr.symm.trans he
      · exact fails_of_never (never_lift he') m₂

/-- An index into an array or a hash. -/
theorem outcome_index (hlinked : Linked final W m)
    (hfetch : m.frame.routine.code.fetch m.frame.ip = .instruction .index)
    (hslots : m.slots = xs ++ [v₁] ++ [v₂]) (h₁ : v₁.Related final W w₁)
    (h₂ : v₂.Related final W w₂) :
    Outcome k (fun _ => Eval.lift (w₁.select w₂)) W m (Gives final W m xs (m.frame.ip + 1)) := by
  have hagree := agree_select h₁ h₂
  refine .fetched hfetch (ensures_bind ((hlinked.holding hslots .index).pop fun m₂ h₂ _ _ => ?_))
  refine ensures_bind (h₂.pop fun m₃ h₃ _ _ => ensures_bind (ensures_lift (fun r hr => ?_) ?_))
  · rcases hagree.cases with ⟨r', w', hr', hw', hrelated⟩ | ⟨e, -, he, -⟩
    · cases hr'.symm.trans hr
      refine h₃.push fails_stackOverflow fun m₄ h₄ _ _ hnext => ?_
      exact .done W (settles_lift hw') (hlinked.gives hnext h₄ hrelated (.refl _ W)
        hlinked.good (Nat.le_trans hlinked.made h₄.made))
    · cases he.symm.trans hr
  · intro e he
    rcases hagree.cases with ⟨r, -, hr, -⟩ | ⟨-, e', -, he'⟩
    · cases hr.symm.trans he
    · exact fails_of_never (never_lift he') m₃

/-! ## Values with an identity -/

/-- Both engines have just made a value. -/
theorem Linked.allocate (h : Linked final W m) (hnext : Next m m')
    (hheld : Holding (behind m i) xs m') (hhost : m'.host = m.host.used) :
    Linked final (W.allocate m.host.made) m' :=
  (h.stays hnext hheld).grow (World.le_allocate h.made W.store.next) h.root
    (h.good.allocate h.made) (Nat.le_of_eq (by rw [hhost]; rfl))

theorem Linked.makes (h : Linked final W m) (hnext : Next m m')
    (hheld : Holding (behind m i) (xs ++ [v]) m') (hhost : m'.host = m.host.used)
    (hrelated : v.Related final (W.allocate m.host.made) w) :
    Gives final W m xs (m.frame.ip + i.size) w (W.allocate m.host.made) m' :=
  ⟨h.allocate hnext hheld hhost, World.le_allocate h.made _, v, hrelated, hheld.stands⟩

/-- An array of the topmost values. -/
theorem outcome_array (hlinked : Linked final W m)
    (hfetch : m.frame.routine.code.fetch m.frame.ip = .instruction (.array vs.length))
    (hslots : m.slots = xs ++ vs) (h : RelatedAll final W vs ws) :
    Outcome k (fun _ => Eval.make fun stamp => .array stamp ws) W m
      (Gives final W m xs (m.frame.ip + 3)) := by
  refine .fetched hfetch ((hlinked.holding hslots _).gather (fun vs stamp => .array stamp vs)
    rfl fails_stackOverflow ?_)
  intro m' hm' hhost hnext
  have hle := World.le_allocate hlinked.made 0
  refine .done (W.allocate m.host.made) (Eval.settles_of_eq fun _ => rfl)
    (hlinked.makes hnext hm' hhost ?_)
  exact related_array (.inr ⟨rfl, rfl⟩) (h.mono hle.toExt)

/-- A hash of the topmost values.  The evaluator has looked at the keys one by one; the machine
looks at them now. -/
theorem outcome_hash {call : Nat → Eval.Caller} {env : Nat} {pairs : List (Expr × Expr)}
    (hlinked : Linked final W₁ m)
    (hfetch : m.frame.routine.code.fetch m.frame.ip = .instruction (.hash vs.length))
    (hslots : m.slots = xs ++ vs) (h : RelatedAll final W₁ vs ws)
    (hsettles : Eval.Settles k (fun d => Eval.exprsOnto (call d) env [] (Eval.flatten pairs))
      W.store ws W₁.store) :
    Outcome k (fun d => Eval.entriesOnto (call d) env [] pairs >>= fun entries =>
        Eval.make fun stamp => .hash stamp (Value.entriesOf entries)) W m
      (Gives final W₁ m xs (m.frame.ip + 3)) := by
  have hheld := hlinked.holding hslots (.hash vs.length)
  refine .fetched hfetch (ensures_bind (hheld.topmost rfl (ensures_bind ?_)))
  rcases related_pairsOf h with ⟨ps, qs, hps, hqs, hall⟩ | ⟨e, e', he, he'⟩
  · rw [hps]
    refine ensures_pure (ensures_bind (hheld.drop rfl fun m₂ h₂ hhost₂ => ?_))
    refine ensures_bind (ensures_make ((h₂.withHost (Nat.le_succ _)).push fails_stackOverflow ?_))
    intro m' hm' hhost _ hnext
    rw [hhost₂] at hm' hhost
    have hle := World.le_allocate hlinked.made 0
    refine .done (W₁.allocate m.host.made)
      ((hsettles.entries hqs).bind (Eval.settles_of_eq fun _ => rfl))
      (hlinked.makes hnext hm' hhost ?_)
    refine related_hash (.inr ⟨rfl, rfl⟩) (related_entriesOf (hall.imp fun _ _ hxy => ?_))
    exact ⟨hxy.1, hxy.2.mono hle.toExt⟩
  · rw [he]
    exact ensures_fail (fails_of_never (hsettles.entries_never he').bind _)

/-! ## Functions -/

/-- The machine has come to the position `ip` with the value of an expression that may be about to
be bound to a name.  In every later world in which that name stands for the result, the value is
related to it. -/
structure GivesNamed (final : Stage) (name : Option String) (env : Nat) (W : World) (m : Machine)
    (ip : Nat) (w : Value) (W' : World) (m' : Machine) : Prop where
  linked : Linked final W' m'
  le : W.Le W.store.next W'
  value : ∃ v, (∀ {W''}, W'.Ext W'' → (∀ f, name = some f → W''.store.get? env f = some w) →
    v.Related final W'' w) ∧ m.Stands ip (m.slots ++ [v]) m'

theorem Gives.named {name : Option String} {env : Nat} (h : Gives final W m m.slots ip w W' m') :
    GivesNamed final name env W m ip w W' m' := by
  obtain ⟨v, hrelated, hstands⟩ := h.value
  exact ⟨h.linked, h.le, v, fun hext _ => hrelated.mono hext, hstands⟩

theorem GivesNamed.unnamed {env : Nat} (h : GivesNamed final none env W m ip w W' m') :
    Gives final W m m.slots ip w W' m' := by
  obtain ⟨v, hrelated, hstands⟩ := h.value
  exact ⟨h.linked, h.le, v, hrelated (.refl W') nofun, hstands⟩

section Function

variable {s s' : Stage} {captures : List Symbol} {env p : Nat} {name : Option String}
  {parameters : List String} {body : List Stmt} {is : List Instruction}

/-- A function literal where it is compiled. -/
theorem Runs.compiled (h : Runs final k W s captures env m)
    (hbody : StmtsCode (s.enter name parameters) 0 body is s')
    (hlocals : s'.tables.inner.definitions ≤ 255) (hcaptures : s'.tables.inner.captures.size ≤ 255)
    (hregular : Program.isRegular true true body = true)
    (hbelow : (s'.leave is parameters.length).Below final captures) :
    FunctionLiteral.Compiled final s.tables.outermost s'.captures
      (s'.routine is parameters.length) ⟨name, parameters, body⟩ := by
  refine @FunctionLiteral.Compiled.intro final s s' ⟨name, parameters, body⟩ is h.sound hbody
    hlocals hcaptures ⟨?_, fun hget => h.names ?_⟩ hregular
  · refine List.IsPrefix.trans ?_ hbelow.constants
    unfold Stage.leave
    rw [Array.toList_push]
    exact List.prefix_append _ _
  · have houtermost := (hbody.widens hregular).outermost (.inr (List.cons_ne_nil _ _))
    have henter : (s.enter name parameters).tables.outermost = s.tables.outermost :=
      Chain.outermost_enter ..
    rw [← henter, ← houtermost]
    exact hget

/-- A function literal: the machine copies what the function captures, the evaluator keeps the
environment. -/
theorem outcome_function (hbody : StmtsCode (s.enter name parameters) 0 body is s')
    (hlocals : s'.tables.inner.definitions ≤ 255) (hparameters : parameters.length ≤ 255)
    (hcaptures : s'.tables.inner.captures.size ≤ 255) (hpool : s'.constants.size ≤ 65535)
    (hregular : Program.isRegular true true body = true)
    (hsite : Site final k W s (s'.leave is parameters.length) captures env m p
      (s'.captures.map Symbol.load ++
        [.closure s'.constants.size s'.tables.inner.captures.size]))
    (howns : W.Owns env (parameters ++ Program.binders body)) :
    Outcome k (fun _ => Eval.make fun stamp => .function stamp ⟨name, parameters, body⟩ env) W m
      (GivesNamed final name env W m (p + extent (s'.captures.map Symbol.load ++
        [.closure s'.constants.size s'.tables.inner.captures.size]))) := by
  have hs := hsite.runs.sound
  have hcode : ExprCode s p (.function name parameters body) _ _ :=
    .function hbody hlocals hparameters hcaptures hpool
  have hliteral : (Expr.function name parameters body).isRegular name false = true := by
    simp [Expr.isRegular, hregular]
  have hruns := hsite.runs.widen (hcode.widens hliteral) (hcode.reaches hs).sound
  have hreaches := hbody.reaches (hs.enter name parameters)
  -- what the function captures can be loaded here
  have hloads := outcome_loads s'.captures hruns hsite.linked hsite.below.captures
    (hsite.ip ▸ (shows_append.1 hsite.code).1)
    fun c hc => hreaches.sound.tables.get?_capture hreaches.grows.tables c hc
  refine hloads.bind (f := fun _ _ => Eval.make fun stamp =>
    .function stamp ⟨name, parameters, body⟩ env) ?_
  rintro _ _ m₁ ⟨rfl, hlinked₁, vs, ws, hall, hws, hstands₁⟩
  rw [hsite.ip] at hstands₁
  have hlength : vs.length = s'.tables.inner.captures.size := by
    have hlength := congrArg List.length hws
    rw [List.length_map, List.length_map] at hlength
    rw [hall.length_eq, ← hlength, Stage.captures, Array.length_toList]
  have hconstant : m₁.constants[s'.constants.size]? =
      some (.routine (.constant s'.constants.size) (s'.routine is parameters.length)) := by
    rw [hlinked₁.constants]
    exact getElem?_of_prefix hsite.below.constants Array.getElem?_push_size
  refine .fetched (hsite.fetch hstands₁) (ensures_bind (ensures_get ?_))
  rw [show (behind m₁ _).constants[s'.constants.size]? = _ from hconstant]
  refine (hlinked₁.holding hstands₁.slots _).gather
    (fun free stamp => .closure stamp (s'.routine is parameters.length) free) hlength
    fails_stackOverflow fun m' hm' hhost hnext => ?_
  have hle := World.le_allocate hlinked₁.made W.store.next
  refine .done (W.allocate m₁.host.made) (Eval.settles_of_eq fun _ => rfl)
    ⟨hlinked₁.allocate hnext hm' hhost, hle,
      .closure m₁.host.stamp (s'.routine is parameters.length) vs, fun {W''} hext hself => ?_, ?_⟩
  · have hext' := hle.toExt.trans hext
    obtain ⟨hlength, hall⟩ := forall₂_iff_getElem?.1 (hall.mono hext')
    refine .closure (hext.pairs (.inr ⟨rfl, rfl⟩)) (hsite.runs.compiled hbody hlocals hcaptures
      hregular hsite.below) (Nat.lt_of_lt_of_le hsite.runs.inside hext'.next)
      (howns.mono hext' hsite.runs.inside)
      (fun x hx => hsite.runs.unhidden x ((hext'.scope hsite.runs.inside).1 hx)) hself ?_
      (hext'.map_get? hws) hlength hall
    intro name symbol hget hplace
    obtain ⟨v, hv, hv₀⟩ := hsite.runs.globals hget hplace
    exact ⟨v, hext'.get? hv, hext'.get? hv₀⟩
  · have hstands := hstands₁.trans hm'.stands
    rw [hstands₁.ip_eq] at hstands
    rw [extent_append, extent_cons, extent_nil, Nat.add_zero, ← Nat.add_assoc]
    exact hstands

end Function

end Scriptlet
