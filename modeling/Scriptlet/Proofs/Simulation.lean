import Scriptlet.Proofs.Blocks
import Scriptlet.Proofs.OperandOrder

/-!
# Compiled code beside evaluation

The comparison of both engines for whole trees, by induction over the derivation of their code.
Every rule for the code of a tree is a case of its own: the comparisons of the parts come from the
induction, and the last instruction is one of the pieces of the modules before.

Calls are not part of the induction, since the body of the function that is called is not part of
the tree.  `CallsAgree` is what the trees need to know about them.
-/

namespace Scriptlet

open Code Machine Exec Value

/-- Calls with at most `k` more calls nested in them come to related values. -/
def CallsAgree (final : Stage) (k : Nat) : Prop :=
  ∀ {W m xs v w vs ws}, Linked final W m → maxFrames ≤ m.depth + k →
    m.frame.routine.code.fetch m.frame.ip = .instruction (.call vs.length) →
    m.slots = xs ++ v :: vs → v.Related final W w → RelatedAll final W vs ws →
    Outcome k (fun d => Eval.apply d w ws) W m (Gives final W m xs (m.frame.ip + 2))

variable {final s s' s₁ s₂ : Stage} {k n env p : Nat} {W W' W₁ : World} {m m₁ m' : Machine}
  {v w : Value} {captures : List Symbol} {is js : List Instruction} {i : Instruction}
  {name : Option String} {first : Stmt} {rest body : Program} {mayBind mayReturn : Bool}

/-! ## Sites -/

namespace Site

/-- The same site in another world. -/
theorem within (h : Site final k W s s' captures env m p is) (hext : W.Ext W')
    (hlinked : Linked final W' m) : Site final k W' s s' captures env m p is := by
  have hstands : m.Stands m.frame.ip (m.slots ++ []) m := ⟨(List.append_nil _).symm, rfl, rfl⟩
  exact { h with runs := h.runs.mono hext hstands, linked := hlinked }

/-- The code in front of the last instruction. -/
theorem front (h : Site final k W s s' captures env m p (is ++ js)) :
    Site final k W s s' captures env m p is :=
  { h with code := (shows_append.1 h.code).1 }

/-- Code that a jump has led to, with nothing new on the stack. -/
theorem branch {q : Nat} (h : Site final k W s s' captures env m p is)
    (hlinked : Linked final W₁ m₁) (hext : W.Ext W₁) (hstands : m.Stands q m.slots m₁)
    (hwidens : s.tables.Widens false s₁.tables) (hsound : s₁.Sound) (hgrows : s₂.Grows s')
    (hcode : m.frame.routine.code.Shows q js) :
    Site final k W₁ s₁ s₂ captures env m₁ q js := by
  have hstands' : m.Stands q (m.slots ++ []) m₁ := by
    rw [List.append_nil]
    exact hstands
  rw [← hstands.routine_eq] at hcode
  exact
    { runs := (h.runs.mono hext hstands').widen hwidens hsound
      linked := hlinked
      code := hcode
      ip := hstands.ip_eq
      below := h.below.of_grows hgrows }

/-- The names that the table of the program has known at a site, it knows at the end. -/
theorem keeps (h : Site final k W s s' captures env m p is)
    (hwidens : s.tables.Widens false s₁.tables) :
    s₁.tables.outermost.Keeps final.tables.outermost := by
  rw [hwidens.outermost (.inl rfl)]
  exact h.runs.names

end Site

/-- Where nothing may be bound, no names are going to be bound. -/
theorem fresh_of_owns (hregular : Program.isRegular false mayReturn body = true)
    (howns : W.Owns env (Program.binders body)) : Fresh W s env body := by
  have hlets := Program.lets_eq_nil hregular
  have hnested := howns.perm (Program.binders_perm body)
  rw [hlets] at hnested
  refine ⟨?_, ?_, hnested, fun houter => ⟨houter, ?_, ?_⟩⟩ <;> rw [hlets]
  · nofun
  · exact .nil
  · exact .nil
  · nofun

/-! ## Literals and names -/

/-- A constant that the evaluator makes in its own way. -/
theorem Site.outcome_constant {x : Nat → Eval Value}
    (h : Site final k W s (s.push v) captures env m p [.constant s.constants.size])
    (hsettles : Eval.Settles k x W.store w W'.store) (hle : W.Le W.store.next W') (hgood : W'.Good)
    (hmade : W'.made ≤ m.host.made) (hrelated : v.Related final W' w) :
    Outcome k x W m (Gives final W m m.slots (p + extent [.constant s.constants.size])) := by
  have hconstant : m.constants[s.constants.size]? = some v := by
    rw [h.linked.constants]
    exact getElem?_of_prefix h.below.constants Array.getElem?_push_size
  have hexecute : ∀ i, execute (.constant s.constants.size) (behind m i) =
      Exec.push v (behind m i) := by
    intro i
    refine (bind_of_ok (get_apply _)).trans ?_
    rw [show (behind m i).constants[s.constants.size]? = some v from hconstant]
  have hpush := outcome_push h.linked (h.ip ▸ h.code.1) (hexecute _) hsettles hle hgood hmade
    hrelated
  rw [h.ip] at hpush
  exact hpush

theorem Site.outcome_identifier {x : String} {symbol : Symbol} {tables : Chain}
    (h : Site final k W s { s with tables := tables } captures env m p [symbol.load])
    (hresolve : s.tables.resolve x = (some symbol, tables)) :
    Outcome k (fun _ => Eval.lookup env x) W m
      (Gives final W m m.slots (p + extent [symbol.load])) := by
  have hcode : ExprCode s p (.identifier x) _ _ := .identifier hresolve
  have hregular : (Expr.identifier x).isRegular none false = true := rfl
  have hsound := h.runs.sound
  have hresolved := Chain.resolve_sound hsound.tables hresolve
  have hruns := h.runs.widen (hcode.widens hregular) (hcode.reaches hsound).sound
  obtain ⟨v, w, hexecute, hlookup, hrelated⟩ :=
    hruns.load h.linked h.below.captures (hresolved.holds rfl)
  have hpush := outcome_push_pure (k := k) h.linked (h.ip ▸ h.code.1) (hexecute _)
    (fun _ => hlookup) hrelated
  rw [h.ip] at hpush
  exact hpush

/-! ## Operators and conditionals

The comparisons of the operands are hypotheses here; they come from the induction below. -/

section Composite

variable {x y z : Nat → Eval Value} {q r : Nat}

theorem Site.outcome_none {call : Nat → Eval.Caller} {acc : List Value}
    (h : Site final k W s s' captures env m p []) :
    Outcome k (fun d => Eval.exprsOnto (call d) env acc []) W m
      (GivesAll final W m (p + extent []) acc 0) := by
  have hstands : m.Stands (p + extent []) (m.slots ++ []) m := by
    refine ⟨(List.append_nil _).symm, ?_, rfl⟩
    rw [extent_nil, Nat.add_zero, ← h.ip]
  exact .done W (Eval.settles_of_eq fun _ => rfl)
    { linked := h.linked
      le := .refl _ W
      values := ⟨[], [], (List.append_nil _).symm, rfl, .nil, hstands⟩ }

theorem Site.outcome_one {f : Value → Nat → Eval Value}
    (h : Site final k W s s' captures env m p (is ++ [i]))
    (hx : Outcome k x W m (Gives final W m m.slots (p + extent is)))
    (hi : ∀ {W₁ m₁ v w}, Linked final W₁ m₁ →
      m₁.frame.routine.code.fetch m₁.frame.ip = .instruction i → m₁.slots = m.slots ++ [v] →
      v.Related final W₁ w →
      Outcome k (f w) W₁ m₁ (Gives final W₁ m₁ m.slots (m₁.frame.ip + i.size))) :
    Outcome k (fun d => x d >>= fun w => f w d) W m
      (Gives final W m m.slots (p + extent (is ++ [i]))) := by
  refine hx.bind fun w W₁ m₁ h₁ => ?_
  obtain ⟨v, hrelated, hstands⟩ := h₁.value
  refine (hi h₁.linked (h.fetch hstands) hstands.slots hrelated).mono fun w' W' m' hgives => ?_
  rw [hstands.ip_eq] at hgives
  rw [extent_append, extent_cons, extent_nil, Nat.add_zero, ← Nat.add_assoc]
  exact hgives.after h₁.le hstands

theorem Site.outcome_both {f : Value → Value → Nat → Eval Value}
    (h : Site final k W s s' captures env m p (is ++ js ++ [i]))
    (hx : Outcome k x W m (Gives final W m m.slots (p + extent is)))
    (hy : ∀ {W₁ m₁ v}, W.Le W.store.next W₁ → Linked final W₁ m₁ →
      m.Stands (p + extent is) (m.slots ++ [v]) m₁ →
      Outcome k y W₁ m₁ (Gives final W₁ m₁ m₁.slots (p + extent is + extent js)))
    (hi : ∀ {W₂ m₂ v₁ v₂ w₁ w₂}, Linked final W₂ m₂ →
      m₂.frame.routine.code.fetch m₂.frame.ip = .instruction i →
      m₂.slots = m.slots ++ [v₁] ++ [v₂] → v₁.Related final W₂ w₁ → v₂.Related final W₂ w₂ →
      Outcome k (f w₁ w₂) W₂ m₂ (Gives final W₂ m₂ m.slots (m₂.frame.ip + i.size))) :
    Outcome k (fun d => x d >>= fun a => y d >>= fun b => f a b d) W m
      (Gives final W m m.slots (p + extent (is ++ js ++ [i]))) := by
  refine hx.bind fun w₁ W₁ m₁ h₁ => ?_
  obtain ⟨v₁, hrelated₁, hstands₁⟩ := h₁.value
  refine (hy h₁.le h₁.linked hstands₁).bind fun w₂ W₂ m₂ h₂ => ?_
  obtain ⟨v₂, hrelated₂, hstands₂⟩ := h₂.value
  rw [hstands₁.slots] at hstands₂
  have hstands := hstands₁.trans hstands₂
  rw [Nat.add_assoc, ← extent_append] at hstands
  refine (hi h₂.linked (h.fetch hstands) hstands.slots (hrelated₁.mono h₂.le.toExt)
    hrelated₂).mono fun w' W' m' hgives => ?_
  rw [hstands.ip_eq] at hgives
  rw [extent_append (is ++ js), extent_cons, extent_nil, Nat.add_zero, ← Nat.add_assoc]
  exact hgives.after (h₁.le.trans h₂.le h₁.le.next) hstands

/-- The operator `<`, of which the machine takes the right operand first. -/
theorem Site.outcome_swapped
    (h : Site final k W s s' captures env m p (is ++ js ++ [.greaterThan]))
    (hoperands : Operands final k (p + extent is) (p + extent is + extent js) W m x y) :
    Outcome k (fun d => x d >>= fun a => y d >>= fun b => Eval.binary .lessThan a b) W m
      (Gives final W m m.slots (p + extent (is ++ js ++ [.greaterThan]))) := by
  suffices hpair : Outcome k (fun d => (x d >>= fun a => y d >>= fun b => pure (a, b)) >>=
      fun ab => Eval.binary .lessThan ab.1 ab.2) W m
      (Gives final W m m.slots (p + extent (is ++ js ++ [.greaterThan]))) by
    simpa only [bind_assoc, pure_bind] using hpair
  refine hoperands.outcome.bind ?_
  rintro ⟨w₁, w₂⟩ W' m' h'
  obtain ⟨v₁, v₂, hrelated₁, hrelated₂, hstands⟩ := h'.values
  rw [Nat.add_assoc, ← extent_append] at hstands
  refine (outcome_lessThan h'.linked (h.fetch hstands) hstands.slots hrelated₁ hrelated₂).mono
    fun w'' W'' m'' hgives => ?_
  rw [hstands.ip_eq] at hgives
  rw [extent_append (is ++ js), extent_cons, extent_nil, Nat.add_zero, ← Nat.add_assoc]
  exact hgives.after h'.le hstands

theorem Comes.after {ip ip' : Nat} (h : Comes final none env mayReturn W₁ m₁ ip w W' m')
    (hle : W.Le W.store.next W₁) (hstands : m.Stands ip' m.slots m₁) :
    Comes final none env mayReturn W m ip w W' m' := by
  rcases h with h | ⟨hmay, h⟩
  · have hgives := h.unnamed
    rw [hstands.slots] at hgives
    exact .inl (hgives.after hle hstands).named
  · exact .inr ⟨hmay, (h.mono hle.next).after hle (.refl false m) hstands⟩

theorem Comes.named {ip : Nat} (h : Comes final none env mayReturn W m ip w W' m') :
    Comes final name env mayReturn W m ip w W' m' := h.imp_left fun h => h.unnamed.named

/-- A conditional.  The jump behind the consequence leads to where the alternative ends. -/
theorem Site.outcome_conditional {ks : List Instruction}
    (h : Site final k W s s' captures env m p
      (is ++ .jumpNotTruthy q :: (branchCode js ++ .jump r :: branchCode ks)))
    (hq : q = p + extent is + 3 + extent (branchCode js) + 3) (hr : r = q + extent (branchCode ks))
    (hx : Outcome k x W m (Gives final W m m.slots (p + extent is)))
    (hy : ∀ {W₁ m₁}, W.Le W.store.next W₁ → Linked final W₁ m₁ →
      m.Stands (p + extent is + 3) m.slots m₁ →
      Outcome k y W₁ m₁ (Ends final W₁.store.next false mayReturn W₁ m₁
        (p + extent is + 3 + extent (valueCode js)) js.getLast?))
    (hz : ∀ {W₁ m₁}, W.Le W.store.next W₁ → Linked final W₁ m₁ → m.Stands q m.slots m₁ →
      Outcome k z W₁ m₁ (Ends final W₁.store.next false mayReturn W₁ m₁
        (q + extent (valueCode ks)) ks.getLast?)) :
    Outcome k (fun d => x d >>= fun w => if w.isTruthy then y d else z d) W m
      (Comes final name env mayReturn W m
        (p + extent (is ++ .jumpNotTruthy q :: (branchCode js ++ .jump r :: branchCode ks)))) := by
  obtain ⟨-, hcode⟩ := shows_append.1 h.code
  obtain ⟨-, hcode⟩ := hcode
  obtain ⟨hconsequence, hjump, halternative⟩ := shows_append.1 hcode
  have hend : p + extent (is ++ .jumpNotTruthy q :: (branchCode js ++ .jump r :: branchCode ks)) =
      r := by
    simp only [extent_append, extent_cons, Instruction.size_jump, Instruction.size_jumpNotTruthy]
    omega
  rw [hend]
  suffices hplain : Outcome k (fun d => x d >>= fun w => if w.isTruthy then y d else z d) W m
      (Comes final none env mayReturn W m r) from hplain.mono fun _ _ _ h => h.named
  refine hx.bind fun w W₁ m₁ h₁ => ?_
  obtain ⟨v, hrelated, hstands₁⟩ := h₁.value
  refine outcome_jumpNotTruthy h₁.linked (h.fetch hstands₁) hstands₁.slots
    fun m₂ hlinked₂ hstands₂ => ?_
  have hstands₂ := hstands₁.trans hstands₂
  rw [hrelated.isTruthy_eq, hstands₁.ip_eq] at hstands₂
  cases hw : w.isTruthy with
  | true =>
    rw [hw] at hstands₂
    simp only [if_true] at hstands₂ ⊢
    refine (hy h₁.le hlinked₂ hstands₂).finish fun w' W' m' hends => ?_
    have hcode₂ := hstands₂.routine_eq ▸ hconsequence
    refine (hends.close hcode₂ env).finish fun w'' W'' m'' hcomes => ?_
    rcases hcomes.after h₁.le hstands₂ with hgives | hreturns
    · obtain ⟨v', hrelated', hstands'⟩ := hgives.unnamed.value
      have hfetch : m''.frame.routine.code.fetch m''.frame.ip = .instruction (.jump r) := by
        rw [hstands'.routine_eq, hstands'.ip_eq]
        exact hjump
      refine outcome_jump hgives.linked hfetch fun m₃ hlinked₃ hstands₃ => ?_
      have hstands₃ := hstands'.trans hstands₃
      rw [hstands'.slots] at hstands₃
      have hgives₃ : Gives final W m m.slots r w'' W'' m₃ :=
        ⟨hlinked₃, hgives.le, v', hrelated', hstands₃⟩
      exact .done W'' (Eval.settles_of_eq fun _ => rfl) (.inl hgives₃.named)
    · exact .done W'' (Eval.settles_of_eq fun _ => rfl) (.inr hreturns)
  | false =>
    rw [hw] at hstands₂
    simp only [Bool.false_eq_true, if_false] at hstands₂ ⊢
    refine (hz h₁.le hlinked₂ hstands₂).finish fun w' W' m' hends => ?_
    have hcode₂ : m₂.frame.routine.code.Shows q (branchCode ks) := by
      rw [hstands₂.routine_eq, hq]
      simpa [Nat.add_assoc] using halternative
    refine (hends.close hcode₂ env).mono fun w'' W'' m'' hcomes => ?_
    rw [← hr] at hcomes
    exact hcomes.after h₁.le hstands₂

end Composite

/-! ## Statements -/

theorem Eval.goOn_nil {call : Eval.Caller} (w : Value) : Eval.goOn call env [] w = pure w := by
  cases w <;> rfl

/-- A statement with a `pop` behind it is an expression, and binds nothing. -/
theorem StmtCode.widens_of_pop (h : StmtCode s p first is s₁)
    (hregular : first.isRegular mayBind mayReturn = true) (hlast : is.getLast? = some .pop) :
    s.tables.Widens false s₁.tables := by
  cases h with
  | bind _ _ _ =>
    rw [List.getLast?_concat] at hlast
    exact absurd (Option.some.inj hlast) (Symbol.store_ne_pop _)
  | ret _ =>
    rw [List.getLast?_concat] at hlast
    cases hlast
  | eval hvalue => exact hvalue.widens hregular

/-- A `let`, once its value is there. -/
theorem Site.outcome_let {x : String} {value : Expr} {symbol : Symbol}
    (h : Site final k W s (s'.define x) captures env m p (is ++ [symbol.store]))
    (hvalue : ExprCode s p value is s') (hsymbol : symbol = s'.tables.inner.nextSymbol x)
    (hlimit : symbol.index ≤ symbol.slots.limit)
    (hregular : value.isRegular (some x) false = true)
    (hfresh : Fresh W s env (.bind x value :: rest)) (hn : n ≤ W.store.next) (henv : n ≤ env)
    (hnames : (s'.define x).tables.outermost.Keeps final.tables.outermost)
    (hgives : GivesNamed final (some x) env W m (p + extent is) w W₁ m₁) :
    Outcome k (fun _ => Eval.bind env x w >>= fun _ => pure .null) W₁ m₁
      (Passes final k (s'.define x) captures env n rest true mayReturn W m
        (p + extent (is ++ [symbol.store])) (some symbol.store)) := by
  have hcode : StmtCode s p (.bind x value) _ _ := .bind hvalue hsymbol hlimit
  have hinside := h.runs.inside
  have hruns := h.runs.widen (hvalue.widens hregular) (hvalue.reaches h.runs.sound).sound
  obtain ⟨hscope, hunbound⟩ := hfresh.lets x (List.mem_cons_self ..)
  obtain ⟨v, hrelated, hstands⟩ := hgives.value
  have hstores : Stores final k s' captures env x (p + extent is) W m v w W₁ m₁ :=
    { runs := hruns
      linked := hgives.linked
      le := hgives.le
      stands := hstands
      scope := (hgives.le.scope hinside).2 hscope
      unbound := (hgives.le.same x hinside).trans hunbound
      sound := (hcode.reaches h.runs.sound).sound
      names := hnames
      related := fun hext hget => hrelated hext fun f hf => by cases hf; exact hget }
  refine (hstores.outcome hsymbol hlimit (h.fetch hstands)).bind fun _ W₂ m₂ hbinds => ?_
  obtain ⟨xs, hkept, hstands₂⟩ := hbinds.slots
  refine .done W₂ (Eval.settles_of_eq fun _ => rfl) (.bound ?_ ?_ hbinds.linked
    ((hgives.le.mono hn).trans hbinds.le henv) hbinds.runs ?_ hkept ?_)
  · exact fun heq => symbol.store_ne_pop (Option.some.inj heq)
  · intro heq
    have hstore := Option.some.inj heq
    unfold Symbol.store at hstore
    split at hstore <;> cases hstore
  · have hregular' : (Stmt.bind x value).isRegular true mayReturn = true := hregular
    obtain ⟨globals, rfl⟩ := hbinds.world
    exact (hfresh.after hcode hregular' hgives.le hinside).bound (List.nodup_cons.1 hfresh.nodup).1
  · rw [extent_append, extent_cons, extent_nil, Nat.add_zero, ← Nat.add_assoc]
    exact hstands₂

/-- A statement with others behind it.  Unless it returns, the others find the names that they are
going to bind as they should be. -/
theorem Site.outcome_cons (h : Site final k W s s' captures env m p (valueCode (is ++ js)))
    (hfirst : StmtCode s p first is s₁) (hrest : StmtsCode s₁ (p + extent is) rest js s')
    (hf : first.isRegular mayBind mayReturn = true)
    (hr : Program.isRegular mayBind mayReturn rest = true) (hfresh : Fresh W s env (first :: rest))
    (hn : n ≤ W.store.next) (hnames : s'.tables.outermost.Keeps final.tables.outermost)
    (hstmt : Site final k W s s₁ captures env m p (valueCode is) →
      s₁.tables.outermost.Keeps final.tables.outermost →
      Outcome k (fun d => Eval.stmt (Eval.apply d) env first) W m
        (Passes final k s₁ captures env n rest mayBind mayReturn W m (p + extent (valueCode is))
          is.getLast?))
    (hblock : ∀ {W' m'}, Site final k W' s₁ s' captures env m' (p + extent is) (valueCode js) →
      Fresh W' s₁ env rest → n ≤ W'.store.next →
      Outcome k (fun d => Eval.block (Eval.apply d) env .null rest) W' m'
        (Ends final n mayBind mayReturn W' m' (p + extent is + extent (valueCode js))
          js.getLast?)) :
    Outcome k (fun d => Eval.block (Eval.apply d) env .null (first :: rest)) W m
      (Ends final n mayBind mayReturn W m (p + extent (valueCode (is ++ js)))
        (is ++ js).getLast?) := by
  have hinside := h.runs.inside
  have hreaches := hfirst.reaches h.runs.sound
  have hafter : ∀ {W'}, W.Le W.store.next W' → Fresh W' s₁ env rest := fun hle =>
    hfresh.after hfirst hf hle hinside
  have hnames₁ : s₁.tables.outermost.Keeps final.tables.outermost := fun hget =>
    hnames (hrest.keeps_outermost hr (hafter (.refl _ W)).unbound hget)
  simp only [Eval.block_cons]
  cases rest with
  | nil =>
    cases hrest
    rw [List.append_nil] at h ⊢
    refine (hstmt h hnames₁).bind fun w W' m' hpasses => ?_
    simp only [Eval.goOn_nil]
    exact .done W' (Eval.settles_of_eq fun _ => rfl) (hpasses.ends hn)
  | cons second rest =>
    have hne := hrest.ne_nil
    rw [valueCode_append is hne] at h ⊢
    rw [List.getLast?_append_of_ne_nil is hne, extent_append, ← Nat.add_assoc]
    obtain ⟨hcode, hcode'⟩ := shows_append.1 h.code
    have hsite : Site final k W s s₁ captures env m p (valueCode is) :=
      { h with
        code := hcode.valueCode
        below := h.below.of_grows (hrest.reaches hreaches.sound).grows }
    -- the statements behind the first one
    have hgo : ∀ {w W' m' xs}, (∀ w', w ≠ .returned w') → W.Le n W' → Linked final W' m' →
        Runs final k W' s₁ captures env m' → Fresh W' s₁ env (second :: rest) →
        Kept mayBind m xs → m.Stands (p + extent is) xs m' →
        Outcome k (fun d => Eval.goOn (Eval.apply d) env (second :: rest) w) W' m'
          (Ends final n mayBind mayReturn W m (p + extent is + extent (valueCode js))
            js.getLast?) := by
      intro w W' m' xs hw hle hlinked hruns hfresh' hkept hstands
      simp only [Eval.goOn_of_ne hw, Eval.block_of_ne_nil (List.cons_ne_nil second rest) w]
      have hsite' : Site final k W' s₁ s' captures env m' (p + extent is) (valueCode js) :=
        { runs := hruns
          linked := hlinked
          code := hstands.routine_eq ▸ hcode'
          ip := hstands.ip_eq
          below := h.below }
      exact (hblock hsite' hfresh' (Nat.le_trans hn hle.next)).mono
        fun _ _ _ hends => hends.after hle hkept hstands
    refine (hstmt hsite hnames₁).bind fun w W' m' hpasses => ?_
    cases hpasses with
    | value hlast hgives =>
      obtain ⟨v, hrelated, hstands⟩ := hgives.value
      have hwidens := hfirst.widens_of_pop hf hlast
      obtain ⟨is, rfl⟩ := List.getLast?_eq_some_iff.1 hlast
      rw [valueCode_concat_pop] at hstands
      have hfetch : m'.frame.routine.code.fetch m'.frame.ip = .instruction .pop := by
        rw [hstands.routine_eq, hstands.ip_eq]
        exact (shows_append.1 hcode).2.1
      refine outcome_pop hgives.linked hfetch hstands.slots fun m₂ hlinked₂ hstands₂ => ?_
      have hstands₂ := hstands.trans hstands₂
      rw [hstands.ip_eq] at hstands₂
      have hsame : m.Stands (p + extent is + 1) (m.slots ++ []) m₂ := by
        rw [List.append_nil]
        exact hstands₂
      refine hgo hrelated.ne_returned (hgives.le.mono hn) hlinked₂
        ((h.runs.mono hgives.le.toExt hsame).widen hwidens hreaches.sound) (hafter hgives.le)
        (.refl mayBind m) ?_
      rw [extent_append, ← Nat.add_assoc]
      exact hstands₂
    | bound hlast _ hlinked hle hruns hfresh' hkept hstands =>
      rw [valueCode_of_ne hlast] at hstands
      exact hgo nofun hle hlinked hruns hfresh' hkept hstands
    | returns hmay hreturns =>
      obtain ⟨v, w', xs, ip, rfl, -⟩ := hreturns.value
      exact .done W' (Eval.settles_of_eq fun _ => rfl) (.returns hmay hreturns)

/-! ## All trees -/

mutual

/-- The code of a regular expression does what evaluating it does. -/
theorem ExprCode.outcome (hcalls : CallsAgree final k) {s s' : Stage} {p env : Nat} {e : Expr}
    {is : List Instruction} {name : Option String} {mayReturn : Bool} {W : World}
    {captures : List Symbol} {m : Machine} : ExprCode s p e is s' →
    e.isRegular name mayReturn = true → Site final k W s s' captures env m p is →
    W.Owns env e.binders → Outcome k (fun d => Eval.expr (Eval.apply d) env e) W m
      (Comes final name env mayReturn W m (p + extent is))
  | .identifier hresolve, _, hsite, _ => (hsite.outcome_identifier hresolve).comes
  | .integer _, _, hsite, _ => by
    have hgood := hsite.linked.good
    exact (hsite.outcome_constant (Eval.settles_of_eq fun _ => rfl) (.refl _ W) hgood
      hsite.linked.made (.integer _)).comes
  | @ExprCode.boolean _ _ value, _, hsite, _ => by
    have hpush := outcome_push_pure (k := k) (x := fun _ => pure (.boolean value))
      (v := .boolean value) hsite.linked (hsite.ip ▸ hsite.code.1) (by cases value <;> rfl)
      (fun _ => rfl) (.boolean value)
    rw [hsite.ip] at hpush
    exact hpush.comes
  | @ExprCode.string _ _ contents _, _, hsite, _ => by
    have hused : W.store.host.made ≤ W.store.host.used.made := Nat.le_succ _
    have hle := World.le_withHost hused W.store.next
    have hsettles : Eval.Settles k (fun d => Eval.expr (Eval.apply d) env (.string contents))
        W.store (.string W.store.host.stamp contents) (W.withHost W.store.host.used).store :=
      Eval.settles_of_eq fun _ => rfl
    exact (hsite.outcome_constant hsettles hle (hsite.linked.good.withHost hused)
      hsite.linked.made (.string _ _ contents)).comes
  | .array helements _, hregular, hsite, howns => by
    refine Outcome.comes ((helements.outcome hcalls hregular hsite.front howns).bind ?_)
    intro ws W₁ m₁ h₁
    obtain ⟨vs, ws', rfl, hcount, hall, hstands⟩ := h₁.values
    have hfetch := hsite.fetch hstands
    rw [← hcount] at hfetch
    refine (outcome_array h₁.linked hfetch hstands.slots hall).mono fun w W' m' hgives => ?_
    rw [hstands.ip_eq] at hgives
    rw [extent_append, ← Nat.add_assoc]
    exact hgives.after h₁.le hstands
  | .hash hpairs _, hregular, hsite, howns => by
    refine Outcome.comes ((hpairs.outcome hcalls hregular hsite.front howns).instead
      (fun hnever => hnever.entries.bind) fun ws W₁ m₁ hsettles h₁ => ?_)
    obtain ⟨vs, ws', rfl, hcount, hall, hstands⟩ := h₁.values
    have hfetch := hsite.fetch hstands
    rw [← hcount] at hfetch
    refine (outcome_hash h₁.linked hfetch hstands.slots hall hsettles).mono fun w W' m' hgives => ?_
    rw [hstands.ip_eq] at hgives
    rw [extent_append, ← Nat.add_assoc]
    exact hgives.after h₁.le hstands
  | .unary hoperand hoperator, hregular, hsite, howns =>
    (hsite.outcome_one (hoperand.outcome hcalls hregular hsite.front howns).gives
      fun hlinked hfetch hslots hrelated =>
        outcome_unary hlinked hfetch hoperator hslots hrelated).comes
  | .lessThan hright hleft, hregular, hsite, howns => by
    obtain ⟨hl, hr⟩ := Bool.and_eq_true_iff.1 hregular
    have hinside := hsite.runs.inside
    have hreaches := hright.reaches hsite.runs.sound
    refine (hsite.outcome_swapped ⟨hsite.linked, fun hle hlinked => ?_,
      fun hle hlinked hstands => ?_, fun d => ?_⟩).comes
    · have hsite' := hsite.front.first (hleft.reaches hreaches.sound).grows
      exact (hright.outcome hcalls hr (hsite'.within hle.toExt hlinked)
        (howns.right.mono hle.toExt hinside)).gives
    · exact (hleft.outcome hcalls hl (hsite.front.rest hlinked hle.toExt hstands (hright.widens hr)
        hreaches.sound) (howns.left.mono hle.toExt hinside)).gives
    · exact Eval.expr_spares d _ hl
  | .binary hleft hright hoperator, hregular, hsite, howns => by
    obtain ⟨hl, hr⟩ := Bool.and_eq_true_iff.1 hregular
    have hreaches := hleft.reaches hsite.runs.sound
    have hsite' := hsite.front.first (hright.reaches hreaches.sound).grows
    exact (hsite.outcome_both (hleft.outcome hcalls hl hsite' howns.left).gives
      (fun hle hlinked hstands => (hright.outcome hcalls hr (hsite.front.rest hlinked hle.toExt
        hstands (hleft.widens hl) hreaches.sound)
        (howns.right.mono hle.toExt hsite.runs.inside)).gives)
      fun hlinked hfetch hslots h₁ h₂ => outcome_binary hlinked hfetch hoperator hslots h₁ h₂).comes
  | .conditional hcondition hconsequence halternative hq hr _, hregular, hsite, howns => by
    obtain ⟨hc, hcq, hca⟩ := Expr.isRegular_conditional.1 hregular
    rw [Expr.binders_conditional] at howns
    simp only [Eval.expr_conditional]
    have hinside := hsite.runs.inside
    have hreaches₁ := hcondition.reaches hsite.runs.sound
    have hreaches₂ := hconsequence.reaches hreaches₁.sound
    have hgrows := (halternative.reaches hreaches₂.sound).grows
    have hwidens₁ := hcondition.widens hc
    have hwidens₂ := hwidens₁.trans (hconsequence.widens hcq)
    have hwidens₃ := hwidens₂.trans (halternative.widens hca)
    obtain ⟨-, -, hcode⟩ := shows_append.1 hsite.code
    obtain ⟨hcode₁, -, hcode₂⟩ := shows_append.1 hcode
    refine hsite.outcome_conditional hq hr (hcondition.outcome hcalls hc
      (hsite.first (hreaches₂.grows.trans hgrows)) howns.left.left).gives
      (fun hle hlinked hstands => ?_) fun hle hlinked hstands => ?_
    · refine hconsequence.outcome hcalls hcq (hsite.branch hlinked hle.toExt hstands hwidens₁
        hreaches₁.sound hgrows hcode₁.of_branchCode) (fresh_of_owns hcq
        (howns.left.right.mono hle.toExt hinside)) (Nat.le_refl _) nofun (hsite.keeps hwidens₂)
    · refine halternative.outcome hcalls hca (hsite.branch hlinked hle.toExt hstands hwidens₂
        hreaches₂.sound (.refl _) ?_) (fresh_of_owns hca (howns.right.mono hle.toExt hinside))
        (Nat.le_refl _) nofun (hsite.keeps hwidens₃)
      rw [hq]
      exact hcode₂.of_branchCode
  | .function hbody hlocals hparameters hcaptures hpool, hregular, hsite, howns => by
    obtain ⟨hname, hinner⟩ := Bool.and_eq_true_iff.1 hregular
    obtain rfl := eq_of_beq hname
    exact (outcome_function hbody hlocals hparameters hcaptures hpool hinner hsite howns).mono
      fun _ _ _ hgives => .inl hgives
  | .call hcallee harguments _, hregular, hsite, howns => by
    obtain ⟨hc, ha⟩ := Bool.and_eq_true_iff.1 hregular
    have hreaches := hcallee.reaches hsite.runs.sound
    have hsite' := hsite.front.first (harguments.reaches hreaches.sound).grows
    refine Outcome.comes ((hcallee.outcome hcalls hc hsite' howns.left).gives.bind ?_)
    intro w W₁ m₁ h₁
    obtain ⟨v, hrelated, hstands₁⟩ := h₁.value
    have hsite₁ :=
      hsite.front.rest h₁.linked h₁.le.toExt hstands₁ (hcallee.widens hc) hreaches.sound
    refine (harguments.outcome hcalls ha hsite₁
      (howns.right.mono h₁.le.toExt hsite.runs.inside)).bind fun ws W₂ m₂ h₂ => ?_
    obtain ⟨vs, ws', rfl, hcount, hall, hstands₂⟩ := h₂.values
    rw [hstands₁.slots, List.append_assoc, List.singleton_append] at hstands₂
    have hstands := hstands₁.trans hstands₂
    rw [Nat.add_assoc, ← extent_append] at hstands
    have hfetch := hsite.fetch hstands
    rw [← hcount] at hfetch
    refine (hcalls h₂.linked (hstands.depth_eq ▸ hsite.runs.room) hfetch hstands.slots
      (hrelated.mono h₂.le.toExt) hall).mono fun w' W' m' hgives => ?_
    rw [hstands.ip_eq] at hgives
    rw [extent_append (_ ++ _), ← Nat.add_assoc]
    exact hgives.after (h₁.le.trans h₂.le h₁.le.next) hstands
  | .index hcollection hkey, hregular, hsite, howns => by
    obtain ⟨hc, hk⟩ := Bool.and_eq_true_iff.1 hregular
    have hreaches := hcollection.reaches hsite.runs.sound
    have hsite' := hsite.front.first (hkey.reaches hreaches.sound).grows
    exact (hsite.outcome_both (hcollection.outcome hcalls hc hsite' howns.left).gives
      (fun hle hlinked hstands => (hkey.outcome hcalls hk (hsite.front.rest hlinked hle.toExt
        hstands (hcollection.widens hc) hreaches.sound)
        (howns.right.mono hle.toExt hsite.runs.inside)).gives)
      fun hlinked hfetch hslots h₁ h₂ => outcome_index hlinked hfetch hslots h₁ h₂).comes

theorem ExprsCode.outcome (hcalls : CallsAgree final k) {s s' : Stage} {p env : Nat}
    {es : List Expr} {is : List Instruction} {W : World} {captures : List Symbol} {m : Machine}
    {acc : List Value} : ExprsCode s p es is s' → Expr.areRegular es = true →
    Site final k W s s' captures env m p is → W.Owns env (Expr.bindersOf es) →
    Outcome k (fun d => Eval.exprsOnto (Eval.apply d) env acc es) W m
      (GivesAll final W m (p + extent is) acc es.length)
  | .nil, _, hsite, _ => hsite.outcome_none
  | .cons hfirst hrest, hregular, hsite, howns => by
    obtain ⟨hf, hr⟩ := Bool.and_eq_true_iff.1 hregular
    have hreaches := hfirst.reaches hsite.runs.sound
    have hsite' := hsite.first (hrest.reaches hreaches.sound).grows
    refine (hfirst.outcome hcalls hf hsite' howns.left).gives.bind fun w W₁ m₁ h₁ => ?_
    obtain ⟨v, -, hstands₁⟩ := h₁.value
    have hsite₁ := hsite.rest h₁.linked h₁.le.toExt hstands₁ (hfirst.widens hf) hreaches.sound
    refine (hrest.outcome hcalls hr hsite₁
      (howns.right.mono h₁.le.toExt hsite.runs.inside)).mono fun ws W' m' h₂ => ?_
    rw [extent_append, ← Nat.add_assoc]
    exact h₁.cons h₂

theorem EntriesCode.outcome (hcalls : CallsAgree final k) {s s' : Stage} {p env : Nat}
    {pairs : List (Expr × Expr)} {is : List Instruction} {W : World} {captures : List Symbol}
    {m : Machine} {acc : List Value} : EntriesCode s p pairs is s' →
    Expr.pairsAreRegular pairs = true → Site final k W s s' captures env m p is →
    W.Owns env (Expr.bindersOfPairs pairs) →
    Outcome k (fun d => Eval.exprsOnto (Eval.apply d) env acc (Eval.flatten pairs)) W m
      (GivesAll final W m (p + extent is) acc (2 * pairs.length))
  | .nil, _, hsite, _ => hsite.outcome_none
  | .cons _ hkey hvalue hrest, hregular, hsite, howns => by
    obtain ⟨hboth, hr⟩ := Bool.and_eq_true_iff.1 hregular
    obtain ⟨hk, hv⟩ := Bool.and_eq_true_iff.1 hboth
    have hinside := hsite.runs.inside
    have hreaches₁ := hkey.reaches hsite.runs.sound
    have hreaches₂ := hvalue.reaches hreaches₁.sound
    have hgrows := (hrest.reaches hreaches₂.sound).grows
    rw [List.append_assoc] at hsite
    refine (hkey.outcome hcalls hk (hsite.first (hreaches₂.grows.trans hgrows))
      howns.left.left).gives.bind fun w₁ W₁ m₁ h₁ => ?_
    obtain ⟨v₁, -, hstands₁⟩ := h₁.value
    have hsite₁ := hsite.rest h₁.linked h₁.le.toExt hstands₁ (hkey.widens hk) hreaches₁.sound
    refine (hvalue.outcome hcalls hv (hsite₁.first hgrows)
      (howns.left.right.mono h₁.le.toExt hinside)).gives.bind fun w₂ W₂ m₂ h₂ => ?_
    obtain ⟨v₂, -, hstands₂⟩ := h₂.value
    have hsite₂ := hsite₁.rest h₂.linked h₂.le.toExt hstands₂ (hvalue.widens hv) hreaches₂.sound
    refine (hrest.outcome hcalls hr hsite₂ ((howns.right.mono h₁.le.toExt hinside).mono h₂.le.toExt
      hsite₁.runs.inside)).mono fun ws W' m' h₃ => ?_
    rw [extent_append, extent_append, ← Nat.add_assoc, ← Nat.add_assoc]
    exact h₁.cons (h₂.cons h₃)

theorem StmtCode.outcome (hcalls : CallsAgree final k) {s s₁ : Stage} {p n env : Nat} {first : Stmt}
    {rest : Program} {is : List Instruction} {mayBind mayReturn : Bool} {W : World}
    {captures : List Symbol} {m : Machine} : StmtCode s p first is s₁ →
    first.isRegular mayBind mayReturn = true →
    Site final k W s s₁ captures env m p (valueCode is) → Fresh W s env (first :: rest) →
    n ≤ W.store.next → (mayBind = true → n ≤ env) →
    s₁.tables.outermost.Keeps final.tables.outermost →
    Outcome k (fun d => Eval.stmt (Eval.apply d) env first) W m
      (Passes final k s₁ captures env n rest mayBind mayReturn W m (p + extent (valueCode is))
        is.getLast?)
  | @StmtCode.bind _ s' _ x _ _ symbol hvalue hsymbol hlimit, hregular, hsite, hfresh, hn, hbind,
      hnames => by
    obtain ⟨rfl, hv⟩ := Bool.and_eq_true_iff.1 hregular
    have hs := hsite.runs.sound
    have hlast : ∀ js : List Instruction, (js ++ [symbol.store]).getLast? = some symbol.store :=
      fun _ => List.getLast?_concat
    rw [valueCode_of_ne (by rw [hlast]; exact fun h => symbol.store_ne_pop (Option.some.inj h))]
      at hsite ⊢
    rw [hlast]
    have hgrows : s'.Grows (s'.define x) :=
      ⟨((hvalue.reaches hs).sound.tables.modify_define x).2, List.prefix_refl _⟩
    refine (hvalue.outcome hcalls hv (hsite.first hgrows) hfresh.value).bind fun w W₁ m₁ h₁ => ?_
    rcases h₁ with h₁ | ⟨hmay, -⟩
    · exact hsite.outcome_let hvalue hsymbol hlimit hv hfresh hn (hbind rfl) hnames h₁
    · cases hmay
  | .ret hvalue, hregular, hsite, hfresh, hn, _, _ => by
    obtain ⟨rfl, hv⟩ := Bool.and_eq_true_iff.1 hregular
    rw [valueCode_of_ne (by rw [List.getLast?_concat]; nofun)] at hsite ⊢
    refine (hvalue.outcome hcalls hv hsite.front hfresh.value).gives.bind fun w W₁ m₁ h₁ => ?_
    obtain ⟨v, hrelated, hstands⟩ := h₁.value
    have hfetch := (shows_append.1 hsite.code).2.1
    exact .done W₁ (Eval.settles_of_eq fun _ => rfl) (.returns rfl
      { linked := h₁.linked
        le := h₁.le.mono hn
        value := ⟨v, w, m.slots, _, rfl, hrelated, .refl true m, hstands, hfetch⟩ })
  | .eval hvalue, hregular, hsite, hfresh, hn, _, _ => by
    rw [valueCode_concat_pop] at hsite ⊢
    refine (hvalue.outcome hcalls hregular hsite hfresh.value).mono fun w W' m' h => ?_
    rcases h with h | ⟨hmay, h⟩
    · exact .value List.getLast?_concat h.unnamed
    · exact .returns hmay (h.mono hn)

/-- The code of regular statements does what evaluating them does. -/
theorem StmtsCode.outcome (hcalls : CallsAgree final k) {s s' : Stage} {p n env : Nat}
    {body : Program} {is : List Instruction} {mayBind mayReturn : Bool} {W : World}
    {captures : List Symbol} {m : Machine} : StmtsCode s p body is s' →
    Program.isRegular mayBind mayReturn body = true →
    Site final k W s s' captures env m p (valueCode is) → Fresh W s env body →
    n ≤ W.store.next → (mayBind = true → n ≤ env) →
    s'.tables.outermost.Keeps final.tables.outermost →
    Outcome k (fun d => Eval.block (Eval.apply d) env .null body) W m
      (Ends final n mayBind mayReturn W m (p + extent (valueCode is)) is.getLast?)
  | .nil, _, hsite, _, _, _, _ => by
    have hstands : m.Stands (p + extent []) m.slots m := by
      refine ⟨rfl, ?_, rfl⟩
      rw [extent_nil, Nat.add_zero, ← hsite.ip]
    exact .done W (Eval.settles_of_eq fun _ => rfl)
      (.nothing nofun nofun hsite.linked (.refl n W) (.refl mayBind m) hstands)
  | .cons hfirst hrest, hregular, hsite, hfresh, hn, hbind, hnames => by
    obtain ⟨hf, hr⟩ := Bool.and_eq_true_iff.1 hregular
    exact hsite.outcome_cons hfirst hrest hf hr hfresh hn hnames
      (fun hsite hnames => hfirst.outcome hcalls hf hsite hfresh hn hbind hnames)
      fun hsite hfresh hn => hrest.outcome hcalls hr hsite hfresh hn hbind hnames

end

end Scriptlet
