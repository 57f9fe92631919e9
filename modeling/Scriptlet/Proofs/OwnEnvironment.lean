import Mathlib.Data.Set.Basic
import Scriptlet.Proofs.Environments
import Scriptlet.Proofs.Fragment

/-!
# Evaluation writes its own environment

Environments are shared between closures, callers and calls of the same function, and a `let`
changes them in place.  Yet the only environment that was there before and can be different
afterwards is the one that evaluation takes place in, however it comes out.

* `Store.Grown` compares the stores before and after, where some environments may have been written.
* `Eval.Writes` says of an evaluation that it writes no others, whether it comes to a result or
  stops.  There is one rule for a sequence of evaluations and one for each of their parts.
* `Eval.expr_writes` and the lemmas beside it follow a tree and take what calls write for granted.
  `Eval.apply_writes` is about calls: the body of a function writes the environment of the call,
  which is new, so that a call writes none that was there.

A regular expression writes no environment at all, since only a `let` in a program or a function
body binds anything.  The lemmas about trees say this too.
-/

namespace Scriptlet

namespace Store

/-- Environments were made and identities were used.  The environments that were there before are
the same, except for some that may have been written. -/
structure Grown (own : Set Nat) (σ σ' : Store) : Prop where
  next : σ.next ≤ σ'.next
  made : σ.host.made ≤ σ'.host.made
  same : ∀ i < σ.next, i ∉ own → σ'.environments[i]? = σ.environments[i]?

variable {own own' : Set Nat} {env : Nat} {σ σ' σ'' : Store} {x : String} {v : Value}

theorem Grown.refl (own : Set Nat) (σ : Store) : Grown own σ σ :=
  ⟨Nat.le_refl _, Nat.le_refl _, fun _ _ _ => rfl⟩

theorem Grown.trans (h : Grown own σ σ') (h' : Grown own σ' σ'') : Grown own σ σ'' :=
  ⟨Nat.le_trans h.next h'.next, Nat.le_trans h.made h'.made, fun i hi hown =>
    (h'.same i (Nat.lt_of_lt_of_le hi h.next) hown).trans (h.same i hi hown)⟩

/-- Only environments that were there before count. -/
theorem Grown.mono (h : Grown own σ σ') (hown : ∀ i ∈ own, i < σ.next → i ∈ own') :
    Grown own' σ σ' :=
  ⟨h.next, h.made, fun i hi hi' => h.same i hi fun hmem => hi' (hown i hmem hi)⟩

theorem grown_withHost {host : Host} (hmade : σ.host.made ≤ host.made) :
    Grown own σ { σ with host := host } := ⟨Nat.le_refl _, hmade, fun _ _ _ => rfl⟩

theorem grown_set (henv : env ∈ own) : Grown own σ (σ.set env x v) := by
  refine ⟨Nat.le_of_eq (next_set ..).symm, Nat.le_refl _, fun i _ hi => ?_⟩
  have hne : env ≠ i := by
    rintro rfl
    exact hi henv
  rw [getElem?_set, if_neg hne]

theorem grown_setAll (bindings : List (String × Value)) (henv : env ∈ own) :
    Grown own σ (σ.setAll env bindings) := by
  induction bindings generalizing σ with
  | nil => exact .refl own σ
  | cons b rest ih => exact (grown_set henv).trans ih

/-- The environment of a call is none of those that were there. -/
theorem grown_enterCall (outer : Nat) (bindings : List (String × Value)) :
    Grown {σ.next} σ (σ.enterCall outer bindings) := by
  have hextend : Grown {σ.next} σ (σ.extend (some outer)) := by
    refine ⟨?_, Nat.le_refl _, fun i hi _ => getElem?_extend_of_lt hi⟩
    rw [next_extend]
    exact Nat.le_succ _
  exact hextend.trans (grown_setAll bindings rfl)

theorem perform_bind {α β : Type} (σ : Store) (x : Eval α) (f : α → Eval β) :
    σ.perform (x >>= f) =
      match σ.perform x with
      | (.ok a, σ') => σ'.perform (f a)
      | (.error stop, σ') => (.error stop, σ') := by
  unfold perform
  cases hx : x σ with
  | ok a σ' => rw [bind_of_ok hx]
  | error stop σ' => rw [bind_of_error hx]

end Store

theorem Builtin.made_le_call (function : Builtin) (arguments : List Value) (host : Host) :
    host.made ≤ (function.call arguments host).2.made := by
  have hused : host.made ≤ host.used.made := Nat.le_succ _
  cases function with
  | puts => exact Nat.le_of_eq (made_printAll host arguments).symm
  | rest =>
    show host.made ≤ (restElements host arguments).2.made
    unfold restElements
    split <;> first | exact hused | exact Nat.le_refl _
  | push =>
    show host.made ≤ (pushElement host arguments).2.made
    unfold pushElement
    split <;> first | exact hused | exact Nat.le_refl _
  | _ => exact Nat.le_refl _

namespace Eval

open Store

variable {α β : Type} {own : Set Nat} {env : Nat} {x : Eval α} {f : α → Eval β} {call : Caller}

/-- However the evaluation comes out, it has written no environments that were there before, except
for some. -/
def Writes (own : Set Nat) (x : Eval α) : Prop := ∀ σ : Store, σ.Grown own (σ.perform x).2

/-! ## Parts of an evaluation -/

theorem writes_pure (a : α) : Writes own (pure a) := fun σ => .refl own σ

theorem writes_fail (e : EvalError) : Writes own (fail e : Eval α) := fun σ => .refl own σ

theorem Writes.bind (hx : Writes own x) (hf : ∀ a, Writes own (f a)) : Writes own (x >>= f) := by
  intro σ
  have hgrown := hx σ
  rw [perform_bind]
  cases hperform : σ.perform x with
  | mk result σ' =>
    rw [hperform] at hgrown
    cases result with
    | ok a => exact hgrown.trans (hf a σ')
    | error stop => exact hgrown

theorem writes_lift (r : Except EvalError α) : Writes own (lift r) := by
  cases r with
  | ok a => exact writes_pure a
  | error e => exact writes_fail e

theorem writes_make (value : Stamp → Value) : Writes own (make value) :=
  fun _ => grown_withHost (Nat.le_succ _)

theorem writes_binary (operator : Operator) (left right : Value) :
    Writes own (binary operator left right) := by
  have hget : Writes own (get : Eval Store) := fun σ => .refl own σ
  have hused : Writes own (modify fun store => { store with host := store.host.used }) :=
    fun _ => grown_withHost (Nat.le_succ _)
  exact hget.bind fun σ => (writes_lift _).bind fun v => hused.bind fun _ => writes_pure v

theorem writes_lookup (name : String) : Writes own (lookup env name) := by
  intro σ
  unfold perform lookup
  cases σ.get? env name with
  | some v => exact .refl own σ
  | none =>
    cases Builtin.ofName? name with
    | some function => exact .refl own σ
    | none => exact .refl own σ

theorem writes_key (v : Value) : Writes own (key v) := by
  unfold key
  split
  · exact writes_pure _
  · exact writes_fail _

theorem writes_bind (name : String) (v : Value) (henv : env ∈ own) :
    Writes own (Eval.bind env name v) := fun _ => grown_set henv

/-! ## Trees -/

mutual

/-- An expression writes the environment it is evaluated in, and a regular one not even that. -/
theorem expr_writes (hcall : ∀ function arguments, Writes own (call function arguments))
    {name : Option String} {mayReturn : Bool} : (e : Expr) →
    env ∈ own ∨ e.isRegular name mayReturn = true → Writes own (expr call env e)
  | .identifier name, _ => writes_lookup name
  | .integer _, _ => writes_pure _
  | .boolean _, _ => writes_pure _
  | .string _, _ => writes_make _
  | .array elements, h => (exprs_write hcall elements h).bind fun _ => writes_make _
  | .hash pairs, h => (entries_write hcall pairs h).bind fun _ => writes_make _
  | .unary _ operand, h => (expr_writes hcall operand h).bind fun _ => writes_lift _
  | .binary left _ right, h => by
    have h := h.imp_right fun h => Bool.and_eq_true_iff.1 h
    exact (expr_writes hcall left (h.imp_right fun h => h.1)).bind fun _ =>
      (expr_writes hcall right (h.imp_right fun h => h.2)).bind fun _ => writes_binary _ _ _
  | .conditional condition consequence alternative, h => by
    have h := h.imp_right fun h => Expr.isRegular_conditional.1 h
    unfold expr
    refine (expr_writes hcall condition (h.imp_right fun h => h.1)).bind fun value => ?_
    split
    · exact block_writes hcall consequence (h.imp_right fun h => h.2.1)
    · cases alternative with
      | some alternative => exact block_writes hcall alternative (h.imp_right fun h => h.2.2)
      | none => exact writes_pure _
  | .function _ _ _, _ => writes_make _
  | .call callee arguments, h => by
    have h := h.imp_right fun h => Bool.and_eq_true_iff.1 h
    exact (expr_writes hcall callee (h.imp_right fun h => h.1)).bind fun _ =>
      (exprs_write hcall arguments (h.imp_right fun h => h.2)).bind fun _ => hcall _ _
  | .index collection key, h => by
    have h := h.imp_right fun h => Bool.and_eq_true_iff.1 h
    exact (expr_writes hcall collection (h.imp_right fun h => h.1)).bind fun _ =>
      (expr_writes hcall key (h.imp_right fun h => h.2)).bind fun _ => writes_lift _

theorem exprs_write (hcall : ∀ function arguments, Writes own (call function arguments))
    {acc : List Value} : (es : List Expr) →
    env ∈ own ∨ Expr.areRegular es = true → Writes own (exprsOnto call env acc es)
  | [], _ => writes_pure _
  | e :: rest, h => by
    have h := h.imp_right fun h => Bool.and_eq_true_iff.1 h
    exact (expr_writes hcall e (h.imp_right fun h => h.1)).bind fun _ =>
      exprs_write hcall rest (h.imp_right fun h => h.2)

theorem entries_write (hcall : ∀ function arguments, Writes own (call function arguments))
    {acc : List (Key × Value)} : (pairs : List (Expr × Expr)) →
    env ∈ own ∨ Expr.pairsAreRegular pairs = true → Writes own (entriesOnto call env acc pairs)
  | [], _ => writes_pure _
  | (k, v) :: rest, h => by
    have h := h.imp_right fun h => Bool.and_eq_true_iff.1 h
    have h := h.imp_right fun h => And.intro (Bool.and_eq_true_iff.1 h.1) h.2
    exact (expr_writes hcall k (h.imp_right fun h => h.1.1)).bind fun _ =>
      (writes_key _).bind fun _ =>
        (expr_writes hcall v (h.imp_right fun h => h.1.2)).bind fun _ =>
          entries_write hcall rest (h.imp_right fun h => h.2)

theorem stmt_writes (hcall : ∀ function arguments, Writes own (call function arguments))
    {mayReturn : Bool} : (first : Stmt) →
    env ∈ own ∨ first.isRegular false mayReturn = true → Writes own (stmt call env first)
  | .bind name value, h => by
    rcases h with henv | h
    · have hvalue : env ∈ own ∨ value.isRegular none false = true := .inl henv
      exact (expr_writes hcall value hvalue).bind fun v =>
        (writes_bind name v henv).bind fun _ => writes_pure _
    · cases h
  | .ret value, h =>
    (expr_writes hcall value (h.imp_right fun h => (Bool.and_eq_true_iff.1 h).2)).bind fun _ =>
      writes_pure _
  | .eval value, h => expr_writes hcall value h

theorem block_writes (hcall : ∀ function arguments, Writes own (call function arguments))
    {mayReturn : Bool} {result : Value} : (body : List Stmt) →
    env ∈ own ∨ Program.isRegular false mayReturn body = true →
    Writes own (block call env result body)
  | [], _ => writes_pure _
  | first :: rest, h => by
    have h := h.imp_right fun h => Bool.and_eq_true_iff.1 h
    refine (stmt_writes hcall first (h.imp_right fun h => h.1)).bind fun w => ?_
    split
    · exact writes_pure _
    · exact block_writes hcall rest (h.imp_right fun h => h.2)

end

/-! ## Calls -/

/-- A call writes no environment that was there before. -/
theorem apply_writes (depth : Nat) (function : Value) (arguments : List Value) :
    Writes own (apply depth function arguments) := by
  induction depth generalizing own function arguments with
  | zero => exact fun σ => .refl own σ
  | succ depth ih =>
    intro σ
    cases function with
    | function stamp literal outer =>
      by_cases hlength : literal.parameters.length = arguments.length
      · have hself : σ.next ∈ ({σ.next} : Set Nat) ∨
            Program.isRegular false false literal.body = true := .inl rfl
        have hbody : Writes {σ.next} (program depth σ.next literal.body) :=
          (block_writes ih literal.body hself).bind fun _ => writes_pure _
        have hcall : σ.perform (apply (depth + 1) (.function stamp literal outer) arguments) =
            (σ.enterCall outer (literal.parameters.zip arguments)).perform
              (program depth σ.next literal.body) := by
          unfold perform
          rw [apply_function hlength]
          rfl
        rw [hcall]
        exact ((grown_enterCall outer _).trans (hbody _)).mono fun i hi hlt =>
          absurd hi (Nat.ne_of_lt hlt)
      · have hfail : apply (depth + 1) (.function stamp literal outer) arguments σ =
            fail (.wrongArgumentCount literal.parameters.length arguments.length) σ :=
          congrFun (if_neg hlength) σ
        unfold perform
        rw [hfail]
        exact .refl own σ
    | builtin function => exact grown_withHost (function.made_le_call arguments σ.host)
    | _ => exact .refl own σ

/-- An expression, a statement, a block or a program writes the environment it is evaluated in and
no other that was there before, and a call writes none.  This holds for all stores, however deep
calls are nested, and both if there is a result and if evaluation stops in the middle. -/
theorem evaluation_writes_own (depth env : Nat) :
    (∀ e, Writes {env} (expr (apply depth) env e)) ∧
    (∀ s, Writes {env} (stmt (apply depth) env s)) ∧
    (∀ result body, Writes {env} (block (apply depth) env result body)) ∧
    (∀ statements, Writes {env} (program depth env statements)) ∧
    ∀ function arguments, Writes ∅ (apply depth function arguments) := by
  have hexpr : ∀ e : Expr, env ∈ ({env} : Set Nat) ∨ e.isRegular none false = true :=
    fun _ => .inl rfl
  have hstmt : ∀ s : Stmt, env ∈ ({env} : Set Nat) ∨ s.isRegular false false = true :=
    fun _ => .inl rfl
  have hbody : ∀ body, env ∈ ({env} : Set Nat) ∨ Program.isRegular false false body = true :=
    fun _ => .inl rfl
  refine ⟨fun e => expr_writes (apply_writes depth) e (hexpr e),
    fun s => stmt_writes (apply_writes depth) s (hstmt s),
    fun result body => block_writes (apply_writes depth) body (hbody body), fun statements => ?_,
    apply_writes depth⟩
  exact (block_writes (apply_writes depth) statements (hbody statements)).bind fun _ =>
    writes_pure _

/-- A `let` in a function leaves a binding of the same name around the function alone. -/
example : (Store.start.perform (program 2 0 [.bind "a" (.integer 1),
    .eval (.call (.function none [] [.bind "a" (.integer 2)]) []), .eval (.identifier "a")])
    ).1.toOption.map Value.text = some "1" := by
  decide +kernel

end Eval

end Scriptlet
