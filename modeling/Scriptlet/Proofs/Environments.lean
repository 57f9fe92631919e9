import Scriptlet.Evaluation.Evaluate
import Scriptlet.Machine.Operate
import Scriptlet.Proofs.Inversion

/-!
# What the evaluator sees

Two things have to be known about the evaluator before it can be compared with anything: what a name
stands for in an environment once other environments were made or more names were bound, and what
the bound on nested calls does to a result.

* `Store.get?_set_of_some`: a name that is bound for the first time hides nothing, in whatever
  environment one looks.
* `Store.Scoped` keeps record of the names that may come to be bound around an environment.
* `Store.get?_enterCall`: what names stand for in the environment of a call.
* `Eval.Settles` and `Eval.Never` are about evaluation under all bounds at once.  An evaluation
  settles if it comes to one and the same result under every bound that is large enough, and to none
  under the others.

The last section takes the entries of a hash literal apart, a conditional and a call.  The evaluator
looks at each key before it goes on; what it then comes to is the same as if all of the expressions
had been evaluated first.
-/

namespace Scriptlet

namespace Store

variable {store store' : Store} {env env' : Nat} {x y : String} {v w : Value}

/-- What a name stands for only depends on the environments up to the one it is looked up in, and
there on what they say about that name. -/
theorem get?_congr (h : ∀ i ≤ env,
    store'.environments[i]?.map (fun e => (e.bindings[x]?, e.outer)) =
      store.environments[i]?.map (fun e => (e.bindings[x]?, e.outer))) :
    store'.get? env x = store.get? env x := by
  induction env using Nat.strongRecOn with
  | ind env ih =>
    have hhere := h env (Nat.le_refl env)
    unfold get?
    cases he : store.environments[env]? with
    | none =>
      rw [he, Option.map_none, Option.map_eq_none_iff] at hhere
      rw [hhere]
    | some e =>
      rw [he, Option.map_some, Option.map_eq_some_iff] at hhere
      obtain ⟨e', he', heq⟩ := hhere
      obtain ⟨hbindings, houter⟩ := Prod.mk.injEq .. ▸ heq
      rw [he']
      dsimp only
      rw [hbindings, houter]
      cases e.bindings[x]? with
      | some value => rfl
      | none =>
        cases e.outer with
        | none => rfl
        | some outer =>
          dsimp only
          split
          · next hlt => exact ih outer hlt fun i hi => h i (by omega)
          · rfl

@[simp] theorem get?_withHost (store : Store) (host : Host) (env : Nat) (x : String) :
    ({ store with host := host } : Store).get? env x = store.get? env x :=
  @get?_congr store { store with host := host } env x fun _ _ => rfl

theorem getElem?_set (store : Store) (env env' : Nat) (x : String) (v : Value) :
    (store.set env x v).environments[env']? =
      if env = env' then
        store.environments[env']?.map fun e => { e with bindings := e.bindings.insert x v }
      else store.environments[env']? :=
  Array.getElem?_modify ..

@[simp] theorem next_set (store : Store) (env : Nat) (x : String) (v : Value) :
    (store.set env x v).next = store.next := Array.size_modify ..

@[simp] theorem host_set (store : Store) (env : Nat) (x : String) (v : Value) :
    (store.set env x v).host = store.host := rfl

theorem get?_set_of_lt (h : env' < env) : (store.set env x v).get? env' y = store.get? env' y := by
  refine get?_congr fun i hi => ?_
  rw [getElem?_set, if_neg (by omega)]

theorem get?_set_self (h : env < store.next) : (store.set env x v).get? env x = some v := by
  unfold get?
  rw [getElem?_set, if_pos rfl, Array.getElem?_eq_getElem h]
  simp

/-- Binding a name leaves other names alone. -/
theorem get?_set_of_ne (h : x ≠ y) : (store.set env x v).get? env' y = store.get? env' y := by
  refine get?_congr fun i _ => ?_
  rw [getElem?_set]
  split
  · rw [Option.map_map]
    refine congrArg (store.environments[i]?.map ·) (funext fun e => ?_)
    simp [Std.TreeMap.getElem?_insert, h]
  · rfl

/-- A name that is bound for the first time hides nothing. -/
theorem get?_set_of_some (hnew : store.get? env x = none) (h : store.get? env' y = some w) :
    (store.set env x v).get? env' y = some w := by
  by_cases hxy : x = y
  · subst hxy
    induction env' using Nat.strongRecOn with
    | ind env' ih =>
      have hne : env ≠ env' := by
        rintro rfl
        rw [hnew] at h
        cases h
      unfold get? at h ⊢
      rw [getElem?_set, if_neg hne]
      cases he : store.environments[env']? with
      | none =>
        rw [he] at h
        cases h
      | some e =>
        rw [he] at h
        dsimp only at h ⊢
        cases hb : e.bindings[x]? with
        | some value =>
          rw [hb] at h
          exact h
        | none =>
          rw [hb] at h
          cases ho : e.outer with
          | none =>
            rw [ho] at h
            cases h
          | some outer =>
            rw [ho] at h
            dsimp only at h ⊢
            split
            · next hlt =>
              rw [if_pos hlt] at h
              exact ih outer hlt h
            · next hlt =>
              rw [if_neg hlt] at h
              cases h
  · rw [get?_set_of_ne hxy]
    exact h

/-! ## The environment of a call -/

/-- The store in which the body of a function is evaluated. -/
def enterCall (store : Store) (outer : Nat) (bindings : List (String × Value)) : Store :=
  (store.extend (some outer)).setAll store.next bindings

@[simp] theorem next_setAll (store : Store) (env : Nat) (bindings : List (String × Value)) :
    (store.setAll env bindings).next = store.next := by
  induction bindings generalizing store with
  | nil => rfl
  | cons b rest ih =>
    unfold setAll
    rw [ih, next_set]

@[simp] theorem host_setAll (store : Store) (env : Nat) (bindings : List (String × Value)) :
    (store.setAll env bindings).host = store.host := by
  induction bindings generalizing store with
  | nil => rfl
  | cons b rest ih =>
    unfold setAll
    rw [ih, host_set]

theorem next_extend (store : Store) (outer : Option Nat) :
    (store.extend outer).next = store.next + 1 := Array.size_push ..

theorem next_enterCall (store : Store) (outer : Nat) (bindings : List (String × Value)) :
    (store.enterCall outer bindings).next = store.next + 1 := by
  rw [enterCall, next_setAll, next_extend]

theorem host_enterCall (store : Store) (outer : Nat) (bindings : List (String × Value)) :
    (store.enterCall outer bindings).host = store.host := by
  rw [enterCall, host_setAll]
  rfl

theorem get?_setAll_of_lt (bindings : List (String × Value)) (h : env' < env) :
    (store.setAll env bindings).get? env' y = store.get? env' y := by
  induction bindings generalizing store with
  | nil => rfl
  | cons b rest ih =>
    unfold setAll
    rw [ih, get?_set_of_lt h]

theorem get?_setAll_of_notMem (bindings : List (String × Value)) (h : y ∉ bindings.map Prod.fst) :
    (store.setAll env bindings).get? env' y = store.get? env' y := by
  induction bindings generalizing store with
  | nil => rfl
  | cons b rest ih =>
    rw [List.map_cons, List.mem_cons, not_or] at h
    unfold setAll
    rw [ih h.2, get?_set_of_ne (Ne.symm h.1)]

theorem get?_setAll_of_mem {bindings : List (String × Value)} (henv : env < store.next)
    (hnodup : (bindings.map Prod.fst).Nodup) (h : (y, w) ∈ bindings) :
    (store.setAll env bindings).get? env y = some w := by
  induction bindings generalizing store with
  | nil => cases h
  | cons b rest ih =>
    rw [List.map_cons, List.nodup_cons] at hnodup
    unfold setAll
    rcases List.mem_cons.1 h with rfl | h
    · rw [get?_setAll_of_notMem rest hnodup.1, get?_set_self henv]
    · exact ih (by rw [next_set]; exact henv) hnodup.2 h

theorem getElem?_extend_of_lt {outer : Option Nat} (h : env < store.next) :
    (store.extend outer).environments[env]? = store.environments[env]? := by
  unfold extend
  exact Array.getElem?_push_lt h ▸ (Array.getElem?_eq_getElem h).symm

theorem getElem?_extend_next (store : Store) (outer : Option Nat) :
    (store.extend outer).environments[store.next]? = some { outer := outer } :=
  Array.getElem?_push_size

theorem get?_extend_of_lt {outer : Option Nat} (h : env < store.next) :
    (store.extend outer).get? env x = store.get? env x :=
  get?_congr fun i hi => by rw [getElem?_extend_of_lt (by omega)]

/-- The environments that were there before a call are not touched by it. -/
theorem get?_enterCall_of_lt {outer : Nat} (bindings : List (String × Value))
    (h : env < store.next) : (store.enterCall outer bindings).get? env x = store.get? env x := by
  rw [enterCall, get?_setAll_of_lt bindings h, get?_extend_of_lt h]

theorem get?_enterCall_of_mem {outer : Nat} {bindings : List (String × Value)}
    (hnodup : (bindings.map Prod.fst).Nodup) (h : (y, w) ∈ bindings) :
    (store.enterCall outer bindings).get? store.next y = some w :=
  get?_setAll_of_mem (by rw [next_extend]; exact Nat.lt_succ_self _) hnodup h

/-- In the environment of a call, a name that is no parameter stands for what it stands for where
the function was made. -/
theorem get?_enterCall_of_notMem {outer : Nat} {bindings : List (String × Value)}
    (houter : outer < store.next) (h : y ∉ bindings.map Prod.fst) :
    (store.enterCall outer bindings).get? store.next y = store.get? outer y := by
  rw [enterCall, get?_setAll_of_notMem bindings h]
  rw [get?, getElem?_extend_next]
  simp [houter, get?_extend_of_lt houter]

/-! ## Names that may come to be bound -/

/-- All names that are bound in or around an environment are in its scope.  The scope is not what is
bound by now: it may hold names that will be bound later. -/
structure Scoped (store : Store) (scope : Nat → String → Prop) : Prop where
  bound : ∀ {env e x v}, store.environments[env]? = some e → e.bindings[x]? = some v → scope env x
  outer : ∀ {env e outer}, store.environments[env]? = some e → e.outer = some outer →
    outer < env → ∀ x, scope outer x → scope env x

variable {scope scope' : Nat → String → Prop}

theorem Scoped.of_get? (h : store.Scoped scope) (hget : store.get? env x = some v) :
    scope env x := by
  induction env using Nat.strongRecOn with
  | ind env ih =>
    unfold get? at hget
    cases he : store.environments[env]? with
    | none =>
      rw [he] at hget
      cases hget
    | some e =>
      rw [he] at hget
      dsimp only at hget
      cases hb : e.bindings[x]? with
      | some value => exact h.bound he hb
      | none =>
        rw [hb] at hget
        cases ho : e.outer with
        | none =>
          rw [ho] at hget
          cases hget
        | some outer =>
          rw [ho] at hget
          dsimp only at hget
          split at hget
          · next hlt => exact h.outer he ho hlt x (ih outer hlt hget)
          · cases hget

theorem Scoped.withHost (h : store.Scoped scope) (host : Host) :
    ({ store with host := host } : Store).Scoped scope := ⟨h.bound, h.outer⟩

theorem Scoped.set (h : store.Scoped scope) (hx : scope env x) :
    (store.set env x v).Scoped scope := by
  constructor
  · intro env' e y w he hb
    rw [getElem?_set] at he
    split at he
    · next heq =>
      subst heq
      obtain ⟨e', he', rfl⟩ := Option.map_eq_some_iff.1 he
      rw [Std.TreeMap.getElem?_insert] at hb
      split at hb
      · next hxy =>
        have hxy : x = y := by simpa using hxy
        exact hxy ▸ hx
      · exact h.bound he' hb
    · exact h.bound he hb
  · intro env' e outer he ho
    rw [getElem?_set] at he
    split at he
    · obtain ⟨e', he', rfl⟩ := Option.map_eq_some_iff.1 he
      exact h.outer he' ho
    · exact h.outer he ho

theorem Scoped.setAll (bindings : List (String × Value)) (h : store.Scoped scope)
    (hx : ∀ x ∈ bindings.map Prod.fst, scope env x) : (store.setAll env bindings).Scoped scope := by
  induction bindings generalizing store with
  | nil => exact h
  | cons b rest ih =>
    unfold Store.setAll
    exact ih (h.set (hx b.1 (List.mem_cons_self ..))) fun x hmem =>
      hx x (List.mem_cons_of_mem _ hmem)

theorem Scoped.enterCall {outer : Nat} {bindings : List (String × Value)} (h : store.Scoped scope)
    (houter : outer < store.next) (hsame : ∀ env < store.next, ∀ x, scope' env x ↔ scope env x)
    (hinner : ∀ x, scope outer x → scope' store.next x)
    (hx : ∀ x ∈ bindings.map Prod.fst, scope' store.next x) :
    (store.enterCall outer bindings).Scoped scope' := by
  refine Scoped.setAll bindings ?_ hx
  have hsplit : ∀ {env e}, (store.extend (some outer)).environments[env]? = some e →
      env < store.next ∧ store.environments[env]? = some e ∨
        env = store.next ∧ e = { outer := some outer } := by
    intro env e he
    by_cases hlt : env < store.next
    · rw [getElem?_extend_of_lt hlt] at he
      exact .inl ⟨hlt, he⟩
    · have hle := (Array.getElem?_eq_some_iff.1 he).1
      rw [show (store.extend (some outer)).environments.size = store.next + 1 from
        next_extend store _] at hle
      obtain rfl : env = store.next := by omega
      rw [getElem?_extend_next] at he
      cases he
      exact .inr ⟨rfl, rfl⟩
  constructor
  · intro env e x v he hb
    rcases hsplit he with ⟨hlt, he⟩ | ⟨-, rfl⟩
    · exact (hsame env hlt x).2 (h.bound he hb)
    · simp at hb
  · intro env e o he ho ho' x hx
    rcases hsplit he with ⟨hlt, he⟩ | ⟨rfl, rfl⟩
    · exact (hsame env hlt x).2 (h.outer he ho ho' x ((hsame o (Nat.lt_trans ho' hlt) x).1 hx))
    · cases ho
      exact hinner x ((hsame outer houter x).1 hx)

end Store

/-! ## Evaluation under all bounds -/

namespace Eval

variable {α β : Type} {k : Nat} {x : Nat → Eval α} {f : Nat → α → Eval β} {σ σ₁ σ₂ : Store}
  {a : α} {b : β}

/-- Under every bound above `k` the evaluation comes to one and the same result, and under the other
bounds to that result or to none. -/
def Settles (k : Nat) (x : Nat → Eval α) (σ : Store) (a : α) (σ' : Store) : Prop :=
  ∀ d, x d σ = .ok a σ' ∨ d ≤ k ∧ ∀ b τ, x d σ ≠ .ok b τ

/-- Under no bound does the evaluation come to a result. -/
def Never (x : Nat → Eval α) (σ : Store) : Prop := ∀ d b τ, x d σ ≠ .ok b τ

theorem settles_of_eq (h : ∀ d, x d σ = .ok a σ₁) : Settles k x σ a σ₁ := fun d => .inl (h d)

theorem never_of_error {e : Nat → Stop} (h : ∀ d, x d σ = .error (e d) σ₁) : Never x σ := by
  intro d b τ hok
  cases (h d).symm.trans hok

theorem Settles.bind (h : Settles k x σ a σ₁) (h' : Settles k (fun d => f d a) σ₁ b σ₂) :
    Settles k (fun d => x d >>= f d) σ b σ₂ := by
  intro d
  rcases h d with hx | ⟨hd, hx⟩
  · rcases h' d with hf | ⟨hd, hf⟩
    · exact .inl ((bind_of_ok hx).trans hf)
    · refine .inr ⟨hd, fun c τ hok => hf c τ ?_⟩
      rw [← hok]
      exact (bind_of_ok hx).symm
  · refine .inr ⟨hd, fun c τ hok => ?_⟩
    obtain ⟨c', τ', hok', -⟩ := bind_eq_ok.1 hok
    exact hx c' τ' hok'

theorem Never.bind (h : Never x σ) : Never (fun d => x d >>= f d) σ := by
  intro d c τ hok
  obtain ⟨c', τ', hok', -⟩ := bind_eq_ok.1 hok
  exact h d c' τ' hok'

theorem Settles.bind_never (h : Settles k x σ a σ₁) (h' : Never (fun d => f d a) σ₁) :
    Never (fun d => x d >>= f d) σ := by
  intro d c τ hok
  obtain ⟨c', τ', hok', hf⟩ := bind_eq_ok.1 hok
  rcases h d with hx | ⟨-, hx⟩
  · cases hx.symm.trans hok'
    exact h' d c τ hf
  · exact hx c' τ' hok'

/-! ## Entries of hash literals -/

/-- Keys and values in the order in which they are evaluated. -/
def flatten : List (Expr × Expr) → List Expr
  | [] => []
  | (key, value) :: rest => key :: value :: flatten rest

variable {call : Caller} {env : Nat}

/-- Evaluating expressions behind others puts their values behind those of the others. -/
theorem exprsOnto_ok {es : List Expr} {acc vs : List Value}
    (h : exprsOnto call env acc es σ = .ok vs σ₁) :
    ∃ ws, vs = acc.reverse ++ ws ∧
      ∀ acc', exprsOnto call env acc' es σ = .ok (acc'.reverse ++ ws) σ₁ := by
  induction es generalizing acc σ with
  | nil =>
    cases h
    exact ⟨[], (List.append_nil _).symm, fun acc' => by rw [List.append_nil]; rfl⟩
  | cons e rest ih =>
    obtain ⟨v, τ, he, hrest⟩ := bind_eq_ok.1 h
    obtain ⟨ws, rfl, hws⟩ := ih hrest
    refine ⟨v :: ws, by simp, fun acc' => ?_⟩
    refine (bind_of_ok he).trans ?_
    rw [hws]
    simp

/-- Entries come to a result exactly if their expressions do and the keys among the values are
keys. -/
theorem entriesOnto_ok {pairs : List (Expr × Expr)} {acc entries : List (Key × Value)} :
    entriesOnto call env acc pairs σ = .ok entries σ₁ ↔
      ∃ vs ps, exprsOnto call env [] (flatten pairs) σ = .ok vs σ₁ ∧
        Machine.pairsOf vs = .ok ps ∧ entries = acc.reverse ++ ps := by
  induction pairs generalizing acc σ with
  | nil =>
    constructor
    · intro h
      cases h
      exact ⟨[], [], rfl, rfl, (List.append_nil _).symm⟩
    · rintro ⟨vs, ps, hvs, hps, rfl⟩
      cases hvs
      cases hps
      rw [List.append_nil]
      rfl
  | cons pair rest ih =>
    obtain ⟨key, value⟩ := pair
    constructor
    · intro h
      obtain ⟨keyValue, τ, hkey, h⟩ := bind_eq_ok.1 h
      obtain ⟨k, τ', hk, h⟩ := bind_eq_ok.1 h
      obtain ⟨v, τ₂, hvalue, h⟩ := bind_eq_ok.1 h
      obtain ⟨ws, ps, hws, hps, rfl⟩ := ih.1 h
      obtain ⟨ws', hws', hall⟩ := exprsOnto_ok hws
      obtain rfl : ws = ws' := hws'
      unfold Eval.key at hk
      cases hkey? : keyValue.key? with
      | none =>
        rw [hkey?] at hk
        cases hk
      | some k' =>
        rw [hkey?] at hk
        cases hk
        refine ⟨keyValue :: v :: ws, (k, v) :: ps, ?_, ?_, by simp⟩
        · exact (bind_of_ok hkey).trans ((bind_of_ok hvalue).trans (hall _))
        · rw [Machine.pairsOf, hkey?]
          dsimp only
          rw [hps]
          rfl
    · rintro ⟨vs, ps, hvs, hps, rfl⟩
      obtain ⟨keyValue, τ, hkey, hvs⟩ := bind_eq_ok.1 hvs
      obtain ⟨v, τ₂, hvalue, hvs⟩ := bind_eq_ok.1 hvs
      obtain ⟨ws, rfl, hws⟩ := exprsOnto_ok hvs
      have hps : Machine.pairsOf (keyValue :: v :: ws) = .ok ps := hps
      rw [Machine.pairsOf] at hps
      cases hkey? : keyValue.key? with
      | none =>
        rw [hkey?] at hps
        cases hps
      | some k =>
        rw [hkey?] at hps
        dsimp only at hps
        cases hrest : Machine.pairsOf ws with
        | error e =>
          rw [hrest] at hps
          cases hps
        | ok qs =>
          rw [hrest] at hps
          cases hps
          refine (bind_of_ok hkey).trans ?_
          have hk : Eval.key keyValue τ = .ok k τ := by
            unfold Eval.key
            rw [hkey?]
            rfl
          refine (bind_of_ok hk).trans ((bind_of_ok hvalue).trans ?_)
          refine ih.2 ⟨ws, qs, hws [], hrest, ?_⟩
          simp

/-- Entries settle if their expressions do and the keys among the values are keys. -/
theorem Settles.entries {call : Nat → Caller} {pairs : List (Expr × Expr)} {vs : List Value}
    {ps : List (Key × Value)}
    (h : Settles k (fun d => exprsOnto (call d) env [] (flatten pairs)) σ vs σ₁)
    (hps : Machine.pairsOf vs = .ok ps) :
    Settles k (fun d => entriesOnto (call d) env [] pairs) σ ps σ₁ := by
  intro d
  rcases h d with hvs | ⟨hd, hvs⟩
  · exact .inl (entriesOnto_ok.2 ⟨vs, ps, hvs, hps, rfl⟩)
  · refine .inr ⟨hd, fun qs τ hok => ?_⟩
    obtain ⟨ws, -, hws, -⟩ := entriesOnto_ok.1 hok
    exact hvs ws τ hws

theorem Settles.entries_never {call : Nat → Caller} {pairs : List (Expr × Expr)} {vs : List Value}
    {e : Machine.Error} (h : Settles k (fun d => exprsOnto (call d) env [] (flatten pairs)) σ vs σ₁)
    (he : Machine.pairsOf vs = .error e) :
    Never (fun d => entriesOnto (call d) env [] pairs) σ := by
  intro d qs τ hok
  obtain ⟨ws, ps, hws, hps, -⟩ := entriesOnto_ok.1 hok
  rcases h d with hvs | ⟨-, hvs⟩
  · cases hvs.symm.trans hws
    cases he.symm.trans hps
  · exact hvs ws τ hws

theorem Never.entries {call : Nat → Caller} {pairs : List (Expr × Expr)}
    (h : Never (fun d => exprsOnto (call d) env [] (flatten pairs)) σ) :
    Never (fun d => entriesOnto (call d) env [] pairs) σ := by
  intro d qs τ hok
  obtain ⟨ws, -, hws, -⟩ := entriesOnto_ok.1 hok
  exact h d ws τ hws

/-- The result that a block starts with is only that of an empty block. -/
theorem block_of_ne_nil {body : List Stmt} (h : body ≠ []) (result : Value) :
    block call env result body = block call env .null body := by
  cases body with
  | nil => exact absurd rfl h
  | cons first rest => rfl

/-- A conditional without an alternative is evaluated like one with an empty alternative. -/
theorem expr_conditional (call : Caller) (condition : Expr) (consequence : List Stmt)
    (alternative : Option (List Stmt)) :
    expr call env (.conditional condition consequence alternative) =
      expr call env condition >>= fun w =>
        if w.isTruthy then block call env .null consequence
        else block call env .null (alternative.getD []) := by
  cases alternative <;> rfl

/-- A call of a function evaluates its body and takes the mark off. -/
theorem apply_function {stamp : Stamp} {literal : FunctionLiteral} {outer : Nat}
    {arguments : List Value} (hlength : literal.parameters.length = arguments.length)
    (depth : Nat) (store : Store) :
    apply (depth + 1) (.function stamp literal outer) arguments store =
      (block (apply depth) store.next .null literal.body >>= fun result => pure (unmark result))
        (store.enterCall outer (literal.parameters.zip arguments)) :=
  (congrFun (if_pos hlength) store).trans rfl

end Eval

end Scriptlet
