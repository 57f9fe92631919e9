import Scriptlet.Proofs.Environments
import Scriptlet.Proofs.Hereditary
import Scriptlet.Proofs.Writable

/-!
# Returns that stand as statements

In the evaluator a `return` makes a marked value, and only blocks, calls and the program look at the
mark.  A tree is orderly (`Program.isOrderly`) if every conditional with a `return` in it, other
than in a function literal, stands as a statement, so that a block looks at what it makes.

The evaluation of an orderly tree neither binds a marked value nor puts one into another value
(`Eval.Keeps`), where all functions that it may come across are orderly as well: a value is orderly
(`Value.Orderly`) if it is not marked and nothing in it is, and a store (`Store.Orderly`) if all
values that are bound in it are.  The mark only shows on the value of a conditional that stands as a
statement (`Value.Passes`).
-/

namespace Scriptlet

/-! ## Trees -/

mutual

/-- Whether an expression is orderly.  If `returns` is set, a conditional in its place may hold a
`return`. -/
def Expr.isOrderly (returns : Bool) : Expr → Bool
  | .identifier _ | .integer _ | .boolean _ | .string _ => true
  | .array elements => Expr.areOrderly elements
  | .hash pairs => Expr.pairsAreOrderly pairs
  | .unary _ operand => operand.isOrderly false
  | .binary left _ right => left.isOrderly false && right.isOrderly false
  | .conditional condition consequence alternative =>
    condition.isOrderly false && Program.isOrderly returns consequence &&
      match alternative with
      | some alternative => Program.isOrderly returns alternative
      | none => true
  | .function _ _ body => Program.isOrderly true body
  | .call callee arguments => callee.isOrderly false && Expr.areOrderly arguments
  | .index collection key => collection.isOrderly false && key.isOrderly false

/-- Whether expressions that are operands are orderly. -/
def Expr.areOrderly : List Expr → Bool
  | [] => true
  | e :: rest => e.isOrderly false && Expr.areOrderly rest

/-- Whether the entries of a hash literal are orderly. -/
def Expr.pairsAreOrderly : List (Expr × Expr) → Bool
  | [] => true
  | (key, value) :: rest =>
    key.isOrderly false && value.isOrderly false && Expr.pairsAreOrderly rest

/-- Whether a statement is orderly where a `return` may or may not stand. -/
def Stmt.isOrderly (returns : Bool) : Stmt → Bool
  | .bind _ value => value.isOrderly false
  | .ret value => returns && value.isOrderly false
  | .eval value => value.isOrderly returns

/-- Whether statements are orderly where a `return` may or may not stand. -/
def Program.isOrderly (returns : Bool) : Program → Bool
  | [] => true
  | first :: rest => first.isOrderly returns && Program.isOrderly returns rest

end

/-- A conditional without an alternative is orderly like one with an empty alternative. -/
theorem Expr.isOrderly_conditional {returns : Bool} {condition : Expr} {consequence : Program}
    {alternative : Option Program} :
    (Expr.conditional condition consequence alternative).isOrderly returns = true ↔
      condition.isOrderly false = true ∧ Program.isOrderly returns consequence = true ∧
        Program.isOrderly returns (alternative.getD []) = true := by
  cases alternative <;> simp [Expr.isOrderly, Program.isOrderly, and_assoc]

/-! ## Values -/

/-- A value that is not marked as returned, in which none is, and of which the functions are
orderly. -/
inductive Value.Orderly : Value → Prop
  | simple {v : Value} (h : v.isSimple = true) : Orderly v
  | array (stamp : Stamp) {elements : List Value} (helements : ∀ v ∈ elements, Orderly v) :
      Orderly (.array stamp elements)
  | hash (stamp : Stamp) {entries : List (Key × Value)} (hentries : ∀ e ∈ entries, Orderly e.2) :
      Orderly (.hash stamp entries)
  | routine (stamp : Stamp) (r : Routine) : Orderly (.routine stamp r)
  | closure (stamp : Stamp) (r : Routine) {free : List Value} (hfree : ∀ v ∈ free, Orderly v) :
      Orderly (.closure stamp r free)
  | function (stamp : Stamp) (literal : FunctionLiteral) (environment : Nat)
      (hbody : Program.isOrderly true literal.body = true) :
      Orderly (.function stamp literal environment)

namespace Value

variable {v w : Value} {returns : Bool}

theorem not_orderly_returned : ¬ (returned w).Orderly := by
  rintro (h | _)
  cases h

theorem Orderly.body {stamp : Stamp} {literal : FunctionLiteral} {environment : Nat}
    (h : (Value.function stamp literal environment).Orderly) :
    Program.isOrderly true literal.body = true := by
  cases h with
  | simple h => cases h
  | function _ _ _ hbody => exact hbody

theorem hereditary_orderly : Hereditary Orderly where
  simple _ := .simple
  array stamp vs := by
    constructor
    · intro h
      cases h with
      | simple h => cases h
      | array _ helements => exact helements
    · exact .array stamp
  hash stamp entries := by
    constructor
    · intro h
      cases h with
      | simple h => cases h
      | hash _ hentries => exact hentries
    · exact .hash stamp

/-- An orderly value, or one that is marked as returned where that may be. -/
inductive Passes : Bool → Value → Prop
  | kept {returns : Bool} {v : Value} (h : v.Orderly) : Passes returns v
  | returned {w : Value} (h : w.Orderly) : Passes true (.returned w)

theorem Passes.orderly (h : v.Passes false) : v.Orderly := by
  cases h with
  | kept h => exact h

theorem Passes.unmark (h : v.Passes returns) : (Eval.unmark v).Orderly := by
  cases h with
  | returned h => exact h
  | kept h =>
    cases v with
    | returned w => exact absurd h not_orderly_returned
    | _ => exact h

end Value

/-! ## Stores -/

/-- A store in which all values that are bound are orderly. -/
def Store.Orderly (store : Store) : Prop :=
  ∀ (i : Nat) (e : Environment) (x : String) (v : Value),
    store.environments[i]? = some e → e.bindings[x]? = some v → v.Orderly

namespace Store

variable {store : Store} {env outer : Nat} {name : String} {v : Value}

theorem orderly_start : start.Orderly := by
  intro i e x v he hv
  have hempty : e = {} := by
    cases i with
    | zero => cases he; rfl
    | succ i => cases he
  rw [hempty] at hv
  simp at hv

namespace Orderly

theorem get? (h : store.Orderly) (hget : store.get? env name = some v) : v.Orderly := by
  fun_induction Store.get? store env name with
  | case1 => cases hget
  | case2 env e he value hvalue =>
    cases hget
    exact h _ _ _ _ he hvalue
  | case3 => cases hget
  | case4 env e he hvalue outer ho hlt ih => exact ih hget
  | case5 => cases hget

theorem withHost (h : store.Orderly) (host : Host) :
    ({ store with host := host } : Store).Orderly :=
  h

theorem set (h : store.Orderly) (hv : v.Orderly) : (store.set env name v).Orderly := by
  intro i e x w he hw
  rw [getElem?_set] at he
  split at he
  · obtain ⟨e', he', rfl⟩ := Option.map_eq_some_iff.1 he
    rw [Std.TreeMap.getElem?_insert] at hw
    split at hw
    · cases hw
      exact hv
    · exact h _ _ _ _ he' hw
  · exact h _ _ _ _ he hw

theorem setAll (h : store.Orderly) {bindings : List (String × Value)}
    (hbindings : ∀ b ∈ bindings, b.2.Orderly) : (store.setAll env bindings).Orderly := by
  induction bindings generalizing store with
  | nil => exact h
  | cons b rest ih =>
    obtain ⟨hb, hrest⟩ := List.forall_mem_cons.1 hbindings
    exact ih (h.set hb) hrest

theorem extend (h : store.Orderly) (outer : Option Nat) : (store.extend outer).Orderly := by
  intro i e x w he hw
  rw [Store.extend, Array.getElem?_push] at he
  split at he
  · cases he
    simp at hw
  · exact h _ _ _ _ he hw

/-- The store in which the body of a function is evaluated. -/
theorem enterCall (h : store.Orderly) {names : List String} {arguments : List Value}
    (harguments : ∀ a ∈ arguments, a.Orderly) :
    (store.enterCall outer (names.zip arguments)).Orderly :=
  (h.extend _).setAll fun b hb => harguments b.2 (List.of_mem_zip hb).2

end Orderly

end Store

/-! ## Evaluation -/

namespace Eval

variable {α β : Type} {P : α → Prop} {Q : β → Prop} {call : Caller} {env : Nat} {returns : Bool}

/-- A result with a property and an orderly store, or no result and an orderly store. -/
def Leaves (P : α → Prop) : EStateM.Result Stop Store α → Prop
  | .ok a after => P a ∧ after.Orderly
  | .error _ after => after.Orderly

/-- An evaluation keeps orderly stores orderly, whatever it comes to, and its results have a
property. -/
def Keeps (x : Eval α) (P : α → Prop) : Prop := ∀ store, store.Orderly → Leaves P (x store)

theorem Keeps.ok {x : Eval α} {a : α} {store after : Store} (h : Keeps x P)
    (hstore : store.Orderly) (hok : x store = .ok a after) : P a ∧ after.Orderly := by
  have hleaves := h store hstore
  rw [hok] at hleaves
  exact hleaves

theorem keeps_pure {a : α} (h : P a) : Keeps (pure a) P := fun _ hstore => ⟨h, hstore⟩

theorem keeps_throw (stop : Stop) : Keeps (throw stop : Eval α) P := fun _ hstore => hstore

theorem Keeps.bind {x : Eval α} {f : α → Eval β} (hx : Keeps x P)
    (hf : ∀ a, P a → Keeps (f a) Q) : Keeps (x >>= f) Q := by
  intro store hstore
  have hleaves := hx store hstore
  cases hresult : x store with
  | ok a between =>
    rw [hresult] at hleaves
    rw [bind_of_ok hresult]
    exact hf a hleaves.1 between hleaves.2
  | error stop after =>
    rw [hresult] at hleaves
    rw [bind_of_error hresult]
    exact hleaves

theorem Keeps.mono {x : Eval α} {P' : α → Prop} (hx : Keeps x P) (h : ∀ a, P a → P' a) :
    Keeps x P' := by
  intro store hstore
  have hleaves := hx store hstore
  cases hresult : x store with
  | ok a after =>
    rw [hresult] at hleaves
    exact ⟨h a hleaves.1, hleaves.2⟩
  | error stop after =>
    rw [hresult] at hleaves
    exact hleaves

theorem keeps_make {value : Stamp → Value} (h : ∀ stamp, (value stamp).Orderly) :
    Keeps (make value) Value.Orderly := fun _ hstore => ⟨h _, hstore.withHost _⟩

theorem keeps_bind {name : String} {v : Value} (h : v.Orderly) :
    Keeps (Eval.bind env name v) fun _ => True := fun _ hstore => ⟨trivial, hstore.set h⟩

theorem keeps_modify {f : Store → Store} (h : ∀ store, store.Orderly → (f store).Orderly) :
    Keeps (modify f) fun _ => True := fun store hstore => ⟨trivial, h store hstore⟩

theorem keeps_lookup (name : String) : Keeps (lookup env name) Value.Orderly := by
  intro store hstore
  unfold lookup
  cases hget : store.get? env name with
  | some v => exact ⟨hstore.get? hget, hstore⟩
  | none =>
    cases Builtin.ofName? name with
    | some function => exact ⟨.simple rfl, hstore⟩
    | none => exact hstore

theorem keeps_lift {result : Except EvalError α} (h : ∀ a, result = .ok a → P a) :
    Keeps (lift result) P := by
  cases result with
  | ok a => exact keeps_pure (h a rfl)
  | error e => exact keeps_throw _

theorem keeps_binary (operator : Operator) (left right : Value) :
    Keeps (binary operator left right) Value.Orderly := by
  intro store hstore
  have hresult : Keeps (lift (operator.applyBinary left right store.host.stamp)) Value.Orderly :=
    keeps_lift fun _ => Value.hereditary_orderly.applyBinary
  exact (hresult.bind fun v hv => (keeps_modify fun _ h => h.withHost _).bind fun _ _ =>
    keeps_pure hv) store hstore

/-- Nothing is said about keys, which are not values. -/
theorem keeps_key (v : Value) : Keeps (key v) fun _ => True := by
  unfold key
  cases v.key? with
  | some k => exact keeps_pure trivial
  | none => exact keeps_throw _

/-- Calls of orderly values with orderly arguments keep stores orderly and have orderly values. -/
def Caller.Keeps (call : Caller) : Prop :=
  ∀ function arguments, function.Orderly → (∀ a ∈ arguments, a.Orderly) →
    Eval.Keeps (call function arguments) Value.Orderly

mutual

theorem keeps_expr (hcall : Caller.Keeps call) {env : Nat} : (e : Expr) → {returns : Bool} →
    e.isOrderly returns = true → Keeps (expr call env e) (Value.Passes returns)
  | .identifier name, _, _ => (keeps_lookup name).mono fun _ => .kept
  | .integer _, _, _ => keeps_pure (.kept (.simple rfl))
  | .boolean _, _, _ => keeps_pure (.kept (.simple rfl))
  | .string _, _, _ => (keeps_make fun _ => .simple rfl).mono fun _ => .kept
  | .array elements, _, h =>
    (keeps_exprs hcall elements h [] nofun).bind fun _ hvs =>
      (keeps_make fun stamp => .array stamp hvs).mono fun _ => .kept
  | .hash pairs, _, h =>
    (keeps_entries hcall pairs h [] nofun).bind fun _ hentries =>
      (keeps_make fun _ => Value.hereditary_orderly.entriesOf hentries).mono fun _ => .kept
  | .unary _ operand, _, h =>
    (keeps_expr hcall operand h).bind fun _ _ =>
      keeps_lift fun _ hresult => .kept (Value.hereditary_orderly.applyUnary hresult)
  | .binary left operator right, _, h => by
    obtain ⟨hleft, hright⟩ := Bool.and_eq_true_iff.1 h
    refine (keeps_expr hcall left hleft).bind fun a _ => ?_
    exact (keeps_expr hcall right hright).bind fun b _ =>
      (keeps_binary operator a b).mono fun _ => .kept
  | .conditional condition consequence alternative, _, h => by
    obtain ⟨hcondition, hthen, helse⟩ := Expr.isOrderly_conditional.1 h
    rw [expr_conditional]
    refine (keeps_expr hcall condition hcondition).bind fun v _ => ?_
    split
    · exact keeps_block hcall consequence hthen (.simple rfl)
    · exact keeps_alternative hcall alternative helse
  | .function name parameters body, _, h =>
    (keeps_make fun stamp => .function stamp ⟨name, parameters, body⟩ env h).mono fun _ => .kept
  | .call callee arguments, _, h => by
    obtain ⟨hcallee, harguments⟩ := Bool.and_eq_true_iff.1 h
    refine (keeps_expr hcall callee hcallee).bind fun function hfunction => ?_
    refine (keeps_exprs hcall arguments harguments [] nofun).bind fun values hvalues => ?_
    exact (hcall function values hfunction.orderly hvalues).mono fun _ => .kept
  | .index collection key, _, h => by
    obtain ⟨hcollection, hkey⟩ := Bool.and_eq_true_iff.1 h
    refine (keeps_expr hcall collection hcollection).bind fun a ha => ?_
    refine (keeps_expr hcall key hkey).bind fun b _ => keeps_lift fun _ hresult => .kept ?_
    exact Value.hereditary_orderly.index ha.orderly hresult

theorem keeps_alternative (hcall : Caller.Keeps call) {env : Nat} :
    (alternative : Option Program) → {returns : Bool} →
    Program.isOrderly returns (alternative.getD []) = true →
    Keeps (block call env .null (alternative.getD [])) (Value.Passes returns)
  | some alternative, _, h => keeps_block hcall alternative h (.simple rfl)
  | none, _, _ => keeps_pure (.kept (.simple rfl))

theorem keeps_exprs (hcall : Caller.Keeps call) {env : Nat} : (es : List Expr) →
    Expr.areOrderly es = true → (acc : List Value) → (∀ v ∈ acc, v.Orderly) →
    Keeps (exprsOnto call env acc es) fun vs => ∀ v ∈ vs, v.Orderly
  | [], _, _, hacc => keeps_pure fun v hv => hacc v (List.mem_reverse.1 hv)
  | e :: rest, h, acc, hacc => by
    obtain ⟨he, hrest⟩ := Bool.and_eq_true_iff.1 h
    refine (keeps_expr hcall e he).bind fun v hv => ?_
    exact keeps_exprs hcall rest hrest (v :: acc) (List.forall_mem_cons.2 ⟨hv.orderly, hacc⟩)

theorem keeps_entries (hcall : Caller.Keeps call) {env : Nat} : (pairs : List (Expr × Expr)) →
    Expr.pairsAreOrderly pairs = true → (acc : List (Key × Value)) → (∀ p ∈ acc, p.2.Orderly) →
    Keeps (entriesOnto call env acc pairs) fun entries => ∀ p ∈ entries, p.2.Orderly
  | [], _, _, hacc => keeps_pure fun p hp => hacc p (List.mem_reverse.1 hp)
  | (k, v) :: rest, h, acc, hacc => by
    obtain ⟨h, hrest⟩ := Bool.and_eq_true_iff.1 h
    obtain ⟨hk, hv⟩ := Bool.and_eq_true_iff.1 h
    refine (keeps_expr hcall k hk).bind fun keyValue _ => (keeps_key keyValue).bind fun key _ => ?_
    refine (keeps_expr hcall v hv).bind fun value hvalue => ?_
    exact keeps_entries hcall rest hrest ((key, value) :: acc)
      (List.forall_mem_cons.2 ⟨hvalue.orderly, hacc⟩)

theorem keeps_stmt (hcall : Caller.Keeps call) {env : Nat} : (s : Stmt) → {returns : Bool} →
    s.isOrderly returns = true → Keeps (stmt call env s) (Value.Passes returns)
  | .bind _ value, _, h =>
    (keeps_expr hcall value h).bind fun _ hv =>
      (keeps_bind hv.orderly).bind fun _ _ => keeps_pure (.kept (.simple rfl))
  | .ret value, _, h => by
    obtain ⟨rfl, hvalue⟩ := Bool.and_eq_true_iff.1 h
    exact (keeps_expr hcall value hvalue).bind fun _ hv => keeps_pure (.returned hv.orderly)
  | .eval value, _, h => keeps_expr hcall value h

theorem keeps_block (hcall : Caller.Keeps call) {env : Nat} : (body : Program) → {returns : Bool} →
    Program.isOrderly returns body = true → {result : Value} → result.Orderly →
    Keeps (block call env result body) (Value.Passes returns)
  | [], _, _, _, hresult => keeps_pure (.kept hresult)
  | s :: rest, _, h, _, _ => by
    obtain ⟨hs, hrest⟩ := Bool.and_eq_true_iff.1 h
    refine (keeps_stmt hcall s hs).bind fun v hv => ?_
    -- a mark ends the block, which passes it on
    cases hv with
    | returned hw => exact keeps_pure (.returned hw)
    | kept hv =>
      cases v with
      | returned w => exact absurd hv Value.not_orderly_returned
      | _ => exact keeps_block hcall rest hrest hv

end

theorem keeps_apply (depth : Nat) : Caller.Keeps (apply depth) := by
  induction depth with
  | zero => exact fun _ _ _ _ => keeps_throw _
  | succ depth ih =>
    intro function arguments hfunction harguments store hstore
    cases function with
    | function stamp literal outer =>
      by_cases hlength : literal.parameters.length = arguments.length
      · rw [apply_function hlength]
        have hbody : Keeps (block (apply depth) store.next .null literal.body)
            (Value.Passes true) := keeps_block ih literal.body hfunction.body (.simple rfl)
        exact (hbody.bind fun _ hv => keeps_pure hv.unmark) _ (hstore.enterCall harguments)
      · have hfail : apply (depth + 1) (.function stamp literal outer) arguments store =
            fail (.wrongArgumentCount literal.parameters.length arguments.length) store :=
          congrFun (if_neg hlength) store
        rw [hfail]
        exact hstore
    | builtin function =>
      show Leaves _ (.ok (function.call arguments store.host).1 _)
      exact ⟨Value.hereditary_orderly.call function _ harguments, hstore.withHost _⟩
    | _ => exact hstore

end Eval

end Scriptlet
