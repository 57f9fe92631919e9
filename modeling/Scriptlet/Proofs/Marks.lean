import Scriptlet.Proofs.Orderly

/-!
# Where a returned value goes

What an evaluation does on the way is laid out as activities.  `Eval.Part` says what an activity
consists of, as far as it gets; the one thing it leaves out is the body of a function that is
called, so that `Eval.Within` collects what is done in one and the same call, and `Eval.Visits` what
is done at all.

In the evaluation of an orderly program (`Eval.marks_stay`) every binding, every operand and every
argument is without a mark, at any time; and a `return` ends the call that it is in, or else the
program, with its value.

That the program is orderly cannot be left out.  In any other place, nothing looks at the mark of
the value that a conditional returns: `Program.leaky` binds such a value to a name and goes on.
-/

namespace Scriptlet

namespace Eval

/-- Something that is done in the course of an evaluation.  An expression, a statement or a block
stands as a statement or as an operand. -/
inductive Activity where
  | expr (statement : Bool) (env : Nat) (e : Expr)
  | exprs (env : Nat) (es : List Expr)
  | entries (env : Nat) (pairs : List (Expr × Expr))
  | stmt (statement : Bool) (env : Nat) (s : Stmt)
  | block (statement : Bool) (env : Nat) (result : Value) (body : Program)
  | call (function : Value) (arguments : List Value)

namespace Activity

variable {depth : Nat}

/-- The parts of an activity that begins in a store, each with the store that it begins in.  A part
that comes behind others is only there if those come to a result. -/
inductive Part (depth : Nat) : Activity → Store → Activity → Store → Prop
  | elements {p env es σ} : Part depth (expr p env (.array es)) σ (exprs env es) σ
  | pairs {p env pairs σ} : Part depth (expr p env (.hash pairs)) σ (entries env pairs) σ
  | operand {p env operator e σ} :
    Part depth (expr p env (.unary operator e)) σ (expr false env e) σ
  | left {p env a operator b σ} :
    Part depth (expr p env (.binary a operator b)) σ (expr false env a) σ
  | right {p env a operator b v σ τ} (ha : Eval.expr (apply depth) env a σ = .ok v τ) :
    Part depth (expr p env (.binary a operator b)) σ (expr false env b) τ
  | condition {p env condition consequence alternative σ} :
    Part depth (expr p env (.conditional condition consequence alternative)) σ
      (expr false env condition) σ
  | consequence {p env condition consequence alternative v σ τ}
      (hcondition : Eval.expr (apply depth) env condition σ = .ok v τ) (hv : v.isTruthy = true) :
    Part depth (expr p env (.conditional condition consequence alternative)) σ
      (block p env .null consequence) τ
  | alternative {p env condition consequence alternative v σ τ}
      (hcondition : Eval.expr (apply depth) env condition σ = .ok v τ) (hv : v.isTruthy = false) :
    Part depth (expr p env (.conditional condition consequence (some alternative))) σ
      (block p env .null alternative) τ
  | callee {p env callee arguments σ} :
    Part depth (expr p env (.call callee arguments)) σ (expr false env callee) σ
  | arguments {p env callee arguments function σ τ}
      (hcallee : Eval.expr (apply depth) env callee σ = .ok function τ) :
    Part depth (expr p env (.call callee arguments)) σ (exprs env arguments) τ
  | call {p env callee arguments function values σ τ υ}
      (hcallee : Eval.expr (apply depth) env callee σ = .ok function τ)
      (harguments : exprsOnto (apply depth) env [] arguments τ = .ok values υ) :
    Part depth (expr p env (.call callee arguments)) σ (call function values) υ
  | collection {p env collection key σ} :
    Part depth (expr p env (.index collection key)) σ (expr false env collection) σ
  | index {p env collection key v σ τ}
      (hcollection : Eval.expr (apply depth) env collection σ = .ok v τ) :
    Part depth (expr p env (.index collection key)) σ (expr false env key) τ
  | first {env e rest σ} : Part depth (exprs env (e :: rest)) σ (expr false env e) σ
  | others {env e rest v σ τ} (he : Eval.expr (apply depth) env e σ = .ok v τ) :
    Part depth (exprs env (e :: rest)) σ (exprs env rest) τ
  | key {env k e rest σ} : Part depth (entries env ((k, e) :: rest)) σ (expr false env k) σ
  | value {env k e rest v σ τ} (hk : Eval.expr (apply depth) env k σ = .ok v τ)
      (hv : v.key?.isSome = true) :
    Part depth (entries env ((k, e) :: rest)) σ (expr false env e) τ
  | otherPairs {env k e rest v w σ τ υ} (hk : Eval.expr (apply depth) env k σ = .ok v τ)
      (hv : v.key?.isSome = true) (he : Eval.expr (apply depth) env e τ = .ok w υ) :
    Part depth (entries env ((k, e) :: rest)) σ (entries env rest) υ
  | bind {p env name e σ} : Part depth (stmt p env (.bind name e)) σ (expr false env e) σ
  | ret {p env e σ} : Part depth (stmt p env (.ret e)) σ (expr false env e) σ
  | eval {p env e σ} : Part depth (stmt p env (.eval e)) σ (expr p env e) σ
  | statement {p env result s rest σ} :
    Part depth (block p env result (s :: rest)) σ (stmt p env s) σ
  | behind {p env result s rest v σ τ} (hs : Eval.stmt (apply depth) env s σ = .ok v τ)
      (hv : ∀ w, v ≠ .returned w) :
    Part depth (block p env result (s :: rest)) σ (block p env v rest) τ

/-- What is done in the course of an activity in the call that it is in. -/
inductive Within (depth : Nat) (a : Activity) (σ : Store) : Activity → Store → Prop
  | here : Within depth a σ a σ
  | part {b c τ υ} (h : Within depth a σ b τ) (hpart : Part depth b τ c υ) : Within depth a σ c υ

/-- What is done in the course of an activity, with the depth that is left there for calls. -/
inductive Visits (depth : Nat) (a : Activity) (σ : Store) : Nat → Activity → Store → Prop
  | within {b τ} (h : Within depth a σ b τ) : Visits depth a σ depth b τ
  | enters {d stamp literal outer arguments b τ υ}
      (h : Visits depth a σ (d + 1) (call (.function stamp literal outer) arguments) τ)
      (hlength : literal.parameters.length = arguments.length)
      (hbody : Within d (block true τ.next .null literal.body)
        (τ.enterCall outer (literal.parameters.zip arguments)) b υ) : Visits depth a σ d b υ

/-! ## Orderly activities -/

/-- An activity of which the trees and the values are orderly. -/
def Orderly : Activity → Prop
  | expr p _ e => e.isOrderly p = true
  | exprs _ es => Expr.areOrderly es = true
  | entries _ pairs => Expr.pairsAreOrderly pairs = true
  | stmt p _ s => s.isOrderly p = true
  | block p _ result body => result.Orderly ∧ Program.isOrderly p body = true
  | call function arguments => function.Orderly ∧ ∀ a ∈ arguments, a.Orderly

variable {a b : Activity} {σ τ : Store}

theorem Part.orderly (h : Part depth a σ b τ) (ha : a.Orderly) (hσ : σ.Orderly) :
    b.Orderly ∧ τ.Orderly := by
  have hcall := keeps_apply depth
  cases h with
  | elements => exact ⟨ha, hσ⟩
  | pairs => exact ⟨ha, hσ⟩
  | operand => exact ⟨ha, hσ⟩
  | left => exact ⟨(Bool.and_eq_true_iff.1 ha).1, hσ⟩
  | right hv =>
    obtain ⟨hleft, hright⟩ := Bool.and_eq_true_iff.1 ha
    exact ⟨hright, ((keeps_expr hcall _ hleft).ok hσ hv).2⟩
  | condition => exact ⟨(Expr.isOrderly_conditional.1 ha).1, hσ⟩
  | consequence hcondition _ =>
    obtain ⟨hc, hthen, -⟩ := Expr.isOrderly_conditional.1 ha
    exact ⟨⟨.simple rfl, hthen⟩, ((keeps_expr hcall _ hc).ok hσ hcondition).2⟩
  | alternative hcondition _ =>
    obtain ⟨hc, -, helse⟩ := Expr.isOrderly_conditional.1 ha
    exact ⟨⟨.simple rfl, helse⟩, ((keeps_expr hcall _ hc).ok hσ hcondition).2⟩
  | callee => exact ⟨(Bool.and_eq_true_iff.1 ha).1, hσ⟩
  | arguments hcallee =>
    obtain ⟨hc, harguments⟩ := Bool.and_eq_true_iff.1 ha
    exact ⟨harguments, ((keeps_expr hcall _ hc).ok hσ hcallee).2⟩
  | call hcallee harguments =>
    obtain ⟨hc, hes⟩ := Bool.and_eq_true_iff.1 ha
    obtain ⟨hfunction, hτ⟩ := (keeps_expr hcall _ hc).ok hσ hcallee
    obtain ⟨hvalues, hυ⟩ := (keeps_exprs hcall _ hes [] (List.forall_mem_nil _)).ok hτ harguments
    exact ⟨⟨hfunction.orderly, hvalues⟩, hυ⟩
  | collection => exact ⟨(Bool.and_eq_true_iff.1 ha).1, hσ⟩
  | index hcollection =>
    obtain ⟨hc, hkey⟩ := Bool.and_eq_true_iff.1 ha
    exact ⟨hkey, ((keeps_expr hcall _ hc).ok hσ hcollection).2⟩
  | first => exact ⟨(Bool.and_eq_true_iff.1 ha).1, hσ⟩
  | others he =>
    obtain ⟨hfirst, hrest⟩ := Bool.and_eq_true_iff.1 ha
    exact ⟨hrest, ((keeps_expr hcall _ hfirst).ok hσ he).2⟩
  | key => exact ⟨(Bool.and_eq_true_iff.1 (Bool.and_eq_true_iff.1 ha).1).1, hσ⟩
  | value hk _ =>
    obtain ⟨hkey, hvalue⟩ := Bool.and_eq_true_iff.1 (Bool.and_eq_true_iff.1 ha).1
    exact ⟨hvalue, ((keeps_expr hcall _ hkey).ok hσ hk).2⟩
  | otherPairs hk _ he =>
    obtain ⟨h, hrest⟩ := Bool.and_eq_true_iff.1 ha
    obtain ⟨hkey, hvalue⟩ := Bool.and_eq_true_iff.1 h
    have hτ := ((keeps_expr hcall _ hkey).ok hσ hk).2
    exact ⟨hrest, ((keeps_expr hcall _ hvalue).ok hτ he).2⟩
  | bind => exact ⟨ha, hσ⟩
  | ret => exact ⟨(Bool.and_eq_true_iff.1 ha).2, hσ⟩
  | eval => exact ⟨ha, hσ⟩
  | statement => exact ⟨(Bool.and_eq_true_iff.1 ha.2).1, hσ⟩
  | behind hs hv =>
    obtain ⟨hfirst, hrest⟩ := Bool.and_eq_true_iff.1 ha.2
    obtain ⟨hpasses, hτ⟩ := (keeps_stmt hcall _ hfirst).ok hσ hs
    cases hpasses with
    | kept h => exact ⟨⟨h, hrest⟩, hτ⟩
    | returned _ => exact absurd rfl (hv _)

theorem Within.orderly (h : Within depth a σ b τ) (ha : a.Orderly) (hσ : σ.Orderly) :
    b.Orderly ∧ τ.Orderly := by
  induction h with
  | here => exact ⟨ha, hσ⟩
  | part _ hpart ih => exact hpart.orderly ih.1 ih.2

theorem Visits.orderly {d : Nat} (h : Visits depth a σ d b τ) (ha : a.Orderly) (hσ : σ.Orderly) :
    b.Orderly ∧ τ.Orderly := by
  induction h with
  | within h => exact h.orderly ha hσ
  | enters _ _ hbody ih =>
    obtain ⟨⟨hfunction, harguments⟩, hτ⟩ := ih
    exact hbody.orderly ⟨.simple rfl, hfunction.body⟩ (hτ.enterCall harguments)

/-! ## Returning -/

/-- The activity stands as a statement and comes to a marked value. -/
def Returns (depth : Nat) : Activity → Store → Value → Store → Prop
  | expr true env e, σ, w, τ => Eval.expr (apply depth) env e σ = .ok (.returned w) τ
  | stmt true env s, σ, w, τ => Eval.stmt (apply depth) env s σ = .ok (.returned w) τ
  | block true env result body, σ, w, τ =>
    Eval.block (apply depth) env result body σ = .ok (.returned w) τ
  | _, _, _, _ => False

variable {w : Value} {υ : Store}

/-- What has a part that returns does so itself. -/
theorem Part.returns (h : Part depth a σ b τ) (hb : b.Returns depth τ w υ) :
    a.Returns depth σ w υ := by
  -- operands do not return, so only the blocks of a conditional and the parts of blocks are left
  cases h with
  | @consequence p _ _ _ _ _ _ _ hcondition hv =>
    cases p with
    | false => cases hb
    | true =>
      show Eval.expr _ _ _ σ = _
      rw [expr_conditional, bind_of_ok hcondition, if_pos hv]
      exact hb
  | @alternative p _ _ _ _ _ _ _ hcondition hv =>
    cases p with
    | false => cases hb
    | true =>
      show Eval.expr _ _ _ σ = _
      rw [expr_conditional, bind_of_ok hcondition, if_neg (by rw [hv]; nofun)]
      exact hb
  | @eval p =>
    cases p with
    | false => cases hb
    | true => exact hb
  | @statement p =>
    cases p with
    | false => cases hb
    | true => exact bind_of_ok hb
  | @behind p _ _ _ _ v _ _ hs hv =>
    cases p with
    | false => cases hb
    | true =>
      refine (bind_of_ok hs).trans ?_
      cases v with
      | returned w => exact absurd rfl (hv w)
      | _ => exact hb
  | _ => cases hb

theorem Within.returns (h : Within depth a σ b τ) (hb : b.Returns depth τ w υ) :
    a.Returns depth σ w υ := by
  induction h generalizing w υ with
  | here => exact hb
  | part _ hpart ih => exact ih (hpart.returns hb)

/-- Where all is orderly, a `return` ends the activity that it is in the course of. -/
theorem Within.ended {p : Bool} {env : Nat} {e : Expr}
    (h : Within depth a σ (stmt p env (.ret e)) τ) (ha : a.Orderly) (hσ : σ.Orderly)
    (he : Eval.expr (apply depth) env e τ = .ok w υ) : a.Returns depth σ w υ := by
  obtain ⟨hp, -⟩ := Bool.and_eq_true_iff.1 (h.orderly ha hσ).1
  refine h.returns ?_
  rw [hp]
  exact bind_of_ok he

/-- What is certain of an activity that begins in a store with a depth left for calls.

* No binding is marked.
* The value of an operand is not marked.
* No argument of a call is marked.
* A `return` ends the call of the function that it is in with its value. -/
structure Unmarked (d : Nat) (a : Activity) (σ : Store) : Prop where
  bindings : σ.Orderly
  operand : ∀ env e v τ, a = expr false env e → Eval.expr (apply d) env e σ = .ok v τ → v.Orderly
  arguments : ∀ function values, a = call function values →
    function.Orderly ∧ ∀ v ∈ values, v.Orderly
  ended : ∀ d' stamp literal outer values p env e τ w υ, d = d' + 1 →
    a = call (.function stamp literal outer) values → literal.parameters.length = values.length →
    Within d' (block true σ.next .null literal.body)
      (σ.enterCall outer (literal.parameters.zip values)) (stmt p env (.ret e)) τ →
    Eval.expr (apply d') env e τ = .ok w υ →
    apply d (.function stamp literal outer) values σ = .ok w υ

theorem Orderly.unmarked {d : Nat} (ha : a.Orderly) (hσ : σ.Orderly) : Unmarked d a σ where
  bindings := hσ
  operand := by
    rintro env e v τ rfl hv
    exact ((keeps_expr (keeps_apply d) e ha).ok hσ hv).1.orderly
  arguments := by
    rintro function values rfl
    exact ha
  ended := by
    rintro d' stamp literal outer values p env e τ w υ rfl rfl hlength hwithin he
    have hbody : Orderly (block true σ.next .null literal.body) := ⟨.simple rfl, ha.1.body⟩
    have hreturns : Eval.block _ _ _ _ _ = _ := hwithin.ended hbody (hσ.enterCall ha.2) he
    rw [apply_function hlength, bind_of_ok hreturns]
    rfl

end Activity

open Activity

/-- Where an orderly program is evaluated in a store without marks, no mark gets out of its place:
the value of the program and what is bound afterwards, also behind an error, are without marks, all
that is done on the way is, and a `return` ends the function that it is in, or else the program. -/
theorem marks_stay {depth env : Nat} {program : Program} {σ : Store}
    (hprogram : Program.isOrderly true program = true) (hσ : σ.Orderly) :
    Leaves Value.Orderly (Eval.program depth env program σ) ∧
      (∀ d a τ, Visits depth (.block true env .null program) σ d a τ → Unmarked d a τ) ∧
      ∀ p env' e τ w υ,
        Within depth (.block true env .null program) σ (.stmt p env' (.ret e)) τ →
        Eval.expr (apply depth) env' e τ = .ok w υ →
        Eval.program depth env program σ = .ok w υ := by
  have horderly : Activity.Orderly (.block true env .null program) := ⟨.simple rfl, hprogram⟩
  refine ⟨?_, fun d a τ hvisits => ?_, fun p env' e τ w υ hwithin he => ?_⟩
  · have hblock : Keeps (Eval.block (apply depth) env .null program) (Value.Passes true) :=
      keeps_block (keeps_apply depth) program hprogram (.simple rfl)
    exact (hblock.bind fun _ hv => keeps_pure hv.unmark) σ hσ
  · obtain ⟨ha, hτ⟩ := hvisits.orderly horderly hσ
    exact ha.unmarked hτ
  · have hreturns : Eval.block _ _ _ _ _ = _ := hwithin.ended horderly hσ he
    exact bind_of_ok hreturns

end Eval

/-- A program that returns early. -/
def Program.early : Program :=
  [.eval (.conditional (.boolean true) [.ret (.integer 5)] none), .eval (.integer 7)]

theorem Program.early_ends :
    Program.isOrderly true Program.early = true ∧ Store.start.Orderly ∧
      ∀ depth, Eval.program depth 0 Program.early Store.start = .ok (.integer 5) Store.start := by
  have horderly : Program.isOrderly true Program.early = true := by decide
  refine ⟨horderly, Store.orderly_start, fun depth => ?_⟩
  have hconditional : Eval.Activity.Within depth (.block true 0 .null Program.early) Store.start
      (.expr true 0 (.conditional (.boolean true) [.ret (.integer 5)] none)) Store.start :=
    .part (.part .here .statement) .eval
  have hreturn : Eval.Activity.Within depth (.block true 0 .null Program.early) Store.start
      (.stmt true 0 (.ret (.integer 5))) Store.start :=
    .part (.part hconditional (.consequence rfl rfl)) .statement
  exact (Eval.marks_stay horderly Store.orderly_start).2.2 _ _ _ _ _ _ hreturn rfl

/-- A program that returns where a `let` expects a value. -/
def Program.leaky : Program :=
  [.bind "x" (.conditional (.boolean true) [.ret (.integer 5)] none), .eval (.integer 7)]

/-- The program goes on behind its `return`, and a marked value is bound. -/
theorem Program.leaky_leaks :
    Program.isWritable Program.leaky = true ∧ Store.start.Orderly ∧
      ∃ after, Store.start.evaluate 0 Program.leaky = (.ok (.integer 7), after) ∧
        after.get? 0 "x" = some (.returned (.integer 5)) := by
  refine ⟨by decide, Store.orderly_start, Store.start.set 0 "x" (.returned (.integer 5)), rfl, ?_⟩
  exact Store.get?_set_self (by decide)

end Scriptlet
