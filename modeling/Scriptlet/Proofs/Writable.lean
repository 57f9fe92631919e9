import Scriptlet.Proofs.Inversion
import Scriptlet.Tree.Parser

/-!
# Trees that can be written down

Not every tree stands for a text.  `Program.isWritable` holds of those that do: a unary node has a
unary operator and a binary node a binary one, and a function literal has a name exactly if it is
the value of a `let`, and then it has that name.

Whatever tokens a reader is given, the trees it makes of them are writable
(`Program.isWritable_of_ofTokens`).  The readers are bounded by an allowance, and the proof is an
induction on it: `Reader.Makes` lists what each of them makes under one allowance.
-/

namespace Scriptlet

/-- Whether an operator is written before a single operand. -/
def Operator.isUnary : Operator → Bool
  | not | negate => true
  | add | subtract | multiply | divide | equal | notEqual | lessThan | greaterThan => false

/-- A token that is an operator between two operands is not one before a single operand. -/
theorem Operator.isUnary_of_ofToken? {token : Token} {operator : Operator}
    (h : Operator.ofToken? token = some operator) : operator.isUnary = false := by
  unfold Operator.ofToken? at h
  split at h <;> cases h <;> rfl

mutual

/-- Whether an expression can be written down where a function literal gets the given name. -/
def Expr.isWritable (name : Option String) : Expr → Bool
  | .identifier _ | .integer _ | .boolean _ | .string _ => true
  | .array elements => Expr.areWritable elements
  | .hash pairs => Expr.pairsAreWritable pairs
  | .unary operator operand => operator.isUnary && operand.isWritable none
  | .binary left operator right =>
    !operator.isUnary && left.isWritable none && right.isWritable none
  | .conditional condition consequence alternative =>
    condition.isWritable none && Program.isWritable consequence &&
      match alternative with
      | some alternative => Program.isWritable alternative
      | none => true
  | .function name' _ body => name' == name && Program.isWritable body
  | .call callee arguments => callee.isWritable none && Expr.areWritable arguments
  | .index collection key => collection.isWritable none && key.isWritable none

/-- Whether expressions can be written down. -/
def Expr.areWritable : List Expr → Bool
  | [] => true
  | e :: rest => e.isWritable none && Expr.areWritable rest

/-- Whether the entries of a hash literal can be written down. -/
def Expr.pairsAreWritable : List (Expr × Expr) → Bool
  | [] => true
  | (key, value) :: rest =>
    key.isWritable none && value.isWritable none && Expr.pairsAreWritable rest

/-- Whether a statement can be written down. -/
def Stmt.isWritable : Stmt → Bool
  | .bind name value => value.isWritable (some name)
  | .ret value => value.isWritable none
  | .eval value => value.isWritable none

/-- Whether statements can be written down. -/
def Program.isWritable : Program → Bool
  | [] => true
  | first :: rest => first.isWritable && Program.isWritable rest

end

variable {name : String} {e : Expr}

theorem Expr.areWritable_iff {es : List Expr} :
    Expr.areWritable es = true ↔ ∀ e ∈ es, e.isWritable none = true := by
  induction es with
  | nil => simp [Expr.areWritable]
  | cons e rest ih => simp [Expr.areWritable, ih]

theorem Expr.pairsAreWritable_iff {pairs : List (Expr × Expr)} :
    Expr.pairsAreWritable pairs = true ↔
      ∀ p ∈ pairs, p.1.isWritable none = true ∧ p.2.isWritable none = true := by
  induction pairs with
  | nil => simp [Expr.pairsAreWritable]
  | cons p rest ih => simp [Expr.pairsAreWritable, ih]

theorem Program.isWritable_iff {body : Program} :
    Program.isWritable body = true ↔ ∀ s ∈ body, s.isWritable = true := by
  induction body with
  | nil => simp [Program.isWritable]
  | cons first rest ih => simp [Program.isWritable, ih]

theorem Expr.isWritable_conditional {name : Option String} {condition : Expr}
    {consequence : Program} {alternative : Option Program} :
    (Expr.conditional condition consequence alternative).isWritable name = true ↔
      condition.isWritable none = true ∧ Program.isWritable consequence = true ∧
        ∀ block, alternative = some block → Program.isWritable block = true := by
  cases alternative <;> simp [Expr.isWritable, and_assoc]

/-- The name that an expression is given in a `let`. -/
theorem Expr.isWritable_named (h : e.isWritable none = true) :
    (e.named name).isWritable (some name) = true := by
  cases e with
  | function name' parameters body =>
    have h := (Bool.and_eq_true_iff.1 h).2
    simp [Expr.named, Expr.isWritable, h]
  | _ => exact h

namespace Reader

variable {α β : Type} {P : α → Prop} {Q : β → Prop}

/-- All results of a reader have a property. -/
def Yields (x : Reader α) (P : α → Prop) : Prop :=
  ∀ tokens a rest, x tokens = .ok a rest → P a

theorem yields_pure {a : α} (h : P a) : Yields (pure a) P := by
  intro tokens b rest hresult
  cases hresult
  exact h

theorem yields_throw (e : ParseError) : Yields (throw e) P := nofun

/-- A reader of which the result does not matter. -/
theorem yields_true (x : Reader α) : Yields x fun _ => True := fun _ _ _ _ => trivial

theorem Yields.bind {x : Reader α} {f : α → Reader β} (hx : Yields x P)
    (hf : ∀ a, P a → Yields (f a) Q) : Yields (x >>= f) Q := by
  intro tokens b rest hresult
  obtain ⟨a, between, ha, hb⟩ := bind_eq_ok.1 hresult
  exact hf a (hx _ _ _ ha) _ _ _ hb

/-- Behind a reader of which the result does not matter. -/
theorem Yields.after {x : Reader α} {f : α → Reader β} (hf : ∀ a, Yields (f a) Q) :
    Yields (x >>= f) Q := (yields_true x).bind fun a _ => hf a

theorem Yields.ite {p : Prop} [Decidable p] {x y : Reader α} (hx : Yields x P) (hy : Yields y P) :
    Yields (if p then x else y) P := by
  split
  · exact hx
  · exact hy

/-- What the readers make under an allowance. -/
structure Makes (fuel : Nat) : Prop where
  statement : Yields (statement fuel) fun s => s.isWritable = true
  statements : ∀ acc, (∀ s ∈ acc, s.isWritable = true) →
    Yields (statementsOnto acc fuel) fun body => Program.isWritable body = true
  expression : ∀ bound, Yields (expression fuel bound) fun e => e.isWritable none = true
  operand : ∀ first, Yields (operand fuel first) fun e => e.isWritable none = true
  operators : ∀ bound left, left.isWritable none = true →
    Yields (operators fuel bound left) fun e => e.isWritable none = true
  conditional : Yields (conditional fuel) fun e => e.isWritable none = true
  elements : ∀ close, Yields (elements fuel close) fun es => Expr.areWritable es = true
  more : ∀ acc close, (∀ e ∈ acc, e.isWritable none = true) →
    Yields (elementsOnto acc fuel close) fun es => Expr.areWritable es = true
  entries : ∀ acc, (∀ p ∈ acc, p.1.isWritable none = true ∧ p.2.isWritable none = true) →
    Yields (entriesOnto acc fuel) fun pairs => Expr.pairsAreWritable pairs = true

/-- Without an allowance, nothing is made. -/
theorem makes_zero : Makes 0 where
  statement := yields_throw _
  statements _ _ := yields_throw _
  expression _ := yields_throw _
  operand _ := yields_throw _
  operators _ _ _ := yields_throw _
  conditional := yields_throw _
  elements _ := yields_throw _
  more _ _ _ := yields_throw _
  entries _ _ := yields_throw _

namespace Makes

variable {fuel : Nat}

theorem statement_succ (h : Makes fuel) :
    Yields (Reader.statement (fuel + 1)) fun s => s.isWritable = true := by
  unfold Reader.statement
  refine .after fun ahead => ?_
  split
  · refine .after fun _ => .after fun found => ?_
    split
    · refine .after fun _ => (h.expression .lowest).bind fun e he => .after fun _ => ?_
      exact yields_pure (Expr.isWritable_named he)
    · exact yields_throw _
  · exact .after fun _ => (h.expression .lowest).bind fun e he => .after fun _ => yields_pure he
  · exact (h.expression .lowest).bind fun e he => .after fun _ => yields_pure he

theorem statements_succ (h : Makes fuel) (acc : List Stmt)
    (hacc : ∀ s ∈ acc, s.isWritable = true) :
    Yields (statementsOnto acc (fuel + 1)) fun body => Program.isWritable body = true := by
  unfold statementsOnto
  refine .after fun ahead => ?_
  split
  · refine .after fun _ => yields_pure (Program.isWritable_iff.2 fun s hs => ?_)
    exact hacc s (List.mem_reverse.1 hs)
  · exact yields_throw _
  · exact h.statement.bind fun s hs => h.statements _ (List.forall_mem_cons.2 ⟨hs, hacc⟩)

theorem expression_succ (h : Makes fuel) (bound : Precedence) :
    Yields (Reader.expression (fuel + 1) bound) fun e => e.isWritable none = true := by
  unfold Reader.expression
  exact .after fun first => (h.operand first).bind fun left hleft => h.operators _ _ hleft

theorem operand_succ (h : Makes fuel) (first : Token) :
    Yields (Reader.operand (fuel + 1) first) fun e => e.isWritable none = true := by
  cases first with
  | identifier name => exact yields_pure rfl
  | integer value => exact yields_pure rfl
  | string contents => exact yields_pure rfl
  | trueWord => exact yields_pure rfl
  | falseWord => exact yields_pure rfl
  | bang => exact (h.expression .unary).bind fun e he => yields_pure he
  | minus => exact (h.expression .unary).bind fun e he => yields_pure he
  | leftParen => exact (h.expression .lowest).bind fun e he => .after fun _ => yields_pure he
  | ifWord => exact h.conditional
  | fnWord =>
    refine .after fun _ => .after fun names => .after fun _ => ?_
    exact (h.statements [] nofun).bind fun body hbody => yields_pure hbody
  | leftBracket => exact (h.elements .rightBracket).bind fun es hes => yields_pure hes
  | leftBrace => exact (h.entries [] nofun).bind fun pairs hpairs => yields_pure hpairs
  | _ => exact yields_throw _

theorem operators_succ (h : Makes fuel) (bound : Precedence) (left : Expr)
    (hleft : left.isWritable none = true) :
    Yields (Reader.operators (fuel + 1) bound left) fun e => e.isWritable none = true := by
  unfold Reader.operators
  refine .after fun ahead => .ite (.after fun _ => ?_) (yields_pure hleft)
  split
  · refine (h.elements .rightParen).bind fun arguments harguments => h.operators _ _ ?_
    exact Bool.and_eq_true_iff.2 ⟨hleft, harguments⟩
  · refine (h.expression .lowest).bind fun key hkey => .after fun _ => h.operators _ _ ?_
    exact Bool.and_eq_true_iff.2 ⟨hleft, hkey⟩
  · split
    · next operator hoperator =>
      refine (h.expression _).bind fun right hright => h.operators _ _ ?_
      have hbinary := Operator.isUnary_of_ofToken? hoperator
      simp [Expr.isWritable, hbinary, hleft, hright]
    · exact yields_throw _

theorem conditional_succ (h : Makes fuel) :
    Yields (Reader.conditional (fuel + 1)) fun e => e.isWritable none = true := by
  unfold Reader.conditional
  refine .after fun _ => (h.expression .lowest).bind fun condition hcondition => ?_
  refine .after fun _ => .after fun _ => (h.statements [] nofun).bind fun consequence hthen => ?_
  have hnone : condition.isWritable none = true ∧ Program.isWritable consequence = true :=
    ⟨hcondition, hthen⟩
  refine .after fun _ => .ite (.after fun _ => .after fun _ => .ite ?_ ?_) ?_
  · refine .after fun _ => h.conditional.bind fun nested hnested => yields_pure ?_
    simp [Expr.isWritable, Program.isWritable, Stmt.isWritable, hnone, hnested]
  · refine .after fun _ => (h.statements [] nofun).bind fun alternative helse => yields_pure ?_
    simp [Expr.isWritable, hnone, helse]
  · refine yields_pure ?_
    simp [Expr.isWritable, hnone]

theorem elements_succ (h : Makes fuel) (close : Token) :
    Yields (Reader.elements (fuel + 1) close) fun es => Expr.areWritable es = true := by
  unfold Reader.elements
  exact .after fun _ => .ite (.after fun _ => yields_pure rfl) (h.more [] close nofun)

theorem more_succ (h : Makes fuel) (acc : List Expr) (close : Token)
    (hacc : ∀ e ∈ acc, e.isWritable none = true) :
    Yields (elementsOnto acc (fuel + 1) close) fun es => Expr.areWritable es = true := by
  unfold elementsOnto
  refine (h.expression .lowest).bind fun e he => .after fun _ => ?_
  have hacc' : ∀ e' ∈ e :: acc, e'.isWritable none = true := List.forall_mem_cons.2 ⟨he, hacc⟩
  refine .ite (h.more _ _ hacc') (.ite (yields_pure ?_) (yields_throw _))
  exact Expr.areWritable_iff.2 fun e' he' => hacc' e' (List.mem_reverse.1 he')

theorem entries_succ (h : Makes fuel) (acc : List (Expr × Expr))
    (hacc : ∀ p ∈ acc, p.1.isWritable none = true ∧ p.2.isWritable none = true) :
    Yields (entriesOnto acc (fuel + 1)) fun pairs => Expr.pairsAreWritable pairs = true := by
  unfold entriesOnto
  refine .after fun _ => .ite (.after fun _ => yields_pure ?_) ?_
  · exact Expr.pairsAreWritable_iff.2 fun p hp => hacc p (List.mem_reverse.1 hp)
  · refine (h.expression .lowest).bind fun key hkey => .after fun _ => ?_
    refine (h.expression .lowest).bind fun value hvalue => .after fun _ => ?_
    have hmore := h.entries ((key, value) :: acc) (List.forall_mem_cons.2 ⟨⟨hkey, hvalue⟩, hacc⟩)
    split
    · exact .after fun _ => hmore
    · exact hmore
    · exact yields_throw _

end Makes

theorem makes (fuel : Nat) : Makes fuel := by
  induction fuel with
  | zero => exact makes_zero
  | succ fuel ih =>
    exact
      { statement := ih.statement_succ
        statements := ih.statements_succ
        expression := ih.expression_succ
        operand := ih.operand_succ
        operators := ih.operators_succ
        conditional := ih.conditional_succ
        elements := ih.elements_succ
        more := ih.more_succ
        entries := ih.entries_succ }

theorem programOnto_yields (fuel : Nat) (acc : List Stmt)
    (hacc : ∀ s ∈ acc, s.isWritable = true) :
    Yields (programOnto acc fuel) fun program => Program.isWritable program = true := by
  induction fuel generalizing acc with
  | zero => exact yields_throw _
  | succ fuel ih =>
    unfold programOnto
    refine .after fun _ => .ite (yields_pure ?_) ((makes fuel).statement.bind fun s hs => ?_)
    · exact Program.isWritable_iff.2 fun s hs => hacc s (List.mem_reverse.1 hs)
    · exact ih _ (List.forall_mem_cons.2 ⟨hs, hacc⟩)

end Reader

/-- A program that was read can be written down. -/
theorem Program.isWritable_of_ofTokens {tokens rest : List Token} {program : Program}
    (h : Program.ofTokens tokens = .ok program rest) : Program.isWritable program = true :=
  Reader.programOnto_yields _ [] nofun _ _ _ h

end Scriptlet
