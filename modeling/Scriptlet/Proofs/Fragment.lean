import Scriptlet.Proofs.Operands

/-!
# Regular programs

The programs on which both engines are to agree.  The evaluator looks a name up when it is used, and
a `let` may give it a new value at any time; compiled code knows the place of a name beforehand and
copies values when it makes a closure.  `Program.Regular` rules out the programs that can tell.

* A function literal has a name exactly if it is the value of a `let`, and then it has that name.
* A `let` is a statement of the program or of a function body, so a conditional binds nothing.
* A conditional with a `return` in it is an expression statement, so a `return` never leaves values
  of a half-evaluated expression behind.
* No name is bound twice, and no builtin function is hidden.
* The last statement has a value or returns one.

The first three are properties of trees, and `Expr.isRegular` checks them.

## What regular code does to tables

`Chain.Widens` is the part of this that compilation sees: the code of a regular expression lets no
name stand for something new, except for values that are captured.
-/

namespace Scriptlet

/-! ## Names that are bound -/

mutual

/-- The names that are bound in an expression, which are those of the functions in it. -/
def Expr.binders : Expr → List String
  | .identifier _ | .integer _ | .boolean _ | .string _ => []
  | .array elements => Expr.bindersOf elements
  | .hash pairs => Expr.bindersOfPairs pairs
  | .unary _ operand => operand.binders
  | .binary left _ right => left.binders ++ right.binders
  | .conditional condition consequence alternative =>
    condition.binders ++ Program.binders consequence ++
      match alternative with
      | some alternative => Program.binders alternative
      | none => []
  | .function _ parameters body => parameters ++ Program.binders body
  | .call callee arguments => callee.binders ++ Expr.bindersOf arguments
  | .index collection key => collection.binders ++ key.binders

/-- The names that are bound in expressions. -/
def Expr.bindersOf : List Expr → List String
  | [] => []
  | e :: rest => e.binders ++ Expr.bindersOf rest

/-- The names that are bound in the entries of a hash literal. -/
def Expr.bindersOfPairs : List (Expr × Expr) → List String
  | [] => []
  | (key, value) :: rest => key.binders ++ value.binders ++ Expr.bindersOfPairs rest

/-- The names that are bound in a statement. -/
def Stmt.binders : Stmt → List String
  | .bind name value => name :: value.binders
  | .ret value => value.binders
  | .eval value => value.binders

/-- The names that are bound in statements: those of `let` and the parameters of functions. -/
def Program.binders : Program → List String
  | [] => []
  | first :: rest => first.binders ++ Program.binders rest

end

/-- The names that statements bind themselves. -/
def Program.lets : Program → List String
  | [] => []
  | .bind name _ :: rest => name :: Program.lets rest
  | .ret _ :: rest => Program.lets rest
  | .eval _ :: rest => Program.lets rest

/-- The expression of a statement. -/
def Stmt.value : Stmt → Expr
  | .bind _ value => value
  | .ret value => value
  | .eval value => value

/-- The names that are bound in the expressions of statements. -/
def Program.nested : Program → List String
  | [] => []
  | first :: rest => first.value.binders ++ Program.nested rest

/-- What statements bind is what they bind themselves and what is bound in their expressions. -/
theorem Program.binders_perm (body : Program) :
    (Program.binders body).Perm (Program.lets body ++ Program.nested body) := by
  induction body with
  | nil => exact .refl _
  | cons first rest ih =>
    have hskip : ∀ names, (names ++ Program.binders rest).Perm
        (Program.lets rest ++ (names ++ Program.nested rest)) := by
      intro names
      refine (ih.append_left names).trans ?_
      rw [← List.append_assoc, ← List.append_assoc]
      exact List.perm_append_comm.append_right _
    cases first with
    | bind name value => exact (hskip value.binders).cons name
    | ret value => exact hskip value.binders
    | eval value => exact hskip value.binders

/-! ## Regular trees -/

mutual

/-- Whether an expression is regular.  A function literal in its place has to have the given name;
a conditional in its place may return if `mayReturn` is set. -/
def Expr.isRegular (name : Option String) (mayReturn : Bool) : Expr → Bool
  | .identifier _ | .integer _ | .boolean _ | .string _ => true
  | .array elements => Expr.areRegular elements
  | .hash pairs => Expr.pairsAreRegular pairs
  | .unary _ operand => operand.isRegular none false
  | .binary left _ right => left.isRegular none false && right.isRegular none false
  | .conditional condition consequence alternative =>
    condition.isRegular none false && Program.isRegular false mayReturn consequence &&
      match alternative with
      | some alternative => Program.isRegular false mayReturn alternative
      | none => true
  | .function name' _ body => name' == name && Program.isRegular true true body
  | .call callee arguments => callee.isRegular none false && Expr.areRegular arguments
  | .index collection key => collection.isRegular none false && key.isRegular none false

/-- Whether expressions are regular. -/
def Expr.areRegular : List Expr → Bool
  | [] => true
  | e :: rest => e.isRegular none false && Expr.areRegular rest

/-- Whether the entries of a hash literal are regular. -/
def Expr.pairsAreRegular : List (Expr × Expr) → Bool
  | [] => true
  | (key, value) :: rest =>
    key.isRegular none false && value.isRegular none false && Expr.pairsAreRegular rest

/-- Whether a statement is regular where a `let` or a `return` may or may not stand. -/
def Stmt.isRegular (mayBind mayReturn : Bool) : Stmt → Bool
  | .bind name value => mayBind && value.isRegular (some name) false
  | .ret value => mayReturn && value.isRegular none false
  | .eval value => value.isRegular none mayReturn

/-- Whether statements are regular where a `let` or a `return` may or may not stand. -/
def Program.isRegular (mayBind mayReturn : Bool) : Program → Bool
  | [] => true
  | first :: rest => first.isRegular mayBind mayReturn && Program.isRegular mayBind mayReturn rest

end

/-- Whether the last statement of a program has a value or returns one. -/
def Program.endsInValue (program : Program) : Bool :=
  match program.getLast? with
  | some (.eval _) | some (.ret _) => true
  | _ => false

/-- The programs on which the machine and the evaluator agree. -/
structure Program.Regular (program : Program) : Prop where
  shape : Program.isRegular true true program = true
  distinct : (Program.binders program).Nodup
  unhidden : ∀ name ∈ Program.binders program, Builtin.ofName? name = none
  last : program.endsInValue = true

instance (program : Program) : Decidable program.Regular :=
  decidable_of_iff
    (Program.isRegular true true program = true ∧ (Program.binders program).Nodup ∧
      (∀ name ∈ Program.binders program, Builtin.ofName? name = none) ∧
      program.endsInValue = true)
    ⟨fun ⟨h₁, h₂, h₃, h₄⟩ => ⟨h₁, h₂, h₃, h₄⟩, fun ⟨h₁, h₂, h₃, h₄⟩ => ⟨h₁, h₂, h₃, h₄⟩⟩

/-- A conditional without an alternative is regular like one with an empty alternative. -/
theorem Expr.isRegular_conditional {name : Option String} {mayReturn : Bool} {condition : Expr}
    {consequence : List Stmt} {alternative : Option (List Stmt)} :
    (Expr.conditional condition consequence alternative).isRegular name mayReturn = true ↔
      condition.isRegular none false = true ∧
        Program.isRegular false mayReturn consequence = true ∧
        Program.isRegular false mayReturn (alternative.getD []) = true := by
  cases alternative <;> simp [Expr.isRegular, Program.isRegular, and_assoc]

theorem Expr.binders_conditional (condition : Expr) (consequence : List Stmt)
    (alternative : Option (List Stmt)) :
    (Expr.conditional condition consequence alternative).binders =
      condition.binders ++ Program.binders consequence ++
        Program.binders (alternative.getD []) := by
  cases alternative <;> simp [Expr.binders, Program.binders]

/-- Where nothing may be bound, statements bind nothing themselves. -/
theorem Program.lets_eq_nil {mayReturn : Bool} {body : Program}
    (h : Program.isRegular false mayReturn body = true) : Program.lets body = [] := by
  induction body with
  | nil => rfl
  | cons first rest ih =>
    obtain ⟨hfirst, hrest⟩ := Bool.and_eq_true_iff.1 h
    cases first with
    | bind name value => cases hfirst
    | ret value => exact ih hrest
    | eval value => exact ih hrest

/-! ## Tables -/

/-- A name stands for what it stood for, or for a value that has been captured since. -/
def SymbolTable.Widens (table table' : SymbolTable) : Prop :=
  ∀ name symbol, table'.get? name = some symbol →
    table.get? name = some symbol ∨ symbol.place = .captured

theorem SymbolTable.Widens.refl (table : SymbolTable) : table.Widens table :=
  fun _ _ hget => .inl hget

theorem SymbolTable.Widens.trans {table table' table'' : SymbolTable} (h : table.Widens table')
    (h' : table'.Widens table'') : table.Widens table'' := by
  intro name symbol hget
  rcases h' name symbol hget with hget | hplace
  · exact h name symbol hget
  · exact .inr hplace

theorem SymbolTable.widens_capture (table : SymbolTable) (symbol : Symbol) :
    table.Widens (table.capture symbol) := by
  intro name s hget
  rw [get?_capture] at hget
  split at hget
  · cases hget
    exact .inr rfl
  · exact .inl hget

/-- What regular code does to tables.  The innermost one may get new names if `mayBind` is set; the
outermost one stays as it is unless it is also the innermost and gets new names. -/
structure Chain.Widens (mayBind : Bool) (chain chain' : Chain) : Prop where
  inner : mayBind = false → chain.inner.Widens chain'.inner
  outer : List.Forall₂ SymbolTable.Widens chain.outer chain'.outer
  outermost : mayBind = false ∨ chain.outer ≠ [] → chain'.outermost = chain.outermost

namespace Chain

variable {chain chain' chain'' : Chain} {mayBind : Bool}

theorem Widens.refl (mayBind : Bool) (chain : Chain) : chain.Widens mayBind chain :=
  ⟨fun _ => .refl _, List.forall₂_same.2 fun table _ => .refl table, fun _ => rfl⟩

theorem Widens.trans (h : Widens mayBind chain chain') (h' : Widens mayBind chain' chain'') :
    Widens mayBind chain chain'' := by
  refine ⟨fun hbind => (h.inner hbind).trans (h'.inner hbind), ?_, fun hout => ?_⟩
  · exact forall₂_trans (r := SymbolTable.Widens) (fun _ _ _ => .trans) h.outer h'.outer
  · refine (h'.outermost (hout.imp id fun hne heq => hne ?_)).trans (h.outermost hout)
    have hlength := h.outer.length_eq
    rw [heq] at hlength
    exact List.eq_nil_of_length_eq_zero hlength

theorem Widens.weaken (h : Widens false chain chain') : Widens mayBind chain chain' :=
  ⟨fun _ => h.inner rfl, h.outer, fun _ => h.outermost (.inl rfl)⟩

theorem resolveFrom_widens (name : String) (inner : SymbolTable) (outer : List SymbolTable) :
    Widens false ⟨inner, outer⟩ (resolveFrom name inner outer).2 := by
  induction outer generalizing inner with
  | nil => exact .refl _ _
  | cons table outer ih =>
    have hrest := ih table
    unfold resolveFrom
    cases hget : inner.get? name with
    | some symbol => exact .refl _ _
    | none =>
      generalize resolveFrom name table outer = result at hrest
      obtain ⟨found, around⟩ := result
      have henter : ∀ table', inner.Widens table' →
          Widens false ⟨inner, table :: outer⟩ (around.enter table') := by
        intro table' hinner
        refine ⟨fun _ => hinner, .cons (hrest.inner rfl) hrest.outer, fun _ => ?_⟩
        rw [outermost_enter, hrest.outermost (.inl rfl)]
        exact (outermost_enter ⟨table, outer⟩ inner).symm
      cases found with
      | none => exact henter inner (.refl inner)
      | some symbol =>
        dsimp only
        split
        · exact henter inner (.refl inner)
        · exact henter _ (inner.widens_capture symbol)

/-- Leaving a function of which the body is regular. -/
theorem Widens.leave {table : SymbolTable} (h : Widens true (chain.enter table) chain') :
    Widens false chain chain'.leave := by
  obtain ⟨inner, outer⟩ := chain
  obtain ⟨inner', outer'⟩ := chain'
  obtain ⟨table', rest, hfirst, hrest, heq⟩ := List.forall₂_cons_left_iff.1 h.outer
  subst heq
  refine ⟨fun _ => hfirst, hrest, fun _ => ?_⟩
  have hout := h.outermost (.inr (List.cons_ne_nil _ _))
  rw [outermost_enter] at hout
  rw [outermost_leave]
  exact hout

theorem widens_define (chain : Chain) (name : String) :
    Widens true chain (chain.modify (·.define name)) := by
  refine ⟨nofun, List.forall₂_same.2 fun table _ => .refl table, ?_⟩
  rintro (hbind | hne)
  · cases hbind
  · obtain ⟨inner, outer⟩ := chain
    obtain ⟨table, rest, rfl⟩ := List.exists_cons_of_ne_nil hne
    rfl

end Chain

mutual

theorem ExprCode.widens {s s' : Stage} {p : Nat} {e : Expr} {is : List Instruction}
    {name : Option String} {mayReturn : Bool} : ExprCode s p e is s' →
    e.isRegular name mayReturn = true → s.tables.Widens false s'.tables
  | @ExprCode.identifier _ _ name _ _ hresolve, _ => by
    have hwidens := Chain.resolveFrom_widens name s.tables.inner s.tables.outer
    unfold Chain.resolve at hresolve
    rw [hresolve] at hwidens
    exact hwidens
  | .integer _, _ => .refl _ _
  | .boolean, _ => .refl _ _
  | .string _, _ => .refl _ _
  | .array helements _, h => helements.widens h
  | .hash hpairs _, h => hpairs.widens h
  | .unary hoperand _, h => hoperand.widens h
  | .lessThan hright hleft, h => by
    obtain ⟨hl, hr⟩ := Bool.and_eq_true_iff.1 h
    exact (hright.widens hr).trans (hleft.widens hl)
  | .binary hleft hright _, h => by
    obtain ⟨hl, hr⟩ := Bool.and_eq_true_iff.1 h
    exact (hleft.widens hl).trans (hright.widens hr)
  | .conditional hcondition hconsequence halternative _ _ _, h => by
    obtain ⟨hc, hq, ha⟩ := Expr.isRegular_conditional.1 h
    exact ((hcondition.widens hc).trans (hconsequence.widens hq)).trans (halternative.widens ha)
  | .function hbody _ _ _ _, h => by
    obtain ⟨-, hb⟩ := Bool.and_eq_true_iff.1 h
    exact (hbody.widens hb).leave
  | .call hcallee harguments _, h => by
    obtain ⟨hc, ha⟩ := Bool.and_eq_true_iff.1 h
    exact (hcallee.widens hc).trans (harguments.widens ha)
  | .index hcollection hkey, h => by
    obtain ⟨hc, hk⟩ := Bool.and_eq_true_iff.1 h
    exact (hcollection.widens hc).trans (hkey.widens hk)

theorem ExprsCode.widens {s s' : Stage} {p : Nat} {es : List Expr} {is : List Instruction} :
    ExprsCode s p es is s' → Expr.areRegular es = true → s.tables.Widens false s'.tables
  | .nil, _ => .refl _ _
  | .cons hfirst hrest, h => by
    obtain ⟨hf, hr⟩ := Bool.and_eq_true_iff.1 h
    exact (hfirst.widens hf).trans (hrest.widens hr)

theorem EntriesCode.widens {s s' : Stage} {p : Nat} {pairs : List (Expr × Expr)}
    {is : List Instruction} : EntriesCode s p pairs is s' → Expr.pairsAreRegular pairs = true →
    s.tables.Widens false s'.tables
  | .nil, _ => .refl _ _
  | .cons _ hkey hvalue hrest, h => by
    obtain ⟨h, hr⟩ := Bool.and_eq_true_iff.1 h
    obtain ⟨hk, hv⟩ := Bool.and_eq_true_iff.1 h
    exact ((hkey.widens hk).trans (hvalue.widens hv)).trans (hrest.widens hr)

theorem StmtCode.widens {s s' : Stage} {p : Nat} {first : Stmt} {is : List Instruction}
    {mayBind mayReturn : Bool} : StmtCode s p first is s' →
    first.isRegular mayBind mayReturn = true → s.tables.Widens mayBind s'.tables
  | .bind hvalue _ _, h => by
    obtain ⟨rfl, hv⟩ := Bool.and_eq_true_iff.1 h
    exact (hvalue.widens hv).weaken.trans (Chain.widens_define _ _)
  | .ret hvalue, h => (hvalue.widens (Bool.and_eq_true_iff.1 h).2).weaken
  | .eval hvalue, h => (hvalue.widens h).weaken

/-- What the code of regular statements does to tables. -/
theorem StmtsCode.widens {s s' : Stage} {p : Nat} {body : List Stmt} {is : List Instruction}
    {mayBind mayReturn : Bool} : StmtsCode s p body is s' →
    Program.isRegular mayBind mayReturn body = true → s.tables.Widens mayBind s'.tables
  | .nil, _ => .refl _ _
  | .cons hfirst hrest, h => by
    obtain ⟨hf, hr⟩ := Bool.and_eq_true_iff.1 h
    exact (hfirst.widens hf).trans (hrest.widens hr)

end

/-! ## The table of the program -/

/-- A table of the program knows the builtin functions by their names, and no two names have the
same slot. -/
structure SymbolTable.Proper (table : SymbolTable) : Prop where
  builtins : ∀ {name symbol}, table.get? name = some symbol → symbol.place = .builtin →
    ∃ b, Builtin.all[symbol.index]? = some b ∧ Builtin.ofName? name = some b
  separate : ∀ {name name' symbol symbol'}, table.get? name = some symbol →
    table.get? name' = some symbol' → symbol.place = .globalSlot → symbol'.place = .globalSlot →
    symbol.index = symbol'.index → name = name'

theorem SymbolTable.Proper.define {table : SymbolTable} (h : table.Proper) (hsound : table.Sound)
    (name : String) : (table.define name).Proper := by
  have hnext : (table.nextSymbol name).place ≠ .builtin := by
    unfold SymbolTable.nextSymbol
    split <;> nofun
  have hless : ∀ {y symbol}, table.get? y = some symbol → symbol.place = .globalSlot →
      symbol.index < table.definitions := by
    intro y symbol hget hplace
    have hholds := hsound.holds hget
    unfold SymbolTable.Holds at hholds
    rw [hplace] at hholds
    exact hholds.2
  constructor
  · intro y symbol hget hplace
    rw [get?_define] at hget
    split at hget
    · cases hget
      exact absurd hplace hnext
    · exact h.builtins hget hplace
  · intro y y' symbol symbol' hget hget' hplace hplace' hindex
    rw [get?_define] at hget hget'
    split at hget
    · next hy =>
      split at hget'
      · next hy' => exact hy.symm.trans hy'
      · cases hget
        have hlt := hless hget' hplace'
        rw [← hindex] at hlt
        exact absurd hlt (Nat.lt_irrefl _)
    · split at hget'
      · cases hget'
        have hlt := hless hget hplace
        rw [hindex] at hlt
        exact absurd hlt (Nat.lt_irrefl _)
      · exact h.separate hget hget' hplace hplace' hindex

theorem Chain.Widens.eq_of_outer {chain chain' : Chain} (h : chain.Widens false chain')
    (houter : chain.outer = []) : chain' = chain := by
  obtain ⟨inner, outer⟩ := chain
  obtain ⟨inner', outer'⟩ := chain'
  obtain rfl : outer = [] := houter
  obtain rfl : outer' = [] := List.forall₂_nil_left_iff.1 h.outer
  have hinner : inner' = inner := h.outermost (.inl rfl)
  rw [hinner]

/-- A statement of the program leaves its table as it is or defines the name that it binds. -/
theorem StmtCode.program {s s' : Stage} {p : Nat} {first : Stmt} {is : List Instruction}
    {mayBind mayReturn : Bool} (h : StmtCode s p first is s')
    (hregular : first.isRegular mayBind mayReturn = true) (houter : s.tables.outer = []) :
    s'.tables = s.tables ∧ Program.lets [first] = [] ∨
      ∃ name, Program.lets [first] = [name] ∧ s'.tables = s.tables.modify (·.define name) := by
  cases h with
  | @bind s s' p name value is symbol hvalue _ _ =>
    have hwidens := hvalue.widens (Bool.and_eq_true_iff.1 hregular).2
    refine .inr ⟨name, rfl, ?_⟩
    show s'.tables.modify (·.define name) = _
    rw [hwidens.eq_of_outer houter]
  | ret hvalue =>
    exact .inl ⟨(hvalue.widens (Bool.and_eq_true_iff.1 hregular).2).eq_of_outer houter, rfl⟩
  | eval hvalue => exact .inl ⟨(hvalue.widens hregular).eq_of_outer houter, rfl⟩

theorem Program.lets_cons (first : Stmt) (rest : Program) :
    Program.lets (first :: rest) = Program.lets [first] ++ Program.lets rest := by
  cases first <;> rfl

/-- Statements of the program that bind new names. -/
structure Stage.Unbound (s : Stage) (body : Program) : Prop where
  outer : s.tables.outer = []
  nodup : (Program.lets body).Nodup
  unknown : ∀ name ∈ Program.lets body, s.tables.inner.get? name = none

theorem Stage.Unbound.rest {s s' : Stage} {p : Nat} {first : Stmt} {rest : Program}
    {is : List Instruction} {mayBind mayReturn : Bool} (h : s.Unbound (first :: rest))
    (hcode : StmtCode s p first is s') (hregular : first.isRegular mayBind mayReturn = true) :
    s'.Unbound rest ∧ s.tables.inner.Keeps s'.tables.inner := by
  obtain ⟨houter, hnodup, hunknown⟩ := h
  rw [Program.lets_cons] at hnodup hunknown
  have hrest := (List.nodup_append.1 hnodup).2.1
  rcases hcode.program hregular houter with ⟨htables, -⟩ | ⟨name, hlets, htables⟩
  · rw [htables]
    refine ⟨⟨htables ▸ houter, hrest, fun x hx => ?_⟩, id⟩
    rw [htables]
    exact hunknown x (List.mem_append_right _ hx)
  · have hnew : s.tables.inner.get? name = none := by
      refine hunknown name (List.mem_append_left _ ?_)
      rw [hlets]
      exact List.mem_singleton_self name
    have hinner : s'.tables.inner = s.tables.inner.define name := by rw [htables]; rfl
    refine ⟨⟨by rw [htables]; exact houter, hrest, fun x hx => ?_⟩, ?_⟩
    · have hne : name ≠ x := by
        rintro rfl
        rw [hlets] at hnodup
        exact (List.nodup_append.1 hnodup).2.2 name (List.mem_singleton_self name) name hx rfl
      rw [hinner, SymbolTable.get?_define, if_neg hne]
      exact hunknown x (List.mem_append_right _ hx)
    · intro x symbol hx
      rw [hinner, SymbolTable.get?_define, if_neg]
      · exact hx
      · rintro rfl
        rw [hnew] at hx
        cases hx

/-- Statements of the program that bind new names leave the names alone that were there before. -/
theorem StmtsCode.keeps {s s' : Stage} {p : Nat} {body : List Stmt} {is : List Instruction}
    {mayBind mayReturn : Bool} : StmtsCode s p body is s' →
    Program.isRegular mayBind mayReturn body = true → s.Unbound body →
    s.tables.inner.Keeps s'.tables.inner ∧ s'.tables.outer = []
  | .nil, _, h => ⟨id, h.outer⟩
  | .cons hfirst hrest, hregular, h => by
    obtain ⟨hf, hr⟩ := Bool.and_eq_true_iff.1 hregular
    obtain ⟨hunbound, hkeeps⟩ := h.rest hfirst hf
    obtain ⟨hkeeps', houter⟩ := hrest.keeps hr hunbound
    exact ⟨fun hget => hkeeps' (hkeeps hget), houter⟩

/-- Compiling statements of the program keeps its table proper. -/
theorem StmtsCode.proper {s s' : Stage} {p : Nat} {body : List Stmt} {is : List Instruction}
    {mayBind mayReturn : Bool} : StmtsCode s p body is s' →
    Program.isRegular mayBind mayReturn body = true → s.Sound → s.tables.outer = [] →
    s.tables.inner.Proper → s'.tables.inner.Proper
  | .nil, _, _, _, h => h
  | .cons hfirst hrest, hregular, hs, houter, h => by
    obtain ⟨hf, hr⟩ := Bool.and_eq_true_iff.1 hregular
    have hsound := (hfirst.reaches hs).sound
    rcases hfirst.program hf houter with ⟨htables, -⟩ | ⟨name, -, htables⟩
    · exact hrest.proper hr hsound (htables ▸ houter) (htables ▸ h)
    · refine hrest.proper hr hsound (by rw [htables]; exact houter) ?_
      rw [htables]
      exact h.define hs.tables.sound name

end Scriptlet
