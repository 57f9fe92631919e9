import Scriptlet.Proofs.Occurrences
import Scriptlet.Proofs.Resolution
import Scriptlet.Proofs.Rollback
import Scriptlet.Proofs.Writable

/-!
# Which programs use names that are bound

Compilation refuses a program for its use of names exactly if one of them stands where it is not
known (`Program.compile_scoping`).  What is known where goes by the order in which code is emitted,
which is that of the text but for the operands of `<`: the right one comes first, so what it binds
is known in the left one, and not the other way round.

`Chain.Matches` compares the tables with the marks that compilation has passed: from every open
function outwards, the tables know the names that are known there.  `Gen.Follows` says of a step of
compilation that it passes certain marks.  Looking a name up captures it, but makes it known nowhere
where it was not known before (`Chain.resolveFrom_knows`).
-/

namespace Scriptlet

/-- Errors that have nothing to do with the names that a program uses, nor with operators in places
where they have no meaning. -/
def CompileError.isAside : CompileError → Bool
  | overflow _ _ | invalidHashKey _ => true
  | undefinedVariable _ | unknownOperator _ => false

/-! ## Names and tables -/

namespace SymbolTable

variable {table : SymbolTable} {x : String}

/-- A name stands for something in a table. -/
def Knows (table : SymbolTable) (x : String) : Prop := (table.get? x).isSome = true

/-- Every name stands for a symbol of that name. -/
def Named (table : SymbolTable) : Prop :=
  ∀ name symbol, table.get? name = some symbol → symbol.name = name

theorem knows_insert (table : SymbolTable) (symbol : Symbol) (x : String) :
    (table.insert symbol).Knows x ↔ symbol.name = x ∨ table.Knows x := by
  unfold Knows
  rw [get?_insert]
  split <;> simp [*]

theorem Named.insert (h : table.Named) (symbol : Symbol) : (table.insert symbol).Named := by
  intro name s hs
  rw [get?_insert] at hs
  split at hs
  · next heq =>
    cases hs
    exact heq
  · exact h name s hs

theorem knows_define (name : String) : (table.define name).Knows x ↔ name = x ∨ table.Knows x :=
  knows_insert table (table.nextSymbol name) x

theorem Named.define (h : table.Named) (name : String) : (table.define name).Named :=
  h.insert (table.nextSymbol name)

theorem not_knows_empty (enclosed : Bool) : ¬ Knows { enclosed := enclosed } x := by
  simp [Knows, get?]

theorem named_empty (enclosed : Bool) : Named { enclosed := enclosed } := by
  intro name symbol h
  simp [get?] at h

theorem knows_foldl_define (names : List String) :
    (names.foldl define table).Knows x ↔ x ∈ names ∨ table.Knows x := by
  induction names generalizing table with
  | nil => simp
  | cons name rest ih =>
    rw [List.foldl_cons, ih, knows_define, List.mem_cons, ← or_assoc, or_comm (a := x ∈ rest),
      eq_comm]

theorem Named.foldl_define (h : table.Named) (names : List String) :
    (names.foldl SymbolTable.define table).Named := by
  induction names generalizing table with
  | nil => exact h
  | cons name rest ih => exact ih (h.define name)

theorem knows_ofFunction (name : Option String) (parameters : List String) :
    (ofFunction name parameters).Knows x ↔ x ∈ name.toList ++ parameters := by
  unfold ofFunction
  rw [knows_foldl_define, List.mem_append, or_comm]
  cases name with
  | none => simp [not_knows_empty]
  | some name =>
    have hitself := knows_insert { enclosed := true } ⟨name, .itself, 0⟩ x
    refine or_congr_left (hitself.trans ?_)
    simp [not_knows_empty, eq_comm]

theorem named_ofFunction (name : Option String) (parameters : List String) :
    (ofFunction name parameters).Named := by
  refine Named.foldl_define ?_ parameters
  cases name with
  | none => exact named_empty true
  | some name => exact (named_empty true).insert ⟨name, .itself, 0⟩

theorem knows_foldl_defineBuiltin (builtins : List (Builtin × Nat)) :
    (builtins.foldl (fun table b => table.defineBuiltin b.2 b.1.name) table).Knows x ↔
      (∃ b ∈ builtins, b.1.name = x) ∨ table.Knows x := by
  induction builtins generalizing table with
  | nil => simp
  | cons b rest ih =>
    have hfirst := knows_insert table ⟨b.1.name, .builtin, b.2⟩ x
    rw [List.foldl_cons, ih]
    refine (or_congr_right hfirst).trans ?_
    simp only [List.mem_cons, exists_eq_or_imp]
    rw [← or_assoc, or_comm (a := ∃ _, _)]

/-- Before a program, the names of the builtin functions are known. -/
theorem knows_withBuiltins : withBuiltins.Knows x ↔ (Builtin.ofName? x).isSome = true := by
  refine (knows_foldl_defineBuiltin _).trans ?_
  rw [or_iff_left (not_knows_empty false), Builtin.ofName?, List.find?_isSome]
  simp [Builtin.all]

end SymbolTable

namespace Chain

open SymbolTable

variable {chain chain' : Chain} {inner : SymbolTable} {outer tables : List SymbolTable}
  {name x : String}

/-- A name stands for something in one of the tables. -/
def Known (tables : List SymbolTable) (x : String) : Prop := ∃ table ∈ tables, table.Knows x

theorem known_cons {table : SymbolTable} :
    Known (table :: tables) x ↔ table.Knows x ∨ Known tables x := by
  simp [Known]

/-- From every table outwards, the same names are known. -/
def SameNames (tables tables' : List SymbolTable) : Prop :=
  tables'.length = tables.length ∧
    ∀ n x, Known (tables'.drop n) x ↔ Known (tables.drop n) x

theorem SameNames.refl (tables : List SymbolTable) : SameNames tables tables :=
  ⟨rfl, fun _ _ => Iff.rfl⟩

theorem SameNames.cons {tables' : List SymbolTable} {table table' : SymbolTable}
    (h : SameNames tables tables')
    (hfirst : ∀ x, Known (table' :: tables') x ↔ Known (table :: tables) x) :
    SameNames (table :: tables) (table' :: tables') := by
  refine ⟨congrArg (· + 1) h.1, fun n x => ?_⟩
  cases n with
  | zero => exact hfirst x
  | succ n => exact h.2 n x

/-- What looking a name up finds, and what it does to the tables. -/
structure Found (name : String) (tables : List SymbolTable) (found : Option Symbol)
    (chain' : Chain) : Prop where
  isSome : found.isSome = true ↔ Known tables name
  name : ∀ symbol, found = some symbol → symbol.name = name
  same : SameNames tables chain'.toList
  named : ∀ table ∈ chain'.toList, table.Named

theorem resolveFrom_found (hnamed : ∀ table ∈ inner :: outer, table.Named) :
    Found name (inner :: outer) (resolveFrom name inner outer).1
      (resolveFrom name inner outer).2 := by
  induction outer generalizing inner with
  | nil =>
    refine ⟨?_, fun symbol => hnamed inner (.head _) name symbol, .refl _, hnamed⟩
    simp [resolveFrom, Known, Knows]
  | cons table outer ih =>
    have hinner := hnamed inner (.head _)
    have hrest := ih fun t ht => hnamed t (.tail _ ht)
    unfold resolveFrom
    cases hget : inner.get? name with
    | some symbol =>
      refine ⟨?_, fun symbol hs => hinner name symbol (hget.trans hs), .refl _, hnamed⟩
      simp [known_cons, Knows, hget]
    | none =>
      have hknows : ¬ inner.Knows name := by simp [Knows, hget]
      generalize resolveFrom name table outer = result at hrest
      obtain ⟨found, around⟩ := result
      have haround : ∀ x, Known around.toList x ↔ Known (table :: outer) x := hrest.same.2 0
      have hsame : SameNames (inner :: table :: outer) (inner :: around.toList) :=
        hrest.same.cons fun x => by rw [known_cons, known_cons, haround]
      have hnamed' : ∀ t ∈ inner :: around.toList, t.Named :=
        List.forall_mem_cons.2 ⟨hinner, hrest.named⟩
      cases found with
      | none =>
        refine ⟨?_, nofun, hsame, hnamed'⟩
        rw [known_cons, or_iff_right hknows]
        exact hrest.isSome
      | some symbol =>
        have hsymbol := hrest.name symbol rfl
        have hknown : Known (table :: outer) name := hrest.isSome.1 rfl
        have hfound : Known (inner :: table :: outer) name := known_cons.2 (.inr hknown)
        dsimp only
        split
        · exact ⟨iff_of_true rfl hfound, hrest.name, hsame, hnamed'⟩
        · -- the captured name was known around the function before
          have hcapture : ∀ x, (inner.capture symbol).Knows x ↔ symbol.name = x ∨ inner.Knows x :=
            knows_insert inner (inner.capturedSymbol symbol)
          refine ⟨iff_of_true rfl hfound, ?_, hrest.same.cons fun x => ?_, ?_⟩
          · rintro _ ⟨⟩
            exact hsymbol
          · rw [known_cons, known_cons]
            refine (or_congr (hcapture x) (haround x)).trans ?_
            rw [hsymbol, or_assoc, or_iff_right_of_imp]
            rintro rfl
            exact .inr hknown
          · refine List.forall_mem_cons.2 ⟨?_, hrest.named⟩
            exact hinner.insert (inner.capturedSymbol symbol)

/-- The tables know what is known behind the marks, and they belong to the functions that are open
there. -/
structure Matches (tables : List SymbolTable) (before : List Mark) : Prop where
  named : ∀ table ∈ tables, table.Named
  known : ∀ n < tables.length, ∀ x, Known (tables.drop n) x ↔ Mark.isKnown x before n = true

theorem Matches.same {before : List Mark} {tables' : List SymbolTable} (h : Matches tables before)
    (hsame : SameNames tables tables') (hnamed : ∀ table ∈ tables', table.Named) :
    Matches tables' before := by
  refine ⟨hnamed, fun n hn x => ?_⟩
  rw [hsame.2]
  exact h.known n (hsame.1 ▸ hn) x

variable {before : List Mark}

theorem Matches.use (h : Matches tables before) (name : String) :
    Matches tables (.use name :: before) := ⟨h.named, h.known⟩

theorem Matches.define (h : Matches (inner :: outer) before) (name : String) :
    Matches (inner.define name :: outer) (.bind name :: before) := by
  obtain ⟨hinner, houter⟩ := List.forall_mem_cons.1 h.named
  refine ⟨List.forall_mem_cons.2 ⟨hinner.define name, houter⟩, fun n hn x => ?_⟩
  cases n with
  | zero =>
    have hknown := h.known 0 (Nat.succ_pos _) x
    rw [List.drop_zero, known_cons] at hknown ⊢
    rw [knows_define, or_assoc, hknown]
    simp only [Mark.isKnown, Mark.isBound, Bool.or_eq_true, beq_iff_eq]
    rw [or_left_comm]
  | succ n => exact h.known (n + 1) hn x

theorem Matches.enter (h : Matches (inner :: outer) before) (name : Option String)
    (parameters : List String) :
    Matches (.ofFunction name parameters :: inner :: outer)
      (.enter (name.toList ++ parameters) :: before) := by
  refine ⟨List.forall_mem_cons.2 ⟨named_ofFunction name parameters, h.named⟩, fun n hn x => ?_⟩
  cases n with
  | zero =>
    have hknown : Known (inner :: outer) x ↔ Mark.isKnown x before 0 = true :=
      h.known 0 (Nat.succ_pos _) x
    rw [List.drop_zero, known_cons, knows_ofFunction, hknown]
    simp only [Mark.isKnown, Mark.isBound, Bool.or_eq_true, List.contains_iff_mem]
    rw [or_left_comm]
  | succ n => exact h.known n (Nat.lt_of_succ_lt_succ hn) x

theorem Matches.leave (h : Matches (inner :: outer) before) :
    Matches outer (.leave :: before) :=
  ⟨fun table ht => h.named table (.tail _ ht), fun n hn => h.known (n + 1) (Nat.succ_lt_succ hn)⟩

end Chain

/-! ## Steps of compilation -/

namespace Gen

open Chain

variable {α β : Type} {marks marks' : List Mark} {name : String}

/-- What a step has come to that passes marks: either every name among them is known, and the tables
go on matching, or the error is about one that is not. -/
def Passes (before : List Mark) (depth : Nat) (marks : List Mark) :
    EStateM.Result CompileError Compiler α → Prop
  | .ok _ c => (∀ name, ¬ Mark.Strays before marks name) ∧
      Matches c.tables.toList (marks.reverse ++ before) ∧ c.tables.depth = depth
  | .error e _ => e.isAside = true ∨
      ∃ name, e = .undefinedVariable name ∧ Mark.Strays before marks name

/-- A step passes marks and ends in the function in which it began. -/
def Follows (x : Gen α) (marks : List Mark) : Prop :=
  ∀ c before, Matches c.tables.toList before → Passes before c.tables.depth marks (x c)

/-- Leaving the tables alone, with errors that have nothing to do with names. -/
def Effects.aside : Effects where
  changes c c' := c'.tables = c.tables
  errors e := e.isAside = true
  refl _ := rfl
  trans h h' := h'.trans h

instance : Effects.aside.Writes := ⟨fun _ _ => rfl⟩

instance : Effects.aside.Pools := ⟨fun _ _ => rfl⟩

instance : Effects.aside.Overflows := ⟨fun _ _ => rfl⟩

/-- A step behind another one passes its marks behind those of the other. -/
theorem Passes.bind {x : Gen α} {f : α → Gen β} {c : Compiler} {before : List Mark} {d d' : Nat}
    (hx : Passes before d marks (x c))
    (hf : ∀ a c₁, Matches c₁.tables.toList (marks.reverse ++ before) → c₁.tables.depth = d →
      Passes (marks.reverse ++ before) d' marks' (f a c₁)) :
    Passes before d' (marks ++ marks') ((x >>= f) c) := by
  cases hresult : x c with
  | ok a c₁ =>
    rw [hresult] at hx
    obtain ⟨hknown, hmatches, hdepth⟩ := hx
    have hpasses := hf a c₁ hmatches hdepth
    rw [bind_of_ok hresult]
    cases hresult' : f a c₁ with
    | ok b c₂ =>
      rw [hresult'] at hpasses
      obtain ⟨hknown', hmatches', hdepth'⟩ := hpasses
      refine ⟨fun name hstrays => ?_, ?_, hdepth'⟩
      · rcases Mark.strays_append.1 hstrays with h | h
        · exact hknown name h
        · exact hknown' name h
      · rw [List.reverse_append, List.append_assoc]
        exact hmatches'
    | error e c₂ =>
      rw [hresult'] at hpasses
      refine hpasses.imp id fun ⟨name, he, hstrays⟩ => ⟨name, he, ?_⟩
      exact Mark.strays_append.2 (.inr hstrays)
  | error e c₁ =>
    rw [hresult] at hx
    rw [bind_of_error hresult]
    refine hx.imp id fun ⟨name, he, hstrays⟩ => ⟨name, he, ?_⟩
    exact Mark.strays_append.2 (.inl hstrays)

theorem Follows.bind {x : Gen α} {f : α → Gen β} (hx : Follows x marks)
    (hf : ∀ a, Follows (f a) marks') : Follows (x >>= f) (marks ++ marks') :=
  fun c before hc => (hx c before hc).bind fun a c₁ hc₁ hdepth => hdepth ▸ hf a c₁ _ hc₁

/-- A step that has nothing to do with names passes no marks. -/
theorem Within.follows {x : Gen α} (h : Within .aside x) : Follows x [] := by
  intro c before hc
  have htables : (Gen.after (x c)).tables = c.tables := h.after c
  cases hresult : x c with
  | ok a c' =>
    rw [hresult] at htables
    refine ⟨fun _ => Mark.not_strays_nil, ?_, congrArg Nest.depth htables⟩
    rw [show c'.tables = c.tables from htables]
    exact hc
  | error e c' => exact .inl (h.error hresult)

/-- Behind a step that has nothing to do with names. -/
theorem Within.then {x : Gen α} {f : α → Gen β} (hx : Within .aside x)
    (hf : ∀ a, Follows (f a) marks) :
    Follows (x >>= f) marks := hx.follows.bind hf

/-- In front of a step that has nothing to do with names. -/
theorem Follows.then {x : Gen α} {f : α → Gen β} (hx : Follows x marks)
    (hf : ∀ a, Within .aside (f a)) :
    Follows (x >>= f) marks := by
  rw [← List.append_nil marks]
  exact hx.bind fun a => (hf a).follows

/-- An operator that can be written in front of an operand has an instruction. -/
theorem aside_unary {operator : Operator} (h : operator.isUnary = true) :
    Within .aside (emitOperator operator (unaryInstruction? operator)) := by
  cases operator with
  | not => exact within_emit _
  | negate => exact within_emit _
  | _ => cases h

/-- An operator that can be written between operands has an instruction, except for `<`. -/
theorem aside_binary {operator : Operator} (h : operator.isUnary = false)
    (hless : operator ≠ .lessThan) :
    Within .aside (emitOperator operator (binaryInstruction? operator)) := by
  cases operator with
  | lessThan => exact absurd rfl hless
  | not => cases h
  | negate => cases h
  | _ => exact within_emit _

theorem follows_resolve (name : String) : Follows (resolve name) [.use name] := by
  intro c before hc
  have hfound : Found name c.tables.toList (c.tables.resolve name).1 (c.tables.resolve name).2 :=
    resolveFrom_found hc.named
  have hknown := hc.known 0 (Nat.succ_pos _) name
  unfold resolve
  generalize c.tables.resolve name = result at hfound
  obtain ⟨found, tables⟩ := result
  have hiff := hfound.isSome.trans hknown
  cases found with
  | some symbol =>
    refine ⟨fun name' hstrays => ?_, (hc.same hfound.same hfound.named).use name, hfound.same.1⟩
    rcases Mark.strays_cons.1 hstrays with ⟨heq, hunknown⟩ | h
    · cases heq
      rw [hiff.1 rfl] at hunknown
      cases hunknown
    · exact Mark.not_strays_nil h
  | none =>
    refine .inr ⟨name, rfl, Mark.strays_cons.2 (.inl ⟨rfl, ?_⟩)⟩
    rw [Bool.eq_false_iff]
    exact fun h => nomatch hiff.2 h

theorem follows_define (name : String) : Follows (define name) [.bind name] := by
  intro c before hc
  refine ⟨fun _ hstrays => ?_, hc.define name, rfl⟩
  rcases Mark.strays_cons.1 hstrays with ⟨h, -⟩ | h
  · cases h
  · exact Mark.not_strays_nil h

theorem follows_bind (name : String) : Follows (Gen.bind name) [.bind name] := by
  refine (follows_define name).then fun symbol => ?_
  split
  · exact (within_checkLimit _ _).bind fun _ => within_emit _
  · exact (within_checkLimit _ _).bind fun _ => within_emit _

theorem passes_openFunction {c : Compiler} {before : List Mark} (name : Option String)
    (parameters : List String) (hc : Matches c.tables.toList before) :
    Passes before (c.tables.depth + 1) [.enter (name.toList ++ parameters)]
      (openFunction name parameters c) := by
  cases hopen : openFunction name parameters c with
  | ok u c₁ =>
    have htables : c₁.tables = c.tables.enter (.ofFunction name parameters) :=
      congrArg Stage.tables (openFunction_code hopen).1
    refine ⟨fun _ hstrays => ?_, ?_, ?_⟩
    · rcases Mark.strays_cons.1 hstrays with ⟨h, -⟩ | h
      · cases h
      · exact Mark.not_strays_nil h
    · rw [htables]
      exact hc.enter name parameters
    · rw [htables]
      rfl
  | error e c₁ => exact absurd hopen (openFunction_ne_error name parameters)

theorem passes_leave {c : Compiler} {before : List Mark} {d : Nat}
    (hc : Matches c.tables.toList before) (hdepth : c.tables.depth = d + 2) :
    Passes before (d + 1) [.leave] (leave c) := by
  obtain ⟨constants, ⟨inner, outer⟩, buffers⟩ := c
  cases outer with
  | nil => cases hdepth
  | cons table outer =>
    refine ⟨fun _ hstrays => ?_, hc.leave, Nat.succ_inj.1 hdepth⟩
    rcases Mark.strays_cons.1 hstrays with ⟨h, -⟩ | h
    · cases h
    · exact Mark.not_strays_nil h

/-- Closing a function.  Its captures are loaded without looking their names up. -/
theorem passes_closeFunction {c : Compiler} {before : List Mark} {d : Nat} (parameters : Nat)
    (hc : Matches c.tables.toList before) (hdepth : c.tables.depth = d + 2) :
    Passes before (d + 1) [.leave] (closeFunction parameters c) := by
  refine (hdepth ▸ within_closeBody.follows c before hc).bind fun _ c₁ hc₁ hdepth₁ => ?_
  refine (passes_leave hc₁ hdepth₁).bind fun closed c₂ hc₂ hdepth₂ => ?_
  -- captures are loaded by their symbols, without looking a name up
  exact hdepth₂ ▸ Within.follows (within_closure parameters closed.1 closed.2) c₂ _ hc₂

theorem follows_function {body : Gen Unit} (hbody : Follows body marks) (name : Option String)
    (parameters : List String) :
    Follows (openFunction name parameters >>= fun _ => body >>= fun _ =>
      closeFunction parameters.length)
      (.enter (name.toList ++ parameters) :: (marks ++ [.leave])) := by
  intro c before hc
  refine (passes_openFunction name parameters hc).bind fun _ c₁ hc₁ hdepth₁ => ?_
  refine (hdepth₁ ▸ hbody c₁ _ hc₁).bind fun _ c₂ hc₂ hdepth₂ => ?_
  exact passes_closeFunction parameters.length hc₂ hdepth₂

/-! ## Trees -/

mutual

theorem expr_follows : (e : Expr) → {name : Option String} → e.isWritable name = true →
    Follows (expr e) (e.marks true)
  | .identifier name, _, _ => (follows_resolve name).then fun _ => within_emit _
  | .integer _, _, _ => (within_addConstant _).follows.then fun _ => within_emit _
  | .boolean _, _, _ => (within_emit _).follows
  | .string _, _, _ => (within_addConstant _).follows.then fun _ => within_emit _
  | .array elements, _, h => (exprs_follow elements h).then fun _ =>
    (within_checkLimit _ _).bind fun _ => within_emit _
  | .hash pairs, _, h => (entries_follow pairs h).then fun _ =>
    (within_checkLimit _ _).bind fun _ => within_emit _
  | .unary operator operand, _, h => by
    obtain ⟨hunary, hoperand⟩ := Bool.and_eq_true_iff.1 h
    exact (expr_follows operand hoperand).then fun _ => aside_unary hunary
  | .binary left operator right, _, h => by
    obtain ⟨h, hright⟩ := Bool.and_eq_true_iff.1 h
    obtain ⟨hbinary, hleft⟩ := Bool.and_eq_true_iff.1 h
    by_cases hless : operator = .lessThan
    · -- the right operand is compiled first, as its marks come first
      subst hless
      exact (expr_follows right hright).bind fun _ =>
        (expr_follows left hleft).then fun _ => within_emit _
    · have hmarks : (Expr.binary left operator right).marks true =
          left.marks true ++ right.marks true := by simp [Expr.marks, hless]
      rw [hmarks, expr, if_neg hless]
      exact (expr_follows left hleft).bind fun _ =>
        (expr_follows right hright).then fun _ => aside_binary (by simpa using hbinary) hless
  | .conditional condition consequence alternative, _, h => by
    obtain ⟨hcondition, hthen, helse⟩ := Expr.isWritable_conditional.1 h
    -- neither block opens a table, so what the first one binds is known in the second one
    rw [Expr.marks_conditional]
    unfold expr
    refine (expr_follows condition hcondition).bind fun _ => ?_
    refine (within_emitAt _).then fun _ => within_position.then fun _ => ?_
    refine (stmts_follow consequence hthen).bind fun _ => ?_
    refine (within_closeBranch _).then fun _ => (within_emitAt _).then fun _ => ?_
    refine (within_patchHere _).then fun _ => ?_
    cases alternative with
    | none => exact (within_emit _).then fun _ => (within_patchHere _).follows
    | some alternative =>
      refine within_position.then fun _ => (stmts_follow alternative (helse _ rfl)).then fun _ => ?_
      exact (within_closeBranch _).bind fun _ => within_patchHere _
  | .function name parameters body, _, h =>
    follows_function (stmts_follow body (Bool.and_eq_true_iff.1 h).2) name parameters
  | .call callee arguments, _, h => by
    obtain ⟨hcallee, harguments⟩ := Bool.and_eq_true_iff.1 h
    exact (expr_follows callee hcallee).bind fun _ =>
      (exprs_follow arguments harguments).then fun _ =>
        (within_checkLimit _ _).bind fun _ => within_emit _
  | .index collection key, _, h => by
    obtain ⟨hcollection, hkey⟩ := Bool.and_eq_true_iff.1 h
    exact (expr_follows collection hcollection).bind fun _ =>
      (expr_follows key hkey).then fun _ => within_emit _

theorem exprs_follow : (es : List Expr) → Expr.areWritable es = true →
    Follows (exprs es) (Expr.marksOf true es)
  | [], _ => (within_pure ()).follows
  | e :: rest, h => by
    obtain ⟨he, hrest⟩ := Bool.and_eq_true_iff.1 h
    exact (expr_follows e he).bind fun _ => exprs_follow rest hrest

theorem entries_follow : (pairs : List (Expr × Expr)) → Expr.pairsAreWritable pairs = true →
    Follows (entries pairs) (Expr.marksOfPairs true pairs)
  | [], _ => (within_pure ()).follows
  | (key, value) :: rest, h => by
    obtain ⟨h, hrest⟩ := Bool.and_eq_true_iff.1 h
    obtain ⟨hkey, hvalue⟩ := Bool.and_eq_true_iff.1 h
    unfold entries
    split
    · exact (expr_follows key hkey).bind fun _ => (expr_follows value hvalue).bind fun _ =>
        entries_follow rest hrest
    · -- compilation ends at such a key, whatever the entries behind it use
      exact fun _ _ _ => .inl rfl

theorem stmt_follows : (s : Stmt) → s.isWritable = true → Follows (stmt s) (s.marks true)
  | .bind name value, h => (expr_follows value h).bind fun _ => follows_bind name
  | .ret value, h => (expr_follows value h).then fun _ => within_emit _
  | .eval value, h => (expr_follows value h).then fun _ => within_emit _

theorem stmts_follow : (body : Program) → Program.isWritable body = true →
    Follows (stmts body) (Program.marks true body)
  | [], _ => (within_pure ()).follows
  | s :: rest, h => by
    obtain ⟨hs, hrest⟩ := Bool.and_eq_true_iff.1 h
    exact (stmt_follows s hs).bind fun _ => stmts_follow rest hrest

end

end Gen

/-! ## Programs -/

theorem Chain.matches_start : Matches [SymbolTable.withBuiltins] [] := by
  refine ⟨fun table ht => ?_, fun n hn x => ?_⟩
  · obtain rfl := List.mem_singleton.1 ht
    exact fun name symbol => SymbolTable.soundProgram_withBuiltins.sound.name
  · obtain rfl := Nat.lt_one_iff.1 hn
    refine known_cons.trans ((or_iff_left (by simp [Known])).trans ?_)
    rw [SymbolTable.knows_withBuiltins, Mark.isKnown, Mark.isBound, Bool.or_false]

/-- Unless a program is refused for a number that does not fit or for a key that cannot be one, it
is compiled exactly if it uses every name where that is known, and otherwise refused for a name that
it uses where that is not known.  The right operand of `<` counts as standing before the left
one. -/
theorem Program.compile_scoping {program : Program} {result : Except CompileError Unit}
    {c : Compiler} (hwritable : Program.isWritable program = true)
    (hcompile : Compiler.start.compile program = (result, c))
    (haside : ∀ e, result = .error e → e.isAside = false) :
    (result = .ok () ↔ Mark.WellScoped (Program.marks true program)) ∧
      (¬ Mark.WellScoped (Program.marks true program) →
        ∃ name, Mark.Strays [] (Program.marks true program) name ∧
          result = .error (.undefinedVariable name)) := by
  have hpasses := Gen.stmts_follow program hwritable Compiler.start [] Chain.matches_start
  unfold Compiler.compile at hcompile
  dsimp only at hcompile
  cases hstmts : Gen.stmts program Compiler.start with
  | ok u after =>
    rw [hstmts] at hcompile hpasses
    cases hcompile
    have hscoped : Mark.WellScoped (Program.marks true program) := hpasses.1
    exact ⟨iff_of_true rfl hscoped, fun h => absurd hscoped h⟩
  | error e after =>
    rw [hstmts] at hcompile hpasses
    cases hcompile
    rcases hpasses with h | ⟨name, rfl, hstrays⟩
    · rw [haside e rfl] at h
      cases h
    · exact ⟨iff_of_false nofun fun h => h name hstrays, fun _ => ⟨name, hstrays, rfl⟩⟩

/-- A comparison with `<` of which the right operand binds what the left one uses. -/
def Program.boundOnRight : Program :=
  [.eval (.binary (.identifier "x") .lessThan
    (.conditional (.boolean true) [.bind "x" (.integer 1), .eval (.identifier "x")] none))]

/-- A comparison with `<` of which the left operand binds what the right one uses. -/
def Program.boundOnLeft : Program :=
  [.eval (.binary
    (.conditional (.boolean true) [.bind "x" (.integer 1), .eval (.identifier "x")] none) .lessThan
    (.identifier "x"))]

theorem Program.boundOnRight_scoped :
    ∃ c, Program.isWritable Program.boundOnRight = true ∧
      Compiler.start.compile Program.boundOnRight = (.ok (), c) ∧
      Mark.WellScoped (Program.marks true Program.boundOnRight) := by
  have hok : (Compiler.start.compile Program.boundOnRight).1.toOption.isSome = true := by
    decide +kernel
  cases hcompile : Compiler.start.compile Program.boundOnRight with
  | mk result c =>
    rw [hcompile] at hok
    cases result with
    | error e => cases hok
    | ok u =>
      exact ⟨c, by decide, rfl, (Program.compile_scoping (by decide) hcompile nofun).1.1 rfl⟩

/-- In the order of the text, the first of these programs uses a name where it is not known, and it
is compiled; the second one does not, and it is refused. -/
theorem Program.textOrder_fails :
    (Program.isWritable Program.boundOnRight = true ∧
      (Compiler.start.compile Program.boundOnRight).1.toOption.isSome = true ∧
      ¬ Mark.WellScoped (Program.marks false Program.boundOnRight)) ∧
    Program.isWritable Program.boundOnLeft = true ∧
      (∃ c, Compiler.start.compile Program.boundOnLeft = (.error (.undefinedVariable "x"), c)) ∧
      Mark.WellScoped (Program.marks false Program.boundOnLeft) := by
  refine ⟨⟨by decide, by decide +kernel, fun h => h "x" (by decide)⟩, by decide, ?_, ?_⟩
  · have hrefused : (Compiler.start.compile Program.boundOnLeft).1 =
        .error (.undefinedVariable "x") := rfl
    exact ⟨_, Prod.ext hrefused rfl⟩
  · simp [Program.boundOnLeft, Program.marks, Stmt.marks, Expr.marks, Mark.WellScoped,
      Mark.strays_cons, Mark.not_strays_nil, Mark.isKnown, Mark.isBound]

end Scriptlet
