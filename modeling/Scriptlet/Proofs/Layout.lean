import Scriptlet.Codegen.Compile
import Scriptlet.Proofs.Inversion
import Scriptlet.Proofs.Records

/-!
# The code of a tree

What `Gen` does to its state, said without the state: `ExprCode s p e is s'` holds if the expression
`e`, compiled at the byte offset `p` with the tables and constants `s`, becomes the instructions
`is` and leaves the tables and constants `s'`.  The predicates for lists of expressions, entries of
hashes and statements go along with it.

The relation has one rule for each form of a tree, and a rule lists the checks that were made.  Two
things that compilation does in several moves are one move here.

* A jump is emitted with a placeholder and patched when its target is known.  In the rule for a
  conditional both jumps have their targets, which are sums of extents.
* The `pop` at the end of a block or of a body is taken back or turned into a return after it was
  emitted.  `branchCode` and `bodyCode` say what becomes of the list of instructions.

`Gen.stmts_code` is the way from compilation to the relation, and all that later modules know about
compiled code they know from the relation.
-/

namespace Scriptlet

open Code

/-- The instruction that loads the value of a symbol. -/
def Symbol.load (symbol : Symbol) : Instruction :=
  match symbol.place with
  | .globalSlot => .getGlobal symbol.index
  | .localSlot => .getLocal symbol.index
  | .builtin => .getBuiltin symbol.index
  | .captured => .getFree symbol.index
  | .itself => .currentClosure

/-- The instruction that stores a value under a symbol that has just been defined. -/
def Symbol.store (symbol : Symbol) : Instruction :=
  match symbol.place with
  | .globalSlot => .setGlobal symbol.index
  | _ => .setLocal symbol.index

/-- What the index of a symbol that has just been defined is checked against. -/
def Symbol.slots (symbol : Symbol) : Resource :=
  match symbol.place with
  | .globalSlot => .globals
  | _ => .locals

/-- The table of a function before its body: it knows the function itself and its parameters. -/
def SymbolTable.ofFunction (name : Option String) (parameters : List String) : SymbolTable :=
  parameters.foldl SymbolTable.define
    (match name with
      | some name => defineItself { enclosed := true } name
      | none => { enclosed := true })

/-- The code of a block that stands for a value, from the code of its statements. -/
def branchCode (is : List Instruction) : List Instruction :=
  if is.getLast? = some .pop then is.dropLast else is ++ [.pushNull]

/-- The code of a function body, from the code of its statements. -/
def bodyCode (is : List Instruction) : List Instruction :=
  if is.getLast? = some .pop then is.dropLast ++ [.returnValue]
  else if is.getLast? = some .returnValue then is
  else is ++ [.returnNull]

/-- The tables and the constants at a point of compilation. -/
structure Stage where
  constants : Array Value
  tables : Chain

namespace Stage

/-- Adds a constant. -/
def push (s : Stage) (value : Value) : Stage := { s with constants := s.constants.push value }

/-- Opens a function. -/
def enter (s : Stage) (name : Option String) (parameters : List String) : Stage :=
  { s with tables := s.tables.enter (.ofFunction name parameters) }

/-- Defines a name in the innermost table. -/
def define (s : Stage) (name : String) : Stage :=
  { s with tables := s.tables.modify (·.define name) }

/-- The function that is closed at a stage, of which the statements have the code `is`. -/
def routine (s : Stage) (is : List Instruction) (parameters : Nat) : Routine where
  code := assemble (bodyCode is)
  locals := s.tables.inner.definitions
  parameters := parameters

/-- Closes a function, of which the statements have the code `is`. -/
def leave (s : Stage) (is : List Instruction) (parameters : Nat) : Stage where
  constants :=
    s.constants.push (.routine (.constant s.constants.size) (s.routine is parameters))
  tables := s.tables.leave

/-- The captures of the innermost table. -/
def captures (s : Stage) : List Symbol := s.tables.inner.captures.toList

end Stage

mutual

/-- The code of an expression. -/
inductive ExprCode : Stage → Nat → Expr → List Instruction → Stage → Prop
  | identifier {s : Stage} {p : Nat} {name : String} {symbol : Symbol} {tables : Chain}
      (hresolve : s.tables.resolve name = (some symbol, tables)) :
      ExprCode s p (.identifier name) [symbol.load] { s with tables := tables }
  | integer {s : Stage} {p : Nat} {value : Int64} (hpool : s.constants.size ≤ 65535) :
      ExprCode s p (.integer value) [.constant s.constants.size] (s.push (.integer value))
  | boolean {s : Stage} {p : Nat} {value : Bool} :
      ExprCode s p (.boolean value) [if value then .pushTrue else .pushFalse] s
  | string {s : Stage} {p : Nat} {contents : String} (hpool : s.constants.size ≤ 65535) :
      ExprCode s p (.string contents) [.constant s.constants.size]
        (s.push (.string (.constant s.constants.size) contents))
  | array {s s' : Stage} {p : Nat} {elements : List Expr} {is : List Instruction}
      (helements : ExprsCode s p elements is s') (hcount : elements.length ≤ 65535) :
      ExprCode s p (.array elements) (is ++ [.array elements.length]) s'
  | hash {s s' : Stage} {p : Nat} {pairs : List (Expr × Expr)} {is : List Instruction}
      (hpairs : EntriesCode s p pairs is s') (hcount : 2 * pairs.length ≤ 65535) :
      ExprCode s p (.hash pairs) (is ++ [.hash (2 * pairs.length)]) s'
  | unary {s s' : Stage} {p : Nat} {operator : Operator} {operand : Expr}
      {is : List Instruction} {i : Instruction} (hoperand : ExprCode s p operand is s')
      (hoperator : Gen.unaryInstruction? operator = some i) :
      ExprCode s p (.unary operator operand) (is ++ [i]) s'
  | lessThan {s s₁ s₂ : Stage} {p : Nat} {left right : Expr} {is js : List Instruction}
      (hright : ExprCode s p right is s₁) (hleft : ExprCode s₁ (p + extent is) left js s₂) :
      ExprCode s p (.binary left .lessThan right) (is ++ js ++ [.greaterThan]) s₂
  | binary {s s₁ s₂ : Stage} {p : Nat} {left right : Expr} {operator : Operator}
      {is js : List Instruction} {i : Instruction} (hleft : ExprCode s p left is s₁)
      (hright : ExprCode s₁ (p + extent is) right js s₂)
      (hoperator : Gen.binaryInstruction? operator = some i) :
      ExprCode s p (.binary left operator right) (is ++ js ++ [i]) s₂
  /-- A conditional without an alternative is compiled as one with an empty alternative. -/
  | conditional {s s₁ s₂ s₃ : Stage} {p q r : Nat} {condition : Expr} {consequence : List Stmt}
      {alternative : Option (List Stmt)} {is js ks : List Instruction}
      (hcondition : ExprCode s p condition is s₁)
      (hconsequence : StmtsCode s₁ (p + extent is + 3) consequence js s₂)
      (halternative : StmtsCode s₂ q (alternative.getD []) ks s₃)
      (hq : q = p + extent is + 3 + extent (branchCode js) + 3)
      (hr : r = q + extent (branchCode ks)) (hlimit : r ≤ 65535) :
      ExprCode s p (.conditional condition consequence alternative)
        (is ++ .jumpNotTruthy q :: (branchCode js ++ .jump r :: branchCode ks)) s₃
  | function {s s' : Stage} {p : Nat} {name : Option String} {parameters : List String}
      {body : List Stmt} {is : List Instruction}
      (hbody : StmtsCode (s.enter name parameters) 0 body is s')
      (hlocals : s'.tables.inner.definitions ≤ 255) (hparameters : parameters.length ≤ 255)
      (hcaptures : s'.tables.inner.captures.size ≤ 255) (hpool : s'.constants.size ≤ 65535) :
      ExprCode s p (.function name parameters body)
        (s'.captures.map Symbol.load ++
          [.closure s'.constants.size s'.tables.inner.captures.size])
        (s'.leave is parameters.length)
  | call {s s₁ s₂ : Stage} {p : Nat} {callee : Expr} {arguments : List Expr}
      {is js : List Instruction} (hcallee : ExprCode s p callee is s₁)
      (harguments : ExprsCode s₁ (p + extent is) arguments js s₂)
      (hcount : arguments.length ≤ 255) :
      ExprCode s p (.call callee arguments) (is ++ js ++ [.call arguments.length]) s₂
  | index {s s₁ s₂ : Stage} {p : Nat} {collection key : Expr} {is js : List Instruction}
      (hcollection : ExprCode s p collection is s₁)
      (hkey : ExprCode s₁ (p + extent is) key js s₂) :
      ExprCode s p (.index collection key) (is ++ js ++ [.index]) s₂

/-- The code of expressions, one behind the other. -/
inductive ExprsCode : Stage → Nat → List Expr → List Instruction → Stage → Prop
  | nil {s : Stage} {p : Nat} : ExprsCode s p [] [] s
  | cons {s s₁ s₂ : Stage} {p : Nat} {e : Expr} {rest : List Expr} {is js : List Instruction}
      (hfirst : ExprCode s p e is s₁) (hrest : ExprsCode s₁ (p + extent is) rest js s₂) :
      ExprsCode s p (e :: rest) (is ++ js) s₂

/-- The code of the entries of a hash literal, one behind the other. -/
inductive EntriesCode : Stage → Nat → List (Expr × Expr) → List Instruction → Stage → Prop
  | nil {s : Stage} {p : Nat} : EntriesCode s p [] [] s
  | cons {s s₁ s₂ s₃ : Stage} {p : Nat} {key value : Expr} {rest : List (Expr × Expr)}
      {is js ks : List Instruction} (hform : Gen.mayBeKey key = true)
      (hkey : ExprCode s p key is s₁)
      (hvalue : ExprCode s₁ (p + extent is) value js s₂)
      (hrest : EntriesCode s₂ (p + extent is + extent js) rest ks s₃) :
      EntriesCode s p ((key, value) :: rest) (is ++ js ++ ks) s₃

/-- The code of a statement. -/
inductive StmtCode : Stage → Nat → Stmt → List Instruction → Stage → Prop
  | bind {s s' : Stage} {p : Nat} {name : String} {value : Expr} {is : List Instruction}
      {symbol : Symbol} (hvalue : ExprCode s p value is s')
      (hsymbol : symbol = s'.tables.inner.nextSymbol name)
      (hlimit : symbol.index ≤ symbol.slots.limit) :
      StmtCode s p (.bind name value) (is ++ [symbol.store]) (s'.define name)
  | ret {s s' : Stage} {p : Nat} {value : Expr} {is : List Instruction}
      (hvalue : ExprCode s p value is s') :
      StmtCode s p (.ret value) (is ++ [.returnValue]) s'
  | eval {s s' : Stage} {p : Nat} {value : Expr} {is : List Instruction}
      (hvalue : ExprCode s p value is s') : StmtCode s p (.eval value) (is ++ [.pop]) s'

/-- The code of statements, one behind the other. -/
inductive StmtsCode : Stage → Nat → List Stmt → List Instruction → Stage → Prop
  | nil {s : Stage} {p : Nat} : StmtsCode s p [] [] s
  | cons {s s₁ s₂ : Stage} {p : Nat} {first : Stmt} {rest : List Stmt} {is js : List Instruction}
      (hfirst : StmtCode s p first is s₁) (hrest : StmtsCode s₁ (p + extent is) rest js s₂) :
      StmtsCode s p (first :: rest) (is ++ js) s₂

end

/-! ## The ends of code

The code of an expression never ends in a `pop`.  This is what makes it safe to take back the `pop`
of the statement around it. -/

/-- The instructions end in one that is not a `pop`. -/
def EndsInValue (is : List Instruction) : Prop := ∃ js i, is = js ++ [i] ∧ i ≠ .pop

theorem EndsInValue.getLast?_ne {is : List Instruction} (h : EndsInValue is) :
    is.getLast? ≠ some .pop := by
  obtain ⟨js, i, rfl, hi⟩ := h
  simpa using hi

theorem EndsInValue.prepend {js : List Instruction} (h : EndsInValue js) (is : List Instruction) :
    EndsInValue (is ++ js) := by
  obtain ⟨ks, i, rfl, hi⟩ := h
  exact ⟨is ++ ks, i, (List.append_assoc ..).symm, hi⟩

theorem endsInValue_concat (is : List Instruction) {i : Instruction} (h : i ≠ .pop) :
    EndsInValue (is ++ [i]) := ⟨is, i, rfl, h⟩

@[simp] theorem branchCode_nil : branchCode [] = [.pushNull] := rfl

@[simp] theorem branchCode_concat_pop (is : List Instruction) : branchCode (is ++ [.pop]) = is := by
  simp [branchCode]

theorem branchCode_concat (is : List Instruction) {i : Instruction} (h : i ≠ .pop) :
    branchCode (is ++ [i]) = is ++ [i] ++ [.pushNull] := by
  simp [branchCode, h]

theorem branchCode_append (is : List Instruction) {js : List Instruction} (h : js ≠ []) :
    branchCode (is ++ js) = is ++ branchCode js := by
  rcases List.eq_nil_or_concat js with rfl | ⟨ks, i, rfl⟩
  · exact absurd rfl h
  · rw [List.concat_eq_append, ← List.append_assoc]
    by_cases hi : i = .pop
    · rw [hi, branchCode_concat_pop, branchCode_concat_pop]
    · rw [branchCode_concat _ hi, branchCode_concat _ hi]
      simp

theorem mem_of_mem_branchCode {is : List Instruction} {i : Instruction} (h : i ∈ branchCode is) :
    i ∈ is ∨ i = .pushNull := by
  unfold branchCode at h
  split at h
  · exact .inl ((List.dropLast_prefix is).subset h)
  · simpa using h

theorem Symbol.load_ne_pop (symbol : Symbol) : symbol.load ≠ .pop := by
  unfold Symbol.load
  cases symbol.place <;> exact Instruction.noConfusion

theorem Symbol.store_ne_pop (symbol : Symbol) : symbol.store ≠ .pop := by
  unfold Symbol.store
  cases symbol.place <;> exact Instruction.noConfusion

theorem unaryInstruction?_ne_pop {operator : Operator} {i : Instruction}
    (h : Gen.unaryInstruction? operator = some i) : i ≠ .pop := by
  rintro rfl
  cases operator <;> simp [Gen.unaryInstruction?] at h

theorem binaryInstruction?_ne_pop {operator : Operator} {i : Instruction}
    (h : Gen.binaryInstruction? operator = some i) : i ≠ .pop := by
  rintro rfl
  cases operator <;> simp [Gen.binaryInstruction?] at h

theorem StmtCode.ne_nil {s s' : Stage} {p : Nat} {first : Stmt} {is : List Instruction}
    (h : StmtCode s p first is s') : is ≠ [] := by
  cases h <;> simp

theorem StmtsCode.ne_nil {s s' : Stage} {p : Nat} {first : Stmt} {rest : List Stmt}
    {is : List Instruction} (h : StmtsCode s p (first :: rest) is s') : is ≠ [] := by
  cases h with
  | cons hfirst _ => simp [hfirst.ne_nil]

mutual

theorem ExprCode.endsInValue {s s' : Stage} {p : Nat} {e : Expr} {is : List Instruction} :
    ExprCode s p e is s' → EndsInValue is
  | .identifier _ => endsInValue_concat [] (Symbol.load_ne_pop _)
  | .integer _ => endsInValue_concat [] Instruction.noConfusion
  | .boolean => endsInValue_concat [] (by split <;> exact Instruction.noConfusion)
  | .string _ => endsInValue_concat [] Instruction.noConfusion
  | .array _ _ => endsInValue_concat _ Instruction.noConfusion
  | .hash _ _ => endsInValue_concat _ Instruction.noConfusion
  | .unary _ hoperator => endsInValue_concat _ (unaryInstruction?_ne_pop hoperator)
  | .lessThan _ _ => endsInValue_concat _ Instruction.noConfusion
  | .binary _ _ hoperator => endsInValue_concat _ (binaryInstruction?_ne_pop hoperator)
  | .conditional _ _ halternative _ _ _ => by
    obtain ⟨ks, i, hks, hi⟩ := halternative.endsInValue_branchCode
    rw [hks, ← List.cons_append, ← List.append_assoc, ← List.cons_append, ← List.append_assoc]
    exact endsInValue_concat _ hi
  | .function _ _ _ _ _ => endsInValue_concat _ Instruction.noConfusion
  | .call _ _ _ => endsInValue_concat _ Instruction.noConfusion
  | .index _ _ => endsInValue_concat _ Instruction.noConfusion

theorem StmtCode.endsInValue_branchCode {s s' : Stage} {p : Nat} {first : Stmt}
    {is : List Instruction} : StmtCode s p first is s' → EndsInValue (branchCode is)
  | .bind _ _ _ => by
    rw [branchCode_concat _ (Symbol.store_ne_pop _)]
    exact endsInValue_concat _ Instruction.noConfusion
  | .ret _ => by
    rw [branchCode_concat _ Instruction.noConfusion]
    exact endsInValue_concat _ Instruction.noConfusion
  | .eval hvalue => by
    rw [branchCode_concat_pop]
    exact hvalue.endsInValue

theorem StmtsCode.endsInValue_branchCode {s s' : Stage} {p : Nat} {body : List Stmt}
    {is : List Instruction} : StmtsCode s p body is s' → EndsInValue (branchCode is)
  | .nil => endsInValue_concat [] Instruction.noConfusion
  | @StmtsCode.cons _ _ _ _ _ _ is js hfirst hrest => by
    by_cases hjs : js = []
    · rw [hjs, List.append_nil]
      exact hfirst.endsInValue_branchCode
    · rw [branchCode_append is hjs]
      exact hrest.endsInValue_branchCode.prepend is

end

/-! ## From compilation to code -/

/-- The tables and constants of a state of compilation. -/
def Compiler.stage (c : Compiler) : Stage := ⟨c.constants, c.tables⟩

namespace Gen

/-- The innermost buffer holds the given instructions, and the buffers around it are those of
`c`. -/
structure Emits (c : Compiler) (is : List Instruction) (c' : Compiler) : Prop where
  records : c'.buffers.inner.Records is
  outer : c'.buffers.outer = c.buffers.outer

theorem Emits.trans {c c₁ c₂ : Compiler} {is js : List Instruction} (h : Emits c is c₁)
    (h' : Emits c₁ js c₂) : Emits c js c₂ := ⟨h'.records, h'.outer.trans h.outer⟩

/-- What is emitted in two parts, one behind the other. -/
theorem Emits.append {c c₁ c₂ : Compiler} {is js ks : List Instruction}
    (h : Emits c (is ++ js) c₁) (h' : Emits c₁ (is ++ js ++ ks) c₂) :
    Emits c (is ++ (js ++ ks)) c₂ := by
  rw [← List.append_assoc]
  exact h.trans h'

theorem checkLimit_eq_ok {resource : Resource} {count : Nat} {c c' : Compiler} {u : Unit}
    (h : checkLimit resource count c = .ok u c') : count ≤ resource.limit ∧ c = c' := by
  unfold checkLimit at h
  split at h
  · next hle =>
    cases h
    exact ⟨hle, rfl⟩
  · cases h

theorem emit_code {i : Instruction} {c c' : Compiler} {u : Unit} {is : List Instruction}
    (h : emit i c = .ok u c') (hc : c.buffers.inner.Records is) :
    c'.stage = c.stage ∧ Emits c (is ++ [i]) c' := by
  cases h
  exact ⟨rfl, hc.emit i, rfl⟩

/-- An instruction whose operand is checked first. -/
theorem checkedEmit_code {resource : Resource} {count : Nat} {i : Instruction} {c c' : Compiler}
    {u : Unit} {is : List Instruction}
    (h : (do checkLimit resource count; emit i : Gen Unit) c = .ok u c')
    (hc : c.buffers.inner.Records is) :
    count ≤ resource.limit ∧ c'.stage = c.stage ∧ Emits c (is ++ [i]) c' := by
  obtain ⟨_, c₁, hcheck, h⟩ := bind_eq_ok.1 h
  obtain ⟨hle, rfl⟩ := checkLimit_eq_ok hcheck
  exact ⟨hle, emit_code h hc⟩

theorem emitAt_code {i : Instruction} {c c' : Compiler} {n : Nat} {is : List Instruction}
    (h : emitAt i c = .ok n c') (hc : c.buffers.inner.Records is) :
    n = extent is ∧ c'.stage = c.stage ∧ Emits c (is ++ [i]) c' := by
  cases h
  exact ⟨hc.size, rfl, hc.emit i, rfl⟩

theorem emitOperator_code {operator : Operator} {i? : Option Instruction} {c c' : Compiler}
    {u : Unit} {is : List Instruction} (h : emitOperator operator i? c = .ok u c')
    (hc : c.buffers.inner.Records is) :
    ∃ i, i? = some i ∧ c'.stage = c.stage ∧ Emits c (is ++ [i]) c' := by
  cases i? with
  | none => cases h
  | some i => exact ⟨i, rfl, emit_code h hc⟩

theorem addConstant_code {make : Stamp → Value} {c c' : Compiler} {n : Nat}
    (h : addConstant make c = .ok n c') :
    n = c.constants.size ∧ c.constants.size ≤ 65535 ∧
      c'.stage = c.stage.push (make (.constant c.constants.size)) ∧ c'.buffers = c.buffers := by
  obtain ⟨_, _, hget, h⟩ := bind_eq_ok.1 h
  cases hget
  obtain ⟨_, c₁, hlimit, h⟩ := bind_eq_ok.1 h
  obtain ⟨hle, rfl⟩ := checkLimit_eq_ok hlimit
  cases h
  exact ⟨rfl, hle, rfl, rfl⟩

theorem resolve_code {name : String} {symbol : Symbol} {c c' : Compiler}
    (h : resolve name c = .ok symbol c') :
    c.tables.resolve name = (some symbol, c'.tables) ∧ c'.constants = c.constants ∧
      c'.buffers = c.buffers := by
  unfold resolve at h
  split at h
  · next heq =>
    cases h
    exact ⟨heq, rfl, rfl⟩
  · cases h

theorem load_eq (symbol : Symbol) : load symbol = emit symbol.load := rfl

theorem loadAll_code {symbols : List Symbol} {c c' : Compiler} {u : Unit}
    {is : List Instruction} (h : loadAll symbols c = .ok u c') (hc : c.buffers.inner.Records is) :
    c'.stage = c.stage ∧ Emits c (is ++ symbols.map Symbol.load) c' := by
  induction symbols generalizing c is with
  | nil =>
    cases h
    exact ⟨rfl, by simpa using hc, rfl⟩
  | cons symbol rest ih =>
    obtain ⟨_, c₁, hload, h⟩ := bind_eq_ok.1 h
    rw [load_eq] at hload
    obtain ⟨hstage, hemits⟩ := emit_code hload hc
    obtain ⟨hstage', hemits'⟩ := ih h hemits.records
    refine ⟨hstage'.trans hstage, ?_⟩
    simpa using hemits.trans hemits'

theorem defineAll_code {names : List String} {c c' : Compiler} {u : Unit}
    (h : defineAll names c = .ok u c') :
    c' = { c with
      tables := c.tables.modify fun table => names.foldl SymbolTable.define table } := by
  induction names generalizing c with
  | nil =>
    cases h
    rfl
  | cons name rest ih =>
    obtain ⟨_, c₁, hdefine, h⟩ := bind_eq_ok.1 h
    cases hdefine
    exact ih h

theorem openFunction_code {name : Option String} {parameters : List String} {c c' : Compiler}
    {u : Unit} (h : openFunction name parameters c = .ok u c') :
    c'.stage = c.stage.enter name parameters ∧ c'.buffers = c.buffers.enter {} := by
  obtain ⟨_, c₁, henter, h⟩ := bind_eq_ok.1 h
  cases henter
  cases name with
  | none =>
    rw [defineAll_code h]
    exact ⟨rfl, rfl⟩
  | some name =>
    rw [defineAll_code h]
    exact ⟨rfl, rfl⟩

theorem closeBranch_code {start : Nat} {c c' : Compiler} {u : Unit} {is js : List Instruction}
    (h : closeBranch start c = .ok u c') (hstart : start = extent is)
    (hc : c.buffers.inner.Records (is ++ js)) (hjs : EndsInValue (branchCode js)) :
    c'.stage = c.stage ∧ Emits c (is ++ branchCode js) c' := by
  subst hstart
  obtain ⟨_, _, hget, h⟩ := bind_eq_ok.1 h
  cases hget
  rcases List.eq_nil_or_concat js with rfl | ⟨ks, i, rfl⟩
  · rw [if_neg] at h
    · simpa using emit_code h hc
    · rw [hc.size]
      simp
  · rw [List.concat_eq_append, ← List.append_assoc] at hc
    rw [List.concat_eq_append] at hjs ⊢
    by_cases hi : i = .pop
    · rw [hi] at hc hjs ⊢
      rw [branchCode_concat_pop] at hjs ⊢
      rw [if_pos] at h
      · cases h
        exact ⟨rfl, hc.dropLast (hjs.prepend is).getLast?_ne, rfl⟩
      · rw [hc.size, hc.endsIn, extent_append, extent_append]
        have hpos := extent_pos (List.cons_ne_nil Instruction.pop [])
        simp only [List.getLast?_concat, Option.map_some, Bool.and_eq_true, decide_eq_true_eq]
        exact ⟨by omega, rfl⟩
    · rw [branchCode_concat _ hi]
      rw [if_neg] at h
      · simpa using emit_code h hc
      · rw [hc.endsIn]
        simp only [Bool.and_eq_true, not_and]
        intro _
        cases i <;> simp_all [Instruction.op]

/-- Statements that are closed as a branch become the code of a branch. -/
theorem closeBranch_stmts {s s' : Stage} {p : Nat} {body : List Stmt} {c c₁ c' : Compiler}
    {u : Unit} {is js : List Instruction}
    (h : closeBranch c.buffers.inner.code.size c₁ = .ok u c') (hcode : StmtsCode s p body js s')
    (hc : c.buffers.inner.Records is) (hemits : Emits c (is ++ js) c₁) :
    c'.stage = c₁.stage ∧ Emits c (is ++ branchCode js) c' := by
  obtain ⟨hstage, hemits'⟩ := closeBranch_code h hc.size hemits.records
    hcode.endsInValue_branchCode
  exact ⟨hstage, hemits.trans hemits'⟩

theorem closeBody_code {c c' : Compiler} {u : Unit} {is : List Instruction}
    (h : closeBody c = .ok u c') (hc : c.buffers.inner.Records is) :
    c'.stage = c.stage ∧ Emits c (bodyCode is) c' := by
  obtain ⟨_, _, hget, h⟩ := bind_eq_ok.1 h
  cases hget
  by_cases hpop : is.getLast? = some .pop
  · obtain ⟨js, rfl⟩ := List.getLast?_eq_some_iff.1 hpop
    rw [if_pos (by rw [hc.endsIn, hpop]; rfl)] at h
    obtain ⟨_, c₁, hreturn, h⟩ := bind_eq_ok.1 h
    cases hreturn
    have hrecords := hc.returnLast
    obtain ⟨_, _, hget, h⟩ := bind_eq_ok.1 h
    cases hget
    rw [if_neg] at h
    · cases h
      refine ⟨rfl, ?_, rfl⟩
      simpa [bodyCode] using hrecords
    · rw [Nest.inner_modify, hrecords.endsIn]
      simp [Instruction.op]
  · have hnot : ∀ op i, (∀ j : Instruction, j.op = op → j = i) → is.getLast? ≠ some i →
        c.buffers.inner.endsIn op = false := by
      intro op i hop hi
      rw [hc.endsIn]
      cases hlast : is.getLast? with
      | none => rfl
      | some j =>
        have hj : j.op ≠ op := fun heq => hi (hlast.trans (congrArg some (hop j heq)))
        simpa using hj
    rw [if_neg (by rw [hnot .pop .pop (by intro j; cases j <;> simp [Instruction.op]) hpop]; simp)]
      at h
    obtain ⟨_, _, hget, h⟩ := bind_eq_ok.1 h
    cases hget
    by_cases hret : is.getLast? = some .returnValue
    · rw [if_neg (by rw [hc.endsIn, hret]; simp [Instruction.op])] at h
      cases h
      refine ⟨rfl, ?_, rfl⟩
      simpa [bodyCode, hpop, hret] using hc
    · rw [if_pos (by
        rw [hnot .returnValue .returnValue (by intro j; cases j <;> simp [Instruction.op]) hret]
        rfl)] at h
      have hcode : bodyCode is = is ++ [.returnNull] := by simp [bodyCode, hpop, hret]
      rw [hcode]
      exact emit_code h hc

theorem closeFunction_code {c c' : Compiler} {u : Unit} {n : Nat} {is js : List Instruction}
    {outer : Nest Buffer} (h : closeFunction n c = .ok u c')
    (hc : c.buffers.inner.Records js) (houter : c.buffers.outer = outer.toList)
    (hrecords : outer.inner.Records is) :
    c.tables.inner.definitions ≤ 255 ∧ n ≤ 255 ∧ c.tables.inner.captures.size ≤ 255 ∧
      c.constants.size ≤ 65535 ∧ c'.stage = c.stage.leave js n ∧
      c'.buffers.outer = outer.outer ∧
      c'.buffers.inner.Records (is ++ (c.stage.captures.map Symbol.load ++
        [.closure c.constants.size c.tables.inner.captures.size])) := by
  obtain ⟨_, c₁, hbody, h⟩ := bind_eq_ok.1 h
  obtain ⟨hstage₁, hemits₁⟩ := closeBody_code hbody hc
  obtain ⟨_, c₂, hleave, h⟩ := bind_eq_ok.1 h
  cases hleave
  obtain ⟨_, c₃, hcheck₃, h⟩ := bind_eq_ok.1 h
  obtain ⟨hlocals, rfl⟩ := checkLimit_eq_ok hcheck₃
  obtain ⟨_, c₄, hcheck₄, h⟩ := bind_eq_ok.1 h
  obtain ⟨hparameters, rfl⟩ := checkLimit_eq_ok hcheck₄
  obtain ⟨_, c₅, hcheck₅, h⟩ := bind_eq_ok.1 h
  obtain ⟨hcaptures, rfl⟩ := checkLimit_eq_ok hcheck₅
  obtain ⟨_, c₆, hload, h⟩ := bind_eq_ok.1 h
  have hbuffers : c₁.buffers.leave = outer := by
    rw [Nest.leave, hemits₁.outer, houter]
    rfl
  have hinner : c₁.buffers.leave.inner.Records is := by
    rw [hbuffers]
    exact hrecords
  obtain ⟨hstage₆, hemits₆⟩ := loadAll_code hload hinner
  obtain ⟨_, c₇, hconstant, h⟩ := bind_eq_ok.1 h
  obtain ⟨rfl, hpool, hstage₇, hbuffers₇⟩ := addConstant_code hconstant
  obtain ⟨hstage₈, hemits₈⟩ := emit_code h (by rw [hbuffers₇]; exact hemits₆.records)
  obtain ⟨hconstants₁, htables₁⟩ := Stage.mk.inj hstage₁
  obtain ⟨hconstants₆, htables₆⟩ := Stage.mk.inj hstage₆
  simp only at hconstants₆ htables₆
  rw [htables₁] at hlocals hcaptures
  rw [hconstants₆, hconstants₁] at hpool
  refine ⟨hlocals, hparameters, hcaptures, hpool, ?_, ?_, ?_⟩
  · rw [hstage₈, hstage₇, Compiler.stage, Stage.push, Stage.leave, Stage.routine, Compiler.stage]
    simp only [hconstants₆, htables₆, hconstants₁, htables₁, hemits₁.records.code]
  · rw [hemits₈.outer, hbuffers₇, hemits₆.outer, hbuffers]
  · have hrecords₈ := hemits₈.records
    rw [hconstants₆, hconstants₁, htables₁] at hrecords₈
    simpa [Stage.captures, Compiler.stage] using hrecords₈

theorem patchHere_code {position : Nat} {c c' : Compiler} {u : Unit}
    (h : patchHere position c = .ok u c') :
    c.buffers.inner.code.size ≤ 65535 ∧
      c' = { c with
        buffers := c.buffers.modify (·.patch position c.buffers.inner.code.size) } := by
  obtain ⟨_, _, hposition, h⟩ := bind_eq_ok.1 h
  cases hposition
  obtain ⟨_, c₁, hcheck, h⟩ := bind_eq_ok.1 h
  obtain ⟨hle, rfl⟩ := checkLimit_eq_ok hcheck
  cases h
  exact ⟨hle, rfl⟩

/-- A jump that a condition decides is filled in and leads to the end of the code. -/
theorem patchHere_jumpNotTruthy {old : Nat} {c c' : Compiler} {u : Unit}
    {pre post : List Instruction} (h : patchHere (extent pre) c = .ok u c')
    (hc : c.buffers.inner.Records (pre ++ .jumpNotTruthy old :: post)) :
    c'.stage = c.stage ∧
      Emits c (pre ++ .jumpNotTruthy (extent (pre ++ .jumpNotTruthy old :: post)) :: post) c' := by
  obtain ⟨-, rfl⟩ := patchHere_code h
  rw [← hc.size]
  exact ⟨rfl, hc.patch_jumpNotTruthy, rfl⟩

/-- A jump is filled in and leads to the end of the code, which is within reach of its operand. -/
theorem patchHere_jump {old : Nat} {c c' : Compiler} {u : Unit} {pre post : List Instruction}
    (h : patchHere (extent pre) c = .ok u c')
    (hc : c.buffers.inner.Records (pre ++ .jump old :: post)) :
    extent (pre ++ .jump old :: post) ≤ 65535 ∧ c'.stage = c.stage ∧
      Emits c (pre ++ .jump (extent (pre ++ .jump old :: post)) :: post) c' := by
  obtain ⟨hlimit, rfl⟩ := patchHere_code h
  rw [← hc.size]
  exact ⟨hlimit, rfl, hc.patch_jump, rfl⟩

theorem bind_code {name : String} {c c' : Compiler} {u : Unit} {is : List Instruction}
    (h : Gen.bind name c = .ok u c') (hc : c.buffers.inner.Records is) :
    (c.tables.inner.nextSymbol name).index ≤ (c.tables.inner.nextSymbol name).slots.limit ∧
      c'.stage = c.stage.define name ∧
      Emits c (is ++ [(c.tables.inner.nextSymbol name).store]) c' := by
  obtain ⟨_, _, hdefine, h⟩ := bind_eq_ok.1 h
  cases hdefine
  cases hplace : (c.tables.inner.nextSymbol name).place with
  | globalSlot =>
    simp only [hplace] at h
    obtain ⟨hle, hstage, hemits⟩ := checkedEmit_code h hc
    refine ⟨?_, hstage, ?_⟩
    · simpa [Symbol.slots, hplace] using hle
    · refine ⟨?_, hemits.outer⟩
      simpa [Symbol.store, hplace] using hemits.records
  | localSlot =>
    simp only [hplace] at h
    obtain ⟨hle, hstage, hemits⟩ := checkedEmit_code h hc
    refine ⟨?_, hstage, ?_⟩
    · simpa [Symbol.slots, hplace] using hle
    · refine ⟨?_, hemits.outer⟩
      simpa [Symbol.store, hplace] using hemits.records
  | _ =>
    unfold SymbolTable.nextSymbol at hplace
    split at hplace <;> cases hplace

mutual

theorem expr_code : (e : Expr) → {c c' : Compiler} → {u : Unit} → {is : List Instruction} →
    expr e c = .ok u c' → c.buffers.inner.Records is →
    ∃ js, ExprCode c.stage (extent is) e js c'.stage ∧ Emits c (is ++ js) c'
  | .identifier name, c, c', u, is, h, hc => by
    obtain ⟨symbol, c₁, hresolve, h⟩ := bind_eq_ok.1 h
    obtain ⟨htables, hconstants, hbuffers⟩ := resolve_code hresolve
    rw [load_eq] at h
    obtain ⟨hstage, hemits⟩ := emit_code h (by rw [hbuffers]; exact hc)
    have hstage₁ : c₁.stage = { c.stage with tables := c₁.tables } := by
      rw [Compiler.stage, hconstants]
      rfl
    refine ⟨[symbol.load], ?_, hemits.records, by rw [hemits.outer, hbuffers]⟩
    rw [hstage, hstage₁]
    exact .identifier htables
  | .integer value, c, c', u, is, h, hc => by
    obtain ⟨n, c₁, hconstant, h⟩ := bind_eq_ok.1 h
    obtain ⟨rfl, hpool, hstage₁, hbuffers⟩ := addConstant_code hconstant
    obtain ⟨hstage, hemits⟩ := emit_code h (by rw [hbuffers]; exact hc)
    refine ⟨[.constant c.constants.size], ?_, hemits.records, by rw [hemits.outer, hbuffers]⟩
    rw [hstage, hstage₁]
    exact .integer hpool
  | .boolean value, c, c', u, is, h, hc => by
    obtain ⟨hstage, hemits⟩ := emit_code h hc
    exact ⟨_, hstage ▸ .boolean, hemits⟩
  | .string contents, c, c', u, is, h, hc => by
    obtain ⟨n, c₁, hconstant, h⟩ := bind_eq_ok.1 h
    obtain ⟨rfl, hpool, hstage₁, hbuffers⟩ := addConstant_code hconstant
    obtain ⟨hstage, hemits⟩ := emit_code h (by rw [hbuffers]; exact hc)
    refine ⟨[.constant c.constants.size], ?_, hemits.records, by rw [hemits.outer, hbuffers]⟩
    rw [hstage, hstage₁]
    exact .string hpool
  | .array elements, c, c', u, is, h, hc => by
    obtain ⟨_, c₁, helements, h⟩ := bind_eq_ok.1 h
    obtain ⟨js, hcode, hemits₁⟩ := exprs_code elements helements hc
    obtain ⟨hcount, hstage, hemits⟩ := checkedEmit_code h hemits₁.records
    refine ⟨js ++ [.array elements.length], ?_, hemits₁.append hemits⟩
    rw [hstage]
    exact .array hcode hcount
  | .hash pairs, c, c', u, is, h, hc => by
    obtain ⟨_, c₁, hentries, h⟩ := bind_eq_ok.1 h
    obtain ⟨js, hcode, hemits₁⟩ := entries_code pairs hentries hc
    obtain ⟨hcount, hstage, hemits⟩ := checkedEmit_code h hemits₁.records
    refine ⟨js ++ [.hash (2 * pairs.length)], ?_, hemits₁.append hemits⟩
    rw [hstage]
    exact .hash hcode hcount
  | .unary operator operand, c, c', u, is, h, hc => by
    obtain ⟨_, c₁, hoperand, h⟩ := bind_eq_ok.1 h
    obtain ⟨js, hcode, hemits₁⟩ := expr_code operand hoperand hc
    obtain ⟨i, hoperator, hstage, hemits⟩ := emitOperator_code h hemits₁.records
    refine ⟨js ++ [i], ?_, hemits₁.append hemits⟩
    rw [hstage]
    exact .unary hcode hoperator
  | .binary left operator right, c, c', u, is, h, hc => by
    unfold expr at h
    split at h
    · next hless =>
      obtain ⟨_, c₁, hright, h⟩ := bind_eq_ok.1 h
      obtain ⟨js, hcode₁, hemits₁⟩ := expr_code right hright hc
      obtain ⟨_, c₂, hleft, h⟩ := bind_eq_ok.1 h
      obtain ⟨ks, hcode₂, hemits₂⟩ := expr_code left hleft hemits₁.records
      rw [extent_append] at hcode₂
      have hboth := hemits₁.append hemits₂
      obtain ⟨hstage, hemits⟩ := emit_code h hboth.records
      refine ⟨js ++ ks ++ [.greaterThan], ?_, hboth.append hemits⟩
      rw [hstage, hless]
      exact .lessThan hcode₁ hcode₂
    · obtain ⟨_, c₁, hleft, h⟩ := bind_eq_ok.1 h
      obtain ⟨js, hcode₁, hemits₁⟩ := expr_code left hleft hc
      obtain ⟨_, c₂, hright, h⟩ := bind_eq_ok.1 h
      obtain ⟨ks, hcode₂, hemits₂⟩ := expr_code right hright hemits₁.records
      rw [extent_append] at hcode₂
      have hboth := hemits₁.append hemits₂
      obtain ⟨i, hoperator, hstage, hemits⟩ := emitOperator_code h hboth.records
      refine ⟨js ++ ks ++ [i], ?_, hboth.append hemits⟩
      rw [hstage]
      exact .binary hcode₁ hcode₂ hoperator
  | .conditional condition consequence alternative, c, c', u, is, h, hc => by
    unfold expr at h
    obtain ⟨_, c₁, hcondition, h⟩ := bind_eq_ok.1 h
    obtain ⟨js, hcode₁, hemits₁⟩ := expr_code condition hcondition hc
    obtain ⟨_, c₂, hjump₂, h⟩ := bind_eq_ok.1 h
    obtain ⟨rfl, hstage₂, hemits₂⟩ := emitAt_code hjump₂ hemits₁.records
    obtain ⟨_, _, hposition, h⟩ := bind_eq_ok.1 h
    cases hposition
    obtain ⟨_, c₃, hconsequence, h⟩ := bind_eq_ok.1 h
    obtain ⟨ks, hcode₃, hemits₃⟩ := stmts_code consequence hconsequence hemits₂.records
    obtain ⟨_, c₄, hclose, h⟩ := bind_eq_ok.1 h
    obtain ⟨hstage₄, hemits₄⟩ := closeBranch_stmts hclose hcode₃ hemits₂.records hemits₃
    obtain ⟨_, c₅, hjump₅, h⟩ := bind_eq_ok.1 h
    obtain ⟨rfl, hstage₅, hemits₅⟩ := emitAt_code hjump₅ hemits₄.records
    -- the first jump leads behind the second one
    obtain ⟨_, c₆, hpatch₆, h⟩ := bind_eq_ok.1 h
    have hrecords₅ : c₅.buffers.inner.Records
        (is ++ js ++ .jumpNotTruthy placeholder :: (branchCode ks ++ [.jump placeholder])) := by
      simpa using hemits₅.records
    obtain ⟨hstage₆, hemits₆⟩ := patchHere_jumpNotTruthy hpatch₆ hrecords₅
    generalize hq : extent (is ++ js ++ .jumpNotTruthy placeholder ::
      (branchCode ks ++ [.jump placeholder])) = q at hemits₆
    -- an alternative that is missing has the code of an empty one
    obtain ⟨ls, c₇, hcode₇, hemits₇, hpatch₇⟩ : ∃ ls c₇,
        StmtsCode c₆.stage (extent (is ++ js ++ .jumpNotTruthy q ::
            (branchCode ks ++ [.jump placeholder]))) (alternative.getD []) ls c₇.stage ∧
          Emits c₆ (is ++ js ++ .jumpNotTruthy q ::
            (branchCode ks ++ [.jump placeholder]) ++ branchCode ls) c₇ ∧
          patchHere (extent (is ++ js ++ [.jumpNotTruthy placeholder] ++ branchCode ks)) c₇ =
            .ok u c' := by
      cases alternative with
      | none =>
        obtain ⟨_, c₇, hnull, h⟩ := bind_eq_ok.1 h
        obtain ⟨hstage₇, hemits₇⟩ := emit_code hnull hemits₆.records
        exact ⟨[], c₇, hstage₇ ▸ .nil, hemits₇, h⟩
      | some alternative =>
        obtain ⟨_, _, hposition, h⟩ := bind_eq_ok.1 h
        cases hposition
        obtain ⟨_, c₇, halternative, h⟩ := bind_eq_ok.1 h
        obtain ⟨ls, hcode₇, hemits₇⟩ := stmts_code alternative halternative hemits₆.records
        obtain ⟨_, c₈, hclose, h⟩ := bind_eq_ok.1 h
        obtain ⟨hstage₈, hemits₈⟩ := closeBranch_stmts hclose hcode₇ hemits₆.records hemits₇
        exact ⟨ls, c₈, hstage₈ ▸ hcode₇, hemits₈, h⟩
    -- the second jump leads behind the alternative
    have hskip : extent (is ++ js ++ [.jumpNotTruthy placeholder] ++ branchCode ks) =
        extent (is ++ js ++ .jumpNotTruthy q :: branchCode ks) := by simp
    have hrecords₇ : c₇.buffers.inner.Records
        (is ++ js ++ .jumpNotTruthy q :: branchCode ks ++ .jump placeholder :: branchCode ls) := by
      simpa using hemits₇.records
    rw [hskip] at hpatch₇
    obtain ⟨hlimit, hstage, hemits⟩ := patchHere_jump hpatch₇ hrecords₇
    generalize hr : extent (is ++ js ++ .jumpNotTruthy q :: branchCode ks ++
      .jump placeholder :: branchCode ls) = r at hlimit hemits
    refine ⟨js ++ .jumpNotTruthy q :: (branchCode ks ++ .jump r :: branchCode ls), ?_, ?_, ?_⟩
    · rw [extent_append, extent_append, extent_cons, extent_nil, hstage₂] at hcode₃
      have htarget : extent (is ++ js ++ .jumpNotTruthy q ::
          (branchCode ks ++ [.jump placeholder])) = q := by
        rw [← hq]
        simp
      rw [htarget, hstage₆, hstage₅, hstage₄] at hcode₇
      rw [hstage]
      refine .conditional hcode₁ hcode₃ hcode₇ ?_ ?_ hlimit
      · rw [← hq]
        simp [Nat.add_assoc]
      · rw [← hr, ← hq]
        simp [Nat.add_assoc]
    · simpa using hemits.records
    · rw [hemits.outer, hemits₇.outer, hemits₆.outer, hemits₅.outer, hemits₄.outer, hemits₂.outer,
        hemits₁.outer]
  | .function name parameters body, c, c', u, is, h, hc => by
    obtain ⟨_, c₁, hopen, h⟩ := bind_eq_ok.1 h
    obtain ⟨hstage₁, hbuffers₁⟩ := openFunction_code hopen
    have hempty : c₁.buffers.inner.Records [] := by
      rw [hbuffers₁]
      exact Buffer.records_empty
    obtain ⟨_, c₂, hbody, h⟩ := bind_eq_ok.1 h
    obtain ⟨js, hcode, hemits₂⟩ := stmts_code body hbody hempty
    have houter : c₂.buffers.outer = c.buffers.toList := by rw [hemits₂.outer, hbuffers₁]; rfl
    obtain ⟨hlocals, hparameters, hcaptures, hpool, hstage, houter', hrecords⟩ :=
      closeFunction_code h hemits₂.records houter hc
    rw [hstage₁] at hcode
    refine ⟨_, ?_, hrecords, houter'⟩
    rw [hstage]
    exact .function hcode hlocals hparameters hcaptures hpool
  | .call callee arguments, c, c', u, is, h, hc => by
    obtain ⟨_, c₁, hcallee, h⟩ := bind_eq_ok.1 h
    obtain ⟨js, hcode₁, hemits₁⟩ := expr_code callee hcallee hc
    obtain ⟨_, c₂, harguments, h⟩ := bind_eq_ok.1 h
    obtain ⟨ks, hcode₂, hemits₂⟩ := exprs_code arguments harguments hemits₁.records
    rw [extent_append] at hcode₂
    have hboth := hemits₁.append hemits₂
    obtain ⟨hcount, hstage, hemits⟩ := checkedEmit_code h hboth.records
    refine ⟨js ++ ks ++ [.call arguments.length], ?_, hboth.append hemits⟩
    rw [hstage]
    exact .call hcode₁ hcode₂ hcount
  | .index collection key, c, c', u, is, h, hc => by
    obtain ⟨_, c₁, hcollection, h⟩ := bind_eq_ok.1 h
    obtain ⟨js, hcode₁, hemits₁⟩ := expr_code collection hcollection hc
    obtain ⟨_, c₂, hkey, h⟩ := bind_eq_ok.1 h
    obtain ⟨ks, hcode₂, hemits₂⟩ := expr_code key hkey hemits₁.records
    rw [extent_append] at hcode₂
    have hboth := hemits₁.append hemits₂
    obtain ⟨hstage, hemits⟩ := emit_code h hboth.records
    refine ⟨js ++ ks ++ [.index], ?_, hboth.append hemits⟩
    rw [hstage]
    exact .index hcode₁ hcode₂

theorem exprs_code : (es : List Expr) → {c c' : Compiler} → {u : Unit} →
    {is : List Instruction} → exprs es c = .ok u c' → c.buffers.inner.Records is →
    ∃ js, ExprsCode c.stage (extent is) es js c'.stage ∧ Emits c (is ++ js) c'
  | [], c, c', u, is, h, hc => by
    cases h
    exact ⟨[], .nil, by simpa using hc, rfl⟩
  | e :: rest, c, c', u, is, h, hc => by
    obtain ⟨_, c₁, hfirst, h⟩ := bind_eq_ok.1 h
    obtain ⟨js, hcode₁, hemits₁⟩ := expr_code e hfirst hc
    obtain ⟨ks, hcode₂, hemits₂⟩ := exprs_code rest h hemits₁.records
    rw [extent_append] at hcode₂
    exact ⟨js ++ ks, .cons hcode₁ hcode₂, hemits₁.append hemits₂⟩

theorem entries_code : (pairs : List (Expr × Expr)) → {c c' : Compiler} → {u : Unit} →
    {is : List Instruction} → entries pairs c = .ok u c' → c.buffers.inner.Records is →
    ∃ js, EntriesCode c.stage (extent is) pairs js c'.stage ∧ Emits c (is ++ js) c'
  | [], c, c', u, is, h, hc => by
    cases h
    exact ⟨[], .nil, by simpa using hc, rfl⟩
  | (key, value) :: rest, c, c', u, is, h, hc => by
    unfold entries at h
    split at h
    · next hform =>
      obtain ⟨_, c₁, hkey, h⟩ := bind_eq_ok.1 h
      obtain ⟨js, hcode₁, hemits₁⟩ := expr_code key hkey hc
      obtain ⟨_, c₂, hvalue, h⟩ := bind_eq_ok.1 h
      obtain ⟨ks, hcode₂, hemits₂⟩ := expr_code value hvalue hemits₁.records
      have hboth := hemits₁.append hemits₂
      obtain ⟨ls, hcode₃, hemits₃⟩ := entries_code rest h hboth.records
      rw [extent_append] at hcode₂
      rw [extent_append, extent_append, ← Nat.add_assoc] at hcode₃
      exact ⟨js ++ ks ++ ls, .cons hform hcode₁ hcode₂ hcode₃, hboth.append hemits₃⟩
    · cases h

theorem stmt_code : (first : Stmt) → {c c' : Compiler} → {u : Unit} →
    {is : List Instruction} → stmt first c = .ok u c' → c.buffers.inner.Records is →
    ∃ js, StmtCode c.stage (extent is) first js c'.stage ∧ Emits c (is ++ js) c'
  | .bind name value, c, c', u, is, h, hc => by
    obtain ⟨_, c₁, hvalue, h⟩ := bind_eq_ok.1 h
    obtain ⟨js, hcode, hemits₁⟩ := expr_code value hvalue hc
    obtain ⟨hlimit, hstage, hemits⟩ := bind_code h hemits₁.records
    refine ⟨js ++ [(c₁.tables.inner.nextSymbol name).store], ?_, hemits₁.append hemits⟩
    rw [hstage]
    exact .bind hcode rfl hlimit
  | .ret value, c, c', u, is, h, hc => by
    obtain ⟨_, c₁, hvalue, h⟩ := bind_eq_ok.1 h
    obtain ⟨js, hcode, hemits₁⟩ := expr_code value hvalue hc
    obtain ⟨hstage, hemits⟩ := emit_code h hemits₁.records
    refine ⟨js ++ [.returnValue], ?_, hemits₁.append hemits⟩
    rw [hstage]
    exact .ret hcode
  | .eval value, c, c', u, is, h, hc => by
    obtain ⟨_, c₁, hvalue, h⟩ := bind_eq_ok.1 h
    obtain ⟨js, hcode, hemits₁⟩ := expr_code value hvalue hc
    obtain ⟨hstage, hemits⟩ := emit_code h hemits₁.records
    refine ⟨js ++ [.pop], ?_, hemits₁.append hemits⟩
    rw [hstage]
    exact .eval hcode

/-- Statements that compile have a code, and it is emitted behind what was there before. -/
theorem stmts_code : (body : List Stmt) → {c c' : Compiler} → {u : Unit} →
    {is : List Instruction} → stmts body c = .ok u c' → c.buffers.inner.Records is →
    ∃ js, StmtsCode c.stage (extent is) body js c'.stage ∧ Emits c (is ++ js) c'
  | [], c, c', u, is, h, hc => by
    cases h
    exact ⟨[], .nil, by simpa using hc, rfl⟩
  | first :: rest, c, c', u, is, h, hc => by
    obtain ⟨_, c₁, hfirst, h⟩ := bind_eq_ok.1 h
    obtain ⟨js, hcode₁, hemits₁⟩ := stmt_code first hfirst hc
    obtain ⟨ks, hcode₂, hemits₂⟩ := stmts_code rest h hemits₁.records
    rw [extent_append] at hcode₂
    exact ⟨js ++ ks, .cons hcode₁ hcode₂, hemits₁.append hemits₂⟩

end

end Gen

/-- A program that compiles has a code, and it is emitted behind what was there before. -/
theorem Compiler.compile_code {c c' : Compiler} {program : Program} {is : List Instruction}
    (h : c.compile program = (.ok (), c')) (hc : c.buffers.inner.Records is) :
    ∃ js, StmtsCode c.stage (extent is) program js c'.stage ∧
      Gen.Emits c (is ++ js) c' := by
  unfold Compiler.compile at h
  split at h
  · next hstmts =>
    cases h
    exact Gen.stmts_code program hstmts hc
  · cases h

end Scriptlet
