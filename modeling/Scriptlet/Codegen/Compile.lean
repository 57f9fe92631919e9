import Scriptlet.Codegen.State

/-!
# Compiling programs

Every expression is compiled to code that leaves one value on the stack, every statement to code
that leaves none.  The order of the code is the order of evaluation, with one exception: there is no
operation for `<`, so `a < b` is compiled as `b > a` and evaluates `b` first.

A block that stands for a value gives up the `pop` behind its last expression; one that does not end
in an expression pushes `null` instead.  Jumps are emitted with a placeholder for a target and
filled in when the target is reached.

Operands are checked against the room there is for them only after the code before has been emitted,
so a program that is refused leaves a half-built state behind, from which `Compiler.compile`
returns to the state before the program.
-/

namespace Scriptlet

namespace Gen

/-- The target of a jump that is not filled in yet. -/
def placeholder : Nat := 9999

/-- The operation that an operator between two operands is compiled to; there is none for `<`. -/
def binaryInstruction? : Operator → Option Instruction
  | .add => some .add
  | .subtract => some .sub
  | .multiply => some .mul
  | .divide => some .div
  | .equal => some .equal
  | .notEqual => some .notEqual
  | .greaterThan => some .greaterThan
  | .lessThan | .not | .negate => none

/-- The operation that an operator before one operand is compiled to. -/
def unaryInstruction? : Operator → Option Instruction
  | .not => some .bang
  | .negate => some .minus
  | _ => none

/-- Emits the instruction of an operator, if the operator has one in this place. -/
def emitOperator (operator : Operator) : Option Instruction → Gen Unit
  | some i => emit i
  | none => throw (.unknownOperator operator)

/-- Whether the value of an expression can be a key as far as its form shows. -/
def mayBeKey : Expr → Bool
  | .function _ _ _ | .array _ | .hash _ => false
  | _ => true

/-- Stores the value on the stack under a name that is now defined. -/
def bind (name : String) : Gen Unit := do
  let symbol ← define name
  match symbol.place with
  | .globalSlot => do
    checkLimit .globals symbol.index
    emit (.setGlobal symbol.index)
  | _ => do
    checkLimit .locals symbol.index
    emit (.setLocal symbol.index)

/-- Ends a block that stands for a value, of which the code starts at `start`. -/
def closeBranch (start : Nat) : Gen Unit := do
  let buffer := (← get).buffers.inner
  if start < buffer.code.size && buffer.endsIn .pop then
    modifyBuffer (·.dropLast)
  else
    emit .pushNull

/-- Ends a function body: its last expression is returned, or `null` if it does not end in one. -/
def closeBody : Gen Unit := do
  if (← get).buffers.inner.endsIn .pop then
    modifyBuffer (·.returnLast)
  if !(← get).buffers.inner.endsIn .returnValue then
    emit .returnNull

/-- Opens a function, whose own name and parameters are the first it knows. -/
def openFunction (name : Option String) (parameters : List String) : Gen Unit := do
  enter
  match name with
  | some name => modifyTable (·.defineItself name)
  | none => pure ()
  defineAll parameters

/-- Closes a function and emits code that makes a closure of it. -/
def closeFunction (parameters : Nat) : Gen Unit := do
  closeBody
  let (code, table) ← leave
  checkLimit .locals table.definitions
  checkLimit .parameters parameters
  checkLimit .captures table.captures.size
  loadAll table.captures.toList
  let index ← addConstant fun stamp => .routine stamp ⟨code, table.definitions, parameters⟩
  emit (.closure index table.captures.size)

mutual

/-- Compiles an expression. -/
def expr : Expr → Gen Unit
  | .identifier name => do
    let symbol ← resolve name
    load symbol
  | .integer value => do
    let index ← addConstant fun _ => .integer value
    emit (.constant index)
  | .boolean value => emit (if value then .pushTrue else .pushFalse)
  | .string contents => do
    let index ← addConstant fun stamp => .string stamp contents
    emit (.constant index)
  | .array elements => do
    exprs elements
    checkLimit .elements elements.length
    emit (.array elements.length)
  | .hash pairs => do
    entries pairs
    checkLimit .entries (2 * pairs.length)
    emit (.hash (2 * pairs.length))
  | .unary operator operand => do
    expr operand
    emitOperator operator (unaryInstruction? operator)
  | .binary left operator right => do
    if operator = .lessThan then
      expr right
      expr left
      emit .greaterThan
    else
      expr left
      expr right
      emitOperator operator (binaryInstruction? operator)
  | .conditional condition consequence alternative => do
    expr condition
    let toAlternative ← emitAt (.jumpNotTruthy placeholder)
    let start ← position
    stmts consequence
    closeBranch start
    let toEnd ← emitAt (.jump placeholder)
    patchHere toAlternative
    match alternative with
    | none => emit .pushNull
    | some alternative => do
      let start ← position
      stmts alternative
      closeBranch start
    patchHere toEnd
  | .function name parameters body => do
    openFunction name parameters
    stmts body
    closeFunction parameters.length
  | .call callee arguments => do
    expr callee
    exprs arguments
    checkLimit .arguments arguments.length
    emit (.call arguments.length)
  | .index collection key => do
    expr collection
    expr key
    emit .index

/-- Compiles expressions, one behind the other. -/
def exprs : List Expr → Gen Unit
  | [] => pure ()
  | e :: rest => do
    expr e
    exprs rest

/-- Compiles the entries of a hash literal, one behind the other. -/
def entries : List (Expr × Expr) → Gen Unit
  | [] => pure ()
  | (key, value) :: rest => do
    if mayBeKey key then
      expr key
      expr value
      entries rest
    else
      throw (.invalidHashKey key)

/-- Compiles a statement. -/
def stmt : Stmt → Gen Unit
  | .bind name value => do
    expr value
    bind name
  | .ret value => do
    expr value
    emit .returnValue
  | .eval value => do
    expr value
    emit .pop

/-- Compiles statements, one behind the other. -/
def stmts : List Stmt → Gen Unit
  | [] => pure ()
  | s :: rest => do
    stmt s
    stmts rest

end

end Gen

/-- Compiles a program on top of a state.  A program that is refused leaves no trace. -/
def Compiler.compile (c : Compiler) (program : Program) : Except CompileError Unit × Compiler :=
  let before := c.checkpoint
  match Gen.stmts program c with
  | .ok _ after => (.ok (), after)
  | .error e after => (.error e, after.restore before)

end Scriptlet
