import Scriptlet.Bytecode
import Scriptlet.Codegen.Buffer
import Scriptlet.Codegen.Error
import Scriptlet.Scope.Chain

/-!
# The state of compilation

While a program is compiled there is one table of names and one buffer of code for the program and
for every function literal around the place that compilation has come to, and one pool of constants
for all of them.  An error keeps the state in which it arose; `Compiler.restore` brings that state
back to a checkpoint by cutting off what was added since.
-/

namespace Scriptlet

/-- The state of compilation. -/
structure Compiler where
  constants : Array Value := #[]
  tables : Chain
  buffers : Nest Buffer := ⟨{}, []⟩

/-- The parts of a state that a program can be compiled on top of. -/
structure Checkpoint where
  table : SymbolTable
  constants : Nat
  code : Nat
  last : Option Emitted
  previous : Option Emitted

namespace Compiler

/-- Compilation that goes on from the names and constants of an earlier one, with no code yet. -/
def resume (table : SymbolTable) (constants : Array Value) : Compiler where
  constants := constants
  tables := ⟨table, []⟩

/-- Compilation of a first program. -/
def start : Compiler := resume .withBuiltins #[]

/-- The table of the program. -/
def globals (c : Compiler) : SymbolTable := c.tables.outermost

/-- The code of the innermost buffer with the constants. -/
def bytecode (c : Compiler) : Bytecode := ⟨c.buffers.inner.code, c.constants⟩

/-- The checkpoint to return to if a program turns out to be wrong. -/
def checkpoint (c : Compiler) : Checkpoint where
  table := c.tables.outermost
  constants := c.constants.size
  code := c.buffers.outermost.code.size
  last := c.buffers.outermost.last
  previous := c.buffers.outermost.previous

/-- Leaves all functions and cuts off what was added since a checkpoint. -/
def restore (c : Compiler) (saved : Checkpoint) : Compiler where
  constants := c.constants.shrink saved.constants
  tables := ⟨saved.table, []⟩
  buffers := ⟨⟨c.buffers.outermost.code.shrink saved.code, saved.last, saved.previous⟩, []⟩

end Compiler

/-- A step of compilation.  An error keeps the state in which it arose. -/
abbrev Gen := EStateM CompileError Compiler

namespace Gen

/-- Refuses a count that does not fit into the operand for it. -/
def checkLimit (resource : Resource) (count : Nat) : Gen Unit :=
  if count ≤ resource.limit then pure () else throw (.overflow resource count)

/-- The size of the code in the innermost buffer. -/
def position : Gen Nat := fun c => .ok c.buffers.inner.code.size c

/-- Changes the innermost buffer. -/
def modifyBuffer (f : Buffer → Buffer) : Gen Unit := fun c =>
  .ok () { c with buffers := c.buffers.modify f }

/-- Changes the innermost table. -/
def modifyTable (f : SymbolTable → SymbolTable) : Gen Unit := fun c =>
  .ok () { c with tables := c.tables.modify f }

/-- Emits an instruction into the innermost buffer. -/
def emit (i : Instruction) : Gen Unit := modifyBuffer (·.emit i)

/-- Emits an instruction and says where it stands. -/
def emitAt (i : Instruction) : Gen Nat := do
  let p ← position
  emit i
  return p

/-- Fills in the jump at a position so that it leads to the end of the code. -/
def patchHere (jump : Nat) : Gen Unit := do
  let target ← position
  checkLimit .bytes target
  modifyBuffer (·.patch jump target)

/-- Adds a constant to the pool and says at which position; its stamp is that position. -/
def addConstant (make : Stamp → Value) : Gen Nat := do
  let index := (← get).constants.size
  checkLimit .constants index
  modify fun c => { c with constants := c.constants.push (make (.constant index)) }
  return index

/-- The symbol that a name stands for, captured by the functions between as needed. -/
def resolve (name : String) : Gen Symbol := fun c =>
  match c.tables.resolve name with
  | (some symbol, tables) => .ok symbol { c with tables := tables }
  | (none, tables) => .error (.undefinedVariable name) { c with tables := tables }

/-- Emits the instruction that loads the value of a symbol. -/
def load (symbol : Symbol) : Gen Unit :=
  emit <|
    match symbol.place with
    | .globalSlot => .getGlobal symbol.index
    | .localSlot => .getLocal symbol.index
    | .builtin => .getBuiltin symbol.index
    | .captured => .getFree symbol.index
    | .itself => .currentClosure

/-- Emits loads of symbols, one behind the other. -/
def loadAll : List Symbol → Gen Unit
  | [] => pure ()
  | symbol :: rest => do
    load symbol
    loadAll rest

/-- Defines a name in the innermost table and says by which symbol. -/
def define (name : String) : Gen Symbol := do
  let symbol := (← get).tables.inner.nextSymbol name
  modifyTable (·.define name)
  return symbol

/-- Defines names, one behind the other. -/
def defineAll : List String → Gen Unit
  | [] => pure ()
  | name :: rest => do
    let _ ← define name
    defineAll rest

/-- Opens the table and the buffer of a function. -/
def enter : Gen Unit := fun c =>
  .ok () { c with tables := c.tables.enclose, buffers := c.buffers.enter {} }

/-- Closes the table and the buffer of a function and hands them over. -/
def leave : Gen (Code × SymbolTable) := fun c =>
  .ok (c.buffers.inner.code, c.tables.inner)
    { c with tables := c.tables.leave, buffers := c.buffers.leave }

end Gen

end Scriptlet
