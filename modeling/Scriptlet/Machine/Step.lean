import Scriptlet.Builtin.Call
import Scriptlet.Bytecode.Decode
import Scriptlet.Machine.Operate

/-!
# Running the machine

`Exec.step` makes one step: it looks up the operation at the position of the running frame, makes
sure that there is room for its operands, reads them and executes the instruction.  Every operation
reads operands of its own, and a read moves the position behind what it reads.  An unknown byte and
a cut-off instruction are not moved past; any other error arises behind the instruction, so a second
run goes on with the next one.

A program ends when its frame has no more instructions.  `Exec.run` makes steps until then, or until
an error, or until it has made as many as it was allowed.
-/

namespace Scriptlet

namespace Machine

/-- Puts `null` into `count` slots from `start` on. -/
def clear (stack : Array Value) (start : Nat) : (count : Nat) → Array Value
  | 0 => stack
  | count + 1 => clear (stack.setIfInBounds start .null) (start + 1) count

namespace Exec

/-- Continues with the outcome of an operation on values. -/
def lift {α : Type} : Except Error α → Exec α
  | .ok a => pure a
  | .error e => fail e

/-- Takes two operands and pushes the result of an arithmetic operation. -/
def arithmetic (op : Op) : Exec Unit := do
  let right ← pop
  let left ← pop
  let stamp := (← get).host.stamp
  let value ← lift (Machine.arithmetic op left right stamp)
  modify fun m => { m with host := m.host.used }
  push value

/-- Takes two operands and pushes the result of a comparison. -/
def comparison (op : Op) : Exec Unit := do
  let right ← pop
  let left ← pop
  let value ← lift (Machine.comparison op left right)
  push (.boolean value)

/-- The stack slot of a local of the running frame. -/
def localSlot (op : Op) (index : Nat) : Exec Nat := do
  let slot := (← get).frame.base + index
  if slot < stackSize then return slot else fail (.invalidOperand op index)

/-- Starts a call of a closure whose arguments are on the stack.  The locals that are not arguments
start as `null`. -/
def callClosure (stamp : Stamp) (routine : Routine) (free : List Value) (count : Nat) : Exec Unit :=
  fun m =>
    if count ≠ routine.parameters then
      .error (.error (.wrongArgumentCount routine.parameters count)) m
    else if maxFrames ≤ m.depth then .error (.error .frameOverflow) m
    else if m.sp < count then .error .outOfBounds m
    else
      let base := m.sp - count
      let sp := base + routine.locals
      if stackSize < sp then .error (.error .stackOverflow) m
      else if m.stack.size < sp then .error .outOfBounds m
      else
        .ok () { m with
          stack := clear m.stack m.sp (sp - m.sp)
          sp := sp
          frame := ⟨stamp, routine, free, 0, base⟩
          callers := m.callers.push m.frame }

/-- Calls a builtin function whose arguments are on the stack and replaces them and the function by
its answer. -/
def callBuiltin (function : Builtin) (count : Nat) : Exec Unit := do
  let arguments ← topmost count
  let answer ← fun m =>
    let (answer, host) := function.call arguments m.host
    .ok answer { m with host := host }
  drop (count + 1)
  push answer

/-- Calls the function below `count` arguments. -/
def call (count : Nat) : Exec Unit := do
  let m ← get
  if m.sp < count + 1 then fail .stackUnderflow
  else
    match ← inBounds m.stack[m.sp - (count + 1)]? with
    | .closure stamp routine free => callClosure stamp routine free count
    | .builtin function => callBuiltin function count
    | other => fail (.notAFunction other.kind)

/-- Ends the running call with a value, which takes the place of the function that was called.  A
return of the program itself ends the program with the value as its result. -/
def returnWith (value : Value) : Exec Unit := do
  let frame := (← get).frame
  match (← get).callers.back? with
  | none => do
    push value
    drop 1
    jump frame.routine.code.size
  | some caller => do
    modify fun m => { m with frame := caller, callers := m.callers.pop }
    if frame.base = 0 then fail .stackUnderflow
    else
      modify fun m => { m with sp := frame.base - 1 }
      push value

/-- Makes a closure of a constant and the topmost `count` values. -/
def makeClosure (index count : Nat) : Exec Unit := do
  match (← get).constants[index]? with
  | some (.routine _ routine) => do
    let free ← topmost count
    drop count
    let value ← make fun stamp => .closure stamp routine free
    push value
  | some other => fail (.notAFunction other.kind)
  | none => fail (.invalidConstant index)

/-- Executes an instruction. -/
def execute : Instruction → Exec Unit
  | .constant index => do
    match (← get).constants[index]? with
    | some value => push value
    | none => fail (.invalidConstant index)
  | .add => arithmetic .add
  | .sub => arithmetic .sub
  | .mul => arithmetic .mul
  | .div => arithmetic .div
  | .equal => comparison .equal
  | .notEqual => comparison .notEqual
  | .greaterThan => comparison .greaterThan
  | .pop => do
    let _ ← pop
  | .pushTrue => push (.boolean true)
  | .pushFalse => push (.boolean false)
  | .pushNull => push .null
  | .bang => do
    let operand ← pop
    push (.boolean !operand.isTruthy)
  | .minus => do
    let operand ← pop
    let value ← lift (negative operand)
    push value
  | .jump target => jump target
  | .jumpNotTruthy target => do
    let condition ← pop
    if !condition.isTruthy then jump target
  | .setGlobal index => do
    let value ← pop
    if index < (← get).globals.size then
      modify fun m => { m with globals := m.globals.setIfInBounds index value }
    else throw .outOfBounds
  | .getGlobal index => do
    let value ← inBounds (← get).globals[index]?
    push value
  | .setLocal index => do
    let slot ← localSlot .setLocal index
    let value ← pop
    if slot < (← get).stack.size then
      modify fun m => { m with stack := m.stack.setIfInBounds slot value }
    else throw .outOfBounds
  | .getLocal index => do
    let slot ← localSlot .getLocal index
    let value ← inBounds (← get).stack[slot]?
    push value
  | .getBuiltin index => do
    match Builtin.all[index]? with
    | some function => push (.builtin function)
    | none => fail (.invalidOperand .getBuiltin index)
  | .getFree index => do
    match (← get).frame.free[index]? with
    | some value => push value
    | none => fail (.invalidOperand .getFree index)
  | .currentClosure => do
    let frame := (← get).frame
    push (.closure frame.stamp frame.routine frame.free)
  | .array count => do
    let elements ← topmost count
    drop count
    let value ← make fun stamp => .array stamp elements
    push value
  | .hash count => do
    let values ← topmost count
    let pairs ← lift (pairsOf values)
    drop count
    let value ← make fun stamp => .hash stamp (Value.entriesOf pairs)
    push value
  | .index => do
    let key ← pop
    let collection ← pop
    let value ← lift (select collection key)
    push value
  | .call count => call count
  | .returnValue => do
    let value ← pop
    returnWith value
  | .returnNull => returnWith .null
  | .closure index count => makeClosure index count

/-- Reads the byte at the position of the running frame. -/
def readByte : Exec Nat := do
  let frame := (← get).frame
  let operand ← inBounds (frame.routine.code.byte? frame.ip)
  jump (frame.ip + 1)
  return operand

/-- Reads the two-byte number at the position of the running frame. -/
def readWord : Exec Nat := do
  let frame := (← get).frame
  let operand ← inBounds (frame.routine.code.word? frame.ip)
  jump (frame.ip + 2)
  return operand

/-- Reads the operands of an operation from behind its byte, and gives the instruction. -/
def readInstruction : Op → Exec Instruction
  | .constant => return .constant (← readWord)
  | .add => return .add
  | .sub => return .sub
  | .mul => return .mul
  | .div => return .div
  | .equal => return .equal
  | .notEqual => return .notEqual
  | .greaterThan => return .greaterThan
  | .pop => return .pop
  | .pushTrue => return .pushTrue
  | .pushFalse => return .pushFalse
  | .pushNull => return .pushNull
  | .bang => return .bang
  | .minus => return .minus
  | .jump => return .jump (← readWord)
  | .jumpNotTruthy => return .jumpNotTruthy (← readWord)
  | .setGlobal => return .setGlobal (← readWord)
  | .getGlobal => return .getGlobal (← readWord)
  | .setLocal => return .setLocal (← readByte)
  | .getLocal => return .getLocal (← readByte)
  | .getBuiltin => return .getBuiltin (← readByte)
  | .getFree => return .getFree (← readByte)
  | .currentClosure => return .currentClosure
  | .array => return .array (← readWord)
  | .hash => return .hash (← readWord)
  | .index => return .index
  | .call => return .call (← readByte)
  | .returnValue => return .returnValue
  | .returnNull => return .returnNull
  | .closure => do
    let index ← readWord
    let count ← readByte
    return .closure index count

/-- Makes one step, and says whether there was one to make. -/
def step : Exec Bool := do
  let frame := (← get).frame
  let code := frame.routine.code
  match code[frame.ip]? with
  | none => return false
  | some byte =>
    match Op.ofByte? byte with
    | none => fail (.unknownOpcode byte frame.ip)
    | some op =>
      if code.size < frame.ip + 1 + op.width then fail (.truncatedInstruction frame.ip)
      else
        jump (frame.ip + 1)
        let i ← readInstruction op
        execute i
        return true

/-- Makes steps until the program ends, but no more than the given number. -/
def run : (fuel : Nat) → Exec Unit
  | 0 => throw .outOfFuel
  | fuel + 1 => do
    if ← step then run fuel

end Exec

/-- More steps than a run makes in practice. -/
def patience : Nat := 0x10000000000

/-- Runs a machine from the state it is in, for at most so many steps.  The machine afterwards can
be run again. -/
def runFor (m : Machine) (fuel : Nat) : Except Halt Unit × Machine :=
  match Exec.run fuel m with
  | .ok _ after => (.ok (), after)
  | .error halt after => (.error halt, after)

/-- Runs a machine from the state it is in. -/
def run (m : Machine) : Except Halt Unit × Machine := m.runFor patience

end Machine

end Scriptlet
