import Scriptlet.Bytecode
import Scriptlet.Host
import Scriptlet.Machine.Error

/-!
# The state of the machine

A stack of fixed size, the slots of the global names, the constants, and one frame for every call
that is running.  Taking a value off the stack only lowers the stack pointer: the slot keeps its
value until something is pushed over it, which is how the result of a program is found.

A step of the machine that fails keeps the state it has come to, so a run can go on behind the
error.
-/

namespace Scriptlet

/-- A running call. -/
structure Frame where
  /-- The identity of the running function. -/
  stamp : Stamp
  routine : Routine
  free : List Value
  /-- The position of the next instruction. -/
  ip : Nat
  /-- The stack slot of the first local. -/
  base : Nat
  deriving Inhabited

/-- The state of the machine. -/
structure Machine where
  constants : Array Value
  stack : Array Value
  /-- The number of stack slots in use; the next value is pushed into the slot of this number. -/
  sp : Nat
  globals : Array Value
  /-- The frame that is running. -/
  frame : Frame
  /-- The frames that wait for the running one, outermost first. -/
  callers : Array Frame
  host : Host
  deriving Inhabited

namespace Machine

/-- The number of slots of the stack. -/
def stackSize : Nat := 2048

/-- The number of slots for global names. -/
def globalsSize : Nat := 65536

/-- Global slots that hold nothing yet. -/
def emptyGlobals : Array Value := Array.replicate globalsSize .null

/-- Cuts or fills up the global slots to their number. -/
def fitGlobals (globals : Array Value) : Array Value :=
  globals.shrink globalsSize ++ Array.replicate (globalsSize - globals.size) .null

/-- A machine about to run code, on the global slots of an earlier run. -/
def load (bytecode : Bytecode) (globals : Array Value) (host : Host) : Machine where
  constants := bytecode.constants
  stack := Array.replicate stackSize .null
  sp := 0
  globals := fitGlobals globals
  frame := ⟨host.stamp, { code := bytecode.code }, [], 0, 0⟩
  callers := #[]
  host := host.used

/-- A machine about to run code with nothing before it. -/
def start (bytecode : Bytecode) : Machine := load bytecode emptyGlobals {}

/-- The number of calls that are running, the program included. -/
def depth (m : Machine) : Nat := m.callers.size + 1

/-- The value on top of the stack. -/
def top? (m : Machine) : Option Value :=
  if m.sp = 0 then none else m.stack[m.sp - 1]?

/-- The value that was taken off the stack last, which is the result of the last expression of a
program. -/
def lastPopped (m : Machine) : Value := (m.stack[m.sp]?).getD .null

/-- Why a run does not go on. -/
inductive Halt where
  | error (e : Error)
  /-- An access outside of the code, the stack, the globals or the frames, which no state of a
  machine leads to. -/
  | outOfBounds
  /-- The number of steps that were asked for has been made. -/
  | outOfFuel
  deriving DecidableEq

/-- The wording of a halt. -/
def Halt.message : Halt → String
  | error e => e.message
  | outOfBounds => "access out of bounds"
  | outOfFuel => "too many steps"

/-- A step of the machine. -/
abbrev Exec := EStateM Halt Machine

namespace Exec

/-- Stops with an error. -/
def fail {α : Type} (e : Error) : Exec α := throw (.error e)

/-- What lies in a place that has to exist. -/
def inBounds {α : Type} : Option α → Exec α
  | some a => pure a
  | none => throw .outOfBounds

/-- Pushes a value. -/
def push (v : Value) : Exec Unit := fun m =>
  if stackSize ≤ m.sp then .error (.error .stackOverflow) m
  else if m.sp < m.stack.size then
    .ok () { m with stack := m.stack.setIfInBounds m.sp v, sp := m.sp + 1 }
  else .error .outOfBounds m

/-- Takes the topmost value. -/
def pop : Exec Value := fun m =>
  if m.sp = 0 then .error (.error .stackUnderflow) m
  else
    match m.stack[m.sp - 1]? with
    | some v => .ok v { m with sp := m.sp - 1 }
    | none => .error .outOfBounds m

/-- Sets the position of the next instruction. -/
def jump (target : Nat) : Exec Unit := fun m =>
  .ok () { m with frame := { m.frame with ip := target } }

/-- The topmost `count` values, lowest first. -/
def topmost (count : Nat) : Exec (List Value) := fun m =>
  if count ≤ m.sp then
    if m.sp ≤ m.stack.size then .ok (m.stack.extract (m.sp - count) m.sp).toList m
    else .error .outOfBounds m
  else .error (.error .stackUnderflow) m

/-- Forgets the topmost `count` values. -/
def drop (count : Nat) : Exec Unit := fun m =>
  if count ≤ m.sp then .ok () { m with sp := m.sp - count } else .error .outOfBounds m

/-- Makes a value with an identity of its own. -/
def make (value : Stamp → Value) : Exec Value := fun m =>
  .ok (value m.host.stamp) { m with host := m.host.used }

end Exec

end Machine

end Scriptlet
