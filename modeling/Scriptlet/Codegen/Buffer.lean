import Scriptlet.Bytecode.Instruction

/-!
# Buffers of emitted code

Code is emitted instruction by instruction into a buffer, which remembers the last two instructions
and where they stand.  This is what the few changes to emitted code go by: a block that is used for
its value gives up the `pop` at its end, and a function body turns it into a return.  The targets of
jumps are filled in later.
-/

namespace Scriptlet

/-- An instruction that stands in a buffer. -/
structure Emitted where
  op : Op
  position : Nat
  deriving DecidableEq

/-- Code that is being emitted. -/
structure Buffer where
  code : Code := #[]
  last : Option Emitted := none
  /-- The instruction that was the last one when `last` was emitted. -/
  previous : Option Emitted := none
  deriving DecidableEq, Inhabited

namespace Buffer

/-- Emits an instruction. -/
def emit (buffer : Buffer) (i : Instruction) : Buffer :=
  let position := buffer.code.size
  { code := buffer.code ++ i.encode, last := some ⟨i.op, position⟩, previous := buffer.last }

/-- Whether the last instruction has this operation. -/
def endsIn (buffer : Buffer) (op : Op) : Bool :=
  match buffer.last with
  | some last => last.op == op
  | none => false

/-- Takes the last instruction back; the one before it is then the last. -/
def dropLast (buffer : Buffer) : Buffer :=
  match buffer.last with
  | some last => { buffer with code := buffer.code.shrink last.position, last := buffer.previous }
  | none => buffer

/-- Turns the last instruction, which has no operands, into a return of the value it finds. -/
def returnLast (buffer : Buffer) : Buffer :=
  match buffer.last with
  | some last =>
    { buffer with
      code := buffer.code.setIfInBounds last.position Op.returnValue.toByte
      last := some { last with op := .returnValue } }
  | none => buffer

/-- Fills in the target of the jump at a position. -/
def patch (buffer : Buffer) (position target : Nat) : Buffer :=
  { buffer with
    code := (buffer.code.setIfInBounds (position + 1) (UInt8.ofNat (target / 256))).setIfInBounds
      (position + 2) (UInt8.ofNat target) }

end Buffer

end Scriptlet
