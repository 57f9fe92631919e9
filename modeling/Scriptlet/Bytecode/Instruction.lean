import Scriptlet.Bytecode.Op

/-!
# Instructions and their bytes

An instruction is an operation with its operands.  `Op.encode` writes any operation with any list of
numbers: operands that are missing are left out, superfluous ones are ignored, and one that is too
wide keeps its low bytes.  `Instruction` is the typed form, in which every operation has exactly
the operands it declares.
-/

namespace Scriptlet

/-- A stream of instructions as bytes. -/
abbrev Code := Array UInt8

/-- The low `width` bytes of a number, high byte first. -/
def bigEndian : (width : Nat) → (n : Nat) → List UInt8
  | 0, _ => []
  | width + 1, n => bigEndian width (n / 256) ++ [UInt8.ofNat n]

@[simp] theorem length_bigEndian (width n : Nat) : (bigEndian width n).length = width := by
  induction width generalizing n with
  | zero => rfl
  | succ width ih => simp [bigEndian, ih]

namespace Op

/-- The bytes of an operation with the given operands. -/
def encode (op : Op) (operands : List Nat) : List UInt8 :=
  op.toByte :: (operands.zip op.widths).flatMap fun operand => bigEndian operand.2 operand.1

/-- The bytes of the operation that `byte` stands for; a byte that stands for none has no
encoding. -/
def encodeByte (byte : UInt8) (operands : List Nat) : List UInt8 :=
  match ofByte? byte with
  | some op => op.encode operands
  | none => []

end Op

/-- An operation together with the operands it declares. -/
inductive Instruction where
  | constant (index : Nat)
  | add
  | sub
  | mul
  | div
  | pop
  | pushTrue
  | pushFalse
  | equal
  | notEqual
  | greaterThan
  | minus
  | bang
  | jumpNotTruthy (target : Nat)
  | jump (target : Nat)
  | pushNull
  | getGlobal (index : Nat)
  | setGlobal (index : Nat)
  | array (count : Nat)
  | hash (count : Nat)
  | index
  | call (count : Nat)
  | returnValue
  | returnNull
  | getLocal (index : Nat)
  | setLocal (index : Nat)
  | getBuiltin (index : Nat)
  | closure (constant : Nat) (free : Nat)
  | getFree (index : Nat)
  | currentClosure
  deriving DecidableEq, Inhabited

namespace Instruction

/-- The operation of an instruction. -/
def op : Instruction → Op
  | constant _ => .constant
  | add => .add
  | sub => .sub
  | mul => .mul
  | div => .div
  | pop => .pop
  | pushTrue => .pushTrue
  | pushFalse => .pushFalse
  | equal => .equal
  | notEqual => .notEqual
  | greaterThan => .greaterThan
  | minus => .minus
  | bang => .bang
  | jumpNotTruthy _ => .jumpNotTruthy
  | jump _ => .jump
  | pushNull => .pushNull
  | getGlobal _ => .getGlobal
  | setGlobal _ => .setGlobal
  | array _ => .array
  | hash _ => .hash
  | index => .index
  | call _ => .call
  | returnValue => .returnValue
  | returnNull => .returnNull
  | getLocal _ => .getLocal
  | setLocal _ => .setLocal
  | getBuiltin _ => .getBuiltin
  | closure _ _ => .closure
  | getFree _ => .getFree
  | currentClosure => .currentClosure

/-- The operands of an instruction, in the order of their bytes. -/
def operands : Instruction → List Nat
  | constant n | jumpNotTruthy n | jump n | getGlobal n | setGlobal n | array n | hash n | call n
  | getLocal n | setLocal n | getBuiltin n | getFree n => [n]
  | closure n m => [n, m]
  | _ => []

/-- The instruction with a given operation and operands, if their number is the declared one. -/
def ofOperands? : Op → List Nat → Option Instruction
  | .constant, [n] => some (constant n)
  | .add, [] => some add
  | .sub, [] => some sub
  | .mul, [] => some mul
  | .div, [] => some div
  | .pop, [] => some pop
  | .pushTrue, [] => some pushTrue
  | .pushFalse, [] => some pushFalse
  | .equal, [] => some equal
  | .notEqual, [] => some notEqual
  | .greaterThan, [] => some greaterThan
  | .minus, [] => some minus
  | .bang, [] => some bang
  | .jumpNotTruthy, [n] => some (jumpNotTruthy n)
  | .jump, [n] => some (jump n)
  | .pushNull, [] => some pushNull
  | .getGlobal, [n] => some (getGlobal n)
  | .setGlobal, [n] => some (setGlobal n)
  | .array, [n] => some (array n)
  | .hash, [n] => some (hash n)
  | .index, [] => some index
  | .call, [n] => some (call n)
  | .returnValue, [] => some returnValue
  | .returnNull, [] => some returnNull
  | .getLocal, [n] => some (getLocal n)
  | .setLocal, [n] => some (setLocal n)
  | .getBuiltin, [n] => some (getBuiltin n)
  | .closure, [n, m] => some (closure n m)
  | .getFree, [n] => some (getFree n)
  | .currentClosure, [] => some currentClosure
  | _, _ => none

@[simp] theorem ofOperands?_op_operands (i : Instruction) :
    ofOperands? i.op i.operands = some i := by
  cases i <;> rfl

@[simp] theorem length_operands (i : Instruction) : i.operands.length = i.op.widths.length := by
  cases i <;> rfl

/-- The bytes of an instruction. -/
def encode (i : Instruction) : List UInt8 := i.op.encode i.operands

end Instruction

end Scriptlet
