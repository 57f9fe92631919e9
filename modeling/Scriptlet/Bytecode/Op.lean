/-!
# Operations of the stack machine

The thirty operations, the byte that stands for each, and the widths of the operands behind that
byte.  Operands are unsigned and written with their high byte first.

`Op.ofByte?_toByte` and `Op.toByte_of_ofByte?` say that bytes name operations uniquely.
-/

namespace Scriptlet

/-- The operations of the stack machine, in the order of their bytes. -/
inductive Op where
  | constant
  | add
  | sub
  | mul
  | div
  | pop
  | pushTrue
  | pushFalse
  | equal
  | notEqual
  | greaterThan
  | minus
  | bang
  | jumpNotTruthy
  | jump
  | pushNull
  | getGlobal
  | setGlobal
  | array
  | hash
  | index
  | call
  | returnValue
  | returnNull
  | getLocal
  | setLocal
  | getBuiltin
  | closure
  | getFree
  | currentClosure
  deriving DecidableEq, Inhabited

namespace Op

/-- All operations; the position of each is its byte. -/
def all : Array Op :=
  #[constant, add, sub, mul, div, pop, pushTrue, pushFalse, equal, notEqual, greaterThan, minus,
    bang, jumpNotTruthy, jump, pushNull, getGlobal, setGlobal, array, hash, index, call,
    returnValue, returnNull, getLocal, setLocal, getBuiltin, closure, getFree, currentClosure]

/-- The byte that stands for an operation. -/
def toByte : Op → UInt8
  | constant => 0
  | add => 1
  | sub => 2
  | mul => 3
  | div => 4
  | pop => 5
  | pushTrue => 6
  | pushFalse => 7
  | equal => 8
  | notEqual => 9
  | greaterThan => 10
  | minus => 11
  | bang => 12
  | jumpNotTruthy => 13
  | jump => 14
  | pushNull => 15
  | getGlobal => 16
  | setGlobal => 17
  | array => 18
  | hash => 19
  | index => 20
  | call => 21
  | returnValue => 22
  | returnNull => 23
  | getLocal => 24
  | setLocal => 25
  | getBuiltin => 26
  | closure => 27
  | getFree => 28
  | currentClosure => 29

/-- The operation that a byte stands for. -/
def ofByte? (byte : UInt8) : Option Op := all[byte.toNat]?

/-- The short name of an operation. -/
def name : Op → String
  | constant => "Constant"
  | add => "Add"
  | sub => "Sub"
  | mul => "Mul"
  | div => "Div"
  | pop => "Pop"
  | pushTrue => "True"
  | pushFalse => "False"
  | equal => "Equal"
  | notEqual => "NotEqual"
  | greaterThan => "GreaterThan"
  | minus => "Minus"
  | bang => "Bang"
  | jumpNotTruthy => "JumpNotTruthy"
  | jump => "Jump"
  | pushNull => "Null"
  | getGlobal => "GetGlobal"
  | setGlobal => "SetGlobal"
  | array => "Array"
  | hash => "Hash"
  | index => "Index"
  | call => "Call"
  | returnValue => "ReturnValue"
  | returnNull => "Return"
  | getLocal => "GetLocal"
  | setLocal => "SetLocal"
  | getBuiltin => "GetBuiltin"
  | closure => "Closure"
  | getFree => "GetFree"
  | currentClosure => "CurrentClosure"

/-- The name of an operation in a listing. -/
def mnemonic (op : Op) : String := "Op" ++ op.name

/-- The operation with a given name in listings. -/
def ofMnemonic? (text : String) : Option Op := all.find? fun op => op.mnemonic == text

/-- The widths in bytes of the operands of an operation. -/
def widths : Op → List Nat
  | constant | jumpNotTruthy | jump | getGlobal | setGlobal | array | hash => [2]
  | call | getLocal | setLocal | getBuiltin | getFree => [1]
  | closure => [2, 1]
  | _ => []

/-- The number of operand bytes behind the byte of an operation. -/
def width (op : Op) : Nat := op.widths.foldr (· + ·) 0

theorem ofByte?_toByte (op : Op) : ofByte? op.toByte = some op := by
  cases op <;> rfl

theorem toByte_of_ofByte? {byte : UInt8} {op : Op} (h : ofByte? byte = some op) :
    op.toByte = byte := by
  have hlt : byte.toNat < 30 := (Array.getElem?_eq_some_iff.1 h).1
  have key : ∀ n : Fin 30, ∀ o : Op, all[n.val]? = some o → o.toByte.toNat = n.val := by decide
  exact UInt8.toNat_inj.1 (key ⟨byte.toNat, hlt⟩ op h)

end Op

end Scriptlet
