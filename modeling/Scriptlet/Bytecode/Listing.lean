import Scriptlet.Bytecode.Decode
import Scriptlet.Text.Decimal

/-!
# Listings

`Code.lines?` walks a stream from instruction to instruction and records what stands at each offset.
A byte that is no operation is recorded as such and skipped; a stream that ends inside an
instruction has no lines.

The listing of a stream is the text of its lines: the offset, filled with zeros to four digits, the
name of the operation and its operands.
-/

namespace Scriptlet

namespace Code

/-- What stands at an offset of a stream. -/
inductive Line where
  | instruction (offset : Nat) (op : Op) (operands : List Nat)
  | unknown (offset : Nat) (byte : UInt8)
  deriving DecidableEq

namespace Line

/-- The text of a line. -/
def text : Line → String
  | instruction offset op [] => zeroPadded 4 offset ++ " " ++ op.mnemonic
  | instruction offset op operands =>
    zeroPadded 4 offset ++ " " ++ op.mnemonic ++ " " ++
      String.intercalate " " (operands.map Nat.repr)
  | unknown offset byte =>
    zeroPadded 4 offset ++ " ERROR: undefined opcode " ++ Nat.repr byte.toNat

end Line

/-- The lines of a stream from an offset on, behind those in `acc`, which is reversed. -/
def linesOnto (code : Code) (acc : List Line) (offset : Nat) : Option (List Line) :=
  match h : code[offset]? with
  | none => some acc.reverse
  | some byte =>
    have : offset < code.size := (Array.getElem?_eq_some_iff.1 h).1
    match Op.ofByte? byte with
    | none => code.linesOnto (.unknown offset byte :: acc) (offset + 1)
    | some op =>
      match code.numbers? op.widths (offset + 1) with
      | none => none
      | some operands =>
        code.linesOnto (.instruction offset op operands :: acc) (offset + 1 + op.width)
termination_by code.size - offset

/-- The lines of a stream, unless it ends inside an instruction. -/
def lines? (code : Code) : Option (List Line) := code.linesOnto [] 0

/-- The listing of a stream, unless it ends inside an instruction. -/
def listing? (code : Code) : Option String :=
  code.lines?.map fun lines => String.intercalate "\n" (lines.map Line.text)

end Code

end Scriptlet
