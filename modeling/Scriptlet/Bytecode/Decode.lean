import Scriptlet.Bytecode.Instruction

/-!
# Reading numbers back

Reading numbers out of a stream of bytes, one by one or in a row.  A read past the end of the stream
has no result.
-/

namespace Scriptlet

namespace Code

/-- The byte at an offset. -/
def byte? (code : Code) (offset : Nat) : Option Nat := code[offset]?.map UInt8.toNat

/-- The two-byte number at an offset, high byte first. -/
def word? (code : Code) (offset : Nat) : Option Nat := do
  let high ← code.byte? offset
  let low ← code.byte? (offset + 1)
  return 256 * high + low

/-- The number of the given width at an offset; numbers are one or two bytes wide. -/
def number? (code : Code) (width offset : Nat) : Option Nat :=
  if width = 2 then code.word? offset else code.byte? offset

/-- The numbers of the given widths that stand one behind the other from an offset on. -/
def numbers? (code : Code) : (widths : List Nat) → (offset : Nat) → Option (List Nat)
  | [], _ => some []
  | width :: widths, offset => do
    let n ← code.number? width offset
    let ns ← code.numbers? widths (offset + width)
    return n :: ns

end Code

end Scriptlet
