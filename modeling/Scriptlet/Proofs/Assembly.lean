import Scriptlet.Bytecode.Decode

/-!
# Assembled instructions

A stream that was written instruction by instruction can be thought of as the list of its
instructions; `Code.assemble` is the way from the list to the bytes.  An offset into the stream is
then the `Code.extent` of the instructions before it, so that statements about offsets become
statements about how the list is split.

* `Code.fetch`: what stands at a position of a stream, as the table of widths has it.
* `Code.fetch_assemble`: behind the bytes of `pre` stands the instruction that follows `pre`,
  provided that its operands fit into their bytes.
* `Code.decodesTo_assemble`: the whole stream reads back as the list.
* `Code.set_operand_assemble`: writing a number over the operand of a jump replaces that jump.

## Why operands have to fit

`Instruction.encode` keeps the low bytes of an operand that is too wide, so what is read back can
differ from what was written.  While a function is compiled such operands can come up, and only at
its end is the function refused; `Instruction.Fits` is therefore a hypothesis here and not a
property of all emitted code.
-/

namespace Scriptlet

namespace Instruction

/-- The number of bytes of an instruction. -/
def size (i : Instruction) : Nat := 1 + i.op.width

/-- How many numbers can be written with the given width, which is one or two bytes. -/
def room (width : Nat) : Nat := if width = 2 then 65536 else 256

/-- Every operand fits into the bytes there are for it. -/
def Fits (i : Instruction) : Prop :=
  ∀ o ∈ i.operands.zip i.op.widths, o.1 < room o.2

instance (i : Instruction) : Decidable i.Fits :=
  inferInstanceAs (Decidable (∀ o ∈ i.operands.zip i.op.widths, o.1 < room o.2))

theorem size_pos (i : Instruction) : 0 < i.size := Nat.add_pos_left Nat.zero_lt_one _

@[simp] theorem length_encode (i : Instruction) : i.encode.length = i.size := by
  cases i <;> simp [encode, Op.encode, operands, op, Op.widths, size, Op.width]

@[simp] theorem size_jump (t : Nat) : (jump t).size = 3 := rfl

@[simp] theorem size_jumpNotTruthy (t : Nat) : (jumpNotTruthy t).size = 3 := rfl

end Instruction

namespace Code

/-! ## What stands at a position -/

/-- What stands at a position of a stream: a byte that is no operation is told from an instruction
whose operand bytes are not all there. -/
inductive Fetched where
  /-- The position is not inside the stream. -/
  | nothing
  /-- The byte there stands for no operation. -/
  | unknown (byte : UInt8)
  /-- The stream ends inside the instruction. -/
  | truncated
  /-- A whole instruction. -/
  | instruction (i : Instruction)

/-- The instruction at a position of a stream, with operands of the widths that its operation
declares. -/
def fetch (code : Code) (position : Nat) : Fetched :=
  match code[position]? with
  | none => .nothing
  | some byte =>
    match Op.ofByte? byte with
    | none => .unknown byte
    | some op =>
      match (code.numbers? op.widths (position + 1)).bind (Instruction.ofOperands? op) with
      | some i => .instruction i
      | none => .truncated

/-! ## Numbers -/

/-- A number of one or two bytes is read back from where it was written. -/
theorem number?_bigEndian {w n : Nat} (hw : w = 1 ∨ w = 2) (h : n < Instruction.room w)
    (pre post : List UInt8) :
    number? (pre ++ bigEndian w n ++ post).toArray w pre.length = some n := by
  rcases hw with rfl | rfl
  · have hn : n < 256 := h
    simp [number?, byte?, bigEndian, Nat.mod_eq_of_lt hn]
  · have hn : n < 65536 := h
    have hhigh : n / 256 % 256 = n / 256 := Nat.mod_eq_of_lt (by omega)
    have hsum : 256 * (n / 256) + n % 256 = n := by omega
    simp [number?, word?, byte?, bigEndian, hhigh, hsum]

/-- Numbers that stand one behind the other are all read back. -/
theorem numbers?_bigEndian (numbers : List (Nat × Nat))
    (h : ∀ o ∈ numbers, (o.2 = 1 ∨ o.2 = 2) ∧ o.1 < Instruction.room o.2)
    (pre post : List UInt8) :
    numbers? (pre ++ numbers.flatMap (fun o => bigEndian o.2 o.1) ++ post).toArray
      (numbers.map Prod.snd) pre.length = some (numbers.map Prod.fst) := by
  induction numbers generalizing pre with
  | nil => rfl
  | cons o rest ih =>
    obtain ⟨hw, hn⟩ := h o (List.mem_cons_self ..)
    have hrest := ih (fun q hq => h q (List.mem_cons_of_mem o hq)) (pre ++ bigEndian o.2 o.1)
    have hfirst := number?_bigEndian hw hn pre
      (rest.flatMap (fun o => bigEndian o.2 o.1) ++ post)
    simp only [List.length_append, length_bigEndian, List.append_assoc] at hrest hfirst
    simp only [List.map_cons, numbers?, List.flatMap_cons, List.append_assoc, hfirst, hrest]
    rfl

/-! ## Streams as lists of instructions -/

/-- The bytes of instructions, one behind the other. -/
def assemble (is : List Instruction) : Code := (is.flatMap Instruction.encode).toArray

/-- The number of bytes of instructions. -/
def extent : List Instruction → Nat
  | [] => 0
  | i :: is => i.size + extent is

@[simp] theorem extent_nil : extent [] = 0 := rfl

@[simp] theorem extent_cons (i : Instruction) (is : List Instruction) :
    extent (i :: is) = i.size + extent is := rfl

@[simp] theorem extent_append (is js : List Instruction) :
    extent (is ++ js) = extent is + extent js := by
  induction is with
  | nil => simp
  | cons i is ih => simp [ih, Nat.add_assoc]

@[simp] theorem assemble_nil : assemble [] = #[] := rfl

theorem assemble_append (is js : List Instruction) :
    assemble (is ++ js) = assemble is ++ assemble js := by
  simp [assemble]

theorem assemble_concat (is : List Instruction) (i : Instruction) :
    assemble (is ++ [i]) = assemble is ++ i.encode := by
  simp [assemble]

@[simp] theorem size_assemble (is : List Instruction) : (assemble is).size = extent is := by
  induction is with
  | nil => rfl
  | cons i is ih =>
    rw [← List.singleton_append, assemble_append, Array.size_append, ih, extent_append]
    simp [assemble]

theorem extent_pos {is : List Instruction} (h : is ≠ []) : 0 < extent is := by
  obtain ⟨i, rest, rfl⟩ := List.exists_cons_of_ne_nil h
  rw [extent_cons]
  exact Nat.add_pos_left i.size_pos _

theorem widths_one_or_two (op : Op) : ∀ w ∈ op.widths, w = 1 ∨ w = 2 := by
  cases op <;> decide

/-- Behind the bytes of `pre` stands the instruction that follows. -/
theorem fetch_assemble {i : Instruction} (h : i.Fits) (pre post : List Instruction) :
    fetch (assemble (pre ++ i :: post)) (extent pre) = .instruction i := by
  have hpre : (pre.flatMap Instruction.encode).length = extent pre := by
    rw [← size_assemble pre, assemble, List.size_toArray]
  have hsplit : assemble (pre ++ i :: post) =
      (pre.flatMap Instruction.encode ++ i.op.toByte ::
        ((i.operands.zip i.op.widths).flatMap (fun o => bigEndian o.2 o.1) ++
          post.flatMap Instruction.encode)).toArray := by
    simp [assemble, Instruction.encode, Op.encode]
  have hbyte : (assemble (pre ++ i :: post))[extent pre]? = some i.op.toByte := by
    rw [hsplit, ← hpre]
    simp
  have hread : numbers? (assemble (pre ++ i :: post)) i.op.widths (extent pre + 1) =
      some i.operands := by
    have hfit : ∀ o ∈ i.operands.zip i.op.widths, (o.2 = 1 ∨ o.2 = 2) ∧
        o.1 < Instruction.room o.2 :=
      fun o ho => ⟨widths_one_or_two i.op _ (List.of_mem_zip ho).2, h o ho⟩
    have hread := numbers?_bigEndian _ hfit (pre.flatMap Instruction.encode ++ [i.op.toByte])
      (post.flatMap Instruction.encode)
    rw [List.map_fst_zip (Nat.le_of_eq i.length_operands),
      List.map_snd_zip (Nat.le_of_eq i.length_operands.symm)] at hread
    rw [hsplit, ← hpre]
    simpa using hread
  simp [fetch, hbyte, Op.ofByte?_toByte, hread]

/-- Behind the last instruction there is nothing. -/
theorem fetch_assemble_end (is : List Instruction) :
    fetch (assemble is) (extent is) = .nothing := by
  simp [fetch]

/-- From an offset on, a stream consists of exactly these whole instructions. -/
def DecodesTo (code : Code) : (offset : Nat) → List Instruction → Prop
  | offset, [] => offset = code.size
  | offset, i :: is => code.fetch offset = .instruction i ∧ code.DecodesTo (offset + i.size) is

theorem decodesTo_assemble_append (pre is : List Instruction) (h : ∀ i ∈ is, i.Fits) :
    DecodesTo (assemble (pre ++ is)) (extent pre) is := by
  induction is generalizing pre with
  | nil => simp [DecodesTo]
  | cons i is ih =>
    refine ⟨fetch_assemble (h i (List.mem_cons_self ..)) pre is, ?_⟩
    have hrest := ih (pre ++ [i]) fun j hj => h j (List.mem_cons_of_mem i hj)
    simpa [List.append_assoc] using hrest

/-- An assembled stream reads back as the instructions it was assembled from. -/
theorem decodesTo_assemble {is : List Instruction} (h : ∀ i ∈ is, i.Fits) :
    DecodesTo (assemble is) 0 is := by
  simpa using decodesTo_assemble_append [] is h

/-! ## Filling in jumps -/

/-- Writing over the two bytes behind an operation that has one operand of two bytes replaces that
operand. -/
theorem set_operand_assemble (i j : Instruction) (n : Nat)
    (hi : ∃ a b : UInt8, i.encode = [i.op.toByte, a, b])
    (hj : j.encode = [i.op.toByte, UInt8.ofNat (n / 256), UInt8.ofNat n])
    (pre post : List Instruction) :
    ((assemble (pre ++ i :: post)).setIfInBounds (extent pre + 1)
      (UInt8.ofNat (n / 256))).setIfInBounds (extent pre + 2) (UInt8.ofNat n) =
      assemble (pre ++ j :: post) := by
  obtain ⟨a, b, hab⟩ := hi
  have hpre : (pre.flatMap Instruction.encode).length = extent pre := by
    rw [← size_assemble pre, assemble, List.size_toArray]
  rw [← hpre]
  simp [assemble, hab, hj, List.set_append_right]

end Code

end Scriptlet
