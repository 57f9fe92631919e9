import Mathlib.Algebra.Group.Nat.Defs
import Scriptlet.Bytecode.Listing
import Scriptlet.Proofs.Execution

/-!
# Reading streams of bytes back

An operand is written with as many bytes as its operation declares, whatever its size, so what
stands in a stream is `Instruction.stored`: the instruction with every operand cut to its low bytes.
Cutting changes none of the bytes (`Instruction.encode_stored`), and what is left of an operand fits
(`Instruction.fits_stored`).  So a stream of any instructions is a stream of instructions that fit,
and for these it is known how the machine reads them.

The listing of a stream is made by a walk of its own, `Code.linesOnto`.  It stops where the machine
stops and reads what the machine reads (`Code.linesOnto_of_decodesTo`), for any stream that consists
of whole instructions.

`Code.assemble_reads_back` puts both together.
-/

namespace Scriptlet

/-- The low bytes of a number are those of its remainder. -/
theorem bigEndian_mod (width n : Nat) : bigEndian width (n % 256 ^ width) = bigEndian width n := by
  induction width generalizing n with
  | zero => rfl
  | succ width ih =>
    have hhigh : n % 256 ^ (width + 1) / 256 = n / 256 % 256 ^ width := by
      rw [Nat.pow_succ', Nat.mod_mul_right_div_self]
    have hlow : UInt8.ofNat (n % 256 ^ (width + 1)) = UInt8.ofNat n := by
      apply UInt8.toNat_inj.1
      rw [UInt8.toNat_ofNat', UInt8.toNat_ofNat']
      exact Nat.mod_mod_of_dvd n ⟨256 ^ width, Nat.pow_succ'⟩
    rw [bigEndian, bigEndian, hhigh, ih, hlow]

namespace Instruction

/-- The operands of an instruction, each cut to the bytes there are for it. -/
def storedOperands (i : Instruction) : List Nat :=
  i.operands.zipWith (fun n width => n % 256 ^ width) i.op.widths

/-- The instruction that the bytes of an instruction stand for. -/
def stored (i : Instruction) : Instruction := (ofOperands? i.op i.storedOperands).getD i

@[simp] theorem op_stored (i : Instruction) : i.stored.op = i.op := by
  cases i <;> rfl

@[simp] theorem operands_stored (i : Instruction) : i.stored.operands = i.storedOperands := by
  cases i <;> rfl

@[simp] theorem size_stored (i : Instruction) : i.stored.size = i.size := by
  rw [size, size, op_stored]

/-- Cutting the operands leaves the bytes as they are. -/
theorem encode_stored (i : Instruction) : i.stored.encode = i.encode := by
  have hbytes : ∀ ns widths : List Nat,
      ((ns.zipWith (fun n width => n % 256 ^ width) widths).zip widths).flatMap
          (fun o => bigEndian o.2 o.1) =
        (ns.zip widths).flatMap fun o => bigEndian o.2 o.1 := by
    intro ns
    induction ns with
    | nil => intro widths; rfl
    | cons n ns ih =>
      intro widths
      cases widths with
      | nil => rfl
      | cons width widths =>
        simp only [List.zipWith_cons_cons, List.zip_cons_cons, List.flatMap_cons, bigEndian_mod, ih]
  rw [encode, encode, Op.encode, Op.encode, op_stored, operands_stored, storedOperands, hbytes]

/-- The room for an operand is the number of values that its bytes can have. -/
theorem room_eq {width : Nat} (h : width = 1 ∨ width = 2) : room width = 256 ^ width := by
  rcases h with rfl | rfl <;> rfl

/-- What is left of an operand fits into its bytes. -/
theorem fits_stored (i : Instruction) : i.stored.Fits := by
  intro o ho
  rw [operands_stored, op_stored, storedOperands] at ho
  rw [room_eq (Code.widths_one_or_two i.op _ (List.of_mem_zip ho).2)]
  obtain ⟨k, hk, rfl⟩ := List.mem_iff_getElem.1 ho
  rw [List.getElem_zip, List.getElem_zipWith]
  exact Nat.mod_lt _ (Nat.pow_pos (by decide))

/-- Operands that fit are stored as they are. -/
theorem stored_of_fits {i : Instruction} (h : i.Fits) : i.stored = i := by
  have hoperands : i.storedOperands = i.operands := by
    refine List.ext_getElem (by simp [storedOperands]) fun k hk hk' => ?_
    have hwidth : k < i.op.widths.length := i.length_operands ▸ hk'
    have hfit := h (i.operands[k], i.op.widths[k])
      (List.mem_iff_getElem.2 ⟨k, by simp [hwidth], List.getElem_zip⟩)
    rw [room_eq (Code.widths_one_or_two i.op _ (List.getElem_mem hwidth))] at hfit
    have hstored : i.storedOperands[k] = i.operands[k] % 256 ^ i.op.widths[k] :=
      List.getElem_zipWith
    rw [hstored, Nat.mod_eq_of_lt hfit]
  rw [stored, hoperands, ofOperands?_op_operands]
  rfl

end Instruction

namespace Code

open Machine

variable {code : Code} {offset : Nat} {i : Instruction} {is : List Instruction}

theorem assemble_map_stored (is : List Instruction) :
    assemble (is.map Instruction.stored) = assemble is := by
  simp [assemble, List.flatMap_map, Instruction.encode_stored]

theorem extent_map_stored (is : List Instruction) :
    extent (is.map Instruction.stored) = extent is := by
  rw [← size_assemble, assemble_map_stored, size_assemble]

/-- The lines of instructions of which the first stands at an offset. -/
def linesOf : (offset : Nat) → List Instruction → List Line
  | _, [] => []
  | offset, i :: is => .instruction offset i.op i.operands :: linesOf (offset + i.size) is

/-- The walk for the listing goes on behind an instruction that the machine reads. -/
theorem linesOnto_of_fetch (h : code.fetch offset = .instruction i) (acc : List Line) :
    code.linesOnto acc offset =
      code.linesOnto (.instruction offset i.op i.operands :: acc) (offset + i.size) := by
  obtain ⟨hbyte, hoperands⟩ := fetch_eq_instruction h
  rw [linesOnto]
  split
  · next hnone =>
    rw [hbyte] at hnone
    cases hnone
  · next byte hsome =>
    obtain rfl := Option.some.inj (hbyte.symm.trans hsome)
    simp only [Op.ofByte?_toByte, hoperands]
    rw [Nat.add_assoc]
    rfl

/-- The walk for the listing ends at the end of the stream. -/
theorem linesOnto_size (code : Code) (acc : List Line) :
    code.linesOnto acc code.size = some acc.reverse := by
  rw [linesOnto]
  split
  · rfl
  · next byte hbyte =>
    rw [Array.getElem?_size] at hbyte
    cases hbyte

theorem linesOnto_of_decodesTo (h : code.DecodesTo offset is) (acc : List Line) :
    code.linesOnto acc offset = some (acc.reverse ++ linesOf offset is) := by
  induction is generalizing offset acc with
  | nil =>
    have hend : offset = code.size := h
    rw [hend, linesOnto_size, linesOf, List.append_nil]
  | cons i is ih =>
    obtain ⟨hfetch, hrest⟩ := h
    rw [linesOnto_of_fetch hfetch, ih hrest, linesOf, List.reverse_cons, List.append_assoc,
      List.singleton_append]

/-- A stream that was written instruction by instruction reads back as the instructions that are
stored in it: the same operations, with every operand reduced to its width.  The walk for the
listing finds them at the offsets at which they were written, and comes to the end of the stream.
The machine reads them at the same offsets; at each of these a step executes the instruction there,
with its position behind it, and at the end of the stream the machine halts.  An instruction with
operands that fit is stored as it is. -/
theorem assemble_reads_back (is : List Instruction) :
    (assemble is).lines? = some (linesOf 0 (is.map Instruction.stored)) ∧
    (assemble is).DecodesTo 0 (is.map Instruction.stored) ∧
    (∀ pre i post, is = pre ++ i :: post → ∀ m : Machine,
      m.frame.routine.code = assemble is → m.frame.ip = extent pre →
        (Exec.behind m i).frame.ip = extent (pre ++ [i]) ∧
        Exec.step m = (Exec.execute i.stored >>= fun _ => pure true) (Exec.behind m i)) ∧
    (∀ m : Machine, m.frame.routine.code = assemble is → m.frame.ip = extent is →
      Exec.step m = .ok false m) ∧
    ∀ i ∈ is, i.stored.op = i.op ∧
      i.stored.operands = i.operands.zipWith (fun n width => n % 256 ^ width) i.op.widths ∧
      (i.Fits → i.stored = i) := by
  have hdecodes : (assemble is).DecodesTo 0 (is.map Instruction.stored) := by
    rw [← assemble_map_stored]
    refine decodesTo_assemble fun i hi => ?_
    obtain ⟨j, -, rfl⟩ := List.mem_map.1 hi
    exact j.fits_stored
  refine ⟨linesOnto_of_decodesTo hdecodes [], hdecodes, fun pre i post his m hcode hip => ?_,
    fun m => Exec.step_end, fun i _ => ⟨i.op_stored, i.operands_stored, Instruction.stored_of_fits⟩⟩
  have hfetch : m.frame.routine.code.fetch m.frame.ip = .instruction i.stored := by
    rw [hcode, hip, his, ← assemble_map_stored, ← extent_map_stored, List.map_append, List.map_cons]
    exact fetch_assemble i.fits_stored _ _
  constructor
  · show m.frame.ip + i.size = _
    rw [hip, extent_append, extent_cons, extent_nil, Nat.add_zero]
  · rw [Exec.step_of_fetch hfetch, Exec.behind, Exec.behind, Instruction.size_stored]

/-- Operands that are too wide between operations that have none. -/
def wideOperands : List Instruction := [.constant 65538, .add, .closure 65536 300, .pop]

/-- Behind the operands that were cut, the stream is read as it was written. -/
theorem wideOperands_read :
    (assemble wideOperands).lines? = some
      [.instruction 0 .constant [2], .instruction 3 .add [], .instruction 4 .closure [0, 44],
        .instruction 8 .pop []] ∧
    ∀ m : Machine, m.frame.routine.code = assemble wideOperands → m.frame.ip = 4 →
      Exec.step m = (Exec.execute (.closure 0 44) >>= fun _ => pure true)
        (Exec.behind m (.closure 65536 300)) := by
  obtain ⟨hlines, -, hstep, -⟩ := assemble_reads_back wideOperands
  refine ⟨hlines, fun m hcode hip => ?_⟩
  exact (hstep [.constant 65538, .add] (.closure 65536 300) [.pop] rfl m hcode hip).2

end Code

end Scriptlet
