import Scriptlet.Codegen.Buffer
import Scriptlet.Proofs.Assembly

/-!
# What a buffer remembers

A buffer holds bytes and remembers the last two instructions.  `Buffer.Records` says that both are
right: the bytes are those of a list of instructions, and what is remembered as the last instruction
is the last of that list.

The second memory, `Buffer.previous`, is only ever used to take a `pop` back, so it has to be right
only while the last instruction is a `pop`.  Taking a `pop` back does not restore it; this does no
harm as long as the instruction before was not a `pop` as well, which is a hypothesis of
`Buffer.Records.dropLast`.
-/

namespace Scriptlet

open Code

/-- What is remembered of the last of some instructions. -/
def Emitted.ofLast (is : List Instruction) : Option Emitted :=
  is.getLast?.map fun i => ⟨i.op, extent is.dropLast⟩

@[simp] theorem Emitted.ofLast_nil : Emitted.ofLast [] = none := rfl

@[simp] theorem Emitted.ofLast_concat (is : List Instruction) (i : Instruction) :
    Emitted.ofLast (is ++ [i]) = some ⟨i.op, extent is⟩ := by
  simp [Emitted.ofLast]

/-- Only the operations of the instructions matter for what is remembered of the last. -/
theorem Emitted.ofLast_replace {i j : Instruction} (h : i.op = j.op) (pre post : List Instruction) :
    Emitted.ofLast (pre ++ i :: post) = Emitted.ofLast (pre ++ j :: post) := by
  rcases List.eq_nil_or_concat post with rfl | ⟨rest, k, rfl⟩
  · rw [Emitted.ofLast_concat, Emitted.ofLast_concat, h]
  · have hsize : i.size = j.size := by rw [Instruction.size, Instruction.size, h]
    have hi : pre ++ i :: (rest ++ [k]) = (pre ++ i :: rest) ++ [k] := by simp
    have hj : pre ++ j :: (rest ++ [k]) = (pre ++ j :: rest) ++ [k] := by simp
    rw [List.concat_eq_append, hi, hj, Emitted.ofLast_concat, Emitted.ofLast_concat]
    simp [hsize]

namespace Buffer

/-- A buffer holds the bytes of some instructions and remembers the last of them. -/
structure Records (buffer : Buffer) (is : List Instruction) : Prop where
  code : buffer.code = assemble is
  last : buffer.last = Emitted.ofLast is
  /-- Behind a `pop`, the instruction before it is remembered too. -/
  previous : ∀ js, is = js ++ [.pop] → buffer.previous = Emitted.ofLast js

variable {buffer : Buffer} {is : List Instruction}

theorem records_empty : Records {} [] where
  code := rfl
  last := rfl
  previous js h := by simp at h

theorem Records.size (h : buffer.Records is) : buffer.code.size = extent is := by
  rw [h.code, size_assemble]

theorem Records.emit (h : buffer.Records is) (i : Instruction) :
    (buffer.emit i).Records (is ++ [i]) where
  code := by rw [assemble_concat, ← h.code]; rfl
  last := by rw [Emitted.ofLast_concat, ← h.size]; rfl
  previous js hjs := by
    rw [(List.append_inj' hjs rfl).1] at h
    exact h.last

theorem Records.endsIn (h : buffer.Records is) (op : Op) :
    buffer.endsIn op = (is.getLast?.map Instruction.op == some op) := by
  rw [Buffer.endsIn, h.last, Emitted.ofLast]
  cases is.getLast? with
  | none => rfl
  | some i => rfl

/-- Taking a `pop` back that does not stand behind another `pop`. -/
theorem Records.dropLast (h : buffer.Records (is ++ [.pop])) (hpop : is.getLast? ≠ some .pop) :
    buffer.dropLast.Records is := by
  have hlast := h.last
  rw [Emitted.ofLast_concat] at hlast
  have hprevious := h.previous is rfl
  have hdrop : buffer.dropLast =
      { buffer with code := buffer.code.shrink (extent is), last := buffer.previous } := by
    rw [Buffer.dropLast, hlast]
  rw [hdrop]
  refine ⟨?_, hprevious, fun js hjs => absurd ?_ hpop⟩
  · show buffer.code.shrink (extent is) = assemble is
    rw [h.code, assemble_append, ← size_assemble is]
    simp
  · rw [hjs]
    simp

/-- Turning a `pop` into a return. -/
theorem Records.returnLast (h : buffer.Records (is ++ [.pop])) :
    buffer.returnLast.Records (is ++ [.returnValue]) := by
  have hlast := h.last
  rw [Emitted.ofLast_concat] at hlast
  rw [Buffer.returnLast, hlast]
  refine ⟨?_, (Emitted.ofLast_concat is .returnValue).symm, fun js hjs => ?_⟩
  · show buffer.code.setIfInBounds (extent is) Op.returnValue.toByte = _
    rw [h.code, assemble_append, assemble_append, ← size_assemble is]
    simp [assemble, Instruction.encode, Op.encode, Instruction.operands, Instruction.op]
  · have hne := (List.append_inj' hjs rfl).2
    simp at hne

/-- Filling in the operand of a jump. -/
theorem Records.patch {pre post : List Instruction} {i j : Instruction} {target : Nat}
    (h : buffer.Records (pre ++ i :: post)) (hop : i.op = j.op)
    (hi : ∃ a b : UInt8, i.encode = [i.op.toByte, a, b])
    (hj : j.encode = [i.op.toByte, UInt8.ofNat (target / 256), UInt8.ofNat target])
    (hpop : i.op ≠ .pop) :
    (buffer.patch (extent pre) target).Records (pre ++ j :: post) := by
  refine ⟨?_, h.last.trans (Emitted.ofLast_replace hop pre post), fun js hjs => ?_⟩
  · show (buffer.code.setIfInBounds _ _).setIfInBounds _ _ = _
    rw [h.code, set_operand_assemble i j target hi hj]
  · rcases List.eq_nil_or_concat post with rfl | ⟨rest, k, rfl⟩
    · have hpopj : j = .pop := by
        have hlast := congrArg List.getLast? hjs
        simpa using hlast
      rw [hop, hpopj] at hpop
      exact absurd rfl hpop
    · rw [List.concat_eq_append] at h hjs
      have hsplit : pre ++ j :: (rest ++ [k]) = (pre ++ j :: rest) ++ [k] := by simp
      rw [hsplit] at hjs
      obtain ⟨hjs, hk⟩ := List.append_inj' hjs rfl
      have hprevious := h.previous (pre ++ i :: rest) (by
        rw [← hk]
        simp)
      rw [← hjs]
      exact hprevious.trans (Emitted.ofLast_replace hop pre rest)

theorem Records.patch_jump {pre post : List Instruction} {old target : Nat}
    (h : buffer.Records (pre ++ .jump old :: post)) :
    (buffer.patch (extent pre) target).Records (pre ++ .jump target :: post) :=
  h.patch rfl ⟨_, _, rfl⟩ rfl Op.noConfusion

theorem Records.patch_jumpNotTruthy {pre post : List Instruction} {old target : Nat}
    (h : buffer.Records (pre ++ .jumpNotTruthy old :: post)) :
    (buffer.patch (extent pre) target).Records (pre ++ .jumpNotTruthy target :: post) :=
  h.patch rfl ⟨_, _, rfl⟩ rfl Op.noConfusion

end Buffer

end Scriptlet
