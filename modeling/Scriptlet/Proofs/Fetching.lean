import Mathlib.Data.List.Basic
import Scriptlet.Machine.Step
import Scriptlet.Proofs.Assembly
import Scriptlet.Proofs.Inversion

/-!
# What the machine reads

There are two ways to read an instruction.  `Code.fetch` goes by the table of widths, as the listing
of a stream does.  The machine goes by its operations: each of them reads operands of its own, and
the position moves along (`Exec.readInstruction`).  From the table the machine takes no more than
the room that it makes sure of beforehand, so an operation that read more than the table says could
reach past the end of its code.

* `Code.isSome_numbers?_iff`: the operands that the table calls for can be read if there is room for
  them, and only then.
* `Exec.readInstruction_eq`: every operation reads the operands that the table says, and leaves the
  position behind them.
* `Exec.step_eq`: a step finds at its position what `Code.fetch` finds there.  All that is known
  about steps is derived from this.
-/

namespace Scriptlet

namespace Code

variable {code : Code} {offset width : Nat} {widths ns : List Nat} {op : Op} {byte : UInt8}

/-! ## Operands by the table of widths -/

theorem isSome_byte?_iff : (code.byte? offset).isSome ↔ offset < code.size := by
  rw [byte?, Option.isSome_map, isSome_getElem?]

theorem isSome_word?_iff : (code.word? offset).isSome ↔ offset + 2 ≤ code.size := by
  have hbytes : (code.word? offset).isSome =
      ((code.byte? offset).isSome && (code.byte? (offset + 1)).isSome) := by
    unfold word?
    cases code.byte? offset with
    | none => rfl
    | some high => cases code.byte? (offset + 1) <;> rfl
  rw [hbytes, Bool.and_eq_true, isSome_byte?_iff, isSome_byte?_iff]
  omega

/-- A number can be read if all of its bytes are there. -/
theorem isSome_number?_iff (h : width = 1 ∨ width = 2) :
    (code.number? width offset).isSome ↔ offset + width ≤ code.size := by
  rcases h with rfl | rfl
  · exact isSome_byte?_iff
  · exact isSome_word?_iff

/-- Numbers can be read if the bytes of all of them are there. -/
theorem isSome_numbers?_iff (hwidths : ∀ w ∈ widths, w = 1 ∨ w = 2) (hoffset : offset ≤ code.size) :
    (code.numbers? widths offset).isSome ↔ offset + widths.foldr (· + ·) 0 ≤ code.size := by
  induction widths generalizing offset with
  | nil => exact ⟨fun _ => hoffset, fun _ => rfl⟩
  | cons w rest ih =>
    have hfirst : (code.number? w offset).isSome ↔ offset + w ≤ code.size :=
      isSome_number?_iff (hwidths w (.head _))
    rw [numbers?, List.foldr_cons, ← Nat.add_assoc]
    cases hn : code.number? w offset with
    | none =>
      rw [hn] at hfirst
      have hcut : ¬ offset + w ≤ code.size := fun hroom => Bool.false_ne_true (hfirst.2 hroom)
      exact iff_of_false Bool.false_ne_true fun hroom => hcut (by omega)
    | some n =>
      rw [hn] at hfirst
      have hrest := ih (fun w hw => hwidths w (.tail _ hw)) (hfirst.1 rfl)
      rw [← hrest]
      cases code.numbers? rest (offset + w) <;> rfl

theorem numbers?_cons_eq_some {w : Nat} :
    code.numbers? (w :: widths) offset = some ns ↔
      ∃ n rest, code.number? w offset = some n ∧ code.numbers? widths (offset + w) = some rest ∧
        ns = n :: rest := by
  rw [numbers?]
  constructor
  · intro h
    obtain ⟨n, hn, h⟩ := Option.bind_eq_some_iff.1 h
    obtain ⟨rest, hrest, h⟩ := Option.bind_eq_some_iff.1 h
    exact ⟨n, rest, hn, hrest, (Option.some.inj h).symm⟩
  · rintro ⟨n, rest, hn, hrest, rfl⟩
    rw [hn, hrest]
    rfl

theorem length_of_numbers? (h : code.numbers? widths offset = some ns) :
    ns.length = widths.length := by
  induction widths generalizing offset ns with
  | nil =>
    cases h
    rfl
  | cons w rest ih =>
    obtain ⟨n, others, -, hothers, rfl⟩ := numbers?_cons_eq_some.1 h
    exact congrArg (· + 1) (ih hothers)

/-- An operation with as many operands as it declares is an instruction. -/
theorem exists_ofOperands? (h : ns.length = op.widths.length) :
    ∃ i, Instruction.ofOperands? op ns = some i ∧ i.op = op := by
  cases op <;> first
    | obtain rfl := List.length_eq_zero_iff.1 h
      exact ⟨_, rfl, rfl⟩
    | obtain ⟨n, rfl⟩ := List.length_eq_one_iff.1 h
      exact ⟨_, rfl, rfl⟩
    | obtain ⟨n, n', rfl⟩ := List.length_eq_two.1 h
      exact ⟨_, rfl, rfl⟩

/-- Behind the byte of an operation, with room for its operands, the operands can be read. -/
theorem exists_operands (hroom : offset + op.width ≤ code.size) :
    ∃ ns i, code.numbers? op.widths offset = some ns ∧
      Instruction.ofOperands? op ns = some i ∧ i.op = op := by
  have hoffset : offset ≤ code.size := by omega
  have hsome := (isSome_numbers?_iff (widths_one_or_two op) hoffset).2 hroom
  obtain ⟨ns, hns⟩ := Option.isSome_iff_exists.1 hsome
  obtain ⟨i, hi, hop⟩ := exists_ofOperands? (length_of_numbers? hns)
  exact ⟨ns, i, hns, hi, hop⟩

theorem fetch_of_operands {i : Instruction} (hbyte : code[offset]? = some byte)
    (hop : Op.ofByte? byte = some op) (hns : code.numbers? op.widths (offset + 1) = some ns)
    (hi : Instruction.ofOperands? op ns = some i) : code.fetch offset = .instruction i := by
  unfold fetch
  simp only [hbyte, hop, hns, Option.bind_some, hi]

/-- An instruction whose bytes are all there can be read. -/
theorem fetch_of_room (hbyte : code[offset]? = some byte) (hop : Op.ofByte? byte = some op)
    (hroom : offset + 1 + op.width ≤ code.size) :
    ∃ i, code.fetch offset = .instruction i ∧ i.op = op := by
  obtain ⟨ns, i, hns, hi, rfl⟩ := exists_operands hroom
  exact ⟨i, fetch_of_operands hbyte hop hns hi, rfl⟩

/-- Without room for its operands, an instruction is cut off. -/
theorem fetch_of_cut (hbyte : code[offset]? = some byte) (hop : Op.ofByte? byte = some op)
    (hcut : code.size < offset + 1 + op.width) : code.fetch offset = .truncated := by
  have hoffset : offset + 1 ≤ code.size := (Array.getElem?_eq_some_iff.1 hbyte).1
  have hnone : code.numbers? op.widths (offset + 1) = none := by
    rw [← Option.not_isSome_iff_eq_none, isSome_numbers?_iff (widths_one_or_two op) hoffset]
    exact Nat.not_le.2 hcut
  unfold fetch
  simp only [hbyte, hop, hnone, Option.bind_none]

/-- Where an instruction is found, there is the byte of its operation, and behind it are its
operands. -/
theorem fetch_eq_instruction {i : Instruction} (h : code.fetch offset = .instruction i) :
    code[offset]? = some i.op.toByte ∧
      code.numbers? i.op.widths (offset + 1) = some i.operands := by
  unfold fetch at h
  split at h
  · cases h
  · next byte hbyte =>
    split at h
    · cases h
    · next op hop =>
      split at h
      · next j hj =>
        cases h
        obtain ⟨ns, hns, hi⟩ := Option.bind_eq_some_iff.1 hj
        obtain ⟨rfl, rfl⟩ : i.op = op ∧ i.operands = ns := by
          unfold Instruction.ofOperands? at hi
          split at hi <;> cases hi <;> exact ⟨rfl, rfl⟩
        exact ⟨by rw [hbyte, Op.toByte_of_ofByte? hop], hns⟩
      · cases h

end Code

namespace Machine

namespace Exec

variable {m : Machine} {op : Op} {n : Nat} {ns : List Nat} {i : Instruction}

/-! ## Operands by the operations -/

theorem readByte_eq (h : m.frame.routine.code.byte? m.frame.ip = some n) :
    readByte m = .ok n { m with frame := { m.frame with ip := m.frame.ip + 1 } } := by
  rw [readByte, bind_of_ok (get_apply m)]
  simp only [h]
  rfl

theorem readWord_eq (h : m.frame.routine.code.word? m.frame.ip = some n) :
    readWord m = .ok n { m with frame := { m.frame with ip := m.frame.ip + 2 } } := by
  rw [readWord, bind_of_ok (get_apply m)]
  simp only [h]
  rfl

/-- An operation reads the operands that the table of widths says, and leaves the position behind
them. -/
theorem readInstruction_eq
    (hns : m.frame.routine.code.numbers? op.widths m.frame.ip = some ns)
    (hi : Instruction.ofOperands? op ns = some i) :
    readInstruction op m =
      .ok i { m with frame := { m.frame with ip := m.frame.ip + op.width } } := by
  cases op with
  | constant | jump | jumpNotTruthy | setGlobal | getGlobal | array | hash =>
    obtain ⟨n, rest, hn, hrest, rfl⟩ := Code.numbers?_cons_eq_some.1 hns
    cases hrest
    cases hi
    exact bind_of_ok (readWord_eq hn)
  | setLocal | getLocal | getBuiltin | getFree | call =>
    obtain ⟨n, rest, hn, hrest, rfl⟩ := Code.numbers?_cons_eq_some.1 hns
    cases hrest
    cases hi
    exact bind_of_ok (readByte_eq hn)
  | closure =>
    obtain ⟨n, rest, hn, hrest, rfl⟩ := Code.numbers?_cons_eq_some.1 hns
    obtain ⟨n', rest', hn', hrest', rfl⟩ := Code.numbers?_cons_eq_some.1 hrest
    cases hrest'
    cases hi
    exact (bind_of_ok (readWord_eq hn)).trans (bind_of_ok (readByte_eq hn'))
  | _ =>
    cases hns
    cases hi
    rfl

/-- The state in which an instruction is executed: the position is already behind it. -/
def behind (m : Machine) (i : Instruction) : Machine :=
  { m with frame := { m.frame with ip := m.frame.ip + i.size } }

/-- A step does what stands at its position. -/
theorem step_eq (m : Machine) : Exec.step m =
    match m.frame.routine.code.fetch m.frame.ip with
    | .nothing => .ok false m
    | .unknown byte => .error (.error (.unknownOpcode byte m.frame.ip)) m
    | .truncated => .error (.error (.truncatedInstruction m.frame.ip)) m
    | .instruction i => (execute i >>= fun _ => pure true) (behind m i) := by
  rw [Exec.step, bind_of_ok (get_apply m)]
  cases hbyte : m.frame.routine.code[m.frame.ip]? with
  | none =>
    simp only [Code.fetch, hbyte]
    rfl
  | some byte =>
    cases hop : Op.ofByte? byte with
    | none =>
      simp only [Code.fetch, hbyte, hop]
      rfl
    | some op =>
      by_cases hcut : m.frame.routine.code.size < m.frame.ip + 1 + op.width
      · simp only [hop, Code.fetch_of_cut hbyte hop hcut, if_pos hcut]
        rfl
      · obtain ⟨ns, i, hns, hi, rfl⟩ := Code.exists_operands (Nat.le_of_not_lt hcut)
        have hfetch := Code.fetch_of_operands hbyte hop hns hi
        have hjump : Exec.jump (m.frame.ip + 1) m =
            .ok () { m with frame := { m.frame with ip := m.frame.ip + 1 } } := rfl
        simp only [hop, hfetch, if_neg hcut]
        rw [bind_of_ok hjump, bind_of_ok (readInstruction_eq hns hi), behind, Instruction.size,
          Nat.add_assoc]

end Exec

end Machine

end Scriptlet
