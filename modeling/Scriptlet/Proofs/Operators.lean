import Scriptlet.Proofs.Correspondence
import Scriptlet.Proofs.StackContents
import Scriptlet.Proofs.Writable

/-!
# Operators in both engines

The machine and the evaluator each have their own table of what an operator makes of which values,
one by operations and the other by operators, and `<` has no operation at all: it is compiled as `>`
with its operands exchanged.  `Operator.engines_concur` says that the two tables are the same, for
all values and not only for those that the code of one program comes to.

* `Machine.operate` and `Operator.applyBinary` come to the same value or both fail
  (`Operator.toOption_operate`); likewise for one operand and for an index.
* `Machine.Holds` says what the stack holds, and `Machine.settle` is the outcome of an instruction
  that takes its operands off the stack and then pushes a result or fails.  There is one equation
  for each kind of instruction.
* `Concurs` puts the two together.

A string that results is new, and the identity it gets depends on how many values were made before.
Both engines are asked for the result under the same identity, and `Concurs.renewed` adds that
nothing but the identity of a new string depends on it.
-/

namespace Scriptlet

/-- The instruction that an operator is compiled to. -/
def Operator.instruction : Operator → Instruction
  | add => .add
  | subtract => .sub
  | multiply => .mul
  | divide => .div
  | equal => .equal
  | notEqual => .notEqual
  | lessThan | greaterThan => .greaterThan
  | not => .bang
  | negate => .minus

/-- Two operands in the order in which they are compiled. -/
def Operator.inOrder {α : Type} (operator : Operator) (left right : α) : List α :=
  if operator = .lessThan then [right, left] else [left, right]

namespace Gen

theorem exprs_one (e : Expr) : exprs [e] = expr e := by simp [exprs]

theorem exprs_two (e f : Expr) : exprs [e, f] = expr e >>= fun _ => expr f := by simp [exprs]

theorem expr_binary {operator : Operator} (h : operator.isUnary = false) (left right : Expr) :
    expr (.binary left operator right) =
      exprs (operator.inOrder left right) >>= fun _ => emit operator.instruction := by
  cases operator with
  | not => cases h
  | negate => cases h
  | _ =>
    simp [expr, Operator.inOrder, exprs_two, emitOperator, binaryInstruction?,
      Operator.instruction]

theorem expr_unary {operator : Operator} (h : operator.isUnary = true) (operand : Expr) :
    expr (.unary operator operand) = exprs [operand] >>= fun _ => emit operator.instruction := by
  cases operator with
  | not => simp [expr, exprs_one, emitOperator, unaryInstruction?, Operator.instruction]
  | negate => simp [expr, exprs_one, emitOperator, unaryInstruction?, Operator.instruction]
  | _ => cases h

theorem expr_index (collection key : Expr) :
    expr (.index collection key) = exprs [collection, key] >>= fun _ => emit .index := by
  simp [expr, exprs_two]

end Gen

/-! ## Two tables -/

namespace Operator

open Value

variable {operator : Operator} {left right : Value}

theorem toOption_operate_mixed (h : operator.isUnary = false) (hmixed : Mixed left right)
    (stamp : Stamp) :
    (Machine.operate operator left right stamp).toOption =
      (operator.applyBinary left right stamp).toOption := by
  rw [hmixed.applyBinary]
  unfold Machine.operate
  cases operator with
  | equal =>
    dsimp only
    rw [hmixed.comparison]
    rfl
  | notEqual =>
    dsimp only
    rw [hmixed.comparison]
    rfl
  | greaterThan =>
    dsimp only
    rw [hmixed.comparison]
    rfl
  | lessThan =>
    dsimp only
    rw [hmixed.symm.comparison]
    rfl
  | not => cases h
  | negate => cases h
  | _ =>
    obtain ⟨e, he⟩ := hmixed.arithmetic _ stamp
    dsimp only
    rw [he]
    rfl

/-- Both engines make the same of two operands, or fail. -/
theorem toOption_operate (h : operator.isUnary = false) (left right : Value) (stamp : Stamp) :
    (Machine.operate operator left right stamp).toOption =
      (operator.applyBinary left right stamp).toOption := by
  have hmixed (hcells : Mixed left right) := toOption_operate_mixed h hcells stamp
  cases left with
  | integer a =>
    cases right with
    | integer b =>
      cases operator with
      | divide =>
        simp only [Machine.operate, Machine.arithmetic, Machine.integerArithmetic, applyBinary,
          applyIntegers]
        cases floorDiv? a b <;> rfl
      | _ => rfl
    | _ => exact hmixed (by constructor <;> simp)
  | string s x =>
    cases right with
    | string t y => cases operator <;> rfl
    | _ => exact hmixed (by constructor <;> simp)
  | _ => exact hmixed (by constructor <;> simp)

end Operator

theorem Value.toOption_negative (v : Value) :
    (Machine.negative v).toOption = (Operator.negate.applyUnary v).toOption := by
  cases v <;> rfl

theorem Value.toOption_select (collection key : Value) :
    (Machine.select collection key).toOption = (collection.select key).toOption := by
  cases collection with
  | array s elements =>
    cases key with
    | integer i =>
      unfold Machine.select Value.select
      dsimp only
      split <;> rfl
    | _ => rfl
  | hash s entries =>
    unfold Machine.select Value.select
    dsimp only
    cases key.key? <;> rfl
  | _ => rfl

/-! ## Operands on the stack -/

namespace Machine

open Exec

variable {m : Machine} {v w : Value} {xs vs : List Value} {host : Host}

/-- The stack has its size, and these are the values in the slots in use, lowest first. -/
structure Holds (m : Machine) (values : List Value) : Prop where
  size : m.stack.size = stackSize
  sp : m.sp ≤ stackSize
  slots : m.slots = values

/-- The state with a value pushed onto the `n` lowest ones. -/
def pushed (m : Machine) (n : Nat) (v : Value) (host : Host) : Machine :=
  { m with stack := m.stack.setIfInBounds n v, sp := n + 1, host := host }

/-- The outcome of an instruction that takes its operands off the stack, down to `n` values, and
then pushes a result or fails. -/
def settle (m : Machine) (n : Nat) (host : Host) :
    Except Error Value → EStateM.Result Halt Machine Unit
  | .ok v => .ok () (m.pushed n v host)
  | .error e => .error (.error e) { m with sp := n }

namespace Holds

theorem holding (h : m.Holds xs) : Holding m xs m where
  size := h.size
  sp := h.sp
  slots := h.slots
  frame := rfl
  callers := rfl
  globals := rfl
  made := Nat.le_refl _

theorem sp_eq (h : m.Holds xs) : m.sp = xs.length := h.holding.sp_eq

theorem lower (h : m.Holds (xs ++ vs)) : Holds { m with sp := xs.length } xs := by
  have hsp := h.sp_eq
  rw [List.length_append] at hsp
  refine ⟨h.size, Nat.le_trans ?_ h.sp, h.holding.take_eq⟩
  show xs.length ≤ m.sp
  omega

theorem pop_eq (h : m.Holds (xs ++ [v])) : pop m = .ok v { m with sp := xs.length } := by
  have hsp := h.sp_eq
  rw [List.length_append, List.length_singleton] at hsp
  have htop : m.stack[m.sp - 1]? = some v := by
    refine getElem?_stack_of_slots ?_
    rw [h.slots, hsp]
    simp
  unfold pop
  rw [if_neg (by omega), htop, hsp]
  rfl

theorem push_eq (h : m.Holds xs) (hroom : xs.length < stackSize) :
    push v m = .ok () (m.pushed xs.length v m.host) := by
  have hsp := h.sp_eq
  have hsize := h.size
  unfold push
  rw [if_neg (by omega), if_pos (by omega), hsp]
  rfl

theorem raise (h : m.Holds xs) (hroom : xs.length < stackSize) :
    (m.pushed xs.length v host).Holds (xs ++ [v]) := by
  have hpush : Ensures (push v) m (fun _ m' => m'.slots = xs ++ [v]) fun _ _ => True :=
    h.holding.push (fun _ => trivial) fun _ h' _ _ => h'.slots
  have hpushed : (m.pushed xs.length v m.host).slots = xs ++ [v] :=
    hpush.of_ok (h.push_eq hroom)
  refine ⟨?_, hroom, hpushed⟩
  rw [← h.size]
  exact Array.size_setIfInBounds

/-- There is room for a result where operands were. -/
theorem room (h : m.Holds (xs ++ vs)) (hne : vs ≠ []) : xs.length < stackSize := by
  have hlength := h.sp_eq ▸ h.sp
  have hpos := List.length_pos_of_ne_nil hne
  rw [List.length_append] at hlength
  omega

/-- A result is pushed where operands were. -/
theorem push_lift (h : m.Holds (xs ++ vs)) (hne : vs ≠ []) (r : Except Error Value) :
    (lift r >>= fun v => push v) { m with sp := xs.length } = m.settle xs.length m.host r := by
  cases r with
  | error e => rfl
  | ok v => exact h.lower.push_eq (h.room hne)

/-- The topmost of two operands is taken off the stack, then the other. -/
theorem bind_pop₂ {α : Type} (h : m.Holds (xs ++ [v, w])) (f : Value → Value → Exec α) :
    (pop >>= fun a => pop >>= fun b => f a b) m = f w v { m with sp := xs.length } := by
  have hsplit : m.Holds (xs ++ [v] ++ [w]) := by simpa using h
  have hpop := hsplit.lower.pop_eq
  rw [bind_of_ok hsplit.pop_eq, bind_of_ok hpop]

theorem arithmetic_eq (h : m.Holds (xs ++ [v, w])) (op : Op) :
    Exec.arithmetic op m =
      m.settle xs.length m.host.used (Machine.arithmetic op v w m.host.stamp) := by
  refine (h.bind_pop₂ _).trans ((bind_of_ok (get_apply _)).trans ?_)
  cases Machine.arithmetic op v w m.host.stamp with
  | error e => rfl
  | ok r =>
    have hlower : Holds { m with sp := xs.length, host := m.host.used } xs :=
      ⟨h.lower.size, h.lower.sp, h.lower.slots⟩
    exact hlower.push_eq (h.room (List.cons_ne_nil _ _))

theorem comparison_eq (h : m.Holds (xs ++ [v, w])) (op : Op) :
    Exec.comparison op m =
      m.settle xs.length m.host (Value.boolean <$> Machine.comparison op v w) := by
  refine (h.bind_pop₂ _).trans ?_
  rw [← h.push_lift (List.cons_ne_nil _ _)]
  cases Machine.comparison op v w <;> rfl

/-- The instruction of an operator between two operands. -/
theorem execute_binary {operator : Operator} (hbinary : operator.isUnary = false)
    (h : m.Holds (xs ++ operator.inOrder v w)) :
    ∃ host, host.output = m.host.output ∧ execute operator.instruction m =
      m.settle xs.length host (operate operator v w m.host.stamp) := by
  cases operator with
  | equal => exact ⟨_, rfl, h.comparison_eq .equal⟩
  | notEqual => exact ⟨_, rfl, h.comparison_eq .notEqual⟩
  | greaterThan => exact ⟨_, rfl, h.comparison_eq .greaterThan⟩
  | lessThan => exact ⟨_, rfl, h.comparison_eq .greaterThan⟩
  | add => exact ⟨m.host.used, rfl, h.arithmetic_eq .add⟩
  | subtract => exact ⟨m.host.used, rfl, h.arithmetic_eq .sub⟩
  | multiply => exact ⟨m.host.used, rfl, h.arithmetic_eq .mul⟩
  | divide => exact ⟨m.host.used, rfl, h.arithmetic_eq .div⟩
  | not => cases hbinary
  | negate => cases hbinary

theorem execute_bang (h : m.Holds (xs ++ [v])) :
    execute .bang m = m.settle xs.length m.host (.ok (.boolean !v.isTruthy)) := by
  refine (bind_of_ok h.pop_eq).trans ?_
  exact h.push_lift (List.cons_ne_nil _ _) (.ok (.boolean !v.isTruthy))

theorem execute_minus (h : m.Holds (xs ++ [v])) :
    execute .minus m = m.settle xs.length m.host (negative v) := by
  refine (bind_of_ok h.pop_eq).trans ?_
  exact h.push_lift (List.cons_ne_nil _ _) (negative v)

theorem execute_index (h : m.Holds (xs ++ [v, w])) :
    execute .index m = m.settle xs.length m.host (select v w) := by
  refine (h.bind_pop₂ _).trans ?_
  exact h.push_lift (List.cons_ne_nil _ _) (select v w)

end Holds

end Machine

/-! ## One outcome -/

/-- Two values are one, or they are a string that is new, under these two identities. -/
inductive Value.Renewed (s t : Stamp) : Value → Value → Prop
  | same (v : Value) : Renewed s t v v
  | string (contents : String) : Renewed s t (.string s contents) (.string t contents)

/-- Two results are equal but for the identity of a new string. -/
def RenewedResult (s t : Stamp) : Except EvalError Value → Except EvalError Value → Prop
  | .ok v, .ok w => v.Renewed s t w
  | .error e, .error e' => e = e'
  | _, _ => False

theorem renewedResult_refl (s t : Stamp) (r : Except EvalError Value) : RenewedResult s t r r := by
  cases r with
  | ok v => exact .same v
  | error e => rfl

theorem Operator.renewed_applyBinary (operator : Operator) (left right : Value) (s t : Stamp) :
    RenewedResult s t (operator.applyBinary left right s) (operator.applyBinary left right t) := by
  unfold Operator.applyBinary
  split
  · exact renewedResult_refl s t _
  · split
    · exact .string _
    · exact renewedResult_refl s t _
  · exact renewedResult_refl s t _

/-- A value has been pushed onto the values `below`; apart from that only the host has changed, and
nothing has been printed. -/
def Machine.Pushes (m : Machine) (below : List Value) (v : Value) (m' : Machine) : Prop :=
  m'.slots = below ++ [v] ∧
    ∃ host : Host, host.output = m.host.output ∧ m' = m.pushed below.length v host

/-- An instruction makes of operands on the stack what the evaluator makes of them, which is `f` of
the identity that a new value gets. -/
structure Concurs (i : Instruction) (operands : List Value)
    (f : Stamp → Except EvalError Value) : Prop where
  pushes : ∀ (m : Machine) (below : List Value), m.Holds (below ++ operands) → ∀ v,
    (∃ m', Machine.Exec.execute i m = .ok () m' ∧ m.Pushes below v m') ↔ f m.host.stamp = .ok v
  fails : ∀ (m : Machine) (below : List Value), m.Holds (below ++ operands) →
    ((∃ halt m', Machine.Exec.execute i m = .error halt m') ↔ ∃ e, f m.host.stamp = .error e)
  /-- An instruction that fails has taken its operands off the stack and pushed nothing. -/
  popped : ∀ (m : Machine) (below : List Value), m.Holds (below ++ operands) → ∀ halt m',
    Machine.Exec.execute i m = .error halt m' →
      (∃ e, halt = .error e) ∧ m' = { m with sp := below.length } ∧ m'.slots = below
  renewed : ∀ s t, RenewedResult s t (f s) (f t)

namespace Machine

open Exec

variable {m m' : Machine} {below operands : List Value} {v : Value} {host : Host} {i : Instruction}
  {f : Stamp → Except EvalError Value}

/-- A state shows which value has been pushed. -/
theorem Pushes.unique {w : Value} (hv : m.Pushes below v m') (hw : m.Pushes below w m') : v = w :=
  List.singleton_inj.1 (List.append_cancel_left (hv.1.symm.trans hw.1))

/-- An instruction that settles on a result comes to what the evaluator comes to, or fails as the
evaluator does. -/
theorem Holds.outcome {r : Except Error Value} {r' : Except EvalError Value}
    (h : m.Holds (below ++ operands)) (hne : operands ≠ []) (houtput : host.output = m.host.output)
    (hexecute : execute i m = m.settle below.length host r) (hresult : r.toOption = r'.toOption) :
    (∃ v m', r' = .ok v ∧ execute i m = .ok () m' ∧ m.Pushes below v m') ∨
      ∃ e e', r' = .error e' ∧ execute i m = .error (.error e) { m with sp := below.length } := by
  cases r with
  | ok v =>
    cases r' with
    | ok w =>
      obtain rfl : v = w := Option.some.inj hresult
      exact .inl ⟨v, _, rfl, hexecute, (h.lower.raise (h.room hne)).slots, host, houtput, rfl⟩
    | error e' => cases hresult
  | error e =>
    cases r' with
    | ok w => cases hresult
    | error e' => exact .inr ⟨e, e', rfl, hexecute⟩

end Machine

theorem concurs_of_outcome {i : Instruction} {operands : List Value}
    {f : Stamp → Except EvalError Value} (hrenewed : ∀ s t, RenewedResult s t (f s) (f t))
    (h : ∀ (m : Machine) (below : List Value), m.Holds (below ++ operands) →
      (∃ v m', f m.host.stamp = .ok v ∧ Machine.Exec.execute i m = .ok () m' ∧
          m.Pushes below v m') ∨
        ∃ e e', f m.host.stamp = .error e' ∧
          Machine.Exec.execute i m = .error (.error e) { m with sp := below.length }) :
    Concurs i operands f := by
  refine ⟨fun m below hm v => ?_, fun m below hm => ?_, fun m below hm halt m' hfail => ?_,
    hrenewed⟩
  · obtain ⟨w, m', hf, hexecute, hpushes⟩ | ⟨e, e', hf, hexecute⟩ := h m below hm
    · constructor
      · rintro ⟨m₁, hm₁, hpushes₁⟩
        cases hexecute.symm.trans hm₁
        rw [hpushes₁.unique hpushes]
        exact hf
      · intro hv
        cases hf.symm.trans hv
        exact ⟨m', hexecute, hpushes⟩
    · constructor
      · rintro ⟨m₁, hm₁, -⟩
        cases hexecute.symm.trans hm₁
      · intro hv
        cases hf.symm.trans hv
  · obtain ⟨w, m', hf, hexecute, -⟩ | ⟨e, e', hf, hexecute⟩ := h m below hm
    · constructor
      · rintro ⟨halt, m₁, hm₁⟩
        cases hexecute.symm.trans hm₁
      · rintro ⟨e, he⟩
        cases hf.symm.trans he
    · exact ⟨fun _ => ⟨e', hf⟩, fun _ => ⟨_, _, hexecute⟩⟩
  · obtain ⟨w, m', hf, hexecute, -⟩ | ⟨e, e', hf, hexecute⟩ := h m below hm
    · cases hexecute.symm.trans hfail
    · cases hexecute.symm.trans hfail
      exact ⟨⟨e, rfl⟩, rfl, hm.lower.slots⟩

/-! ## All operators -/

theorem Operator.concurs_binary {operator : Operator} (h : operator.isUnary = false)
    (left right : Value) :
    Concurs operator.instruction (operator.inOrder left right)
      (operator.applyBinary left right) := by
  refine concurs_of_outcome (operator.renewed_applyBinary left right) fun m below hm => ?_
  have hne : operator.inOrder left right ≠ [] := by
    unfold Operator.inOrder
    split <;> exact List.cons_ne_nil _ _
  obtain ⟨host, houtput, hexecute⟩ := hm.execute_binary h
  exact hm.outcome hne houtput hexecute (Operator.toOption_operate h left right _)

theorem Operator.concurs_unary {operator : Operator} (h : operator.isUnary = true)
    (operand : Value) :
    Concurs operator.instruction [operand] fun _ => operator.applyUnary operand := by
  refine concurs_of_outcome (fun s t => renewedResult_refl s t _) fun m below hm => ?_
  cases operator with
  | not => exact hm.outcome (List.cons_ne_nil _ _) rfl hm.execute_bang rfl
  | negate =>
    exact hm.outcome (List.cons_ne_nil _ _) rfl hm.execute_minus (Value.toOption_negative operand)
  | _ => cases h

theorem Value.concurs_select (collection key : Value) :
    Concurs .index [collection, key] fun _ => collection.select key := by
  refine concurs_of_outcome (fun s t => renewedResult_refl s t _) fun m below hm => ?_
  exact hm.outcome (List.cons_ne_nil _ _) rfl hm.execute_index
    (Value.toOption_select collection key)

/-- Every operator, and an index, is compiled to code for its operands and one instruction behind
it.  On any operands that instruction pushes what the evaluator makes of them, and fails if the
evaluator does. -/
theorem Operator.engines_concur :
    (∀ operator : Operator, operator.isUnary = false →
      (∀ left right, Gen.expr (.binary left operator right) =
        Gen.exprs (operator.inOrder left right) >>= fun _ => Gen.emit operator.instruction) ∧
      ∀ left right, Concurs operator.instruction (operator.inOrder left right)
        (operator.applyBinary left right)) ∧
    (∀ operator : Operator, operator.isUnary = true →
      (∀ operand, Gen.expr (.unary operator operand) =
        Gen.exprs [operand] >>= fun _ => Gen.emit operator.instruction) ∧
      ∀ operand, Concurs operator.instruction [operand] fun _ => operator.applyUnary operand) ∧
    (∀ collection key, Gen.expr (.index collection key) =
      Gen.exprs [collection, key] >>= fun _ => Gen.emit .index) ∧
    ∀ collection key, Concurs .index [collection, key] fun _ => Value.select collection key :=
  ⟨fun _ h => ⟨Gen.expr_binary h, concurs_binary h⟩, fun _ h => ⟨Gen.expr_unary h, concurs_unary h⟩,
    Gen.expr_index, Value.concurs_select⟩

/-- A machine with two values on its stack. -/
def Machine.withOperands (v w : Value) : Machine :=
  ((Machine.start {}).pushed 0 v {}).pushed 1 w {}

theorem Machine.holds_withOperands (v w : Value) : (withOperands v w).Holds [v, w] := by
  have hstart : (Machine.start {}).Holds [] := ⟨Array.size_replicate, Nat.zero_le _, rfl⟩
  have hfirst : ((Machine.start {}).pushed 0 v {}).Holds [v] := hstart.raise (by decide)
  exact hfirst.raise (by decide : 1 < stackSize)

/-- For `3 < 5` the machine finds 5 below 3 and pushes `true`; `"a" == "a"` pushes nothing. -/
theorem Operator.lessThan_pushes_equal_fails :
    lessThan.isUnary = false ∧ (Machine.withOperands (.integer 5) (.integer 3)).Holds
        (lessThan.inOrder (.integer 3) (.integer 5)) ∧
      (∃ m', Machine.Exec.execute .greaterThan
          (Machine.withOperands (.integer 5) (.integer 3)) = .ok () m' ∧
        m'.slots = [.boolean true]) ∧
      ∃ halt m', Machine.Exec.execute .equal
          (Machine.withOperands (.string (.made 0) "a") (.string (.made 1) "a")) = .error halt m' ∧
        m'.slots = [] := by
  have hless := (engines_concur.1 .lessThan rfl).2 (.integer 3) (.integer 5)
  have hequal := (engines_concur.1 .equal rfl).2 (.string (.made 0) "a") (.string (.made 1) "a")
  have hintegers := Machine.holds_withOperands (.integer 5) (.integer 3)
  have hstrings := Machine.holds_withOperands (.string (.made 0) "a") (.string (.made 1) "a")
  obtain ⟨m', hm', hslots, -⟩ := (hless.pushes _ [] hintegers (.boolean true)).2 rfl
  obtain ⟨halt, m'', hm''⟩ := (hequal.fails _ [] hstrings).2 ⟨_, rfl⟩
  exact ⟨rfl, hintegers, ⟨m', hm', hslots⟩, halt, m'', hm'',
    (hequal.popped _ [] hstrings halt m'' hm'').2.2⟩

end Scriptlet
