import Scriptlet.Proofs.Layout

/-!
# Returns outside of functions

A program may return, and what it had on the stack then stays there.  `Program.returns` says whether
the statements of a program or of a block return, other than in the functions that they define.  The
code of statements that do not is free of returns (`StmtsCode.returnValue_notMem`), since the code
of a function is not a part of the code around it.
-/

namespace Scriptlet

mutual

/-- Whether an expression returns from the code that it stands in. -/
def Expr.returns : Expr → Bool
  | .identifier _ | .integer _ | .boolean _ | .string _ => false
  | .array elements => Expr.anyReturns elements
  | .hash pairs => Expr.anyPairReturns pairs
  | .unary _ operand => operand.returns
  | .binary left _ right => left.returns || right.returns
  | .conditional condition consequence alternative =>
    condition.returns || Program.returns consequence ||
      match alternative with
      | some alternative => Program.returns alternative
      | none => false
  | .function _ _ _ => false
  | .call callee arguments => callee.returns || Expr.anyReturns arguments
  | .index collection key => collection.returns || key.returns

/-- Whether one of some expressions returns. -/
def Expr.anyReturns : List Expr → Bool
  | [] => false
  | e :: rest => e.returns || Expr.anyReturns rest

/-- Whether one of the entries of a hash literal returns. -/
def Expr.anyPairReturns : List (Expr × Expr) → Bool
  | [] => false
  | (key, value) :: rest => key.returns || value.returns || Expr.anyPairReturns rest

/-- Whether a statement returns from the code that it stands in. -/
def Stmt.returns : Stmt → Bool
  | .bind _ value => value.returns
  | .ret _ => true
  | .eval value => value.returns

/-- Whether statements return from the code that they stand in. -/
def Program.returns : Program → Bool
  | [] => false
  | first :: rest => first.returns || Program.returns rest

end

theorem Expr.returns_conditional (condition : Expr) (consequence : List Stmt)
    (alternative : Option (List Stmt)) :
    (Expr.conditional condition consequence alternative).returns =
      (condition.returns || Program.returns consequence ||
        Program.returns (alternative.getD [])) := by
  cases alternative <;> simp [Expr.returns, Program.returns]

theorem Symbol.load_ne_returnValue (symbol : Symbol) : symbol.load ≠ .returnValue := by
  unfold Symbol.load
  cases symbol.place <;> simp

theorem Symbol.store_ne_returnValue (symbol : Symbol) : symbol.store ≠ .returnValue := by
  unfold Symbol.store
  cases symbol.place <;> simp

theorem unaryInstruction?_ne_returnValue {operator : Operator} {i : Instruction}
    (h : Gen.unaryInstruction? operator = some i) : i ≠ .returnValue := by
  rintro rfl
  cases operator <;> simp [Gen.unaryInstruction?] at h

theorem binaryInstruction?_ne_returnValue {operator : Operator} {i : Instruction}
    (h : Gen.binaryInstruction? operator = some i) : i ≠ .returnValue := by
  rintro rfl
  cases operator <;> simp [Gen.binaryInstruction?] at h

theorem returnValue_notMem_branchCode {is : List Instruction} (h : .returnValue ∉ is) :
    .returnValue ∉ branchCode is := by
  intro hmem
  rcases mem_of_mem_branchCode hmem with hmem | hmem
  · exact h hmem
  · cases hmem

mutual

theorem ExprCode.returnValue_notMem {s s' : Stage} {p : Nat} {e : Expr} {is : List Instruction} :
    ExprCode s p e is s' → e.returns = false → .returnValue ∉ is
  | .identifier _, _ => by simp [(Symbol.load_ne_returnValue _).symm]
  | .integer _, _ => by simp
  | .boolean, _ => by
    split <;> simp
  | .string _, _ => by simp
  | .array helements _, h => by
    have hcode := helements.returnValue_notMem (by simpa [Expr.returns] using h)
    simp [hcode]
  | .hash hpairs _, h => by
    have hcode := hpairs.returnValue_notMem (by simpa [Expr.returns] using h)
    simp [hcode]
  | .unary hoperand hoperator, h => by
    have hcode := hoperand.returnValue_notMem (by simpa [Expr.returns] using h)
    simp [hcode, (unaryInstruction?_ne_returnValue hoperator).symm]
  | .lessThan hright hleft, h => by
    simp only [Expr.returns, Bool.or_eq_false_iff] at h
    have hcode₁ := hright.returnValue_notMem h.2
    have hcode₂ := hleft.returnValue_notMem h.1
    simp [hcode₁, hcode₂]
  | .binary hleft hright hoperator, h => by
    simp only [Expr.returns, Bool.or_eq_false_iff] at h
    have hcode₁ := hleft.returnValue_notMem h.1
    have hcode₂ := hright.returnValue_notMem h.2
    simp [hcode₁, hcode₂, (binaryInstruction?_ne_returnValue hoperator).symm]
  | .conditional hcondition hconsequence halternative _ _ _, h => by
    rw [Expr.returns_conditional] at h
    simp only [Bool.or_eq_false_iff] at h
    have hcode₁ := hcondition.returnValue_notMem h.1.1
    have hcode₂ := returnValue_notMem_branchCode (hconsequence.returnValue_notMem h.1.2)
    have hcode₃ := returnValue_notMem_branchCode (halternative.returnValue_notMem h.2)
    simp [hcode₁, hcode₂, hcode₃]
  | .function _ _ _ _ _, _ => by
    simp [Symbol.load_ne_returnValue]
  | .call hcallee harguments _, h => by
    simp only [Expr.returns, Bool.or_eq_false_iff] at h
    have hcode₁ := hcallee.returnValue_notMem h.1
    have hcode₂ := harguments.returnValue_notMem h.2
    simp [hcode₁, hcode₂]
  | .index hcollection hkey, h => by
    simp only [Expr.returns, Bool.or_eq_false_iff] at h
    have hcode₁ := hcollection.returnValue_notMem h.1
    have hcode₂ := hkey.returnValue_notMem h.2
    simp [hcode₁, hcode₂]

theorem ExprsCode.returnValue_notMem {s s' : Stage} {p : Nat} {es : List Expr}
    {is : List Instruction} :
    ExprsCode s p es is s' → Expr.anyReturns es = false → .returnValue ∉ is
  | .nil, _ => by simp
  | .cons hfirst hrest, h => by
    simp only [Expr.anyReturns, Bool.or_eq_false_iff] at h
    have hcode₁ := hfirst.returnValue_notMem h.1
    have hcode₂ := hrest.returnValue_notMem h.2
    simp [hcode₁, hcode₂]

theorem EntriesCode.returnValue_notMem {s s' : Stage} {p : Nat} {pairs : List (Expr × Expr)}
    {is : List Instruction} :
    EntriesCode s p pairs is s' → Expr.anyPairReturns pairs = false → .returnValue ∉ is
  | .nil, _ => by simp
  | .cons _ hkey hvalue hrest, h => by
    simp only [Expr.anyPairReturns, Bool.or_eq_false_iff] at h
    have hcode₁ := hkey.returnValue_notMem h.1.1
    have hcode₂ := hvalue.returnValue_notMem h.1.2
    have hcode₃ := hrest.returnValue_notMem h.2
    simp [hcode₁, hcode₂, hcode₃]

theorem StmtCode.returnValue_notMem {s s' : Stage} {p : Nat} {first : Stmt}
    {is : List Instruction} : StmtCode s p first is s' → first.returns = false → .returnValue ∉ is
  | .bind hvalue _ _, h => by
    have hcode := hvalue.returnValue_notMem (by simpa [Stmt.returns] using h)
    simp [hcode, (Symbol.store_ne_returnValue _).symm]
  | .ret _, h => by simp [Stmt.returns] at h
  | .eval hvalue, h => by
    have hcode := hvalue.returnValue_notMem (by simpa [Stmt.returns] using h)
    simp [hcode]

/-- The code of statements that do not return has no return in it. -/
theorem StmtsCode.returnValue_notMem {s s' : Stage} {p : Nat} {body : List Stmt}
    {is : List Instruction} :
    StmtsCode s p body is s' → Program.returns body = false → .returnValue ∉ is
  | .nil, _ => by simp
  | .cons hfirst hrest, h => by
    simp only [Program.returns, Bool.or_eq_false_iff] at h
    have hcode₁ := hfirst.returnValue_notMem h.1
    have hcode₂ := hrest.returnValue_notMem h.2
    simp [hcode₁, hcode₂]

end

end Scriptlet
