import Scriptlet.Proofs.Flow
import Scriptlet.Proofs.Resolution

/-!
# Functions that are open

`Stage.enclosures` says of every open table, from the inside out, whether it belongs to a function.
Code leaves this list as it was: a function that it opens it closes again.  Nothing has to be known
about the tables for that, so it holds of any table that compilation goes on from.

Since only a table of a program hands out global slots, the code of a function never writes one
(`Stage.Encloses.stores`).
-/

namespace Scriptlet

open Code

theorem Chain.enclosures_resolveFrom (name : String) (inner : SymbolTable)
    (outer : List SymbolTable) :
    (resolveFrom name inner outer).2.toList.map SymbolTable.enclosed =
      (inner :: outer).map SymbolTable.enclosed := by
  induction outer generalizing inner with
  | nil => rfl
  | cons table outer ih =>
    unfold resolveFrom
    split
    · rfl
    · have hrest := ih table
      split
      · next hresolve =>
        rw [hresolve] at hrest
        exact congrArg (inner.enclosed :: ·) hrest
      · next hresolve =>
        rw [hresolve] at hrest
        split
        · exact congrArg (inner.enclosed :: ·) hrest
        · exact congrArg (inner.enclosed :: ·) hrest

namespace Stage

/-- Which of the open tables belong to functions, innermost first. -/
def enclosures (s : Stage) : List Bool := s.tables.toList.map SymbolTable.enclosed

variable {s s' s'' : Stage} {is js : List Instruction} {i : Instruction}

theorem enclosures_enter (s : Stage) (name : Option String) (parameters : List String) :
    (s.enter name parameters).enclosures = true :: s.enclosures := by
  obtain ⟨-, henclosed, -, -⟩ := SymbolTable.ofFunction_sound name parameters
  exact congrArg (· :: s.enclosures) henclosed

theorem enclosures_leave {b : Bool} (h : s'.enclosures = b :: s.enclosures) (n : Nat) :
    (s'.leave is n).enclosures = s.enclosures := by
  obtain ⟨constants, ⟨inner, outer⟩⟩ := s'
  cases outer with
  | nil => cases h
  | cons table outer => exact (List.cons.inj h).2

theorem enclosed_of_enclosures (h : s.enclosures.head? = some true) :
    s.tables.inner.enclosed = true := Option.some.inj h

/-- The code `is` leaves the open tables open, and writes no global slot in a function. -/
structure Encloses (s : Stage) (is : List Instruction) (s' : Stage) : Prop where
  same : s'.enclosures = s.enclosures
  stores : s.enclosures.head? = some true → ∀ n, .setGlobal n ∉ is

theorem Encloses.trans (h : s.Encloses is s') (h' : s'.Encloses js s'') :
    s.Encloses (is ++ js) s'' := by
  refine ⟨h'.same.trans h.same, fun hhead n => ?_⟩
  simp [h.stores hhead n, h'.stores (h.same ▸ hhead) n]

theorem encloses_nil (h : s'.enclosures = s.enclosures) : s.Encloses [] s' := ⟨h, by simp⟩

theorem encloses_singleton (h : s'.enclosures = s.enclosures) (hi : ∀ n, i ≠ .setGlobal n) :
    s.Encloses [i] s' := ⟨h, fun _ n => by simpa using (hi n).symm⟩

theorem Encloses.concat (h : s.Encloses is s') (hi : ∀ n, i ≠ .setGlobal n) :
    s.Encloses (is ++ [i]) s' := h.trans (encloses_singleton rfl hi)

theorem Encloses.cons (h : s.Encloses is s') (hi : ∀ n, i ≠ .setGlobal n) :
    s.Encloses (i :: is) s' := by
  have hfirst : s.Encloses [i] s := encloses_singleton rfl hi
  exact hfirst.trans h

theorem Encloses.branchCode (h : s.Encloses is s') : s.Encloses (branchCode is) s' := by
  refine ⟨h.same, fun hhead n hmem => ?_⟩
  rcases mem_of_mem_branchCode hmem with hmem | hmem
  · exact h.stores hhead n hmem
  · cases hmem

end Stage

theorem Symbol.load_ne_setGlobal (symbol : Symbol) (n : Nat) : symbol.load ≠ .setGlobal n := by
  unfold Symbol.load
  cases symbol.place <;> simp

theorem unaryInstruction?_ne_setGlobal {operator : Operator} {i : Instruction}
    (h : Gen.unaryInstruction? operator = some i) (n : Nat) : i ≠ .setGlobal n := by
  rintro rfl
  cases operator <;> simp [Gen.unaryInstruction?] at h

theorem binaryInstruction?_ne_setGlobal {operator : Operator} {i : Instruction}
    (h : Gen.binaryInstruction? operator = some i) (n : Nat) : i ≠ .setGlobal n := by
  rintro rfl
  cases operator <;> simp [Gen.binaryInstruction?] at h

mutual

theorem ExprCode.encloses {s s' : Stage} {p : Nat} {e : Expr} {is : List Instruction} :
    ExprCode s p e is s' → s.Encloses is s'
  | @ExprCode.identifier s _ name _ _ hresolve => by
    have hsame := Chain.enclosures_resolveFrom name s.tables.inner s.tables.outer
    rw [← Chain.resolve, hresolve] at hsame
    exact Stage.encloses_singleton hsame (Symbol.load_ne_setGlobal _)
  | .integer _ => Stage.encloses_singleton rfl (by simp)
  | .boolean => Stage.encloses_singleton rfl (by intro n; split <;> simp)
  | .string _ => Stage.encloses_singleton rfl (by simp)
  | .array helements _ => helements.encloses.concat (by simp)
  | .hash hpairs _ => hpairs.encloses.concat (by simp)
  | .unary hoperand hoperator => hoperand.encloses.concat (unaryInstruction?_ne_setGlobal hoperator)
  | .lessThan hright hleft => (hright.encloses.trans hleft.encloses).concat (by simp)
  | .binary hleft hright hoperator =>
    (hleft.encloses.trans hright.encloses).concat (binaryInstruction?_ne_setGlobal hoperator)
  | .conditional hcondition hconsequence halternative _ _ _ => by
    refine hcondition.encloses.trans (.cons (.trans hconsequence.encloses.branchCode ?_) (by simp))
    exact halternative.encloses.branchCode.cons (by simp)
  | @ExprCode.function s s' _ name parameters _ _ hbody _ _ _ _ => by
    have hsame := hbody.encloses.same
    rw [Stage.enclosures_enter] at hsame
    refine ⟨Stage.enclosures_leave hsame _, fun _ n => ?_⟩
    simp [Symbol.load_ne_setGlobal]
  | .call hcallee harguments _ => (hcallee.encloses.trans harguments.encloses).concat (by simp)
  | .index hcollection hkey => (hcollection.encloses.trans hkey.encloses).concat (by simp)

theorem ExprsCode.encloses {s s' : Stage} {p : Nat} {es : List Expr} {is : List Instruction} :
    ExprsCode s p es is s' → s.Encloses is s'
  | .nil => Stage.encloses_nil rfl
  | .cons hfirst hrest => hfirst.encloses.trans hrest.encloses

theorem EntriesCode.encloses {s s' : Stage} {p : Nat} {pairs : List (Expr × Expr)}
    {is : List Instruction} : EntriesCode s p pairs is s' → s.Encloses is s'
  | .nil => Stage.encloses_nil rfl
  | .cons _ hkey hvalue hrest => (hkey.encloses.trans hvalue.encloses).trans hrest.encloses

theorem StmtCode.encloses {s s' : Stage} {p : Nat} {first : Stmt} {is : List Instruction} :
    StmtCode s p first is s' → s.Encloses is s'
  | @StmtCode.bind s s' _ name _ is _ hvalue hsymbol _ => by
    refine hvalue.encloses.trans ⟨rfl, fun hhead n => ?_⟩
    rw [hsymbol]
    simp [SymbolTable.nextSymbol, Stage.enclosed_of_enclosures hhead, Symbol.store]
  | .ret hvalue => hvalue.encloses.concat (by simp)
  | .eval hvalue => hvalue.encloses.concat (by simp)

/-- Statements leave the open functions open, and write no global slot in a function. -/
theorem StmtsCode.encloses {s s' : Stage} {p : Nat} {body : List Stmt} {is : List Instruction} :
    StmtsCode s p body is s' → s.Encloses is s'
  | .nil => Stage.encloses_nil rfl
  | .cons hfirst hrest => hfirst.encloses.trans hrest.encloses

end

end Scriptlet
