import Scriptlet.Proofs.Layout

/-!
# Moving code

Code that is emitted further back differs from what it would be only in the targets of its jumps,
all of which are further back by the same number of bytes (`StmtsCode.relocated`).  The code of
functions starts in a buffer of its own and does not differ at all, so the constants and the tables
are the same.

In particular a tree has one code at a given place.
-/

namespace Scriptlet

open Code

namespace Instruction

/-- The instruction in code that stands `n` bytes further back. -/
def shift (n : Nat) : Instruction → Instruction
  | jump target => jump (n + target)
  | jumpNotTruthy target => jumpNotTruthy (n + target)
  | i => i

@[simp] theorem op_shift (n : Nat) (i : Instruction) : (i.shift n).op = i.op := by
  cases i <;> rfl

@[simp] theorem size_shift (n : Nat) (i : Instruction) : (i.shift n).size = i.size := by
  rw [size, size, op_shift]

@[simp] theorem shift_zero (i : Instruction) : i.shift 0 = i := by
  cases i <;> simp [shift]

theorem shift_eq_pop {n : Nat} {i : Instruction} : i.shift n = .pop ↔ i = .pop := by
  cases i <;> simp [shift]

end Instruction

open Instruction

theorem map_shift_zero (is : List Instruction) : is.map (shift 0) = is :=
  List.map_id'' shift_zero is

@[simp] theorem extent_map_shift (n : Nat) (is : List Instruction) :
    extent (is.map (shift n)) = extent is := by
  induction is with
  | nil => rfl
  | cons i is ih => rw [List.map_cons, extent_cons, extent_cons, ih, size_shift]

theorem branchCode_map_shift (n : Nat) (is : List Instruction) :
    branchCode (is.map (shift n)) = (branchCode is).map (shift n) := by
  rcases List.eq_nil_or_concat is with rfl | ⟨js, i, rfl⟩
  · rfl
  · rw [List.concat_eq_append, List.map_append, List.map_singleton]
    by_cases hi : i = .pop
    · subst hi
      exact (branchCode_concat_pop _).trans (congrArg _ (branchCode_concat_pop js).symm)
    · rw [branchCode_concat _ hi, branchCode_concat _ (mt shift_eq_pop.1 hi)]
      simp [shift]

@[simp] theorem Symbol.shift_load (n : Nat) (symbol : Symbol) :
    symbol.load.shift n = symbol.load := by
  unfold Symbol.load
  cases symbol.place <;> rfl

@[simp] theorem Symbol.shift_store (n : Nat) (symbol : Symbol) :
    symbol.store.shift n = symbol.store := by
  unfold Symbol.store
  cases symbol.place <;> rfl

theorem unaryInstruction?_shift {n : Nat} {operator : Operator} {i : Instruction}
    (h : Gen.unaryInstruction? operator = some i) : i.shift n = i := by
  cases operator <;> simp only [Gen.unaryInstruction?, Option.some.injEq, reduceCtorEq] at h <;>
    subst h <;> rfl

theorem binaryInstruction?_shift {n : Nat} {operator : Operator} {i : Instruction}
    (h : Gen.binaryInstruction? operator = some i) : i.shift n = i := by
  cases operator <;> simp only [Gen.binaryInstruction?, Option.some.injEq, reduceCtorEq] at h <;>
    subst h <;> rfl

mutual

theorem ExprCode.relocated {s s₁ : Stage} {q : Nat} {e : Expr} {is : List Instruction} :
    ExprCode s q e is s₁ → ∀ {n p : Nat} {t s₂ : Stage} {js : List Instruction},
    q = n + p → s = t → ExprCode t p e js s₂ → is = js.map (shift n) ∧ s₁ = s₂
  | .identifier hresolve, _, _, _, _, _, _, rfl, h' => by
    cases h' with
    | identifier hresolve' =>
      rw [hresolve] at hresolve'
      cases hresolve'
      exact ⟨by simp, rfl⟩
  | .integer _, _, _, _, _, _, _, rfl, h' => by
    cases h'
    exact ⟨rfl, rfl⟩
  | @ExprCode.boolean _ _ value, _, _, _, _, _, _, rfl, h' => by
    cases h'
    cases value <;> exact ⟨rfl, rfl⟩
  | .string _, _, _, _, _, _, _, rfl, h' => by
    cases h'
    exact ⟨rfl, rfl⟩
  | .array helements _, _, _, _, _, _, hq, hs, h' => by
    cases h' with
    | array helements' _ =>
      obtain ⟨rfl, rfl⟩ := helements.relocated hq hs helements'
      exact ⟨by simp [shift], rfl⟩
  | .hash hpairs _, _, _, _, _, _, hq, hs, h' => by
    cases h' with
    | hash hpairs' _ =>
      obtain ⟨rfl, rfl⟩ := hpairs.relocated hq hs hpairs'
      exact ⟨by simp [shift], rfl⟩
  | .unary hoperand hoperator, _, _, _, _, _, hq, hs, h' => by
    cases h' with
    | unary hoperand' hoperator' =>
      obtain ⟨rfl, rfl⟩ := hoperand.relocated hq hs hoperand'
      cases hoperator.symm.trans hoperator'
      exact ⟨by simp [unaryInstruction?_shift hoperator], rfl⟩
  | .lessThan hright hleft, n, _, _, _, _, hq, hs, h' => by
    cases h' with
    | lessThan hright' hleft' =>
      obtain ⟨his, hs₁⟩ := hright.relocated hq hs hright'
      obtain ⟨hjs, hs₂⟩ := hleft.relocated (n := n) (by simp [his]; omega) hs₁ hleft'
      exact ⟨by simp [his, hjs, shift], hs₂⟩
    | binary _ _ hoperator' => cases hoperator'
  | .binary hleft hright hoperator, n, _, _, _, _, hq, hs, h' => by
    cases h' with
    | lessThan _ _ => cases hoperator
    | binary hleft' hright' hoperator' =>
      obtain ⟨his, hs₁⟩ := hleft.relocated hq hs hleft'
      obtain ⟨hjs, hs₂⟩ := hright.relocated (n := n) (by simp [his]; omega) hs₁ hright'
      cases hoperator.symm.trans hoperator'
      exact ⟨by simp [his, hjs, binaryInstruction?_shift hoperator], hs₂⟩
  | @ExprCode.conditional _ _ _ _ _ q₁ r₁ _ _ _ _ _ _ hcondition hconsequence halternative hq₁
      hr₁ _, n, _, _, _, _, hq, hs, h' => by
    cases h' with
    | @conditional _ _ _ _ _ q₂ r₂ _ _ _ _ _ _ hcondition' hconsequence' halternative' hq₂ hr₂ _ =>
      obtain ⟨his, hs₁⟩ := hcondition.relocated hq hs hcondition'
      obtain ⟨hjs, hs₂⟩ := hconsequence.relocated (n := n) (by simp [his]; omega) hs₁ hconsequence'
      have htoAlternative : q₁ = n + q₂ := by
        simp only [his, hjs, branchCode_map_shift, extent_map_shift] at hq₁
        omega
      obtain ⟨hks, hs₃⟩ := halternative.relocated htoAlternative hs₂ halternative'
      have htoEnd : r₁ = n + r₂ := by
        simp only [hks, branchCode_map_shift, extent_map_shift] at hr₁
        omega
      simp [his, hjs, hks, hs₃, branchCode_map_shift, shift, htoAlternative, htoEnd]
  | .function hbody _ _ _ _, n, _, _, _, _, _, hs, h' => by
    cases h' with
    | function hbody' _ _ _ _ =>
      obtain ⟨his, rfl⟩ := hbody.relocated (n := 0) rfl (by rw [hs]) hbody'
      rw [map_shift_zero] at his
      subst his
      refine ⟨?_, rfl⟩
      rw [List.map_append, List.map_map]
      congr 1
      exact (List.map_congr_left fun symbol _ => Symbol.shift_load n symbol).symm
  | .call hcallee harguments _, n, _, _, _, _, hq, hs, h' => by
    cases h' with
    | call hcallee' harguments' _ =>
      obtain ⟨his, hs₁⟩ := hcallee.relocated hq hs hcallee'
      obtain ⟨hjs, hs₂⟩ := harguments.relocated (n := n) (by simp [his]; omega) hs₁ harguments'
      exact ⟨by simp [his, hjs, shift], hs₂⟩
  | .index hcollection hkey, n, _, _, _, _, hq, hs, h' => by
    cases h' with
    | index hcollection' hkey' =>
      obtain ⟨his, hs₁⟩ := hcollection.relocated hq hs hcollection'
      obtain ⟨hjs, hs₂⟩ := hkey.relocated (n := n) (by simp [his]; omega) hs₁ hkey'
      exact ⟨by simp [his, hjs, shift], hs₂⟩
termination_by structural h => h

theorem ExprsCode.relocated {s s₁ : Stage} {q : Nat} {es : List Expr} {is : List Instruction} :
    ExprsCode s q es is s₁ → ∀ {n p : Nat} {t s₂ : Stage} {js : List Instruction},
    q = n + p → s = t → ExprsCode t p es js s₂ → is = js.map (shift n) ∧ s₁ = s₂
  | .nil, _, _, _, _, _, _, rfl, h' => by
    cases h'
    exact ⟨rfl, rfl⟩
  | .cons hfirst hrest, n, _, _, _, _, hq, hs, h' => by
    cases h' with
    | cons hfirst' hrest' =>
      obtain ⟨his, hs₁⟩ := hfirst.relocated hq hs hfirst'
      obtain ⟨hjs, hs₂⟩ := hrest.relocated (n := n) (by simp [his]; omega) hs₁ hrest'
      exact ⟨by simp [his, hjs], hs₂⟩
termination_by structural h => h

theorem EntriesCode.relocated {s s₁ : Stage} {q : Nat} {pairs : List (Expr × Expr)}
    {is : List Instruction} :
    EntriesCode s q pairs is s₁ → ∀ {n p : Nat} {t s₂ : Stage} {js : List Instruction},
    q = n + p → s = t → EntriesCode t p pairs js s₂ → is = js.map (shift n) ∧ s₁ = s₂
  | .nil, _, _, _, _, _, _, rfl, h' => by
    cases h'
    exact ⟨rfl, rfl⟩
  | .cons _ hkey hvalue hrest, n, _, _, _, _, hq, hs, h' => by
    cases h' with
    | cons _ hkey' hvalue' hrest' =>
      obtain ⟨his, hs₁⟩ := hkey.relocated hq hs hkey'
      obtain ⟨hjs, hs₂⟩ := hvalue.relocated (n := n) (by simp [his]; omega) hs₁ hvalue'
      obtain ⟨hks, hs₃⟩ := hrest.relocated (n := n) (by simp [his, hjs]; omega) hs₂ hrest'
      exact ⟨by simp [his, hjs, hks], hs₃⟩
termination_by structural h => h

theorem StmtCode.relocated {s s₁ : Stage} {q : Nat} {first : Stmt} {is : List Instruction} :
    StmtCode s q first is s₁ → ∀ {n p : Nat} {t s₂ : Stage} {js : List Instruction},
    q = n + p → s = t → StmtCode t p first js s₂ → is = js.map (shift n) ∧ s₁ = s₂
  | .bind hvalue hsymbol _, _, _, _, _, _, hq, hs, h' => by
    cases h' with
    | bind hvalue' hsymbol' _ =>
      obtain ⟨rfl, rfl⟩ := hvalue.relocated hq hs hvalue'
      rw [hsymbol, hsymbol']
      exact ⟨by simp, rfl⟩
  | .ret hvalue, _, _, _, _, _, hq, hs, h' => by
    cases h' with
    | ret hvalue' =>
      obtain ⟨rfl, rfl⟩ := hvalue.relocated hq hs hvalue'
      exact ⟨by simp [shift], rfl⟩
  | .eval hvalue, _, _, _, _, _, hq, hs, h' => by
    cases h' with
    | eval hvalue' =>
      obtain ⟨rfl, rfl⟩ := hvalue.relocated hq hs hvalue'
      exact ⟨by simp [shift], rfl⟩
termination_by structural h => h

/-- Statements have the same code `n` bytes further back, except that their jumps lead `n` bytes
further back. -/
theorem StmtsCode.relocated {s s₁ : Stage} {q : Nat} {body : List Stmt} {is : List Instruction} :
    StmtsCode s q body is s₁ → ∀ {n p : Nat} {t s₂ : Stage} {js : List Instruction},
    q = n + p → s = t → StmtsCode t p body js s₂ → is = js.map (shift n) ∧ s₁ = s₂
  | .nil, _, _, _, _, _, _, rfl, h' => by
    cases h'
    exact ⟨rfl, rfl⟩
  | .cons hfirst hrest, n, _, _, _, _, hq, hs, h' => by
    cases h' with
    | cons hfirst' hrest' =>
      obtain ⟨his, hs₁⟩ := hfirst.relocated hq hs hfirst'
      obtain ⟨hjs, hs₂⟩ := hrest.relocated (n := n) (by simp [his]; omega) hs₁ hrest'
      exact ⟨by simp [his, hjs], hs₂⟩
termination_by structural h => h

end

end Scriptlet
