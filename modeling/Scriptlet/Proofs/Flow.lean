import Scriptlet.Proofs.Layout

/-!
# Depth of the stack and targets of jumps

How many values the code of a function has on the stack at a point can be told from the instructions
before that point alone: `Code.depth` adds up what they take and leave, in the order in which they
are written.  Jumps do not spoil this, for two reasons.

* Behind an unconditional jump the alternative of a conditional begins, and there the value that the
  consequence has left is not on the stack.  The jump is therefore counted as taking that value,
  while at its target the value is still there; `Instruction.landing` is the depth at the target.
* Behind a return nothing of the same block runs, so any count would do; it is counted as taking the
  value it returns, so that the count is right again for what follows the block.

`Code.Flows limit pre is` says that instructions `is`, standing behind `pre`, all find the values
they take, and that all their jumps lead forward to the end of some prefix of `limit`, at the depth
which that prefix has.  `ExprCode.flows` and `StmtsCode.flows` prove this for compiled code, with
the limit at the end of the code of an expression, and before the last instruction for statements;
that is why a target is always inside the stream.
-/

namespace Scriptlet

namespace Instruction

/-- The number of values that an instruction takes off the stack. -/
def pops : Instruction → Nat
  | add | sub | mul | div | equal | notEqual | greaterThan | index => 2
  | pop | minus | bang | jumpNotTruthy _ | jump _ | setGlobal _ | setLocal _ | returnValue => 1
  | array n | hash n | closure _ n => n
  | call n => n + 1
  | _ => 0

/-- The number of values that an instruction leaves on the stack. -/
def pushes : Instruction → Nat
  | pop | jumpNotTruthy _ | jump _ | setGlobal _ | setLocal _ | returnValue | returnNull => 0
  | _ => 1

/-- Where a jump leads. -/
def target? : Instruction → Option Nat
  | jump t | jumpNotTruthy t => some t
  | _ => none

/-- The depth of the stack at the target of a jump that starts at a given depth. -/
def landing : Instruction → Nat → Nat
  | jumpNotTruthy _, d => d - 1
  | _, d => d

end Instruction

namespace Code

/-- The depth of the stack behind instructions that start with an empty one. -/
def depth (is : List Instruction) : Nat := is.foldl (fun d i => d - i.pops + i.pushes) 0

@[simp] theorem depth_nil : depth [] = 0 := rfl

@[simp] theorem depth_concat (is : List Instruction) (i : Instruction) :
    depth (is ++ [i]) = depth is - i.pops + i.pushes := by
  simp [depth]

/-- An instruction behind `pre` finds the values it takes, and if it is a jump, it leads forward to
a place up to the end of `limit` where the depth is the one it arrives with. -/
structure Sits (limit pre : List Instruction) (i : Instruction) : Prop where
  pops : i.pops ≤ depth pre
  target : ∀ t, i.target? = some t → ∃ before, before <+: limit ∧ extent before = t ∧
    extent pre < t ∧ depth before = i.landing (depth pre)

/-- All instructions behind `pre` sit well. -/
def Flows (limit : List Instruction) : (pre is : List Instruction) → Prop
  | _, [] => True
  | pre, i :: is => Sits limit pre i ∧ Flows limit (pre ++ [i]) is

variable {limit limit' pre is js : List Instruction} {i : Instruction}

theorem Sits.mono (h : Sits limit pre i) (hlimit : limit <+: limit') : Sits limit' pre i := by
  refine ⟨h.pops, fun t ht => ?_⟩
  obtain ⟨before, hbefore, hrest⟩ := h.target t ht
  exact ⟨before, hbefore.trans hlimit, hrest⟩

/-- An instruction that is no jump sits well where it finds the values it takes. -/
theorem sits_of_pops (hpops : i.pops ≤ depth pre) (htarget : i.target? = none) :
    Sits limit pre i := by
  refine ⟨hpops, fun t ht => ?_⟩
  rw [htarget] at ht
  cases ht

theorem Flows.mono (h : Flows limit pre is) (hlimit : limit <+: limit') :
    Flows limit' pre is := by
  induction is generalizing pre with
  | nil => trivial
  | cons i is ih => exact ⟨h.1.mono hlimit, ih h.2⟩

theorem flows_append :
    Flows limit pre (is ++ js) ↔ Flows limit pre is ∧ Flows limit (pre ++ is) js := by
  induction is generalizing pre with
  | nil => simp [Flows]
  | cons i is ih =>
    rw [List.cons_append, Flows, Flows, ih, and_assoc, List.append_assoc, List.singleton_append]

theorem flows_singleton : Flows limit pre [i] ↔ Sits limit pre i := by
  simp [Flows]

theorem Flows.sits {post : List Instruction} (h : Flows limit pre is) (his : is = js ++ i :: post) :
    Sits limit (pre ++ js) i := by
  rw [his, flows_append] at h
  exact h.2.1

/-- Two pieces of code, one behind the other. -/
theorem Flows.append (h : Flows (pre ++ is) pre is) (h' : Flows (pre ++ is ++ js) (pre ++ is) js) :
    Flows (pre ++ (is ++ js)) pre (is ++ js) := by
  rw [← List.append_assoc]
  exact flows_append.2 ⟨h.mono (List.prefix_append ..), h'⟩

/-- A piece of code with one more instruction, which is no jump, flows even with its limit before
that instruction. -/
theorem Flows.concat (h : Flows (pre ++ is) pre is) (hpops : i.pops ≤ depth (pre ++ is))
    (htarget : i.target? = none) : Flows (pre ++ (is ++ [i])).dropLast pre (is ++ [i]) := by
  rw [← List.append_assoc, List.dropLast_concat]
  exact flows_append.2 ⟨h, flows_singleton.2 (sits_of_pops hpops htarget)⟩

theorem Flows.of_dropLast (h : Flows (pre ++ is).dropLast pre is) : Flows (pre ++ is) pre is :=
  h.mono (List.dropLast_prefix _)

/-- Loads of symbols find nothing on the stack and leave one value each. -/
theorem flows_loads (symbols : List Symbol) (limit pre : List Instruction) :
    Flows limit pre (symbols.map Symbol.load) ∧
      depth (pre ++ symbols.map Symbol.load) = depth pre + symbols.length := by
  induction symbols generalizing pre with
  | nil => exact ⟨trivial, by simp⟩
  | cons symbol rest ih =>
    have hpops : symbol.load.pops = 0 := by unfold Symbol.load; cases symbol.place <;> rfl
    have hpushes : symbol.load.pushes = 1 := by unfold Symbol.load; cases symbol.place <;> rfl
    have htarget : symbol.load.target? = none := by unfold Symbol.load; cases symbol.place <;> rfl
    obtain ⟨hflows, hdepth⟩ := ih (pre ++ [symbol.load])
    refine ⟨⟨sits_of_pops (by omega) htarget, hflows⟩, ?_⟩
    rw [List.append_assoc, List.singleton_append, depth_concat, hpops, hpushes] at hdepth
    rw [List.map_cons, hdepth, List.length_cons]
    omega

/-! ## Blocks and bodies -/

/-- The code of a block that stands for a value leaves that value. -/
theorem flows_branchCode (h : Flows (pre ++ is).dropLast pre is)
    (hdepth : depth (pre ++ is) = depth pre)
    (hvalue : ∀ js, is = js ++ [.pop] → depth (pre ++ js) = depth pre + 1) :
    Flows (pre ++ branchCode is) pre (branchCode is) ∧
      depth (pre ++ branchCode is) = depth pre + 1 := by
  rcases List.eq_nil_or_concat is with rfl | ⟨js, i, rfl⟩
  · refine ⟨flows_singleton.2 (sits_of_pops (Nat.zero_le _) rfl), ?_⟩
    rw [branchCode_nil, depth_concat]
    rfl
  · rw [List.concat_eq_append] at h hdepth hvalue ⊢
    by_cases hi : i = .pop
    · subst hi
      rw [branchCode_concat_pop]
      rw [← List.append_assoc, List.dropLast_concat] at h
      exact ⟨(flows_append.1 h).1, hvalue js rfl⟩
    · rw [branchCode_concat js hi]
      have hnull : Instruction.pushNull.pops ≤ depth (pre ++ (js ++ [i])) := Nat.zero_le _
      refine ⟨(h.of_dropLast.concat hnull rfl).of_dropLast, ?_⟩
      rw [← List.append_assoc, depth_concat, hdepth]
      rfl

/-- The code of a function body flows inside of itself. -/
theorem flows_bodyCode (h : Flows is.dropLast [] is) :
    Flows (bodyCode is).dropLast [] (bodyCode is) := by
  unfold bodyCode
  split
  · next hpop =>
    obtain ⟨js, rfl⟩ := List.getLast?_eq_some_iff.1 hpop
    rw [List.dropLast_concat] at h ⊢
    obtain ⟨hjs, hlast⟩ := flows_append.1 h
    rw [List.dropLast_concat]
    exact flows_append.2 ⟨hjs, flows_singleton.2 (sits_of_pops (flows_singleton.1 hlast).pops rfl)⟩
  · split
    · exact h
    · have hbody : Flows ([] ++ is).dropLast [] is := h
      exact hbody.of_dropLast.concat (Nat.zero_le _) rfl

end Code

open Code

/-! ## Compiled code -/

theorem unaryInstruction?_flow {operator : Operator} {i : Instruction}
    (h : Gen.unaryInstruction? operator = some i) :
    i.pops = 1 ∧ i.pushes = 1 ∧ i.target? = none := by
  cases operator <;> simp only [Gen.unaryInstruction?, Option.some.injEq, reduceCtorEq] at h <;>
    subst h <;> exact ⟨rfl, rfl, rfl⟩

theorem binaryInstruction?_flow {operator : Operator} {i : Instruction}
    (h : Gen.binaryInstruction? operator = some i) :
    i.pops = 2 ∧ i.pushes = 1 ∧ i.target? = none := by
  cases operator <;> simp only [Gen.binaryInstruction?, Option.some.injEq, reduceCtorEq] at h <;>
    subst h <;> exact ⟨rfl, rfl, rfl⟩

theorem Symbol.store_flow (symbol : Symbol) :
    symbol.store.pops = 1 ∧ symbol.store.pushes = 0 ∧ symbol.store.target? = none := by
  unfold Symbol.store
  cases symbol.place <;> exact ⟨rfl, rfl, rfl⟩

/-- Code that leaves `n` values and then an instruction, no jump, that takes them and leaves
one. -/
theorem Code.Flows.operate {pre is : List Instruction} {i : Instruction} {n : Nat}
    (h : Flows (pre ++ is) pre is) (hdepth : depth (pre ++ is) = depth pre + n)
    (hi : i.pops = n ∧ i.pushes = 1 ∧ i.target? = none) :
    Flows (pre ++ (is ++ [i])) pre (is ++ [i]) ∧ depth (pre ++ (is ++ [i])) = depth pre + 1 := by
  obtain ⟨hpops, hpushes, htarget⟩ := hi
  refine ⟨(h.concat (by omega) htarget).of_dropLast, ?_⟩
  rw [← List.append_assoc, depth_concat]
  omega

/-- Code that leaves a value and then an instruction, no jump, that takes it. -/
theorem Code.Flows.consume {pre is : List Instruction} {i : Instruction}
    (h : Flows (pre ++ is) pre is) (hdepth : depth (pre ++ is) = depth pre + 1)
    (hi : i.pops = 1 ∧ i.pushes = 0 ∧ i.target? = none) :
    Flows (pre ++ (is ++ [i])).dropLast pre (is ++ [i]) ∧
      depth (pre ++ (is ++ [i])) = depth pre := by
  obtain ⟨hpops, hpushes, htarget⟩ := hi
  refine ⟨h.concat (by omega) htarget, ?_⟩
  rw [← List.append_assoc, depth_concat]
  omega

theorem extent_append_eq {pre is : List Instruction} {p : Nat} (h : extent pre = p) :
    extent (pre ++ is) = p + extent is := by
  rw [extent_append, h]

/-- The two jumps of a conditional around the code of its condition and of its branches. -/
theorem Code.flows_conditional {pre is js ks : List Instruction} {p q r : Nat}
    (hpre : extent pre = p) (his : Flows (pre ++ is) pre is)
    (hisDepth : depth (pre ++ is) = depth pre + 1)
    (hjs : ∀ pre', extent pre' = p + extent is + 3 → depth pre' = depth pre →
      Flows (pre' ++ js) pre' js ∧ depth (pre' ++ js) = depth pre + 1)
    (hks : ∀ pre', extent pre' = q → depth pre' = depth pre →
      Flows (pre' ++ ks) pre' ks ∧ depth (pre' ++ ks) = depth pre + 1)
    (hq : q = p + extent is + 3 + extent js + 3) (hr : r = q + extent ks) :
    Flows (pre ++ (is ++ .jumpNotTruthy q :: (js ++ .jump r :: ks))) pre
        (is ++ .jumpNotTruthy q :: (js ++ .jump r :: ks)) ∧
      depth (pre ++ (is ++ .jumpNotTruthy q :: (js ++ .jump r :: ks))) = depth pre + 1 := by
  -- the code up to the consequence, up to the alternative, and all of it
  obtain ⟨pre₁, hpre₁⟩ : ∃ pre₁, pre₁ = pre ++ is ++ [.jumpNotTruthy q] := ⟨_, rfl⟩
  obtain ⟨pre₂, hpre₂⟩ : ∃ pre₂, pre₂ = pre₁ ++ js ++ [.jump r] := ⟨_, rfl⟩
  have hall : pre ++ (is ++ .jumpNotTruthy q :: (js ++ .jump r :: ks)) = pre₂ ++ ks := by
    simp [hpre₂, hpre₁]
  have hextent₁ : extent pre₁ = p + extent is + 3 := by
    simp [hpre₁, hpre, Nat.add_assoc]
  have hdepth₁ : depth pre₁ = depth pre := by
    rw [hpre₁, depth_concat, hisDepth]
    rfl
  obtain ⟨hjs, hjsDepth⟩ := hjs pre₁ hextent₁ hdepth₁
  have hextent₂ : extent pre₂ = q := by
    simp [hpre₂, hextent₁, hq, Nat.add_assoc]
  have hdepth₂ : depth pre₂ = depth pre := by
    rw [hpre₂, depth_concat, hjsDepth]
    rfl
  obtain ⟨hks, hksDepth⟩ := hks pre₂ hextent₂ hdepth₂
  have hbefore₁ : pre ++ is <+: pre₂ ++ ks := by
    rw [← hall, ← List.append_assoc]
    exact List.prefix_append ..
  have hbefore₂ : pre₁ ++ js <+: pre₂ ++ ks := by
    rw [hpre₂, List.append_assoc (pre₁ ++ js)]
    exact List.prefix_append ..
  refine ⟨?_, by rw [hall]; exact hksDepth⟩
  rw [hall, flows_append]
  refine ⟨his.mono hbefore₁, ?_, ?_⟩
  · refine ⟨by rw [hisDepth]; exact Nat.le_add_left .., fun t ht => ?_⟩
    cases ht
    refine ⟨pre₂, List.prefix_append .., hextent₂, ?_, ?_⟩
    · rw [extent_append, hpre]
      omega
    · rw [hdepth₂, hisDepth]
      rfl
  · rw [← hpre₁, flows_append]
    refine ⟨hjs.mono hbefore₂, ⟨?_, fun t ht => ?_⟩, ?_⟩
    · rw [hjsDepth]
      exact Nat.le_add_left ..
    · cases ht
      refine ⟨pre₂ ++ ks, List.prefix_refl _, ?_, ?_, ?_⟩
      · rw [extent_append, hextent₂, hr]
      · rw [extent_append, hextent₁]
        omega
      · rw [hksDepth, hjsDepth]
        rfl
    · rw [← hpre₂]
      exact hks

mutual

/-- The code of an expression flows within itself and leaves one value. -/
theorem ExprCode.flows {s s' : Stage} {p : Nat} {e : Expr} {is : List Instruction} :
    ExprCode s p e is s' → ∀ pre, extent pre = p →
      Flows (pre ++ is) pre is ∧ depth (pre ++ is) = depth pre + 1
  | .identifier _, pre, _ => flows_loads [_] _ pre
  | .integer _, pre, _ =>
    ⟨flows_singleton.2 (sits_of_pops (Nat.zero_le _) rfl), depth_concat pre _⟩
  | .boolean, pre, _ => by
    refine ⟨flows_singleton.2 (sits_of_pops ?_ ?_), ?_⟩
    · split <;> exact Nat.zero_le _
    · split <;> rfl
    · rw [depth_concat]
      split <;> rfl
  | .string _, pre, _ =>
    ⟨flows_singleton.2 (sits_of_pops (Nat.zero_le _) rfl), depth_concat pre _⟩
  | .array helements _, pre, hpre => by
    obtain ⟨hflows, hdepth⟩ := helements.flows pre hpre
    exact hflows.operate hdepth ⟨rfl, rfl, rfl⟩
  | .hash hpairs _, pre, hpre => by
    obtain ⟨hflows, hdepth⟩ := hpairs.flows pre hpre
    exact hflows.operate hdepth ⟨rfl, rfl, rfl⟩
  | .unary hoperand hoperator, pre, hpre => by
    obtain ⟨hflows, hdepth⟩ := hoperand.flows pre hpre
    exact hflows.operate hdepth (unaryInstruction?_flow hoperator)
  | .lessThan hright hleft, pre, hpre => by
    obtain ⟨hflows₁, hdepth₁⟩ := hright.flows pre hpre
    obtain ⟨hflows₂, hdepth₂⟩ := hleft.flows _ (extent_append_eq hpre)
    refine (hflows₁.append hflows₂).operate (n := 2) ?_ ⟨rfl, rfl, rfl⟩
    rw [← List.append_assoc, hdepth₂, hdepth₁]
  | .binary hleft hright hoperator, pre, hpre => by
    obtain ⟨hflows₁, hdepth₁⟩ := hleft.flows pre hpre
    obtain ⟨hflows₂, hdepth₂⟩ := hright.flows _ (extent_append_eq hpre)
    refine (hflows₁.append hflows₂).operate ?_ (binaryInstruction?_flow hoperator)
    rw [← List.append_assoc, hdepth₂, hdepth₁]
  | .conditional hcondition hconsequence halternative hq hr _, pre, hpre => by
    obtain ⟨hflows, hdepth⟩ := hcondition.flows pre hpre
    refine flows_conditional hpre hflows hdepth (fun pre' hpre' hdepth' => ?_)
      (fun pre' hpre' hdepth' => ?_) hq hr
    · obtain ⟨hflows, hsame, hvalue⟩ := hconsequence.flows pre' hpre'
      rw [← hdepth']
      exact flows_branchCode hflows hsame hvalue
    · obtain ⟨hflows, hsame, hvalue⟩ := halternative.flows pre' hpre'
      rw [← hdepth']
      exact flows_branchCode hflows hsame hvalue
  | .function _ _ _ _ _, pre, hpre => by
    obtain ⟨hflows, hdepth⟩ := flows_loads _ _ pre
    exact hflows.operate hdepth ⟨by simp [Instruction.pops, Stage.captures], rfl, rfl⟩
  | .call hcallee harguments _, pre, hpre => by
    obtain ⟨hflows₁, hdepth₁⟩ := hcallee.flows pre hpre
    obtain ⟨hflows₂, hdepth₂⟩ := harguments.flows _ (extent_append_eq hpre)
    refine (hflows₁.append hflows₂).operate ?_ ⟨rfl, rfl, rfl⟩
    rw [← List.append_assoc, hdepth₂, hdepth₁, Instruction.pops]
    omega
  | .index hcollection hkey, pre, hpre => by
    obtain ⟨hflows₁, hdepth₁⟩ := hcollection.flows pre hpre
    obtain ⟨hflows₂, hdepth₂⟩ := hkey.flows _ (extent_append_eq hpre)
    refine (hflows₁.append hflows₂).operate (n := 2) ?_ ⟨rfl, rfl, rfl⟩
    rw [← List.append_assoc, hdepth₂, hdepth₁]

theorem ExprsCode.flows {s s' : Stage} {p : Nat} {es : List Expr} {is : List Instruction} :
    ExprsCode s p es is s' → ∀ pre, extent pre = p →
      Flows (pre ++ is) pre is ∧ depth (pre ++ is) = depth pre + es.length
  | .nil, pre, _ => ⟨trivial, by simp⟩
  | .cons hfirst hrest, pre, hpre => by
    obtain ⟨hflows₁, hdepth₁⟩ := hfirst.flows pre hpre
    obtain ⟨hflows₂, hdepth₂⟩ := hrest.flows _ (extent_append_eq hpre)
    refine ⟨hflows₁.append hflows₂, ?_⟩
    rw [← List.append_assoc, hdepth₂, hdepth₁, List.length_cons]
    omega

theorem EntriesCode.flows {s s' : Stage} {p : Nat} {pairs : List (Expr × Expr)}
    {is : List Instruction} :
    EntriesCode s p pairs is s' → ∀ pre, extent pre = p →
      Flows (pre ++ is) pre is ∧ depth (pre ++ is) = depth pre + 2 * pairs.length
  | .nil, pre, _ => ⟨trivial, by simp⟩
  | .cons _ hkey hvalue hrest, pre, hpre => by
    obtain ⟨hflows₁, hdepth₁⟩ := hkey.flows pre hpre
    obtain ⟨hflows₂, hdepth₂⟩ := hvalue.flows _ (extent_append_eq hpre)
    obtain ⟨hflows₃, hdepth₃⟩ := hrest.flows _ (extent_append_eq (extent_append_eq hpre))
    have hflows := hflows₁.append hflows₂
    rw [List.append_assoc pre] at hflows₃ hdepth₃
    refine ⟨hflows.append hflows₃, ?_⟩
    rw [← List.append_assoc, hdepth₃, ← List.append_assoc, hdepth₂, hdepth₁, List.length_cons]
    omega

/-- The code of a statement flows within itself without its last instruction, and leaves
nothing. -/
theorem StmtCode.flows {s s' : Stage} {p : Nat} {first : Stmt} {is : List Instruction} :
    StmtCode s p first is s' → ∀ pre, extent pre = p →
      Flows (pre ++ is).dropLast pre is ∧ depth (pre ++ is) = depth pre ∧
        ∀ js, is = js ++ [.pop] → depth (pre ++ js) = depth pre + 1
  | .bind hvalue _ _, pre, hpre => by
    obtain ⟨hflows, hdepth⟩ := hvalue.flows pre hpre
    obtain ⟨hflows', hdepth'⟩ := hflows.consume hdepth (Symbol.store_flow _)
    refine ⟨hflows', hdepth', fun js hjs => ?_⟩
    exact absurd (List.singleton_inj.1 (List.append_inj' hjs rfl).2) (Symbol.store_ne_pop _)
  | .ret hvalue, pre, hpre => by
    obtain ⟨hflows, hdepth⟩ := hvalue.flows pre hpre
    obtain ⟨hflows', hdepth'⟩ := hflows.consume (i := .returnValue) hdepth ⟨rfl, rfl, rfl⟩
    refine ⟨hflows', hdepth', fun js hjs => ?_⟩
    exact absurd (List.singleton_inj.1 (List.append_inj' hjs rfl).2) Instruction.noConfusion
  | .eval hvalue, pre, hpre => by
    obtain ⟨hflows, hdepth⟩ := hvalue.flows pre hpre
    obtain ⟨hflows', hdepth'⟩ := hflows.consume (i := .pop) hdepth ⟨rfl, rfl, rfl⟩
    refine ⟨hflows', hdepth', fun js hjs => ?_⟩
    rw [← (List.append_inj' hjs rfl).1]
    exact hdepth

theorem StmtsCode.flows {s s' : Stage} {p : Nat} {body : List Stmt} {is : List Instruction} :
    StmtsCode s p body is s' → ∀ pre, extent pre = p →
      Flows (pre ++ is).dropLast pre is ∧ depth (pre ++ is) = depth pre ∧
        ∀ js, is = js ++ [.pop] → depth (pre ++ js) = depth pre + 1
  | .nil, pre, _ => ⟨trivial, by simp, fun js hjs => by simp at hjs⟩
  | @StmtsCode.cons _ _ _ _ _ _ is js hfirst hrest, pre, hpre => by
    obtain ⟨hflows₁, hdepth₁, hvalue₁⟩ := hfirst.flows pre hpre
    obtain ⟨hflows₂, hdepth₂, hvalue₂⟩ := hrest.flows _ (extent_append_eq hpre)
    rcases List.eq_nil_or_concat js with rfl | ⟨ls, i, rfl⟩
    · rw [List.append_nil]
      exact ⟨hflows₁, hdepth₁, hvalue₁⟩
    · rw [List.concat_eq_append] at hflows₂ hdepth₂ hvalue₂ ⊢
      have hdrop : (pre ++ is ++ (ls ++ [i])).dropLast = pre ++ is ++ ls := by
        rw [← List.append_assoc, List.dropLast_concat]
      rw [hdrop] at hflows₂
      rw [← List.append_assoc, hdrop, flows_append]
      refine ⟨⟨hflows₁.of_dropLast.mono (List.prefix_append ..), hflows₂⟩,
        hdepth₂.trans hdepth₁, fun ks hks => ?_⟩
      rw [← List.append_assoc] at hks
      obtain ⟨hks, hi⟩ := List.append_inj' hks rfl
      rw [← hks, ← List.append_assoc, hvalue₂ ls (by rw [hi]), hdepth₁]

end

end Scriptlet
