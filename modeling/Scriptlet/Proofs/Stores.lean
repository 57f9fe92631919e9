import Scriptlet.Proofs.Operands

/-!
# Stores into global slots

A definition in a program takes the next global slot and stores into it, and nothing else stores
into global slots.  So the stores in the code of a program go to slots that had not been taken
before, each to a later slot than the one in front of it (`Stage.Stores`).

A name that is defined again stands for the new slot from there on.  The old slot keeps its value,
which is what the functions see that were compiled before.
-/

namespace Scriptlet

open Code

namespace Code

/-- Of two stores into global slots, the second is into a later slot. -/
def StoresRise (is : List Instruction) : Prop :=
  is.Pairwise fun i j => ∀ n k, i = .setGlobal n → j = .setGlobal k → n < k

variable {is js : List Instruction}

theorem storesRise_of_notMem (h : ∀ n, .setGlobal n ∉ is) : StoresRise is := by
  refine List.pairwise_of_forall_mem_list (fun i hi j _ n k hn _ => ?_)
  rw [hn] at hi
  exact absurd hi (h n)

theorem StoresRise.append (h : StoresRise is) (h' : StoresRise js)
    (hlt : ∀ n k, .setGlobal n ∈ is → .setGlobal k ∈ js → n < k) : StoresRise (is ++ js) := by
  refine List.pairwise_append.2 ⟨h, h', fun i hi j hj n k hn hk => ?_⟩
  rw [hn] at hi
  rw [hk] at hj
  exact hlt n k hi hj

theorem StoresRise.branchCode (h : StoresRise is) : StoresRise (branchCode is) := by
  unfold Scriptlet.branchCode
  split
  · exact h.sublist (List.dropLast_sublist is)
  · refine h.append (List.pairwise_singleton _ _) fun n k _ hk => ?_
    cases List.mem_singleton.1 hk

/-- No two stores are into the same slot. -/
theorem StoresRise.unique {pre pre' post post' : List Instruction} {n : Nat}
    (h : StoresRise (pre ++ .setGlobal n :: post))
    (heq : pre ++ .setGlobal n :: post = pre' ++ .setGlobal n :: post') : pre = pre' := by
  -- a store in front of another would have the smaller slot
  have hbehind : ∀ before between after, pre ++ .setGlobal n :: post =
      before ++ .setGlobal n :: (between ++ .setGlobal n :: after) → False := by
    intro before between after hsplit
    rw [hsplit] at h
    have hmem : .setGlobal n ∈ between ++ .setGlobal n :: after := by simp
    have hrest := List.rel_of_pairwise_cons (List.pairwise_append.1 h).2.1 hmem
    exact Nat.lt_irrefl n (hrest n n rfl rfl)
  rcases List.append_eq_append_iff.1 heq with ⟨more, rfl, hmore⟩ | ⟨more, rfl, hmore⟩
  · cases more with
    | nil => simp
    | cons i more =>
      obtain ⟨rfl, rfl⟩ := List.cons.inj hmore
      exact (hbehind pre more post' rfl).elim
  · cases more with
    | nil => simp
    | cons i more =>
      obtain ⟨rfl, rfl⟩ := List.cons.inj hmore
      exact (hbehind pre' more post (by simp)).elim

end Code

namespace SymbolTable

/-- A name stands for what it stood for before, or for a global slot that had not been taken. -/
def Retains (table table' : SymbolTable) : Prop :=
  ∀ name symbol, table.get? name = some symbol → ∃ symbol', table'.get? name = some symbol' ∧
    (symbol' = symbol ∨ symbol'.place = .globalSlot ∧ table.definitions ≤ symbol'.index)

variable {table table' table'' : SymbolTable}

theorem Retains.refl (table : SymbolTable) : table.Retains table :=
  fun _ symbol h => ⟨symbol, h, .inl rfl⟩

theorem Retains.trans (h : table.Retains table') (h' : table'.Retains table'')
    (hgrows : table.definitions ≤ table'.definitions) : table.Retains table'' := by
  intro name symbol hget
  obtain ⟨symbol', hget', hsymbol'⟩ := h name symbol hget
  obtain ⟨symbol'', hget'', rfl | ⟨hplace, hindex⟩⟩ := h' name symbol' hget'
  · exact ⟨symbol'', hget'', hsymbol'⟩
  · exact ⟨symbol'', hget'', .inr ⟨hplace, Nat.le_trans hgrows hindex⟩⟩

theorem retains_define (henclosed : table.enclosed = false) (name : String) :
    table.Retains (table.define name) := by
  intro name' symbol hget
  rw [get?_define]
  split
  · exact ⟨_, rfl, .inr ⟨by simp [nextSymbol, henclosed], Nat.le_refl _⟩⟩
  · exact ⟨symbol, hget, .inl rfl⟩

end SymbolTable

namespace Stage

/-- What the code `is` does to the global slots: the slots it stores into are new, each is later
than the one before, and names stand for what they stood for or for new slots. -/
structure Stores (s : Stage) (is : List Instruction) (s' : Stage) : Prop where
  rise : StoresRise is
  fresh : ∀ n, .setGlobal n ∈ is → s.globals ≤ n ∧ n < s'.globals
  names : s.tables.outermost.Retains s'.tables.outermost
  globals : s.globals ≤ s'.globals

variable {s s' s'' : Stage} {is js : List Instruction} {i : Instruction}

/-- Code that stores into no global slot, while the names of the program stay as they are. -/
theorem stores_of_notMem (hsame : s'.tables.outermost = s.tables.outermost)
    (h : ∀ n, .setGlobal n ∉ is) : s.Stores is s' := by
  refine ⟨storesRise_of_notMem h, fun n hn => absurd hn (h n), ?_, ?_⟩
  · rw [hsame]
    exact .refl _
  · exact Nat.le_of_eq (congrArg SymbolTable.definitions hsame.symm)

theorem Stores.trans (h : s.Stores is s') (h' : s'.Stores js s'') : s.Stores (is ++ js) s'' := by
  refine ⟨h.rise.append h'.rise fun n k hn hk => ?_, fun n hn => ?_,
    h.names.trans h'.names h.globals, Nat.le_trans h.globals h'.globals⟩
  · exact Nat.lt_of_lt_of_le (h.fresh n hn).2 (h'.fresh k hk).1
  · rcases List.mem_append.1 hn with hn | hn
    · exact ⟨(h.fresh n hn).1, Nat.lt_of_lt_of_le (h.fresh n hn).2 h'.globals⟩
    · exact ⟨Nat.le_trans h.globals (h'.fresh n hn).1, (h'.fresh n hn).2⟩

theorem stores_singleton (s : Stage) (hi : ∀ n, i ≠ .setGlobal n) : s.Stores [i] s :=
  stores_of_notMem rfl fun n hn => hi n (List.mem_singleton.1 hn).symm

theorem Stores.concat (h : s.Stores is s') (hi : ∀ n, i ≠ .setGlobal n) :
    s.Stores (is ++ [i]) s' := h.trans (stores_singleton s' hi)

theorem Stores.cons (h : s.Stores is s') (hi : ∀ n, i ≠ .setGlobal n) :
    s.Stores (i :: is) s' := (stores_singleton s hi).trans h

theorem Stores.branchCode (h : s.Stores is s') : s.Stores (branchCode is) s' := by
  refine ⟨h.rise.branchCode, fun n hn => ?_, h.names, h.globals⟩
  rcases mem_of_mem_branchCode hn with hn | hn
  · exact h.fresh n hn
  · cases hn

/-- A definition stores into the slot that it takes, if it is one of the program. -/
theorem stores_define (h : s.Sound) (name : String) :
    s.Stores [(s.tables.inner.nextSymbol name).store] (s.define name) := by
  rcases h.outermost_define name with ⟨henclosed, hsame⟩ | ⟨henclosed, hinner, hdefine⟩
  · exact stores_of_notMem hsame (by simp [SymbolTable.nextSymbol, henclosed, Symbol.store])
  · have hprogram : s.tables.outermost.enclosed = false := hinner ▸ henclosed
    have hglobals : (s.define name).globals = s.globals + 1 :=
      congrArg SymbolTable.definitions hdefine
    refine ⟨List.pairwise_singleton _ _, fun n hn => ?_, ?_, by omega⟩
    · have hn : n = s.globals := by
        simpa [SymbolTable.nextSymbol, hinner, hprogram, Symbol.store, Stage.globals] using hn
      omega
    · rw [hdefine]
      exact SymbolTable.retains_define hprogram name

end Stage

open Stage

mutual

theorem ExprCode.stores {s s' : Stage} {p : Nat} {e : Expr} {is : List Instruction} :
    ExprCode s p e is s' → s.Sound → s.Stores is s'
  | .identifier hresolve, hs =>
    stores_of_notMem (Chain.resolve_sound hs.tables hresolve).outermost fun n hn =>
      Symbol.load_ne_setGlobal _ n (List.mem_singleton.1 hn).symm
  | .integer _, _ => stores_of_notMem rfl (by simp)
  | .boolean, _ => stores_singleton _ (by intro n; split <;> simp)
  | .string _, _ => stores_of_notMem rfl (by simp)
  | .array helements _, hs => (helements.stores hs).concat (by simp)
  | .hash hpairs _, hs => (hpairs.stores hs).concat (by simp)
  | .unary hoperand hoperator, hs =>
    (hoperand.stores hs).concat (unaryInstruction?_ne_setGlobal hoperator)
  | .lessThan hright hleft, hs =>
    ((hright.stores hs).trans (hleft.stores (hright.reaches hs).sound)).concat (by simp)
  | .binary hleft hright hoperator, hs =>
    ((hleft.stores hs).trans (hright.stores (hleft.reaches hs).sound)).concat
      (binaryInstruction?_ne_setGlobal hoperator)
  | .conditional hcondition hconsequence halternative _ _ _, hs => by
    have h₁ := (hcondition.reaches hs).sound
    have h₂ := (hconsequence.reaches h₁).sound
    refine (hcondition.stores hs).trans (.cons ?_ (by simp))
    exact (hconsequence.stores h₁).branchCode.trans
      ((halternative.stores h₂).branchCode.cons (by simp))
  | @ExprCode.function s s' _ name parameters _ _ hbody _ _ _ _, hs => by
    obtain ⟨-, -, hnames, hglobals⟩ := hbody.stores (hs.enter name parameters)
    have henter : (s.enter name parameters).tables.outermost = s.tables.outermost :=
      Chain.outermost_enter s.tables _
    have hleave := Chain.outermost_leave s'.tables
    have hnone : ∀ n, .setGlobal n ∉ s'.captures.map Symbol.load ++
        [.closure s'.constants.size s'.tables.inner.captures.size] := by
      simp [Symbol.load_ne_setGlobal]
    rw [Stage.globals, Stage.globals, henter, ← hleave] at hglobals
    rw [henter, ← hleave] at hnames
    exact ⟨storesRise_of_notMem hnone, fun n hn => absurd hn (hnone n), hnames, hglobals⟩
  | .call hcallee harguments _, hs =>
    ((hcallee.stores hs).trans (harguments.stores (hcallee.reaches hs).sound)).concat (by simp)
  | .index hcollection hkey, hs =>
    ((hcollection.stores hs).trans (hkey.stores (hcollection.reaches hs).sound)).concat (by simp)

theorem ExprsCode.stores {s s' : Stage} {p : Nat} {es : List Expr} {is : List Instruction} :
    ExprsCode s p es is s' → s.Sound → s.Stores is s'
  | .nil, _ => stores_of_notMem rfl (by simp)
  | .cons hfirst hrest, hs => (hfirst.stores hs).trans (hrest.stores (hfirst.reaches hs).sound)

theorem EntriesCode.stores {s s' : Stage} {p : Nat} {pairs : List (Expr × Expr)}
    {is : List Instruction} : EntriesCode s p pairs is s' → s.Sound → s.Stores is s'
  | .nil, _ => stores_of_notMem rfl (by simp)
  | .cons _ hkey hvalue hrest, hs => by
    have h₁ := (hkey.reaches hs).sound
    have h₂ := (hvalue.reaches h₁).sound
    exact ((hkey.stores hs).trans (hvalue.stores h₁)).trans (hrest.stores h₂)

theorem StmtCode.stores {s s' : Stage} {p : Nat} {first : Stmt} {is : List Instruction} :
    StmtCode s p first is s' → s.Sound → s.Stores is s'
  | .bind hvalue hsymbol _, hs => by
    subst hsymbol
    exact (hvalue.stores hs).trans (stores_define (hvalue.reaches hs).sound _)
  | .ret hvalue, hs => (hvalue.stores hs).concat (by simp)
  | .eval hvalue, hs => (hvalue.stores hs).concat (by simp)

/-- The stores of statements are into new global slots, each later than the one before. -/
theorem StmtsCode.stores {s s' : Stage} {p : Nat} {body : List Stmt} {is : List Instruction} :
    StmtsCode s p body is s' → s.Sound → s.Stores is s'
  | .nil, _ => stores_of_notMem rfl (by simp)
  | .cons hfirst hrest, hs => (hfirst.stores hs).trans (hrest.stores (hfirst.reaches hs).sound)

end

end Scriptlet
