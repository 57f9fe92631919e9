import Scriptlet.Proofs.Bindings

/-!
# How blocks end

A block of statements comes to its end in one of three ways, and what the machine has done by then
depends on which it is.

* The last statement is an expression.  Its value is on the stack, and the machine is about to do
  with it what the block is for: the value of a branch stays where it is, that of a function body is
  returned, that of the program is taken off.
* The last statement is no expression, or there is none.  Nothing is on the stack, and the value of
  the block is `null`.
* A `return` was reached, possibly inside of conditionals.  The machine is about to return.

`Ends` has one case for each of them.  `valueCode` is the part of the code of a block that all
blocks have in common, and `Ends.close` finishes a block that is a branch.

The first section is about instructions for which the evaluator has no counterpart.
-/

namespace Scriptlet

open Code Machine Exec Value

variable {α : Type} {final s s₁ : Stage} {k n ip env p target : Nat} {W W' W₁ : World}
  {m m₁ m' : Machine} {v w : Value} {xs ys : List Value} {captures : List Symbol}
  {is js : List Instruction} {name : Option String} {first : Stmt} {rest : Program}
  {mayBind mayReturn : Bool} {x : Nat → Eval α} {post post' : α → World → Machine → Prop}

/-! ## Steps of the machine alone -/

/-- The machine goes on after the evaluation has come to a result. -/
theorem Outcome.finish (h : Outcome k x W m post)
    (hf : ∀ a W' m', post a W' m' → Outcome k (fun _ => pure a) W' m' post') :
    Outcome k x W m post' := by
  have hbind := h.bind (f := fun _ a => pure a) hf
  simpa only [bind_pure] using hbind

theorem outcome_pop (hlinked : Linked final W m)
    (hfetch : m.frame.routine.code.fetch m.frame.ip = .instruction .pop)
    (hslots : m.slots = xs ++ [v])
    (h : ∀ m', Linked final W m' → m.Stands (m.frame.ip + 1) xs m' → Outcome k x W m' post) :
    Outcome k x W m post := by
  refine .fetched hfetch ?_
  refine ensures_bind ((hlinked.holding hslots .pop).pop fun m' hm' _ _ => ensures_pure ?_)
  exact fun hnext => h m' (hlinked.stays hnext hm') hm'.stands

theorem outcome_pushNull (hlinked : Linked final W m)
    (hfetch : m.frame.routine.code.fetch m.frame.ip = .instruction .pushNull)
    (h : ∀ m', Linked final W m' → m.Stands (m.frame.ip + 1) (m.slots ++ [.null]) m' →
      Outcome k x W m' post) : Outcome k x W m post := by
  refine .fetched hfetch ((hlinked.holding rfl .pushNull).push fails_stackOverflow ?_)
  exact fun m' hm' _ _ hnext => h m' (hlinked.stays hnext hm') hm'.stands

theorem outcome_jump (hlinked : Linked final W m)
    (hfetch : m.frame.routine.code.fetch m.frame.ip = .instruction (.jump target))
    (h : ∀ m', Linked final W m' → m.Stands target m.slots m' → Outcome k x W m' post) :
    Outcome k x W m post := by
  refine .fetched hfetch ?_
  exact fun hnext => h _ (hlinked.next hnext rfl (Nat.le_refl _)) ⟨rfl, rfl, rfl⟩

/-- The jump of a conditional: it leads on if the condition holds. -/
theorem outcome_jumpNotTruthy (hlinked : Linked final W m)
    (hfetch : m.frame.routine.code.fetch m.frame.ip = .instruction (.jumpNotTruthy target))
    (hslots : m.slots = xs ++ [v])
    (h : ∀ m', Linked final W m' →
      m.Stands (if v.isTruthy then m.frame.ip + 3 else target) xs m' → Outcome k x W m' post) :
    Outcome k x W m post := by
  refine .fetched hfetch ?_
  refine ensures_bind ((hlinked.holding hslots (.jumpNotTruthy target)).pop fun m' hm' _ _ => ?_)
  cases hv : v.isTruthy with
  | true =>
    rw [hv] at h
    exact ensures_pure fun hnext => h m' (hlinked.stays hnext hm') hm'.stands
  | false =>
    rw [hv] at h
    intro hnext
    exact h _ (hlinked.next hnext hm'.globals hm'.made)
      ⟨hm'.slots, congrArg (fun f => { f with ip := target }) hm'.frame, hm'.callers⟩

/-! ## The code of blocks -/

/-- The code of statements without the `pop` behind the last of them. -/
def valueCode (is : List Instruction) : List Instruction :=
  if is.getLast? = some .pop then is.dropLast else is

@[simp] theorem valueCode_concat_pop (is : List Instruction) : valueCode (is ++ [.pop]) = is := by
  simp [valueCode]

theorem valueCode_of_ne (h : is.getLast? ≠ some .pop) : valueCode is = is := if_neg h

theorem valueCode_append (is : List Instruction) (h : js ≠ []) :
    valueCode (is ++ js) = is ++ valueCode js := by
  unfold valueCode
  rw [List.getLast?_append_of_ne_nil is h, List.dropLast_append_of_ne_nil h]
  split <;> rfl

theorem branchCode_of_pop (h : is.getLast? = some .pop) : branchCode is = valueCode is := by
  unfold branchCode valueCode
  rw [if_pos h, if_pos h]

theorem branchCode_of_ne (h : is.getLast? ≠ some .pop) :
    branchCode is = valueCode is ++ [.pushNull] := by
  unfold branchCode valueCode
  rw [if_neg h, if_neg h]

theorem bodyCode_of_pop (h : is.getLast? = some .pop) :
    bodyCode is = valueCode is ++ [.returnValue] := by
  unfold bodyCode valueCode
  rw [if_pos h, if_pos h]

theorem bodyCode_of_ne (h : is.getLast? ≠ some .pop) (h' : is.getLast? ≠ some .returnValue) :
    bodyCode is = valueCode is ++ [.returnNull] := by
  unfold bodyCode valueCode
  rw [if_neg h, if_neg h, if_neg h']

/-- What all blocks have in common stands at the front of a branch. -/
theorem Code.Shows.of_branchCode {code : Code} (h : code.Shows p (branchCode is)) :
    code.Shows p (valueCode is) := by
  by_cases hlast : is.getLast? = some .pop
  · rw [branchCode_of_pop hlast] at h
    exact h
  · rw [branchCode_of_ne hlast] at h
    exact (shows_append.1 h).1

/-- What all blocks have in common stands at the front of a function. -/
theorem Code.Shows.of_bodyCode {code : Code} (h : code.Shows p (bodyCode is)) :
    code.Shows p (valueCode is) := by
  by_cases hlast : is.getLast? = some .pop
  · rw [bodyCode_of_pop hlast] at h
    exact (shows_append.1 h).1
  · by_cases hlast' : is.getLast? = some .returnValue
    · rw [bodyCode, if_neg hlast, if_pos hlast'] at h
      rw [valueCode_of_ne hlast]
      exact h
    · rw [bodyCode_of_ne hlast hlast'] at h
      exact (shows_append.1 h).1

theorem Code.Shows.valueCode {code : Code} (h : code.Shows p is) :
    code.Shows p (valueCode is) := by
  obtain ⟨js, hjs⟩ : Scriptlet.valueCode is <+: is := by
    unfold Scriptlet.valueCode
    split
    · exact List.dropLast_prefix is
    · exact List.prefix_refl is
  rw [← hjs] at h
  exact (shows_append.1 h).1

/-! ## Ends -/

/-- The machine is about to return a value from the running call, and the evaluator has marked a
related one. -/
structure Returns (final : Stage) (n : Nat) (W : World) (m : Machine) (w : Value) (W' : World)
    (m' : Machine) : Prop where
  linked : Linked final W' m'
  le : W.Le n W'
  value : ∃ v w' xs ip, w = .returned w' ∧ v.Related final W' w' ∧ Kept true m xs ∧
    m.Stands ip (xs ++ [v]) m' ∧ m.frame.routine.code.fetch ip = .instruction .returnValue

/-- What an expression comes to: its value, or a return out of a branch of it. -/
def Comes (final : Stage) (name : Option String) (env : Nat) (mayReturn : Bool) (W : World)
    (m : Machine) (ip : Nat) (w : Value) (W' : World) (m' : Machine) : Prop :=
  GivesNamed final name env W m ip w W' m' ∨
    mayReturn = true ∧ Returns final W.store.next W m w W' m'

/-- What a block comes to.  Its value is on the stack at the position `ip` only if `last` is the
`pop` of an expression. -/
inductive Ends (final : Stage) (n : Nat) (mayBind mayReturn : Bool) (W : World) (m : Machine)
    (ip : Nat) (last : Option Instruction) : Value → World → Machine → Prop
  | value {v w : Value} {xs : List Value} {W' : World} {m' : Machine} (hlast : last = some .pop)
      (hlinked : Linked final W' m') (hle : W.Le n W') (hrelated : v.Related final W' w)
      (hkept : Kept mayBind m xs) (hstands : m.Stands ip (xs ++ [v]) m') :
      Ends final n mayBind mayReturn W m ip last w W' m'
  | nothing {xs : List Value} {W' : World} {m' : Machine} (hlast : last ≠ some .pop)
      (hlast' : last ≠ some .returnValue) (hlinked : Linked final W' m') (hle : W.Le n W')
      (hkept : Kept mayBind m xs) (hstands : m.Stands ip xs m') :
      Ends final n mayBind mayReturn W m ip last .null W' m'
  | returns {w : Value} {W' : World} {m' : Machine} (hmay : mayReturn = true)
      (h : Returns final n W m w W' m') : Ends final n mayBind mayReturn W m ip last w W' m'

theorem Kept.weaken (h : Kept mayBind m xs) : Kept true m xs := ⟨nofun, h.length, h.below⟩

theorem Returns.after (h : Returns final n W₁ m₁ w W' m') (hle : W.Le n W₁)
    (hkept : Kept mayBind m xs) (hstands : m.Stands ip xs m₁) : Returns final n W m w W' m' := by
  obtain ⟨v, w', ys, ip', hw, hrelated, hkept', hstands', hfetch⟩ := h.value
  rw [hstands.routine_eq] at hfetch
  exact
    { linked := h.linked
      le := hle.trans h.le (Nat.le_refl n)
      value := ⟨v, w', ys, ip', hw, hrelated, hkept.weaken.trans hstands hkept',
        hstands.trans hstands', hfetch⟩ }

theorem Returns.mono {n' : Nat} (h : Returns final n W m w W' m') (hn : n' ≤ n) :
    Returns final n' W m w W' m' := ⟨h.linked, h.le.mono hn, h.value⟩

/-- An expression in a place where nothing can be returned from. -/
theorem Outcome.gives {x : Nat → Eval Value}
    (h : Outcome k x W m (Comes final none env false W m ip)) :
    Outcome k x W m (Gives final W m m.slots ip) := by
  refine h.mono fun w W' m' hcomes => ?_
  rcases hcomes with hgives | ⟨hmay, -⟩
  · exact hgives.unnamed
  · cases hmay

theorem Outcome.comes {x : Nat → Eval Value} (h : Outcome k x W m (Gives final W m m.slots ip)) :
    Outcome k x W m (Comes final name env mayReturn W m ip) :=
  h.mono fun _ _ _ hgives => .inl hgives.named

theorem Ends.after {last : Option Instruction}
    (h : Ends final n mayBind mayReturn W₁ m₁ ip last w W' m') (hle : W.Le n W₁)
    (hkept : Kept mayBind m xs) (hstands : m.Stands p xs m₁) :
    Ends final n mayBind mayReturn W m ip last w W' m' := by
  cases h with
  | value hlast hlinked hle' hrelated hkept' hstands' =>
    exact .value hlast hlinked (hle.trans hle' (Nat.le_refl n)) hrelated
      (hkept.trans hstands hkept') (hstands.trans hstands')
  | nothing hlast hlast' hlinked hle' hkept' hstands' =>
    exact .nothing hlast hlast' hlinked (hle.trans hle' (Nat.le_refl n))
      (hkept.trans hstands hkept') (hstands.trans hstands')
  | returns hmay h => exact .returns hmay (h.after hle hkept hstands)

/-- The end of a branch. -/
theorem Ends.close (h : Ends final W.store.next false mayReturn W m (p + extent (valueCode is))
      is.getLast? w W' m') (hcode : m.frame.routine.code.Shows p (branchCode is)) (env : Nat) :
    Outcome k (fun _ => pure w) W' m'
      (Comes final none env mayReturn W m (p + extent (branchCode is))) := by
  have hpure : ∀ {w : Value} {W' : World}, Eval.Settles k (fun _ => pure w) W'.store w W'.store :=
    Eval.settles_of_eq fun _ => rfl
  cases h with
  | value hlast hlinked hle hrelated hkept hstands =>
    obtain rfl := hkept.same rfl
    rw [branchCode_of_pop hlast]
    have hgives : Gives final W m m.slots _ w W' m' := ⟨hlinked, hle, _, hrelated, hstands⟩
    exact .done W' hpure (.inl hgives.named)
  | nothing hlast _ hlinked hle hkept hstands =>
    obtain rfl := hkept.same rfl
    rw [branchCode_of_ne hlast] at hcode ⊢
    have hfetch : m'.frame.routine.code.fetch m'.frame.ip = .instruction .pushNull := by
      rw [hstands.routine_eq, hstands.ip_eq]
      exact (shows_append.1 hcode).2.1
    refine outcome_pushNull hlinked hfetch fun m₂ hlinked₂ hstands₂ => .done W' hpure ?_
    have hstands₂ := hstands.trans hstands₂
    rw [hstands.ip_eq, hstands.slots] at hstands₂
    rw [extent_append, ← Nat.add_assoc]
    have hgives : Gives final W m m.slots _ .null W' m₂ := ⟨hlinked₂, hle, .null, .null, hstands₂⟩
    exact .inl hgives.named
  | returns hmay h => exact .done W' hpure (.inr ⟨hmay, h⟩)

/-! ## Statements -/

/-- What a statement comes to when `rest` stands behind it: the value of an expression is still on
the stack, a name has been bound, or a `return` was reached. -/
inductive Passes (final : Stage) (k : Nat) (s : Stage) (captures : List Symbol) (env n : Nat)
    (rest : Program) (mayBind mayReturn : Bool) (W : World) (m : Machine) (ip : Nat)
    (last : Option Instruction) : Value → World → Machine → Prop
  | value {w : Value} {W' : World} {m' : Machine} (hlast : last = some .pop)
      (h : Gives final W m m.slots ip w W' m') :
      Passes final k s captures env n rest mayBind mayReturn W m ip last w W' m'
  | bound {xs : List Value} {W' : World} {m' : Machine} (hlast : last ≠ some .pop)
      (hlast' : last ≠ some .returnValue) (hlinked : Linked final W' m') (hle : W.Le n W')
      (hruns : Runs final k W' s captures env m') (hfresh : Fresh W' s env rest)
      (hkept : Kept mayBind m xs) (hstands : m.Stands ip xs m') :
      Passes final k s captures env n rest mayBind mayReturn W m ip last .null W' m'
  | returns {w : Value} {W' : World} {m' : Machine} (hmay : mayReturn = true)
      (h : Returns final n W m w W' m') :
      Passes final k s captures env n rest mayBind mayReturn W m ip last w W' m'

/-- The last statement of a block. -/
theorem Passes.ends {last : Option Instruction} (hn : n ≤ W.store.next)
    (h : Passes final k s captures env n rest mayBind mayReturn W m ip last w W' m') :
    Ends final n mayBind mayReturn W m ip last w W' m' := by
  cases h with
  | value hlast h =>
    obtain ⟨v, hrelated, hstands⟩ := h.value
    exact .value hlast h.linked (h.le.mono hn) hrelated (.refl mayBind m) hstands
  | bound hlast hlast' hlinked hle _ _ hkept hstands =>
    exact .nothing hlast hlast' hlinked hle hkept hstands
  | returns hmay h => exact .returns hmay h

namespace Eval

variable {call : Caller} {result : Value}

/-- A block goes on behind a statement that has not returned. -/
def goOn (call : Caller) (env : Nat) (rest : List Stmt) : Value → Eval Value
  | .returned value => return .returned value
  | value => block call env value rest

theorem block_cons : block call env result (first :: rest) =
    stmt call env first >>= goOn call env rest := by
  unfold block
  refine congrArg (stmt call env first >>= ·) (funext fun w => ?_)
  cases w <;> rfl

theorem goOn_of_ne (h : ∀ w', w ≠ .returned w') : goOn call env rest w = block call env w rest := by
  cases w with
  | returned w' => exact absurd rfl (h w')
  | _ => rfl

end Eval

end Scriptlet
