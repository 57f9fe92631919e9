/-!
# Taking steps apart

Compilation, the machine and the evaluator are all written as steps that either come to a result or
fail, and in both cases have a state afterwards.  The lemmas here take apart a sequence of such
steps whose outcome is known: one that came to a result consists of parts that did, and one that
failed did so in its first part or behind it.
-/

namespace Scriptlet

variable {ε σ α β : Type}

/-- A sequence comes to a result exactly if both parts do. -/
theorem bind_eq_ok {x : EStateM ε σ α} {f : α → EStateM ε σ β} {s : σ} {b : β} {t : σ} :
    (x >>= f) s = .ok b t ↔ ∃ a u, x s = .ok a u ∧ f a u = .ok b t := by
  show EStateM.bind x f s = _ ↔ _
  unfold EStateM.bind
  cases h : x s with
  | ok a u =>
    constructor
    · exact fun hf => ⟨a, u, rfl, hf⟩
    · rintro ⟨a', u', heq, hf⟩
      cases heq
      exact hf
  | error e u => simp

/-- A sequence fails exactly if its first part does, or the second behind it. -/
theorem bind_eq_error {x : EStateM ε σ α} {f : α → EStateM ε σ β} {s : σ} {e : ε} {t : σ} :
    (x >>= f) s = .error e t ↔
      x s = .error e t ∨ ∃ a u, x s = .ok a u ∧ f a u = .error e t := by
  show EStateM.bind x f s = _ ↔ _
  unfold EStateM.bind
  cases h : x s with
  | ok a u =>
    constructor
    · exact fun hf => .inr ⟨a, u, rfl, hf⟩
    · rintro (heq | ⟨a', u', heq, hf⟩)
      · cases heq
      · cases heq
        exact hf
  | error e u => simp

/-- A sequence goes on from the result of its first part. -/
theorem bind_of_ok {x : EStateM ε σ α} {f : α → EStateM ε σ β} {s : σ} {a : α} {u : σ}
    (h : x s = .ok a u) : (x >>= f) s = f a u := by
  show EStateM.bind x f s = _
  unfold EStateM.bind
  rw [h]

/-- A sequence fails with its first part. -/
theorem bind_of_error {x : EStateM ε σ α} {f : α → EStateM ε σ β} {s : σ} {e : ε} {u : σ}
    (h : x s = .error e u) : (x >>= f) s = .error e u := by
  show EStateM.bind x f s = _
  unfold EStateM.bind
  rw [h]

@[simp] theorem pure_apply (a : α) (s : σ) : (pure a : EStateM ε σ α) s = .ok a s := rfl

@[simp] theorem throw_apply (e : ε) (s : σ) : (throw e : EStateM ε σ α) s = .error e s := rfl

@[simp] theorem get_apply (s : σ) : (get : EStateM ε σ σ) s = .ok s s := rfl

@[simp] theorem modify_apply (f : σ → σ) (s : σ) :
    (modify f : EStateM ε σ Unit) s = .ok () (f s) := rfl

end Scriptlet
