import Scriptlet.Proofs.OwnEnvironment
import Scriptlet.Proofs.Pieces

/-!
# Operands in the other order

The evaluator takes the operands of `<` from left to right.  Compiled code takes them from right to
left, so the two engines are not in step while the operands are evaluated.

What one engine does to get at an operand does not matter to the other operand: a call makes new
environments and new identities, and the rest stays.  So the comparison of the right operand may
start from the world that the evaluator has after the left one, although the machine is still in
front of both.  `World.apart` is such a world.  In the end the identities made for either operand
belong together, and `World.union` is the world in which they all do.

* `Eval.expr_spares`: evaluating a regular expression leaves all environments alone that were there
  before.
* `outcome_swapped` puts the comparisons of two operands together.
-/

namespace Scriptlet

open Code Machine Exec Value

/-! ## What an evaluation leaves alone -/

/-- Environments were made and identities were used, but the first `n` environments are what they
were before. -/
structure Store.Later (n : Nat) (σ σ' : Store) : Prop where
  next : σ.next ≤ σ'.next
  made : σ.host.made ≤ σ'.host.made
  same : ∀ i < n, σ'.environments[i]? = σ.environments[i]?

namespace Store

variable {n env : Nat} {σ σ' : Store} {x : String}

theorem Grown.later (h : Grown {i | n ≤ i} σ σ') (hn : n ≤ σ.next) : Later n σ σ' :=
  ⟨h.next, h.made, fun i hi => h.same i (Nat.lt_of_lt_of_le hi hn) (Nat.not_le_of_lt hi)⟩

theorem Later.get?_eq (h : Later n σ σ') (henv : env < n) : σ'.get? env x = σ.get? env x :=
  get?_congr fun i hi => by rw [h.same i (Nat.lt_of_le_of_lt hi henv)]

end Store

namespace Eval

variable {α : Type} {n env : Nat} {x : Eval α}

/-- The evaluation leaves the first `n` environments alone. -/
def Spares (n : Nat) (x : Eval α) : Prop :=
  ∀ σ a σ', n ≤ σ.next → x σ = .ok a σ' → σ.Later n σ'

theorem Writes.spares (h : Writes {i | n ≤ i} x) : Spares n x := by
  intro σ a σ' hn hx
  have hgrown := h σ
  unfold Store.perform at hgrown
  rw [hx] at hgrown
  exact hgrown.later hn

/-- A regular expression binds nothing where it stands, and calls bind nothing in environments that
are there already. -/
theorem expr_spares (depth : Nat) {name : Option String} {mayReturn : Bool} (e : Expr)
    (h : e.isRegular name mayReturn = true) : Spares n (expr (apply depth) env e) :=
  (expr_writes (apply_writes depth) e (.inr h)).spares

end Eval

/-! ## Worlds apart -/

namespace World

variable {W W₁ W₂ W₃ W₄ : World} {σ : Store} {made : Nat}

/-- The world in which the evaluator has gone on alone.  Nothing is known about the environments it
has made, so everything is in their scope. -/
def apart (W : World) (σ : Store) : World :=
  { W with store := σ, scope := fun env x => W.scope env x ∨ W.store.next ≤ env }

theorem Good.apart (h : W.Good) (hlater : W.store.Later W.store.next σ) : (W.apart σ).Good := by
  refine ⟨fun hp => ⟨(h.bounded hp).1, Nat.lt_of_lt_of_le (h.bounded hp).2 hlater.made⟩, h.right,
    h.left, ⟨?_, ?_⟩⟩
  · intro env e x v he hb
    by_cases henv : env < W.store.next
    · rw [show (W.apart σ).store = σ from rfl, hlater.same env henv] at he
      exact .inl (h.names.bound he hb)
    · exact .inr (Nat.le_of_not_lt henv)
  · intro env e outer he ho hlt x hx
    by_cases henv : env < W.store.next
    · rw [show (W.apart σ).store = σ from rfl, hlater.same env henv] at he
      exact .inl (h.names.outer he ho hlt x (hx.resolve_right (by omega)))
    · exact .inr (Nat.le_of_not_lt henv)

theorem le_apart (hlater : W.store.Later W.store.next σ) : W.Le W.store.next (W.apart σ) := by
  have hnew : ∀ {env x}, env < W.store.next → ((W.apart σ).scope env x ↔ W.scope env x) :=
    fun henv => or_iff_left (Nat.not_le_of_lt henv)
  refine
    { next := hlater.next
      pairs := id
      scope := hnew
      get? := fun {env x v} hget => ?_
      made := Nat.le_refl _
      host := hlater.made
      newer := .inl
      same := fun x henv => hlater.get?_eq henv
      globals := fun _ => rfl }
  have henv : env < W.store.next := by
    by_contra hle
    have hnone : W.store.environments[env]? = none := Array.getElem?_eq_none (Nat.le_of_not_lt hle)
    rw [Store.get?, hnone] at hget
    cases hget
  exact (hlater.get?_eq henv).trans hget

/-- The world of a later store, in which the machine has not made anything yet. -/
def forget (W W' : World) : World := { W' with made := W.made, pairs := W.pairs }

theorem Good.forget (h : W.Good) (h₁ : W₁.Good) (hle : W.Le n W₁) : (W.forget W₁).Good :=
  ⟨fun hp => ⟨(h.bounded hp).1, Nat.lt_of_lt_of_le (h.bounded hp).2 hle.host⟩, h.right, h.left,
    h₁.names⟩

theorem le_forget (hle : W.Le n W₁) : W.Le n (W.forget W₁) :=
  { hle with
    pairs := id
    made := Nat.le_refl _
    newer := .inl }

/-- The world in which the identities of two worlds belong together. -/
def union (W W' : World) : World :=
  { W' with made := W.made, pairs := fun a b => W.pairs a b ∨ W'.pairs a b }

/-- The two engines have made values for two operands.  The evaluator has made those of `W₁` before
those of `W₂`, the machine after them, starting at the number `made`. -/
structure Crossing (W : World) (made : Nat) (W₁ W₂ : World) : Prop where
  good : W.Good
  good₁ : W₁.Good
  good₂ : W₂.Good
  start : W.made ≤ made
  first : (W.upTo made).Le W.store.next W₁
  second : (W.forget W₁).Le W₁.store.next W₂
  stop : W₂.made ≤ made

namespace Crossing

/-- Identities of both operands that were not there before differ on both sides. -/
theorem cases_second (h : Crossing W made W₁ W₂) {a b : Nat} (hp : W₂.pairs a b) :
    W.pairs a b ∨ (W.made ≤ a ∧ a < made) ∧ W₁.store.host.made ≤ b := by
  refine (h.second.newer hp).imp id fun hnew => ⟨⟨hnew.1, ?_⟩, hnew.2⟩
  exact Nat.lt_of_lt_of_le (h.good₂.bounded hp).1 h.stop

theorem cases_first (h : Crossing W made W₁ W₂) {a b : Nat} (hp : W₁.pairs a b) :
    W.pairs a b ∨ made ≤ a ∧ W.store.host.made ≤ b := h.first.newer hp

theorem good_union (h : Crossing W made W₁ W₂) : (W₁.union W₂).Good := by
  have hstart : made ≤ W₁.made := h.first.made
  have hhost : W₁.store.host.made ≤ W₂.store.host.made := h.second.host
  have hright : ∀ {a b b'}, W₁.pairs a b → W₂.pairs a b' → b = b' := by
    intro a b b' hp hp'
    rcases h.cases_second hp' with hp' | ⟨⟨ha, ha'⟩, -⟩
    · exact h.good₁.right hp (h.first.pairs hp')
    · rcases h.cases_first hp with hp | ⟨ha'', -⟩
      · have := (h.good.bounded hp).1
        omega
      · omega
  have hleft : ∀ {a a' b}, W₁.pairs a b → W₂.pairs a' b → a = a' := by
    intro a a' b hp hp'
    rcases h.cases_second hp' with hp' | ⟨-, hb⟩
    · exact h.good₁.left hp (h.first.pairs hp')
    · have := (h.good₁.bounded hp).2
      omega
  refine ⟨?_, ?_, ?_, h.good₂.names⟩
  · rintro a b (hp | hp)
    · obtain ⟨ha, hb⟩ := h.good₁.bounded hp
      exact ⟨ha, Nat.lt_of_lt_of_le hb hhost⟩
    · obtain ⟨ha, hb⟩ := h.good₂.bounded hp
      exact ⟨Nat.lt_of_lt_of_le ha (Nat.le_trans h.stop hstart), hb⟩
  · rintro a b b' (hp | hp) (hp' | hp')
    · exact h.good₁.right hp hp'
    · exact hright hp hp'
    · exact (hright hp' hp).symm
    · exact h.good₂.right hp hp'
  · rintro a a' b (hp | hp) (hp' | hp')
    · exact h.good₁.left hp hp'
    · exact hleft hp hp'
    · exact (hleft hp' hp).symm
    · exact h.good₂.left hp hp'

theorem ext_first (h : Crossing W made W₁ W₂) : W₁.Ext (W₁.union W₂) :=
  ⟨h.second.next, .inl, h.second.scope, h.second.get?⟩

theorem ext_second (W₁ W₂ : World) : W₂.Ext (W₁.union W₂) :=
  ⟨Nat.le_refl _, .inr, fun _ => Iff.rfl, id⟩

theorem le_union (h : Crossing W made W₁ W₂) : W.Le W.store.next (W₁.union W₂) := by
  have hle : W.Le W.store.next W₁ := (le_upTo h.start _).trans h.first (Nat.le_refl _)
  have hle' := (le_forget hle).trans h.second hle.next
  refine
    { toExt := hle.toExt.trans h.ext_first
      made := hle.made
      host := hle'.host
      newer := ?_
      same := hle'.same
      globals := hle'.globals }
  rintro a b (hp | hp)
  · exact hle.newer hp
  · exact hle'.newer hp

end Crossing

end World

/-! ## Both operands -/

section Swapped

variable {final : Stage} {k q r : Nat} {W W₀ W₁ : World} {m m₁ : Machine} {w : Value}
  {left right : Nat → Eval Value}

/-- The machine has come to the position `ip` with the values of two operands, which it has got in
the other order. -/
structure GivesSwapped (final : Stage) (W : World) (m : Machine) (ip : Nat) (w : Value × Value)
    (W' : World) (m' : Machine) : Prop where
  linked : Linked final W' m'
  le : W.Le W.store.next W'
  values : ∃ v₁ v₂, v₁.Related final W' w.1 ∧ v₂.Related final W' w.2 ∧
    m.Stands ip (m.slots ++ [v₂] ++ [v₁]) m'

/-- What is known of two operands whose code stands one behind the other, that of the right one
first. -/
structure Operands (final : Stage) (k q r : Nat) (W : World) (m : Machine)
    (left right : Nat → Eval Value) : Prop where
  linked : Linked final W m
  onRight : ∀ {W₀}, W.Le W.store.next W₀ → Linked final W₀ m →
    Outcome k right W₀ m (Gives final W₀ m m.slots q)
  onLeft : ∀ {W₀ v m₁}, W.Le W.store.next W₀ → Linked final W₀ m₁ →
    m.Stands q (m.slots ++ [v]) m₁ → Outcome k left W₀ m₁ (Gives final W₀ m₁ m₁.slots r)
  spares : ∀ d, Eval.Spares W.store.next (left d)

/-- Once the machine is behind the right operand, in whatever world that was compared. -/
theorem Operands.outcome_behind (h : Operands final k q r W m left right)
    (hle : W.Le W.store.next W₀) (hsteps : Steps m m₁)
    (hgives : Gives final W₀ m m.slots q w W₁ m₁) :
    Outcome k (fun d => left d >>= fun a => right d >>= fun b => pure (a, b)) W m
      (GivesSwapped final W m r) := by
  obtain ⟨v, -, hstands⟩ := hgives.value
  have hle₁ := hle.trans hgives.le hle.next
  have hmade : W.made ≤ m₁.host.made := Nat.le_trans hle₁.made hgives.linked.made
  have hglobals : m₁.globals = m.globals := by
    rw [hgives.linked.slots, hle₁.globals h.linked.root, h.linked.slots]
  have hlinked₁ : Linked final (W.upTo m₁.host.made) m₁ := by
    obtain ⟨hsound, hconstants⟩ := h.linked.sound.steps hsteps
    have hext := (World.le_upTo hmade 0).toExt
    refine
      { good := h.linked.good.upTo hmade
        made := Nat.le_refl _
        root := h.linked.root
        slots := hglobals.trans h.linked.slots
        globals := fun hget hplace hw => ?_
        constants := hconstants.trans h.linked.constants
        table := h.linked.table
        sound := hsound }
    rw [hglobals]
    obtain ⟨v, hv, hrelated⟩ := h.linked.globals hget hplace hw
    exact ⟨v, hv, hrelated.mono hext⟩
  rcases h.onLeft (World.le_upTo hmade _) hlinked₁ hstands with
    ⟨a, W₂, m₂, hsteps₂, hsettles₂, hgives₂⟩ | ⟨m₂, e, m₃, hsteps₂, hfail, hwhy⟩
  swap
  · exact .inr ⟨m₂, e, m₃, hsteps.trans hsteps₂, hfail, hwhy.imp id fun hnever => hnever.bind⟩
  have hle₂ : W.Le W.store.next W₂ := (World.le_upTo hmade _).trans hgives₂.le (Nat.le_refl _)
  -- the right operand once more, now from the store that it is evaluated in
  have hle₃ := World.le_forget hle₂
  have hlinked₃ := h.linked.grow hle₃ h.linked.root (h.linked.good.forget hgives₂.linked.good hle₂)
    h.linked.made
  rcases h.onRight hle₃ hlinked₃ with ⟨b, W₄, m₁', hsteps', hsettles', hgives'⟩ |
    ⟨m₁', e, m₃, hsteps', hfail, hwhy⟩
  swap
  · refine .inr ⟨m₁', e, m₃, hsteps', hfail, hwhy.imp id fun hnever => ?_⟩
    exact hsettles₂.bind_never hnever.bind
  obtain ⟨v', hrelated, hstands'⟩ := hgives'.value
  obtain rfl : m₁' = m₁ := by
    refine h.linked.sound.exit_unique hsteps' hsteps ?_ ?_
    · rw [hstands'.frame, hstands.frame]
    · rw [hstands'.callers, hstands.callers]
  obtain rfl : v' = v := by
    have hslots := hstands'.slots.symm.trans hstands.slots
    simpa using hslots
  have hcrossing : World.Crossing W m₁'.host.made W₂ W₄ :=
    { good := h.linked.good
      good₁ := hgives₂.linked.good
      good₂ := hgives'.linked.good
      start := hmade
      first := hgives₂.le
      second := hgives'.le
      stop := hgives'.linked.made }
  obtain ⟨v₁, hrelated₁, hstands₂⟩ := hgives₂.value
  have hroot : 0 < W₂.store.next := hgives₂.linked.root
  have hlinked : Linked final (W₂.union W₄) m₂ :=
    hgives₂.linked.of_ext hcrossing.ext_first (fun x => hgives'.le.same x hroot)
      (hgives'.le.globals hroot) hcrossing.good_union hgives₂.linked.made
  have hstandsBoth : m.Stands r (m.slots ++ [v'] ++ [v₁]) m₂ := by
    rw [← hstands.slots]
    exact hstands.trans hstands₂
  have hswapped : GivesSwapped final W m r (a, b) (W₂.union W₄) m₂ :=
    { linked := hlinked
      le := hcrossing.le_union
      values := ⟨v₁, v', hrelated₁.mono hcrossing.ext_first,
        hrelated.mono (World.Crossing.ext_second W₂ W₄), hstandsBoth⟩ }
  exact .inl ⟨(a, b), W₂.union W₄, m₂, hsteps.trans hsteps₂,
    hsettles₂.bind (hsettles'.bind (Eval.settles_of_eq fun _ => rfl)), hswapped⟩

/-- Two operands, of which the machine takes the right one first. -/
theorem Operands.outcome (h : Operands final k q r W m left right) :
    Outcome k (fun d => left d >>= fun a => right d >>= fun b => pure (a, b)) W m
      (GivesSwapped final W m r) := by
  rcases h.onRight (.refl _ W) h.linked with ⟨b, W₁, m₁, hsteps, -, hgives⟩ |
    ⟨m₁, e, m₂, hsteps, hfail, hwhy⟩
  · exact h.outcome_behind (.refl _ W) hsteps hgives
  rcases hwhy with hover | -
  · exact .inr ⟨m₁, e, m₂, hsteps, hfail, .inl hover⟩
  by_cases hnever : Eval.Never (fun d => left d >>= fun a => right d >>= fun b => pure (a, b))
      W.store
  · exact .inr ⟨m₁, e, m₂, hsteps, hfail, .inr hnever⟩
  -- the evaluator comes to a result, so it does not see the operand in the store of this world
  unfold Eval.Never at hnever
  push Not at hnever
  obtain ⟨d, ab, τ, hok⟩ := hnever
  obtain ⟨a, σ₁, hleft, hok⟩ := bind_eq_ok.1 hok
  obtain ⟨b, σ₂, hright, -⟩ := bind_eq_ok.1 hok
  have hlater := h.spares d W.store a σ₁ (Nat.le_refl _) hleft
  have hle := World.le_apart hlater
  have hlinked := h.linked.grow hle h.linked.root (h.linked.good.apart hlater) h.linked.made
  rcases h.onRight hle hlinked with ⟨b', W₁, m₁', hsteps', -, hgives⟩ |
    ⟨m₁', e', m₂', hsteps', hfail', hwhy'⟩
  · exact h.outcome_behind hle hsteps' hgives
  · refine .inr ⟨m₁', e', m₂', hsteps', hfail', hwhy'.imp id fun hnever => ?_⟩
    exact absurd hright (hnever d b σ₂)

end Swapped

end Scriptlet
