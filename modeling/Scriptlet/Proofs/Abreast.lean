import Scriptlet.Proofs.Calls
import Scriptlet.Proofs.Relocation
import Scriptlet.Proofs.Renaming
import Scriptlet.Proofs.StackContents

/-!
# Two machines abreast

Two machines that hold the same values up to running numbers do the same.

* `Exec.Both` compares two parts of steps: both come to results that a postcondition relates, or
  both fail in the same way.  As for `Exec.Ensures`, there is one rule for a sequence of parts and
  one for each of the parts that the instructions are made of.
* `Machine.Abreast` is the relation of the states.  It says nothing about slots that are not in use,
  except for the lowest ones, of which a number is given: the result of a program is found in a slot
  that is not in use.
* `Machine.Abreast.execute_plain`, `Machine.Onward.call` and `Machine.Onward.returnWith`: what the
  same instruction comes to in both machines.
-/

namespace Scriptlet

namespace Machine

namespace Exec

variable {α β : Type} {m n : Machine}

/-! ## Parts of two steps -/

/-- Two parts of steps side by side: both come to a result, and `ok` relates the results and the
states, or both fail in the same way. -/
def Both (x y : Exec α) (m n : Machine) (ok : α → α → Machine → Machine → Prop) : Prop :=
  (∃ a b m' n', x m = .ok a m' ∧ y n = .ok b n' ∧ ok a b m' n') ∨
    ∃ halt m' n', x m = .error halt m' ∧ y n = .error halt n'

variable {ok : α → α → Machine → Machine → Prop}

theorem Both.mono {x y : Exec α} {ok' : α → α → Machine → Machine → Prop} (h : Both x y m n ok)
    (hok : ∀ a b m' n', ok a b m' n' → ok' a b m' n') : Both x y m n ok' := by
  rcases h with ⟨a, b, m', n', hx, hy, hab⟩ | hfail
  · exact .inl ⟨a, b, m', n', hx, hy, hok a b m' n' hab⟩
  · exact .inr hfail

theorem both_pure {a b : α} (h : ok a b m n) : Both (pure a) (pure b) m n ok :=
  .inl ⟨a, b, m, n, rfl, rfl, h⟩

theorem both_throw (halt : Halt) : Both (throw halt : Exec α) (throw halt) m n ok :=
  .inr ⟨halt, m, n, rfl, rfl⟩

theorem both_fail (e : Error) : Both (fail e : Exec α) (fail e) m n ok := both_throw _

theorem both_get {ok : Machine → Machine → Machine → Machine → Prop} (h : ok m n m n) :
    Both get get m n ok := .inl ⟨m, n, m, n, rfl, rfl, h⟩

theorem both_modify {g h : Machine → Machine} {ok : Unit → Unit → Machine → Machine → Prop}
    (hok : ok () () (g m) (h n)) : Both (modify g) (modify h) m n ok :=
  .inl ⟨(), (), g m, h n, rfl, rfl, hok⟩

/-- Two sequences of parts. -/
theorem both_bind {x y : Exec β} {g h : β → Exec α}
    (hxy : Both x y m n fun a b m' n' => Both (g a) (h b) m' n' ok) :
    Both (x >>= g) (y >>= h) m n ok := by
  rcases hxy with ⟨a, b, m', n', hx, hy, hrest⟩ | ⟨halt, m', n', hx, hy⟩
  · unfold Both
    rw [bind_of_ok hx, bind_of_ok hy]
    exact hrest
  · exact .inr ⟨halt, m', n', bind_of_error hx, bind_of_error hy⟩

theorem both_lift {x y : Except Error α} (h : (∃ e, x = .error e ∧ y = .error e) ∨
    ∃ a b, x = .ok a ∧ y = .ok b ∧ ok a b m n) : Both (lift x) (lift y) m n ok := by
  rcases h with ⟨e, rfl, rfl⟩ | ⟨a, b, rfl, rfl, hab⟩
  · exact both_fail e
  · exact both_pure hab

theorem both_inBounds {a? b? : Option α} (h : a? = none ∧ b? = none ∨
    ∃ a b, a? = some a ∧ b? = some b ∧ ok a b m n) : Both (inBounds a?) (inBounds b?) m n ok := by
  rcases h with ⟨rfl, rfl⟩ | ⟨a, b, rfl, rfl, hab⟩
  · exact both_throw _
  · exact both_pure hab

theorem both_localSlot {op : Op} {index : Nat} {ok : Nat → Nat → Machine → Machine → Prop}
    (hbase : n.frame.base = m.frame.base)
    (hok : ok (m.frame.base + index) (m.frame.base + index) m n) :
    Both (localSlot op index) (localSlot op index) m n ok := by
  refine both_bind (both_get ?_)
  dsimp only
  rw [hbase]
  split
  · exact both_pure hok
  · exact both_fail _

end Exec

open Exec Value

/-! ## States abreast -/

/-- The second machine holds the values of the first with other running numbers: in the slots that
are in use and in the `low` lowest ones, and in the global slots.  The numbers that both are yet to
hand out correspond too. -/
structure Abreast (f : Nat → Nat) (low : Nat) (m n : Machine) : Prop where
  left : m.stack.size = stackSize
  right : n.stack.size = stackSize
  sp : n.sp = m.sp
  room : m.sp ≤ stackSize
  slots : ∀ k, k < low ∨ k < m.sp →
    ∃ v w, m.stack[k]? = some v ∧ n.stack[k]? = some w ∧ v.Alike f m.host.made w
  globals : AlikeAll f m.host.made m.globals.toList n.globals.toList
  link : ∀ k, f (m.host.made + k) = n.host.made + k
  pos : 0 < m.host.made

/-- The states after parts of two instructions that stay in their frames. -/
structure Onward (f : Nat → Nat) (low : Nat) (m₀ n₀ m n : Machine) : Prop where
  abreast : Abreast f low m n
  frame : m.frame = m₀.frame ∧ n.frame = n₀.frame
  callers : m.callers = m₀.callers ∧ n.callers = n₀.callers
  made : m₀.host.made ≤ m.host.made

variable {f : Nat → Nat} {low : Nat} {m₀ n₀ m n : Machine} {v w : Value} {α : Type}

theorem Abreast.onward (h : Abreast f low m n) : Onward f low m n m n :=
  ⟨h, ⟨rfl, rfl⟩, ⟨rfl, rfl⟩, Nat.le_refl _⟩

theorem Abreast.behind (h : Abreast f low m n) (i j : Instruction) :
    Abreast f low (behind m i) (behind n j) := { h with }

/-- More of the lowest slots can be compared while they are in use. -/
theorem Abreast.raise {low' : Nat} (h : Abreast f low m n) (hlow : low' ≤ m.sp) :
    Abreast f low' m n := by
  refine { h with slots := fun k hk => h.slots k (.inr ?_) }
  omega

theorem Abreast.next (h : Abreast f low m n) : f m.host.made = n.host.made := h.link 0

namespace Onward

/-- Fewer slots are in use. -/
theorem lower (h : Onward f low m₀ n₀ m n) (count : Nat) :
    Onward f low m₀ n₀ { m with sp := m.sp - count } { n with sp := n.sp - count } := by
  have hused : ∀ k, k < low ∨ k < m.sp - count → k < low ∨ k < m.sp := fun k hk =>
    hk.imp id fun hlt => Nat.lt_of_lt_of_le hlt (Nat.sub_le ..)
  have habreast : Abreast f low { m with sp := m.sp - count } { n with sp := n.sp - count } :=
    { h.abreast with
      sp := congrArg (· - count) h.abreast.sp
      room := Nat.le_trans (Nat.sub_le ..) h.abreast.room
      slots := fun k hk => h.abreast.slots k (hused k hk) }
  exact { h with abreast := habreast }

/-- Both machines have handed out the same number of stamps. -/
theorem withHost (h : Onward f low m₀ n₀ m n) {host host' : Host}
    (hmade : ∃ k, host.made = m.host.made + k ∧ host'.made = n.host.made + k) :
    Onward f low m₀ n₀ { m with host := host } { n with host := host' } := by
  obtain ⟨k, hk, hk'⟩ := hmade
  have hle : m.host.made ≤ host.made := hk ▸ Nat.le_add_right ..
  have hslots : ∀ j, j < low ∨ j < m.sp →
      ∃ v w, m.stack[j]? = some v ∧ n.stack[j]? = some w ∧ v.Alike f host.made w := fun j hj => by
    obtain ⟨v, w, hv, hw, halike⟩ := h.abreast.slots j hj
    exact ⟨v, w, hv, hw, halike.mono hle⟩
  have hlink : ∀ j, f (host.made + j) = host'.made + j := fun j => by
    rw [hk, hk', Nat.add_assoc, Nat.add_assoc]
    exact h.abreast.link (k + j)
  have habreast : Abreast f low { m with host := host } { n with host := host' } :=
    { h.abreast with
      slots := hslots
      globals := h.abreast.globals.mono hle
      link := hlink
      pos := Nat.lt_of_lt_of_le h.abreast.pos hle }
  exact { h with abreast := habreast, made := Nat.le_trans h.made hle }

theorem used (h : Onward f low m₀ n₀ m n) :
    Onward f low m₀ n₀ { m with host := m.host.used } { n with host := n.host.used } :=
  h.withHost ⟨1, rfl, rfl⟩

/-- The same slot is written in both machines. -/
theorem setStack (h : Onward f low m₀ n₀ m n) (hvw : v.Alike f m.host.made w) (slot : Nat) :
    Onward f low m₀ n₀ { m with stack := m.stack.setIfInBounds slot v }
      { n with stack := n.stack.setIfInBounds slot w } := by
  refine { h with abreast := { h.abreast with left := ?_, right := ?_, slots := fun k hk => ?_ } }
  · rw [Array.size_setIfInBounds]
    exact h.abreast.left
  · rw [Array.size_setIfInBounds]
    exact h.abreast.right
  · obtain ⟨v', w', hv', hw', halike⟩ := h.abreast.slots k hk
    by_cases hslot : slot = k
    · subst hslot
      have hlt := (Array.getElem?_eq_some_iff.1 hv').1
      have hlt' := (Array.getElem?_eq_some_iff.1 hw').1
      refine ⟨v, w, ?_, ?_, hvw⟩
      · rw [Array.getElem?_setIfInBounds_self_of_lt hlt]
      · rw [Array.getElem?_setIfInBounds_self_of_lt hlt']
    · refine ⟨v', w', ?_, ?_, halike⟩
      · rw [Array.getElem?_setIfInBounds_ne hslot]
        exact hv'
      · rw [Array.getElem?_setIfInBounds_ne hslot]
        exact hw'

theorem setGlobals (h : Onward f low m₀ n₀ m n) (hvw : v.Alike f m.host.made w) (index : Nat) :
    Onward f low m₀ n₀ { m with globals := m.globals.setIfInBounds index v }
      { n with globals := n.globals.setIfInBounds index w } := by
  refine { h with abreast := { h.abreast with globals := ?_ } }
  show AlikeAll f m.host.made (m.globals.setIfInBounds index v).toList
    (n.globals.setIfInBounds index w).toList
  rw [Array.toList_setIfInBounds, Array.toList_setIfInBounds]
  exact h.abreast.globals.set hvw index

theorem push {ok : Unit → Unit → Machine → Machine → Prop} (h : Onward f low m₀ n₀ m n)
    (hvw : v.Alike f m.host.made w) (hok : ∀ m' n', Onward f low m₀ n₀ m' n' → ok () () m' n') :
    Both (Exec.push v) (Exec.push w) m n ok := by
  have hleft := h.abreast.left
  have hright := h.abreast.right
  have hsp := h.abreast.sp
  by_cases hfull : stackSize ≤ m.sp
  · refine .inr ⟨.error .stackOverflow, m, n, ?_, ?_⟩
    · exact if_pos hfull
    · exact if_pos (hsp ▸ hfull)
  · have hpush : Exec.push v m =
        .ok () { m with stack := m.stack.setIfInBounds m.sp v, sp := m.sp + 1 } :=
      (if_neg hfull).trans (if_pos (by omega))
    have hpush' : Exec.push w n =
        .ok () { n with stack := n.stack.setIfInBounds m.sp w, sp := m.sp + 1 } := by
      rw [← hsp] at hfull ⊢
      exact (if_neg hfull).trans (if_pos (by omega))
    refine .inl ⟨(), (), _, _, hpush, hpush', hok _ _ ?_⟩
    have hset := h.setStack hvw m.sp
    refine { hset with abreast := { hset.abreast with
      sp := rfl, room := Nat.lt_of_not_le hfull, slots := fun k hk => ?_ } }
    -- the pushed values stand in slots that are now in use
    by_cases htop : k = m.sp
    · subst htop
      refine ⟨v, w, ?_, ?_, hvw⟩
      · exact Array.getElem?_setIfInBounds_self_of_lt (by omega)
      · exact Array.getElem?_setIfInBounds_self_of_lt (by omega)
    · refine hset.abreast.slots k (hk.imp id fun hlt => ?_)
      show k < m.sp
      have hlt : k < m.sp + 1 := hlt
      omega

theorem pop {ok : Value → Value → Machine → Machine → Prop} (h : Onward f low m₀ n₀ m n)
    (hok : ∀ v w, v.Alike f m.host.made w →
      Onward f low m₀ n₀ { m with sp := m.sp - 1 } { n with sp := n.sp - 1 } →
      ok v w { m with sp := m.sp - 1 } { n with sp := n.sp - 1 }) :
    Both Exec.pop Exec.pop m n ok := by
  have hsp := h.abreast.sp
  by_cases hempty : m.sp = 0
  · refine .inr ⟨.error .stackUnderflow, m, n, ?_, ?_⟩
    · exact if_pos hempty
    · exact if_pos (hsp.trans hempty)
  · obtain ⟨v, w, hv, hw, halike⟩ := h.abreast.slots (m.sp - 1) (.inr (by omega))
    refine .inl ⟨v, w, _, _, ?_, ?_, hok v w halike (h.lower 1)⟩
    · refine (if_neg hempty).trans ?_
      rw [hv]
    · refine (if_neg (hsp ▸ hempty)).trans ?_
      rw [hsp, hw]

theorem topmost {ok : List Value → List Value → Machine → Machine → Prop} {count : Nat}
    (h : Onward f low m₀ n₀ m n) (hok : ∀ vs ws, AlikeAll f m.host.made vs ws → ok vs ws m n) :
    Both (Exec.topmost count) (Exec.topmost count) m n ok := by
  have hleft := h.abreast.left
  have hright := h.abreast.right
  have hsp := h.abreast.sp
  have hroom := h.abreast.room
  by_cases hcount : count ≤ m.sp
  · have htopmost : Exec.topmost count m =
        .ok (m.stack.extract (m.sp - count) m.sp).toList m :=
      (if_pos hcount).trans (if_pos (by omega))
    have htopmost' : Exec.topmost count n =
        .ok (n.stack.extract (m.sp - count) m.sp).toList n := by
      rw [← hsp] at hcount ⊢
      exact (if_pos hcount).trans (if_pos (by omega))
    refine .inl ⟨_, _, m, n, htopmost, htopmost', hok _ _ (alikeAll_of_getElem? fun k => ?_)⟩
    rw [Array.getElem?_toList, Array.getElem?_toList, Array.getElem?_extract,
      Array.getElem?_extract, hleft, hright]
    split
    · exact .inr (h.abreast.slots (m.sp - count + k) (.inr (by omega)))
    · exact .inl ⟨rfl, rfl⟩
  · refine .inr ⟨.error .stackUnderflow, m, n, ?_, ?_⟩
    · exact if_neg hcount
    · exact if_neg (hsp ▸ hcount)

theorem drop {ok : Unit → Unit → Machine → Machine → Prop} {count : Nat}
    (h : Onward f low m₀ n₀ m n)
    (hok : Onward f low m₀ n₀ { m with sp := m.sp - count } { n with sp := n.sp - count } →
      ok () () { m with sp := m.sp - count } { n with sp := n.sp - count }) :
    Both (Exec.drop count) (Exec.drop count) m n ok := by
  have hsp := h.abreast.sp
  by_cases hcount : count ≤ m.sp
  · refine .inl ⟨(), (), _, _, ?_, ?_, hok (h.lower count)⟩
    · exact if_pos hcount
    · exact if_pos (hsp ▸ hcount)
  · refine .inr ⟨.outOfBounds, m, n, ?_, ?_⟩
    · exact if_neg hcount
    · exact if_neg (hsp ▸ hcount)

theorem make {make make' : Stamp → Value} {ok : Value → Value → Machine → Machine → Prop}
    (h : Onward f low m₀ n₀ m n)
    (hmake : (make m.host.stamp).Alike f (m.host.made + 1) (make' n.host.stamp))
    (hok : ∀ v w, v.Alike f (m.host.made + 1) w →
      Onward f low m₀ n₀ { m with host := m.host.used } { n with host := n.host.used } →
      ok v w { m with host := m.host.used } { n with host := n.host.used }) :
    Both (Exec.make make) (Exec.make make') m n ok :=
  .inl ⟨_, _, _, _, rfl, rfl, hok _ _ hmake h.used⟩

/-! ## Instructions -/

theorem arithmetic (h : Onward f low m₀ n₀ m n) (op : Op) :
    Both (Exec.arithmetic op) (Exec.arithmetic op) m n
      fun _ _ m' n' => Onward f low m₀ n₀ m' n' := by
  refine both_bind (h.pop fun right right' hright h₁ => ?_)
  refine both_bind (h₁.pop fun left left' hleft h₂ => both_bind (both_get (both_bind ?_)))
  refine both_lift ((hleft.arithmetic hright h.abreast.next op).imp id ?_)
  rintro ⟨v, w, hv, hw, hvw⟩
  exact ⟨v, w, hv, hw, both_bind (both_modify (h₂.used.push hvw fun _ _ h₃ => h₃))⟩

theorem comparison (h : Onward f low m₀ n₀ m n) (hf : Function.Injective f) (op : Op) :
    Both (Exec.comparison op) (Exec.comparison op) m n
      fun _ _ m' n' => Onward f low m₀ n₀ m' n' := by
  refine both_bind (h.pop fun right right' hright h₁ => ?_)
  refine both_bind (h₁.pop fun left left' hleft h₂ => both_bind (both_lift ?_))
  rw [hleft.comparison hright hf op]
  cases Machine.comparison op left right with
  | error e => exact .inl ⟨e, rfl, rfl⟩
  | ok value =>
    refine .inr ⟨value, value, rfl, rfl, ?_⟩
    exact h₂.push (alike_self fun _ => rfl) fun _ _ h₃ => h₃

/-- An instruction that makes a value out of the topmost ones. -/
theorem gather (h : Onward f low m₀ n₀ m n) {count : Nat} {make : List Value → Stamp → Value}
    (hmake : ∀ vs ws, AlikeAll f m.host.made vs ws →
      (make vs m.host.stamp).Alike f (m.host.made + 1) (make ws n.host.stamp)) :
    Both (do
      let vs ← Exec.topmost count
      Exec.drop count
      let value ← Exec.make (make vs)
      Exec.push value) (do
      let vs ← Exec.topmost count
      Exec.drop count
      let value ← Exec.make (make vs)
      Exec.push value) m n fun _ _ m' n' => Onward f low m₀ n₀ m' n' := by
  refine both_bind (h.topmost fun vs ws hvs => both_bind (h.drop fun h₁ => ?_))
  refine both_bind (h₁.make (hmake vs ws hvs) fun v w hvw h₂ => ?_)
  exact h₂.push hvw fun _ _ h₃ => h₃

theorem callBuiltin (h : Onward f low m₀ n₀ m n) (function : Builtin) (count : Nat) :
    Both (Exec.callBuiltin function count) (Exec.callBuiltin function count) m n
      fun _ _ m' n' => Onward f low m₀ n₀ m' n' := by
  refine both_bind (h.topmost fun vs ws hvs => both_bind ?_)
  obtain ⟨halike, hmade⟩ := hvs.call h.abreast.next function
  refine .inl ⟨_, _, _, _, rfl, rfl, both_bind ((h.withHost hmade).drop fun h₁ => ?_)⟩
  exact h₁.push halike fun _ _ h₂ => h₂

end Onward

/-- What an instruction reads, other than values on the stack and in global slots, is the same up to
running numbers. -/
def Finds (f : Nat → Nat) (m n : Machine) : Instruction → Prop
  | .constant index => ∃ v, m.constants[index]? = some v ∧ n.constants[index]? = some v ∧
      ∀ g, v.rename g = v
  | .closure index _ => ∃ stamp r, m.constants[index]? = some (.routine stamp r) ∧
      n.constants[index]? = some (.routine stamp r)
  | .getLocal index => n.frame.base = m.frame.base ∧ m.frame.base + index < m.sp
  | .setLocal _ => n.frame.base = m.frame.base
  | .getFree _ => AlikeAll f m.host.made m.frame.free n.frame.free
  | .currentClosure => Alike f m.host.made (.closure m.frame.stamp m.frame.routine m.frame.free)
      (.closure n.frame.stamp n.frame.routine n.frame.free)
  | _ => True

/-- An instruction that does not lead elsewhere does the same in both machines. -/
theorem Abreast.execute_plain {i : Instruction} (h : Abreast f low m n)
    (hf : Function.Injective f) (hfinds : Finds f m n i) (hplain : i.leads = false) :
    Both (execute i) (execute i) m n fun _ _ m' n' => Onward f low m n m' n' := by
  have h₀ := h.onward
  cases i with
  | constant index =>
    obtain ⟨v, hv, hv', hrename⟩ := hfinds
    refine both_bind (both_get ?_)
    simp only [hv, hv']
    exact h₀.push (alike_self hrename) fun _ _ h₁ => h₁
  | add => exact h₀.arithmetic .add
  | sub => exact h₀.arithmetic .sub
  | mul => exact h₀.arithmetic .mul
  | div => exact h₀.arithmetic .div
  | equal => exact h₀.comparison hf .equal
  | notEqual => exact h₀.comparison hf .notEqual
  | greaterThan => exact h₀.comparison hf .greaterThan
  | pop => exact both_bind (h₀.pop fun _ _ _ h₁ => both_pure h₁)
  | pushTrue => exact h₀.push (alike_self fun _ => rfl) fun _ _ h₁ => h₁
  | pushFalse => exact h₀.push (alike_self fun _ => rfl) fun _ _ h₁ => h₁
  | pushNull => exact h₀.push (alike_self fun _ => rfl) fun _ _ h₁ => h₁
  | bang =>
    refine both_bind (h₀.pop fun v w hvw h₁ => ?_)
    rw [hvw.renamed, isTruthy_rename]
    exact h₁.push (alike_self fun _ => rfl) fun _ _ h₂ => h₂
  | minus =>
    refine both_bind (h₀.pop fun v w hvw h₁ => both_bind (both_lift (hvw.negative.imp id ?_)))
    rintro ⟨u, u', hu, hu', halike⟩
    exact ⟨u, u', hu, hu', h₁.push halike fun _ _ h₂ => h₂⟩
  | index =>
    refine both_bind (h₀.pop fun key key' hkey h₁ => ?_)
    refine both_bind (h₁.pop fun v w hvw h₂ => both_bind (both_lift ((hvw.select hkey).imp id ?_)))
    rintro ⟨u, u', hu, hu', halike⟩
    exact ⟨u, u', hu, hu', h₂.push halike fun _ _ h₃ => h₃⟩
  | setGlobal index =>
    refine both_bind (h₀.pop fun v w hvw h₁ => both_bind (both_get ?_))
    have hsize : n.globals.size = m.globals.size := by
      rw [← Array.length_toList, ← Array.length_toList, h.globals.renamed, List.length_map]
    dsimp only
    rw [hsize]
    split
    · exact both_modify (h₁.setGlobals hvw index)
    · exact both_throw _
  | getGlobal index =>
    refine both_bind (both_get (both_bind (both_inBounds ?_)))
    rw [← Array.getElem?_toList, ← Array.getElem?_toList]
    refine (h.globals.getElem? index).imp id ?_
    rintro ⟨v, w, hv, hw, hvw⟩
    exact ⟨v, w, hv, hw, h₀.push hvw fun _ _ h₁ => h₁⟩
  | setLocal index =>
    refine both_bind (both_localSlot hfinds (both_bind (h₀.pop fun v w hvw h₁ => ?_)))
    refine both_bind (both_get ?_)
    dsimp only
    rw [h.left, h.right]
    split
    · exact both_modify (h₁.setStack hvw _)
    · exact both_throw _
  | getLocal index =>
    obtain ⟨hbase, hslot⟩ := hfinds
    refine both_bind (both_localSlot hbase (both_bind (both_get (both_bind (both_inBounds ?_)))))
    obtain ⟨v, w, hv, hw, hvw⟩ := h.slots _ (.inr hslot)
    exact .inr ⟨v, w, hv, hw, h₀.push hvw fun _ _ h₁ => h₁⟩
  | getBuiltin index =>
    simp only [execute]
    cases Builtin.all[index]? with
    | none => exact both_fail _
    | some function => exact h₀.push (alike_self fun _ => rfl) fun _ _ h₁ => h₁
  | getFree index =>
    refine both_bind (both_get ?_)
    have hfree : AlikeAll f m.host.made m.frame.free n.frame.free := hfinds
    obtain ⟨hv, hw⟩ | ⟨v, w, hv, hw, hvw⟩ := hfree.getElem? index
    · simp only [hv, hw]
      exact both_fail _
    · simp only [hv, hw]
      exact h₀.push hvw fun _ _ h₁ => h₁
  | currentClosure => exact both_bind (both_get (h₀.push hfinds fun _ _ h₁ => h₁))
  | array count => exact h₀.gather fun _ _ hvs => hvs.array h.next
  | hash count =>
    refine both_bind (h₀.topmost fun vs ws hvs => both_bind (both_lift ?_))
    refine (hvs.hash h.next).imp id ?_
    rintro ⟨pairs, pairs', hpairs, hpairs', halike⟩
    refine ⟨pairs, pairs', hpairs, hpairs', both_bind (h₀.drop fun h₁ => ?_)⟩
    exact both_bind (h₁.make halike fun v w hvw h₂ => h₂.push hvw fun _ _ h₃ => h₃)
  | closure index count =>
    obtain ⟨stamp, r, hr, hr'⟩ := hfinds
    refine both_bind (both_get ?_)
    simp only [hr, hr']
    exact h₀.gather fun _ _ hvs => hvs.closure h.next r
  | jump target => cases hplain
  | jumpNotTruthy target => cases hplain
  | call count => cases hplain
  | returnValue => cases hplain
  | returnNull => cases hplain

/-! ## Calls and returns -/

/-- A slot that has been cleared holds `null`, and the others hold what they did. -/
theorem getElem?_clear {stack : Array Value} {start count k : Nat} (hk : k < stack.size) :
    (clear stack start count)[k]? =
      if start ≤ k ∧ k < start + count then some .null else stack[k]? := by
  induction count generalizing stack start with
  | zero => rw [clear, if_neg (by omega)]
  | succ count ih =>
    rw [clear, ih (by rw [Array.size_setIfInBounds]; exact hk)]
    by_cases hstart : start = k
    · subst hstart
      rw [if_neg (by omega), if_pos (by omega), Array.getElem?_setIfInBounds_self_of_lt hk]
    · rw [Array.getElem?_setIfInBounds_ne hstart]
      by_cases hin : start + 1 ≤ k ∧ k < start + 1 + count
      · rw [if_pos hin, if_pos (by omega)]
      · rw [if_neg hin, if_neg (by omega)]

/-- The bodies of two functions start abreast. -/
theorem Abreast.enter (h : Abreast f low m n) (stamp stamp' : Stamp) (r : Routine)
    (free free' : List Value) (count : Nat) (hroom : m.sp - count + r.locals ≤ stackSize) :
    Abreast f low (enter m stamp r free count) (enter n stamp' r free' count) := by
  refine { h with left := ?_, right := ?_, sp := ?_, room := hroom, slots := fun k hk => ?_ }
  · exact (size_clear ..).trans h.left
  · exact (size_clear ..).trans h.right
  · show n.sp - count + r.locals = m.sp - count + r.locals
    rw [h.sp]
  · show ∃ v w, (clear m.stack m.sp (m.sp - count + r.locals - m.sp))[k]? = some v ∧
      (clear n.stack n.sp (n.sp - count + r.locals - n.sp))[k]? = some w ∧ _
    have hlt : k < stackSize := by
      rcases hk with hk | hk
      · obtain ⟨v, -, hv, -⟩ := h.slots k (.inl hk)
        rw [← h.left]
        exact (Array.getElem?_eq_some_iff.1 hv).1
      · exact Nat.lt_of_lt_of_le hk hroom
    rw [h.sp, getElem?_clear (h.left ▸ hlt), getElem?_clear (h.right ▸ hlt)]
    by_cases hin : m.sp ≤ k ∧ k < m.sp + (m.sp - count + r.locals - m.sp)
    · rw [if_pos hin, if_pos hin]
      exact ⟨.null, .null, rfl, rfl, alike_self fun _ => rfl⟩
    · rw [if_neg hin, if_neg hin]
      refine h.slots k (hk.imp id fun hk => ?_)
      have hk : k < m.sp - count + r.locals := hk
      omega

/-- A call of closures that are alike. -/
theorem Abreast.callClosure (h : Abreast f low m n) (hdepth : n.depth = m.depth)
    {stamp stamp' : Stamp} {r : Routine} {free free' : List Value} {count : Nat} :
    Both (callClosure stamp r free count) (callClosure stamp' r free' count) m n
      fun _ _ m' n' => m' = Exec.enter m stamp r free count ∧
        n' = Exec.enter n stamp' r free' count ∧ Abreast f low m' n' := by
  have hleft := h.left
  have hright := h.right
  have hsp := h.sp
  unfold Both Exec.callClosure
  rw [hdepth, hsp, hleft, hright]
  by_cases hcount : count ≠ r.parameters
  · rw [if_pos hcount, if_pos hcount]
    exact .inr ⟨_, m, n, rfl, rfl⟩
  rw [if_neg hcount, if_neg hcount]
  by_cases hframes : maxFrames ≤ m.depth
  · rw [if_pos hframes, if_pos hframes]
    exact .inr ⟨_, m, n, rfl, rfl⟩
  rw [if_neg hframes, if_neg hframes]
  by_cases harguments : m.sp < count
  · rw [if_pos harguments, if_pos harguments]
    exact .inr ⟨_, m, n, rfl, rfl⟩
  rw [if_neg harguments, if_neg harguments]
  dsimp only
  by_cases hroom : stackSize < m.sp - count + r.locals
  · rw [if_pos hroom, if_pos hroom]
    exact .inr ⟨_, m, n, rfl, rfl⟩
  rw [if_neg hroom, if_neg hroom, if_neg hroom, if_neg hroom]
  refine .inl ⟨(), (), _, _, rfl, rfl, rfl, ?_, ?_⟩
  · unfold Exec.enter
    rw [hsp]
  · have henter := h.enter stamp stamp' r free free' count (Nat.le_of_not_lt hroom)
    unfold Exec.enter at henter
    rw [hsp] at henter
    exact henter

/-- A call stays in its frame in both machines, or starts functions that are alike. -/
theorem Abreast.call (h : Abreast f low m n) (hdepth : n.depth = m.depth) (count : Nat) :
    Both (call count) (call count) m n fun _ _ m' n' => Onward f low m n m' n' ∨
      ∃ stamp stamp' r free free', Alike f m.host.made (.closure stamp r free)
          (.closure stamp' r free') ∧ m' = Exec.enter m stamp r free count ∧
        n' = Exec.enter n stamp' r free' count ∧ Abreast f low m' n' := by
  refine both_bind (both_get ?_)
  rw [h.sp]
  split
  · exact both_fail _
  · next hsp =>
    obtain ⟨v, w, hv, hw, hvw⟩ := h.slots (m.sp - (count + 1)) (.inr (by omega))
    refine both_bind (both_inBounds (.inr ⟨v, w, hv, hw, ?_⟩))
    have hrenamed := hvw.renamed
    cases v with
    | closure stamp r free =>
      subst hrenamed
      refine (h.callClosure hdepth).mono ?_
      rintro _ _ m' n' ⟨hm', hn', h'⟩
      exact .inr ⟨stamp, _, r, free, _, hvw, hm', hn', h'⟩
    | builtin function =>
      subst hrenamed
      exact (h.onward.callBuiltin function count).mono fun _ _ _ _ h' => .inl h'
    | _ =>
      subst hrenamed
      exact both_fail _

/-- Values that are alike are returned to frames that wait. -/
theorem Abreast.returnWith (h : Abreast f low m n) (hvw : Alike f m.host.made v w)
    (hbase : n.frame.base = m.frame.base) (hroom : m.frame.base ≤ m.sp + 1) {caller caller' : Frame}
    (hcaller : m.callers.back? = some caller) (hcaller' : n.callers.back? = some caller') :
    Both (returnWith v) (returnWith w) m n fun _ _ m' n' => Abreast f low m' n' ∧
      m.host.made ≤ m'.host.made ∧ m'.frame = caller ∧ n'.frame = caller' ∧
      m'.callers = m.callers.pop ∧ n'.callers = n.callers.pop := by
  refine both_bind (both_get (both_bind (both_get ?_)))
  rw [hcaller, hcaller']
  dsimp only
  refine both_bind (both_modify ?_)
  rw [hbase]
  split
  · exact both_fail _
  · refine both_bind (both_modify ?_)
    have hlow : Abreast f low
        { m with frame := caller, callers := m.callers.pop, sp := m.frame.base - 1 }
        { n with frame := caller', callers := n.callers.pop, sp := m.frame.base - 1 } := by
      have hsp := h.room
      refine { h with sp := rfl, room := ?_, slots := fun k hk => ?_ }
      · show m.frame.base - 1 ≤ stackSize
        omega
      · refine h.slots k (hk.imp id fun hk => ?_)
        have hk : k < m.frame.base - 1 := hk
        omega
    exact hlow.onward.push hvw fun m' n' h' =>
      ⟨h'.abreast, h'.made, h'.frame.1, h'.frame.2, h'.callers.1, h'.callers.2⟩

end Machine

end Scriptlet
