import Mathlib.Data.Rat.Floor
import Scriptlet.Value.FloorDiv

/-!
# The quotient rounded down

`floorDiv?` starts from the quotient of machine words, which rounds toward zero and wraps around,
and takes one away when that quotient is too large.  `floorDiv?_eq_floor` says what this comes to:
the floor of the quotient of the two numbers, as a word.

There is one pair of words whose quotient is no word, the smallest number and -1; for all others
nothing is lost (`fdiv_fits`).  Taking one away cannot go below the smallest number either: when the
quotient is too large there is a remainder, so the divisor is not -1.
-/

namespace Scriptlet

/-- The quotient of two words as numbers, rounded down. -/
def floorQuotient (left right : Int64) : ℤ := ⌊(left.toInt : ℚ) / right.toInt⌋

/-- The quotient of machine words is larger than the quotient rounded down. -/
def Overshoots (left right : Int64) : Prop :=
  left % right ≠ 0 ∧ decide (left < 0) ≠ decide (right < 0)

instance (left right : Int64) : Decidable (Overshoots left right) :=
  inferInstanceAs (Decidable (_ ∧ _))

/-! ## Numbers -/

section Numbers

variable {a b : ℤ}

theorem floor_div_eq_fdiv (a b : ℤ) : ⌊(a : ℚ) / b⌋ = a.fdiv b := by
  rcases Int.le_total 0 b with hb | hb
  · lift b to ℕ using hb
    rw [Int.fdiv_eq_ediv_of_nonneg a (Int.natCast_nonneg b), ← Rat.floor_intCast_div_natCast]
    rfl
  · obtain ⟨c, rfl⟩ : ∃ c : ℕ, b = -c := ⟨b.natAbs, by omega⟩
    have hneg : (a : ℚ) / ((-c : ℤ) : ℚ) = ((-a : ℤ) : ℚ) / (c : ℕ) := by
      push_cast
      rw [div_neg, neg_div]
    rw [hneg, Rat.floor_intCast_div_natCast, ← Int.fdiv_eq_ediv_of_nonneg _ (Int.natCast_nonneg c),
      ← Int.neg_fdiv_neg, Int.neg_neg]

/-- Rounding toward zero goes above rounding down if a remainder is left and the signs differ. -/
theorem fdiv_eq_ite_tdiv (hb : b ≠ 0) :
    a.fdiv b =
      if a.tmod b ≠ 0 ∧ decide (a < 0) ≠ decide (b < 0) then a.tdiv b - 1 else a.tdiv b := by
  rw [Int.fdiv_eq_tdiv]
  by_cases hdvd : b ∣ a
  · rw [if_pos hdvd, if_neg (fun h => h.1 (Int.dvd_iff_tmod_eq_zero.1 hdvd)), Int.sub_zero]
  have hmod : a.tmod b ≠ 0 := fun h => hdvd (Int.dvd_iff_tmod_eq_zero.2 h)
  rw [if_neg hdvd]
  rcases Int.lt_or_gt_of_ne hb with hneg | hpos
  · have hsign := Int.sign_eq_neg_one_of_neg hneg
    rcases Int.lt_or_le a 0 with ha | ha
    · simp [hmod, hneg, ha, hsign, Int.not_le.2 hneg, Int.not_le.2 ha]
    · simp [hmod, hneg, ha, Int.not_le.2 hneg, Int.not_lt.2 ha]
  · have hsign := Int.sign_eq_one_of_pos hpos
    rcases Int.lt_or_le a 0 with ha | ha
    · simp [hmod, hpos.le, ha, hsign, Int.not_lt.2 hpos.le, Int.not_le.2 ha]
    · simp [hmod, hpos.le, ha, Int.not_lt.2 hpos.le, Int.not_lt.2 ha]

/-- The quotient rounded down of two words is a word, but for one pair. -/
theorem fdiv_fits (ha : -2 ^ 63 ≤ a) (ha' : a < 2 ^ 63) (hb : b ≠ 0)
    (h : ¬(a = -2 ^ 63 ∧ b = -1)) : -2 ^ 63 ≤ a.fdiv b ∧ a.fdiv b < 2 ^ 63 := by
  rcases Int.lt_or_gt_of_ne hb with hneg | hpos
  · rw [← Int.neg_fdiv_neg, Int.fdiv_eq_ediv_of_nonneg _ (by omega)]
    exact ⟨Int.le_ediv_of_mul_le (by omega) (by omega), Int.ediv_lt_of_lt_mul (by omega) (by omega)⟩
  · rw [Int.fdiv_eq_ediv_of_nonneg _ hpos.le]
    exact ⟨Int.le_ediv_of_mul_le hpos (by omega), Int.ediv_lt_of_lt_mul hpos (by omega)⟩

end Numbers

/-! ## Words -/

section Words

variable {left right : Int64}

theorem floorQuotient_eq_fdiv (left right : Int64) :
    floorQuotient left right = left.toInt.fdiv right.toInt :=
  floor_div_eq_fdiv left.toInt right.toInt

theorem toInt_ne_zero (h : right ≠ 0) : right.toInt ≠ 0 := fun h0 => h (Int64.toInt_inj.1 h0)

/-- The quotient of words is that of the numbers, rounded toward zero and as a word. -/
theorem div_eq_ofInt_tdiv (left right : Int64) :
    left / right = Int64.ofInt (left.toInt.tdiv right.toInt) := by
  rw [Int64.ofInt_tdiv left.minValue_le_toInt left.toInt_le right.minValue_le_toInt right.toInt_le,
    Int64.ofInt_toInt, Int64.ofInt_toInt]

theorem overshoots_iff :
    Overshoots left right ↔ left.toInt.tmod right.toInt ≠ 0 ∧
      decide (left.toInt < 0) ≠ decide (right.toInt < 0) := by
  rw [Overshoots, ← Int64.toInt_mod, Ne, ← Int64.toInt_inj]
  simp only [Int64.lt_iff_toInt_lt]
  rfl

theorem floorDiv?_of_ne_zero (h : right ≠ 0) :
    floorDiv? left right =
      some (if Overshoots left right then left / right - 1 else left / right) := by
  rw [floorDiv?, if_neg h, apply_ite some]
  rfl

theorem floorQuotient_eq_ite (h : right ≠ 0) :
    floorQuotient left right =
      if Overshoots left right then left.toInt.tdiv right.toInt - 1
      else left.toInt.tdiv right.toInt := by
  rw [floorQuotient_eq_fdiv, fdiv_eq_ite_tdiv (toInt_ne_zero h)]
  simp only [overshoots_iff]

theorem floorDiv?_eq_ofInt (h : right ≠ 0) :
    floorDiv? left right = some (Int64.ofInt (floorQuotient left right)) := by
  rw [floorDiv?_of_ne_zero h, floorQuotient_eq_ite h, div_eq_ofInt_tdiv, apply_ite Int64.ofInt,
    Int64.ofInt_sub]
  rfl

/-- The quotient rounded down is a word for all pairs of words but one. -/
theorem toInt_ofInt_floorQuotient (h : right ≠ 0) (hpair : ¬(left = Int64.minValue ∧ right = -1)) :
    (Int64.ofInt (floorQuotient left right)).toInt = floorQuotient left right := by
  have hpair' : ¬(left.toInt = -2 ^ 63 ∧ right.toInt = -1) := fun ⟨hleft, hright⟩ =>
    hpair ⟨Int64.toInt_inj.1 hleft, Int64.toInt_inj.1 hright⟩
  rw [floorQuotient_eq_fdiv]
  obtain ⟨hlow, hhigh⟩ := fdiv_fits left.le_toInt left.toInt_lt (toInt_ne_zero h) hpair'
  exact Int64.toInt_ofInt_of_le hlow hhigh

theorem Overshoots.ne_neg_one (h : Overshoots left right) : right ≠ -1 := by
  rintro rfl
  refine (overshoots_iff.1 h).1 ?_
  rw [show (-1 : Int64).toInt = -1 from rfl, Int.tmod_neg, Int.tmod_one]

/-- Taking one away from a quotient that is too large does not wrap around. -/
theorem Overshoots.toInt_div_sub_one (h : Overshoots left right) (hright : right ≠ 0) :
    (left / right - 1).toInt = (left / right).toInt - 1 := by
  have hquotient : floorDiv? left right = _ := floorDiv?_eq_ofInt hright
  rw [floorDiv?_of_ne_zero hright, if_pos h] at hquotient
  rw [Option.some.inj hquotient, toInt_ofInt_floorQuotient hright fun hpair => h.ne_neg_one hpair.2,
    floorQuotient_eq_ite hright, if_pos h, Int64.toInt_div_of_ne_right _ _ h.ne_neg_one]

end Words

/-- Division has no result exactly for the divisor zero.  Otherwise the result is the quotient
rounded down, as a word.  Only the smallest number divided by -1 has a quotient that is no word, and
taking one away from a quotient that is too large never wraps around. -/
theorem floorDiv?_eq_floor (left right : Int64) :
    (floorDiv? left right = none ↔ right = 0) ∧
    (right ≠ 0 →
      floorDiv? left right = some (Int64.ofInt (floorQuotient left right)) ∧
      ((Int64.ofInt (floorQuotient left right)).toInt ≠ floorQuotient left right ↔
        left = Int64.minValue ∧ right = -1) ∧
      floorDiv? left right =
        some (if Overshoots left right then left / right - 1 else left / right) ∧
      (Overshoots left right → (left / right - 1).toInt = (left / right).toInt - 1)) := by
  refine ⟨⟨fun hnone => ?_, fun h => if_pos h⟩, fun h => ⟨floorDiv?_eq_ofInt h, ⟨?_, ?_⟩,
    floorDiv?_of_ne_zero h, fun hover => hover.toInt_div_sub_one h⟩⟩
  · by_contra h
    rw [floorDiv?_eq_ofInt h] at hnone
    cases hnone
  · exact fun hlost => not_not.1 fun hpair => hlost (toInt_ofInt_floorQuotient h hpair)
  · rintro ⟨rfl, rfl⟩
    rw [floorQuotient_eq_fdiv]
    decide

/-- A quotient that has to be made smaller, and the one that is no word. -/
theorem floorDiv?_rounds_and_wraps :
    floorDiv? (-7) 2 = some (-4) ∧ floorQuotient (-7) 2 = -4 ∧
      floorDiv? Int64.minValue (-1) = some Int64.minValue ∧
      floorQuotient Int64.minValue (-1) = 2 ^ 63 := by
  have hrounds := (floorDiv?_eq_floor (-7) 2).2 (by decide)
  have hwraps := (floorDiv?_eq_floor Int64.minValue (-1)).2 (by decide)
  have hfloor : floorQuotient (-7) 2 = -4 := floorQuotient_eq_fdiv (-7) 2
  have hlarge : floorQuotient Int64.minValue (-1) = 2 ^ 63 := floorQuotient_eq_fdiv _ (-1)
  rw [hfloor] at hrounds
  rw [hlarge] at hwraps
  exact ⟨hrounds.1, hfloor, hwraps.1, hlarge⟩

end Scriptlet
