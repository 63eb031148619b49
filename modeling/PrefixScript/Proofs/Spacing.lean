import Mathlib
import PrefixScript.Decimal.Shortest

/-!
# The spacing of doubles

The doubles of ascending ranks are ever further apart: a binade of them has the spacing of one unit,
the next binade too, and each one after that twice the spacing of the binade before it. So every
value has a last place, and it is rounded to a whole number of the units of that place.
-/
namespace PrefixScript.Decimal

theorem binade_eq : binade = 4503599627370496 := rfl

/-- The digits of the double of a rank, as a whole number. -/
def significand (rank : Nat) : Nat := if rank < binade then rank else binade + rank % binade

/-- The place of the last of those digits, from the units on. -/
def lastPlace (rank : Nat) : Nat := rank / binade - 1

theorem units_eq (rank : Nat) : units rank = significand rank * 2 ^ lastPlace rank := by
  unfold units significand lastPlace
  split
  · rw [Nat.div_eq_of_lt ‹_›, Nat.zero_sub, Nat.pow_zero, Nat.mul_one]
  · rw [Nat.shiftLeft_eq]

theorem significand_pos {rank : Nat} (h : 0 < rank) : 0 < significand rank := by
  unfold significand
  rw [binade_eq]
  split <;> omega

theorem significand_lt (rank : Nat) : significand rank < 2 * binade := by
  unfold significand
  rw [binade_eq]
  split <;> omega

theorem le_significand (rank : Nat) : binade ≤ significand rank ∨ lastPlace rank = 0 := by
  unfold significand lastPlace
  rw [binade_eq]
  split <;> omega

/-- A rank counts the significands of the places below its own as well. -/
theorem rank_eq (rank : Nat) : lastPlace rank * binade + significand rank = rank := by
  unfold significand lastPlace
  rw [binade_eq]
  split <;> omega

section Fields
variable {digits place : Nat}

theorem lastPlace_eq (h : digits < 2 * binade) (hn : binade ≤ digits ∨ place = 0) :
    lastPlace (place * binade + digits) = place := by
  rw [binade_eq] at h hn
  rw [lastPlace, binade_eq]
  omega

theorem significand_eq (h : digits < 2 * binade) (hn : binade ≤ digits ∨ place = 0) :
    significand (place * binade + digits) = digits := by
  rw [binade_eq] at h hn
  rw [significand, binade_eq]
  split <;> omega

/-- Every significand that is not too long is that of a rank. -/
theorem units_of_fields (h : digits < 2 * binade) (hn : binade ≤ digits ∨ place = 0) :
    units (place * binade + digits) = digits * 2 ^ place := by
  rw [units_eq, significand_eq h hn, lastPlace_eq h hn]

end Fields

/-- Up to the next double it is one unit of the last place. -/
theorem units_succ (rank : Nat) : units (rank + 1) = units rank + 2 ^ lastPlace rank := by
  unfold lastPlace
  simp only [units, binade_eq, Nat.shiftLeft_eq]
  rcases Nat.lt_trichotomy (rank + 1) 4503599627370496 with h | h | h
  · rw [if_pos h, if_pos (by omega), Nat.div_eq_of_lt (by omega), Nat.zero_sub, Nat.pow_zero]
  · obtain rfl : rank = 4503599627370495 := by omega
    decide
  · rw [if_neg (by omega), if_neg (by omega)]
    by_cases hm : rank % 4503599627370496 + 1 < 4503599627370496
    · have hdiv : (rank + 1) / 4503599627370496 = rank / 4503599627370496 := by omega
      have hmod : (rank + 1) % 4503599627370496 = rank % 4503599627370496 + 1 := by omega
      rw [hdiv, hmod, ← Nat.add_assoc, Nat.succ_mul]
    · -- the last double of a binade
      obtain ⟨k, hk⟩ : ∃ k, rank / 4503599627370496 = k + 1 :=
        ⟨rank / 4503599627370496 - 1, by omega⟩
      have hdiv : (rank + 1) / 4503599627370496 = k + 2 := by omega
      have hmod : (rank + 1) % 4503599627370496 = 0 := by omega
      have hlast : rank % 4503599627370496 = 4503599627370495 := by omega
      rw [hdiv, hmod, hk, hlast, Nat.add_sub_cancel, show k + 2 - 1 = k + 1 from rfl, Nat.pow_succ]
      omega

theorem units_strictMono : StrictMono units :=
  strictMono_nat_of_lt_succ fun rank => by
    have hpos := Nat.two_pow_pos (lastPlace rank)
    rw [units_succ]
    omega

theorem units_zero : units 0 = 0 := rfl

theorem units_pos {rank : Nat} (h : 0 < rank) : 0 < units rank := by
  have hlt := units_strictMono h
  rwa [units_zero] at hlt

/-! ## Rounding -/

/-- The whole number nearest to `num / den`, half way between two of them the even one. -/
def nearestWhole (num den : Nat) : Nat := if prefersAbove num den then num / den + 1 else num / den

theorem nearestWhole_bounds (num den : Nat) :
    num / den ≤ nearestWhole num den ∧ nearestWhole num den ≤ num / den + 1 := by
  unfold nearestWhole
  split <;> omega

theorem nearestWhole_mul {scale : Nat} (hs : 0 < scale) (num den : Nat) :
    nearestWhole (num * scale) (den * scale) = nearestWhole num den := by
  unfold nearestWhole prefersAbove
  rw [Nat.mul_div_mul_right num den hs, Nat.mul_mod_mul_right, ← Nat.mul_assoc]
  simp only [Nat.mul_lt_mul_right hs, beq_eq_decide, Nat.mul_left_inj (Nat.ne_of_gt hs)]

/-- The last place of a value. -/
def placeOf (value : Nat) : Nat := value.log2 - 52

/-- The rank to which a value is rounded, as if there were a double of each rank. -/
def roundedRank (value : Nat) : Nat :=
  placeOf value * binade + nearestWhole value (2 ^ placeOf value)

theorem quotient_pos {value : Nat} (h : 0 < value) : 0 < value / 2 ^ placeOf value := by
  have hle : 2 ^ value.log2 ≤ value := Nat.log2_self_le (Nat.ne_of_gt h)
  refine Nat.div_pos (le_trans ?_ hle) (Nat.two_pow_pos _)
  exact Nat.pow_le_pow_right (by decide) (Nat.sub_le _ _)

/-- A value has the digits of a double up to its last place. -/
theorem quotient_lt (value : Nat) : value / 2 ^ placeOf value < 2 * binade := by
  have hlt : value < 2 ^ (value.log2 + 1) := Nat.lt_log2_self
  have hb : 2 * binade = 2 ^ 53 := rfl
  rw [Nat.div_lt_iff_lt_mul (Nat.two_pow_pos _), hb, ← Nat.pow_add]
  refine lt_of_lt_of_le hlt (Nat.pow_le_pow_right (by decide) ?_)
  unfold placeOf
  omega

theorem le_quotient (value : Nat) : binade ≤ value / 2 ^ placeOf value ∨ placeOf value = 0 := by
  by_cases hl : value.log2 < 52
  · right
    unfold placeOf
    omega
  · left
    have hne : value ≠ 0 := by
      rintro rfl
      exact hl (by decide)
    have hb : binade = 2 ^ 52 := rfl
    rw [Nat.le_div_iff_mul_le (Nat.two_pow_pos _), hb, ← Nat.pow_add]
    refine le_trans (Nat.pow_le_pow_right (by decide) ?_) (Nat.log2_self_le hne)
    unfold placeOf
    omega

/-- The rank of the last double that is not above a value. -/
def floorRank (value : Nat) : Nat := placeOf value * binade + value / 2 ^ placeOf value

theorem units_floorRank (value : Nat) :
    units (floorRank value) = value / 2 ^ placeOf value * 2 ^ placeOf value :=
  units_of_fields (quotient_lt value) (le_quotient value)

theorem units_floorRank_succ (value : Nat) :
    units (floorRank value + 1) = units (floorRank value) + 2 ^ placeOf value := by
  rw [units_succ, floorRank, lastPlace_eq (quotient_lt value) (le_quotient value)]

theorem floorRank_mod_two (value : Nat) :
    floorRank value % 2 = value / 2 ^ placeOf value % 2 := by
  obtain ⟨half, hhalf⟩ : ∃ half, binade = 2 * half := ⟨2251799813685248, rfl⟩
  rw [floorRank, hhalf, Nat.mul_left_comm, Nat.add_comm, Nat.add_mul_mod_self_left]

/-- A value is rounded up if it is beyond the midpoint, or on it above a double of odd rank. -/
theorem roundedRank_eq (value : Nat) :
    roundedRank value = if prefersAbove value (2 ^ placeOf value) then floorRank value + 1
      else floorRank value := by
  rw [roundedRank, nearestWhole, floorRank]
  split
  · rw [Nat.add_assoc]
  · rfl

/-- A value is above the midpoint of two doubles, or on it and above one of odd rank, exactly if it
is rounded to a rank above the lower one's. -/
theorem isBeyond_iff (value rank : Nat) :
    isBeyond (2 * value) 1 rank = true ↔ rank < roundedRank value := by
  have hfloor := units_floorRank value
  have hsucc := units_floorRank_succ value
  have hparity := floorRank_mod_two value
  have hvalue := Nat.div_add_mod' value (2 ^ placeOf value)
  have hrest := Nat.mod_lt value (Nat.two_pow_pos (placeOf value))
  rw [roundedRank_eq]
  simp only [isBeyond, prefersAbove, Nat.mul_one, Bool.or_eq_true, decide_eq_true_eq,
    Bool.and_eq_true, beq_iff_eq]
  rcases Nat.lt_trichotomy rank (floorRank value) with h | rfl | h
  · have hbelow := units_strictMono h
    have hnext : units (rank + 1) ≤ units (floorRank value) := units_strictMono.monotone h
    split <;> omega
  · -- the midpoint above the digits of the value
    split <;> omega
  · have habove : units (floorRank value + 1) ≤ units rank := units_strictMono.monotone h
    have hnext := units_strictMono (Nat.lt_add_one rank)
    split <;> omega

/-- What half a step above a double, or below the next one, is rounded to. -/
theorem lt_roundedRank_iff (value rank : Nat) :
    rank < roundedRank value ↔ units rank + units (rank + 1) < 2 * value ∨
      units rank + units (rank + 1) = 2 * value ∧ rank % 2 = 1 := by
  rw [← isBeyond_iff]
  simp only [isBeyond, Nat.mul_one, Bool.or_eq_true, decide_eq_true_eq, Bool.and_eq_true,
    beq_iff_eq]

theorem roundedRank_mono {less more : Nat} (h : less ≤ more) :
    roundedRank less ≤ roundedRank more := by
  refine Nat.le_of_not_lt fun hlt => ?_
  have hless := (lt_roundedRank_iff less _).1 hlt
  have hmore := mt (lt_roundedRank_iff more _).2 (Nat.lt_irrefl _)
  omega

theorem roundedRank_le {value rank : Nat} (h : value ≤ units rank) : roundedRank value ≤ rank := by
  have hlt := units_strictMono (Nat.lt_add_one rank)
  rw [← Nat.not_lt, lt_roundedRank_iff]
  omega

theorem le_roundedRank {value rank : Nat} (h : units rank ≤ value) : rank ≤ roundedRank value := by
  cases rank with
  | zero => exact Nat.zero_le _
  | succ below =>
    have hlt := units_strictMono (Nat.lt_add_one below)
    rw [Nat.succ_le_iff, lt_roundedRank_iff]
    omega

/-- The value of a rank is rounded to that rank. -/
theorem roundedRank_units (rank : Nat) : roundedRank (units rank) = rank :=
  Nat.le_antisymm (roundedRank_le (Nat.le_refl _)) (le_roundedRank (Nat.le_refl _))

/-- A value less than half a step above a double is rounded to it. -/
theorem roundedRank_of_lt {value rank : Nat} (h : units rank ≤ value)
    (hlt : 2 * value < units rank + units (rank + 1)) : roundedRank value = rank := by
  refine Nat.le_antisymm ?_ (le_roundedRank h)
  rw [← Nat.not_lt, lt_roundedRank_iff]
  omega

/-- A value less than half a step below a double is rounded to it. -/
theorem roundedRank_of_gt {value rank : Nat} (h : value ≤ units (rank + 1))
    (hgt : units rank + units (rank + 1) < 2 * value) : roundedRank value = rank + 1 := by
  refine Nat.le_antisymm (roundedRank_le h) ?_
  rw [Nat.succ_le_iff, lt_roundedRank_iff]
  exact .inl hgt

/-- Half way between two doubles a value is rounded to the even one. -/
theorem roundedRank_of_eq {value rank : Nat} (h : units rank + units (rank + 1) = 2 * value) :
    roundedRank value = if rank % 2 = 1 then rank + 1 else rank := by
  have hlt := units_strictMono (Nat.lt_add_one rank)
  have hle : rank ≤ roundedRank value := le_roundedRank (by omega)
  have hge : roundedRank value ≤ rank + 1 := roundedRank_le (by omega)
  have hiff := lt_roundedRank_iff value rank
  split <;> omega

/-- Digits that are not too long are those of a double, wherever they stand. -/
theorem exists_units_eq {digits : Nat} (h : digits ≤ 2 * binade) (place : Nat) :
    ∃ rank, units rank = digits * 2 ^ place := by
  rcases Nat.lt_or_eq_of_le h with hlt | rfl
  · induction place generalizing digits with
    | zero => exact ⟨_, units_of_fields hlt (.inr rfl)⟩
    | succ place ih =>
      by_cases hn : binade ≤ digits
      · exact ⟨_, units_of_fields hlt (.inl hn)⟩
      · -- the digits are moved up by one place
        obtain ⟨rank, hrank⟩ := @ih (digits * 2) (by omega) (by omega)
        exact ⟨rank, by rw [hrank, Nat.pow_succ', Nat.mul_assoc]⟩
  · exact ⟨_, by rw [Nat.mul_comm 2, Nat.mul_assoc, ← Nat.pow_succ']
                 exact units_of_fields (by decide) (.inl (Nat.le_refl _))⟩

end PrefixScript.Decimal
