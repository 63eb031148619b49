import PrefixScript.Proofs.Increments

/-!
# Rounding to a rank

A fraction rounds to one rank only, which depends on its value alone. So decimals of equal value
read as the same double, and the shortest decimals of different doubles have different values.
-/
namespace PrefixScript.Decimal

section Fractions
variable {halves num den num' den' rank rank' scale : Nat}

theorem isBeyond_mul (hs : 0 < scale) :
    isBeyond (halves * scale) (den * scale) rank = isBeyond halves den rank := by
  unfold isBeyond
  simp only [← Nat.mul_assoc, Nat.mul_lt_mul_right hs, beq_eq_decide,
    Nat.mul_left_inj (Nat.ne_of_gt hs)]

/-- What is beyond the midpoint above a rank is beyond those below. -/
theorem isBeyond_of_le (hd : 0 < den) (hr : rank ≤ rank')
    (h : isBeyond halves den rank' = true) : isBeyond halves den rank = true := by
  rcases Nat.lt_or_eq_of_le hr with hlt | rfl
  · have hmiddle : units rank + units (rank + 1) < units rank' + units (rank' + 1) := by
      have hlow := units_strictMono hlt
      have hhigh : units (rank + 1) ≤ units (rank' + 1) :=
        units_strictMono.monotone (Nat.succ_le_succ hr)
      omega
    have hscaled := Nat.mul_lt_mul_of_pos_right hmiddle hd
    simp only [isBeyond, Bool.or_eq_true, decide_eq_true_eq, Bool.and_eq_true, beq_iff_eq] at h ⊢
    omega
  · exact h

theorem roundsTo_iff : roundsTo num den rank = true ↔ roundsAbove num den rank = false ∧
    (rank = 0 ∨ roundsAbove num den (rank - 1) = true) := by
  rw [roundsTo, Bool.and_eq_true, Bool.not_eq_true', Bool.or_eq_true, beq_iff_eq]

/-- A fraction rounds to one rank only. -/
theorem roundsTo_unique (hd : 0 < den) (h : roundsTo num den rank = true)
    (h' : roundsTo num den rank' = true) : rank = rank' := by
  have hle {low high : Nat} (hl : roundsTo num den low = true)
      (hh : roundsTo num den high = true) : high ≤ low := by
    refine Nat.le_of_not_lt fun hlt => ?_
    obtain ⟨hlow, -⟩ := roundsTo_iff.1 hl
    obtain ⟨-, hz | hhigh⟩ := roundsTo_iff.1 hh
    · omega
    · have habove := isBeyond_of_le hd (Nat.le_sub_one_of_lt hlt) hhigh
      rw [roundsAbove, habove] at hlow
      cases hlow
  exact Nat.le_antisymm (hle h' h) (hle h h')

/-- Fractions of equal value round alike. -/
theorem roundsTo_congr (hd : 0 < den) (hd' : 0 < den') (h : num * den' = num' * den)
    (rank : Nat) : roundsTo num den rank = roundsTo num' den' rank := by
  have habove (rank : Nat) : roundsAbove num den rank = roundsAbove num' den' rank := by
    have hnum : 2 * num * one * den' = 2 * num' * one * den := by
      rw [Nat.mul_right_comm, Nat.mul_assoc 2, h, ← Nat.mul_assoc, Nat.mul_right_comm]
    unfold roundsAbove
    rw [← isBeyond_mul hd', hnum, Nat.mul_comm den, isBeyond_mul hd]
  unfold roundsTo
  rw [habove, habove]

end Fractions

/-! ## Decimals -/

namespace Scaled
variable {d e : Scaled} {rank rank' : Nat}

/-- The value of a decimal. -/
def value (d : Scaled) : ℚ := d.coefficient * (10 : ℚ) ^ d.exponent

theorem den_pos (d : Scaled) : 0 < d.den := Nat.pow_pos (by decide)

theorem num_eq (d : Scaled) : (d.num : ℚ) = d.value * d.den := by
  have hten : (10 : ℚ) ≠ 0 := by decide
  rw [num, den, value, Nat.pow_eq, Nat.pow_eq, mul_assoc]
  push_cast
  rw [← zpow_natCast, ← zpow_natCast, ← zpow_add₀ hten]
  congr 2
  omega

theorem num_mul_den (h : d.value = e.value) : d.num * e.den = e.num * d.den := by
  have hcast : (d.num : ℚ) * e.den = e.num * d.den := by
    rw [num_eq, num_eq, h, mul_right_comm]
  exact_mod_cast hcast

/-- Decimals of equal value read as the same double. -/
theorem readsAs_congr (h : d.value = e.value) (rank : Nat) : d.readsAs rank = e.readsAs rank :=
  roundsTo_congr d.den_pos e.den_pos (num_mul_den h) rank

theorem readsAs_unique (h : d.readsAs rank = true) (h' : d.readsAs rank' = true) : rank = rank' :=
  roundsTo_unique d.den_pos h h'

/-- The value of a double reads as this double. -/
theorem readsAs_of_value (h : d.num * one = units rank * d.den) : d.readsAs rank = true := by
  have habove (other : Nat) : roundsAbove (units rank) one other = true ↔ other < rank := by
    have hscaled := @isBeyond_mul (2 * units rank) 1 other one one_pos
    rw [Nat.one_mul] at hscaled
    rw [roundsAbove, hscaled, isBeyond_iff, roundedRank_units]
  rw [readsAs, roundsTo_congr d.den_pos one_pos h, roundsTo_iff, Bool.eq_false_iff, ne_eq, habove,
    habove]
  omega

theorem coefficient_pos (hr : 0 < rank) (h : d.readsAs rank = true) : 0 < d.coefficient := by
  refine Nat.pos_of_ne_zero fun hz => ?_
  have hnum : d.num = 0 := by rw [num, hz, Nat.zero_mul]
  have hmiddle : 0 < (units (rank - 1) + units (rank - 1 + 1)) * d.den :=
    Nat.mul_pos (Nat.add_pos_right _ (units_pos (Nat.succ_pos _))) d.den_pos
  obtain ⟨-, hzero | habove⟩ := roundsTo_iff.1 h
  · omega
  · rw [roundsAbove, hnum, isBeyond] at habove
    simp only [Nat.mul_zero, Nat.zero_mul, Bool.or_eq_true, decide_eq_true_eq, Bool.and_eq_true,
      beq_iff_eq] at habove
    omega

end Scaled

section Exact
variable {places : Nat}

theorem exact_num (h : 1074 = places) (rank : Nat) :
    (exact rank).num = units rank * 5 ^ places := by
  delta exact
  rw [Scaled.num, h, Nat.pow_eq, show (-1074 : Int).toNat = 0 from rfl]
  exact Nat.mul_one _

theorem exact_den (h : 1074 = places) (rank : Nat) : (exact rank).den = 10 ^ places := by
  have hexponent : (-(exact rank).exponent).toNat = places := by
    rw [← h]
    rfl
  rw [Scaled.den, hexponent, Nat.pow_eq]

theorem exact_num_mul_one (rank : Nat) :
    (exact rank).num * one = units rank * (exact rank).den := by
  obtain ⟨places, hplaces⟩ : ∃ places, 1074 = places := ⟨_, rfl⟩
  rw [exact_num hplaces, exact_den hplaces, one_eq hplaces, Nat.mul_assoc, ← Nat.mul_pow]

theorem exact_readsAs (rank : Nat) : (exact rank).readsAs rank = true :=
  Scaled.readsAs_of_value (exact_num_mul_one rank)

end Exact

theorem Scaled.fits_of_choose? {fits : Scaled → Bool} {below above d : Scaled} {better : Bool}
    (h : choose? fits below above better = some d) : fits d = true := by
  unfold choose? at h
  split at h
  case h_1 hbelow habove =>
    cases h
    split
    · exact habove
    · exact hbelow
  case h_2 hbelow habove =>
    cases h
    exact hbelow
  case h_3 hbelow habove =>
    cases h
    exact habove
  case h_4 => cases h

theorem ofLength?_readsAs {rank count : Nat} {magnitude : Int} {d : Scaled}
    (h : ofLength? rank magnitude count = some d) : d.readsAs rank = true := by
  delta ofLength? at h
  exact @Scaled.fits_of_choose? (·.readsAs rank) _ _ _ _ h

/-- The shortest decimal of a double reads as this double. -/
theorem shortest_readsAs (rank : Nat) : (shortest rank).readsAs rank = true := by
  unfold shortest
  cases hfound : (List.range' 1 17).findSome? (ofLength? rank (magnitude rank)) with
  | none => exact exact_readsAs rank
  | some d =>
    obtain ⟨count, -, hcount⟩ := List.exists_of_findSome?_eq_some hfound
    exact ofLength?_readsAs hcount

end PrefixScript.Decimal
