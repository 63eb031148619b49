import PrefixScript.Proofs.Doubles

/-!
# Sums of doubles

The sum of two finite doubles is the double nearest to the sum of their values. Digits are shifted
to the last place of the exact value, where a shift remembers how much was lost; rounding there may
carry into a longer significand, which is shifted once more.
-/
namespace PrefixScript.Decimal
open Float.Model (Format UnpackedFloat)
open Float.Model.UnpackedFloat

/-! ## Shifts -/

/-- What is shifted out of a significand is more or less than a half, or exactly that. -/
def Shifted (em : ExtendedMantissa) (num den : Nat) : Prop :=
  em.mantissa = num / den ∧
    (em.roundBit = true ↔ den ≤ 2 * (num % den)) ∧
    (em.stickyBit = true ↔ 2 * (num % den) ≠ 0 ∧ 2 * (num % den) ≠ den)

theorem Shifted.roundedMantissa {em : ExtendedMantissa} {num den : Nat}
    (h : Shifted em num den) : em.roundedMantissa = nearestWhole num den := by
  obtain ⟨m, r, s⟩ := em
  obtain ⟨rfl, hr, hs⟩ := h
  simp only at hr hs
  unfold nearestWhole prefersAbove
  cases r <;> cases s <;>
    simp only [ExtendedMantissa.roundedMantissa, ExtendedMantissa.accuracy,
      Accuracy.roundToNearestEven, Bool.or_eq_true, decide_eq_true_eq, Bool.and_eq_true, beq_iff_eq,
      Bool.false_eq_true, false_iff, true_iff] at *
  all_goals split <;> omega

theorem Shifted.shiftRightOne {em : ExtendedMantissa} {num den : Nat}
    (h : Shifted em num den) (hd : 0 < den) : Shifted em.shiftRightOne num (den * 2) := by
  obtain ⟨m, r, s⟩ := em
  obtain ⟨rfl, hr, hs⟩ := h
  have hlt := Nat.mod_lt num hd
  have hmod : num % (den * 2) = num % den + den * (num / den % 2) := Nat.mod_mul
  simp only [Shifted, ExtendedMantissa.shiftRightOne, Nat.div_div_eq_div_mul, hmod, true_and,
    Bool.or_eq_true, bne_iff_ne, hr, hs]
  rcases Nat.mod_two_eq_zero_or_one (num / den) with h2 | h2 <;> rw [h2] <;> omega

theorem shifted_shiftRight (num count : Nat) :
    Shifted (ExtendedMantissa.ofMantissaAndAccuracy num .exact >>> count) num (2 ^ count) := by
  induction count with
  | zero =>
    change Shifted ⟨num, false, false⟩ num 1
    simp [Shifted, Nat.mod_one]
  | succ count ih =>
    exact ih.shiftRightOne (Nat.two_pow_pos count)

/-! ## Rounding -/

theorem log2_mul_two_pow {num : Nat} (h : 0 < num) (count : Nat) :
    (num * 2 ^ count).log2 = num.log2 + count := by
  have hle : 2 ^ num.log2 ≤ num := Nat.log2_self_le (Nat.ne_of_gt h)
  have hlt : num < 2 ^ (num.log2 + 1) := Nat.lt_log2_self
  rw [Nat.log2_eq_iff (Nat.ne_of_gt (Nat.mul_pos h (Nat.two_pow_pos count))), Nat.pow_add,
    Nat.add_right_comm, Nat.pow_add]
  exact ⟨Nat.mul_le_mul_right _ hle, Nat.mul_lt_mul_of_pos_right hlt (Nat.two_pow_pos count)⟩

/-- The place to which a significand is rounded, for a number of units of `num * 2 ^ low`. -/
theorem targetExponent_eq (num low : Nat) :
    Format.binary64.targetExponent (Float.Model.totalExponent num (low - 1074)) =
      ((num.log2 + low - 52 : Nat) : Int) - 1074 := by
  simp only [Format.targetExponent, Float.Model.totalExponent, Format.mantissaBits,
    Format.minExponent]
  omega

theorem shiftToTargetExponent_eq (num low : Nat) :
    shiftToTargetExponent .binary64 num (low - 1074) .exact =
      (ExtendedMantissa.ofMantissaAndAccuracy num .exact >>> (num.log2 + low - 52 - low),
        ((max low (num.log2 + low - 52) : Nat) : Int) - 1074) := by
  rw [shiftToTargetExponent, targetExponent_eq, shiftToExponent]
  have hs : (((num.log2 + low - 52 : Nat) : Int) - 1074 - (low - 1074)).toNat =
      num.log2 + low - 52 - low := by omega
  rw [hs]
  refine Prod.ext rfl ?_
  change ((low : Int) - 1074) + _ = _
  omega

/-- Digits that were rounded up to the next power of two are one place longer. -/
theorem carry {digits place : Nat} (hpos : 0 < digits) (h : digits ≤ 2 * binade)
    (hn : binade ≤ digits ∨ place = 0) :
    ∃ digits' place' : Nat, shiftToTargetExponent .binary64 digits (place - 1074) .exact =
        (⟨digits', false, false⟩, (place' : Int) - 1074) ∧
      0 < digits' ∧ digits' < 2 * binade ∧ (binade ≤ digits' ∨ place' = 0) ∧
      place' * binade + digits' = place * binade + digits := by
  rw [shiftToTargetExponent_eq]
  have hb : 2 * binade = 2 ^ 53 := rfl
  rcases Nat.lt_or_eq_of_le h with hlt | rfl
  · have hlog : digits.log2 < 53 := (Nat.log2_lt (Nat.ne_of_gt hpos)).2 (hb ▸ hlt)
    refine ⟨digits, place, ?_, hpos, hlt, hn, rfl⟩
    rw [show digits.log2 + place - 52 - place = 0 by omega,
      show max place (digits.log2 + place - 52) = place by omega]
    rfl
  · refine ⟨binade, place + 1, ?_, by decide, by decide, .inl (Nat.le_refl _), ?_⟩
    · rw [hb, Nat.log2_two_pow, show 53 + place - 52 - place = 1 by omega,
        show max place (53 + place - 52) = place + 1 by omega]
      rfl
    · rw [Nat.succ_mul]
      omega

/-- A significand is made longer as far as it can be, and then rounded. -/
theorem round_eq (s : Sign) (num low : Nat) :
    UnpackedFloat.round .binary64 s num (low - 1074) =
      roundWithAccuracy .binary64 s (num * 2 ^ (low - (num.log2 + low - 52)))
        ((min low (num.log2 + low - 52) : Nat) - 1074) .exact := by
  rw [UnpackedFloat.round, targetExponent_eq, decreaseExponent, Nat.shiftLeft_eq]
  simp only [show ((low : Int) - 1074 - ((num.log2 + low - 52 : Nat) - 1074)).toNat =
    low - (num.log2 + low - 52) by omega]
  congr 1
  omega

/-- Making a significand longer does not change how it is rounded. -/
theorem roundedMantissa_eq (num low place : Nat) :
    (ExtendedMantissa.ofMantissaAndAccuracy (num * 2 ^ (low - place)) .exact >>>
      (place - min low place)).roundedMantissa = nearestWhole (num * 2 ^ low) (2 ^ place) := by
  have hvalue : num * 2 ^ low = num * 2 ^ (low - place) * 2 ^ min low place := by
    rw [Nat.mul_assoc, ← Nat.pow_add]
    congr 2
    omega
  have hden : 2 ^ place = 2 ^ (place - min low place) * 2 ^ min low place := by
    rw [← Nat.pow_add]
    congr 1
    omega
  rw [(shifted_shiftRight _ _).roundedMantissa, hvalue, hden, nearestWhole_mul (Nat.two_pow_pos _)]

/-- Digits are rounded in the last place of their value. -/
theorem rank_of_round {y : Float} {s : Sign} {num low : Nat} (hnum : 0 < num)
    (hy : y.toModel = Float.Model.pack (UnpackedFloat.round .binary64 s num (low - 1074))) :
    rankOf y = min (roundedRank (num * 2 ^ low)) infinityRank ∧
      isNegative y = (s == .negative) := by
  obtain ⟨place, hplace⟩ : ∃ place, place = num.log2 + low - 52 := ⟨_, rfl⟩
  have hplaceOf : placeOf (num * 2 ^ low) = place := by
    rw [placeOf, log2_mul_two_pow hnum, hplace]
  have hlonger : (num * 2 ^ (low - place)).log2 + min low place - 52 = place := by
    rw [log2_mul_two_pow hnum]
    omega
  have hquotient := quotient_pos (Nat.mul_pos hnum (Nat.two_pow_pos low))
  have hlt := quotient_lt (num * 2 ^ low)
  have hle := le_quotient (num * 2 ^ low)
  have hnearest := nearestWhole_bounds (num * 2 ^ low) (2 ^ place)
  rw [hplaceOf] at hquotient hlt hle
  obtain ⟨digits, place', hcarry, hpos, hdigits, hn, hsum⟩ :=
    @carry (nearestWhole (num * 2 ^ low) (2 ^ place)) place (by omega) (by omega) (by omega)
  rw [round_eq, ← hplace, roundWithAccuracy, shiftToTargetExponent_eq, hlonger] at hy
  simp only [roundedMantissa_eq, show max (min low place) place = place by omega, hcarry] at hy
  rw [dif_neg (by omega)] at hy
  rw [roundedRank, hplaceOf, ← hsum]
  exact rank_of_pack hy hdigits hn

/-! ## Addition -/

section Addition
variable {x y : Float}

/-- The double of some signed digits in their place, however many there are. -/
theorem rank_of_normalize {z : Float} {digits : Int} {low : Nat}
    (hz : z.toModel =
      Float.Model.pack (UnpackedFloat.normalize .binary64 digits (low - 1074) .positive)) :
    rankOf z = min (roundedRank (digits * 2 ^ low).natAbs) infinityRank ∧
      (digits * 2 ^ low ≠ 0 → isNegative z = decide (digits * 2 ^ low < 0)) := by
  have hscale : (0 : Int) < 2 ^ low := Int.pow_pos (by decide)
  have habs : (digits * 2 ^ low).natAbs = digits.natAbs * 2 ^ low := by
    rw [Int.natAbs_mul, Int.natAbs_pow]
    rfl
  rw [UnpackedFloat.normalize] at hz
  rcases lt_trichotomy digits 0 with h | rfl | h
  · rw [compare_lt_iff_lt.2 h] at hz
    obtain ⟨hr, hs⟩ := rank_of_round (by omega) hz
    rw [show (-digits).toNat = digits.natAbs by omega, ← habs] at hr
    exact ⟨hr, fun _ => by rw [hs, decide_eq_true (Int.mul_neg_of_neg_of_pos h hscale)]; rfl⟩
  · rw [compare_eq_iff_eq.2 rfl] at hz
    rw [(rank_of_pack_zero hz).1, Int.zero_mul]
    exact ⟨rfl, fun hne => absurd rfl hne⟩
  · rw [compare_gt_iff_gt.2 h] at hz
    obtain ⟨hr, hs⟩ := rank_of_round (by omega) hz
    rw [show digits.toNat = digits.natAbs by omega, ← habs] at hr
    have hpos := Int.mul_pos h hscale
    exact ⟨hr, fun _ => by rw [hs, decide_eq_false (by omega)]; rfl⟩

/-- The value of a double by its digits, from any place on that is not above the last one. -/
theorem signedUnits_eq {low : Nat} (h : low ≤ lastPlace (rankOf x)) :
    signedUnits x = (signOf x).apply
      (significand (rankOf x) <<< (lastPlace (rankOf x) - low) : Nat) * 2 ^ low := by
  have hunits : units (rankOf x) =
      significand (rankOf x) <<< (lastPlace (rankOf x) - low) * 2 ^ low := by
    rw [units_eq, Nat.shiftLeft_eq, Nat.mul_assoc, ← Nat.pow_add, Nat.sub_add_cancel h]
  unfold signedUnits signOf
  rw [hunits]
  push_cast
  cases isNegative x
  · rfl
  · exact (Int.neg_mul _ _).symm

theorem signedUnits_neg_iff (h : 0 < rankOf x) : signedUnits x < 0 ↔ isNegative x = true := by
  have hpos := units_pos h
  unfold signedUnits
  split
  · exact ⟨fun _ => ‹_›, fun _ => by omega⟩
  · exact ⟨fun hneg => by omega, fun hs => absurd hs ‹_›⟩

theorem roundedRank_natAbs (hx : IsFinite x) :
    min (roundedRank (signedUnits x).natAbs) infinityRank = rankOf x := by
  rw [natAbs_signedUnits, roundedRank_units]
  exact Nat.min_eq_left (Nat.le_of_lt hx)

/-- The sum of two finite doubles is the double nearest to the sum of their values. -/
theorem rank_of_add (hx : IsFinite x) (hy : IsFinite y) :
    rankOf (x + y) = min (roundedRank (signedUnits x + signedUnits y).natAbs) infinityRank ∧
      (signedUnits x + signedUnits y ≠ 0 →
        isNegative (x + y) = decide (signedUnits x + signedUnits y < 0)) := by
  have hsum : (x + y).toModel =
      Float.Model.pack (UnpackedFloat.add .binary64 x.toModel.unpack y.toModel.unpack) := rfl
  rcases Nat.eq_zero_or_pos (rankOf x) with hx0 | hx0 <;>
    rcases Nat.eq_zero_or_pos (rankOf y) with hy0 | hy0
  · rw [unpack_zero hx0, unpack_zero hy0] at hsum
    rw [signedUnits_of_zero hx0, signedUnits_of_zero hy0]
    have hzero : ∃ s, (x + y).toModel = Float.Model.pack (.zero s) := by
      rw [hsum]
      unfold UnpackedFloat.add
      simp only
      split
      · exact ⟨_, rfl⟩
      · exact ⟨_, rfl⟩
    obtain ⟨s, hs⟩ := hzero
    rw [(rank_of_pack_zero hs).1]
    exact ⟨rfl, fun hne => absurd rfl hne⟩
  · rw [unpack_zero hx0, unpack_finite hy0 hy] at hsum
    obtain ⟨hr, hs⟩ := rank_of_pack_finite hy hsum
    rw [signOf_beq] at hs
    rw [signedUnits_of_zero hx0, Int.zero_add, roundedRank_natAbs hy, hs]
    refine ⟨hr, fun _ => ?_⟩
    rw [Bool.eq_iff_iff, decide_eq_true_iff, signedUnits_neg_iff hy0]
  · rw [unpack_zero hy0, unpack_finite hx0 hx] at hsum
    obtain ⟨hr, hs⟩ := rank_of_pack_finite hx hsum
    rw [signOf_beq] at hs
    rw [signedUnits_of_zero hy0, Int.add_zero, roundedRank_natAbs hx, hs]
    refine ⟨hr, fun _ => ?_⟩
    rw [Bool.eq_iff_iff, decide_eq_true_iff, signedUnits_neg_iff hx0]
  · obtain ⟨low, hlow⟩ : ∃ low, low = min (lastPlace (rankOf x)) (lastPlace (rankOf y)) := ⟨_, rfl⟩
    have hmin : min ((lastPlace (rankOf x) : Int) - 1074) (lastPlace (rankOf y) - 1074) =
        low - 1074 := by omega
    have hshift (place : Nat) : ((place : Int) - 1074 - (low - 1074)).toNat = place - low := by
      omega
    rw [unpack_finite hx0 hx, unpack_finite hy0 hy, UnpackedFloat.add] at hsum
    simp only [hmin, decreaseExponent, hshift] at hsum
    have hlx : low ≤ lastPlace (rankOf x) := by omega
    have hly : low ≤ lastPlace (rankOf y) := by omega
    rw [signedUnits_eq hlx, signedUnits_eq hly, ← Int.add_mul]
    exact rank_of_normalize hsum

end Addition

/-! ## Nearest values -/

/-- The value to which a value is rounded, as if there were no largest double. -/
def nearestUnits (value : Int) : Int :=
  if value < 0 then -(units (roundedRank value.natAbs) : Int) else units (roundedRank value.natAbs)

theorem nearestUnits_mono {less more : Int} (h : less ≤ more) :
    nearestUnits less ≤ nearestUnits more := by
  unfold nearestUnits
  split <;> split
  · have hm := units_strictMono.monotone (roundedRank_mono (by omega : more.natAbs ≤ less.natAbs))
    omega
  · omega
  · omega
  · have hm := units_strictMono.monotone (roundedRank_mono (by omega : less.natAbs ≤ more.natAbs))
    omega

/-- The values of doubles are kept. -/
theorem nearestUnits_of_natAbs {value : Int} {rank : Nat} (h : value.natAbs = units rank) :
    nearestUnits value = value := by
  unfold nearestUnits
  rw [h, roundedRank_units, ← h]
  split <;> omega

theorem nearestUnits_signedUnits (x : Float) : nearestUnits (signedUnits x) = signedUnits x :=
  nearestUnits_of_natAbs (natAbs_signedUnits x)

/-- A sum that is not rounded to infinity is rounded to the nearest value. -/
theorem signedUnits_add {x y : Float} (hx : IsFinite x) (hy : IsFinite y)
    (h : roundedRank (signedUnits x + signedUnits y).natAbs < infinityRank) :
    IsFinite (x + y) ∧ signedUnits (x + y) = nearestUnits (signedUnits x + signedUnits y) := by
  obtain ⟨hr, hs⟩ := rank_of_add hx hy
  rw [Nat.min_eq_left (Nat.le_of_lt h)] at hr
  constructor
  · rwa [IsFinite, hr]
  · rcases eq_or_ne (signedUnits x + signedUnits y) 0 with hz | hne
    · rw [hz] at hr ⊢
      exact signedUnits_of_zero hr
    · rw [signedUnits, nearestUnits, hs hne, hr]
      simp only [decide_eq_true_eq]

end PrefixScript.Decimal
