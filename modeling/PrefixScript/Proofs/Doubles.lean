import PrefixScript.Proofs.Spacing

/-!
# Doubles

A double is its sign and its rank. The two fields of its bits are those of the rank, so they hold
the digits and the last place, and doubles are compared as their values are.
-/
namespace PrefixScript.Decimal
open Float.Model (Format UnpackedFloat)
open Float.Model.UnpackedFloat

theorem infinityRank_eq : infinityRank = 9218868437227405312 := rfl

theorem signBit_eq : signBit = 9223372036854775808 := rfl

/-- Whether a double is finite. -/
def IsFinite (x : Float) : Prop := rankOf x < infinityRank

instance (x : Float) : Decidable (IsFinite x) :=
  inferInstanceAs (Decidable (rankOf x < infinityRank))

/-- The value of a finite double, in units. -/
def signedUnits (x : Float) : Int :=
  if isNegative x then -(units (rankOf x) : Int) else units (rankOf x)

theorem natAbs_signedUnits (x : Float) : (signedUnits x).natAbs = units (rankOf x) := by
  unfold signedUnits
  split <;> simp

theorem eq_of_rankOf_eq {x y : Float} (hs : isNegative x = isNegative y)
    (hr : rankOf x = rankOf y) : x = y := by
  have hx := x.toBits.toNat_lt
  have hy := y.toBits.toNat_lt
  unfold isNegative at hs
  unfold rankOf at hr
  rw [signBit_eq] at hs hr
  rw [← Float.toBits_inj, ← UInt64.toNat_inj]
  have hs' : 9223372036854775808 ≤ x.toBits.toNat ↔ 9223372036854775808 ≤ y.toBits.toNat := by
    simpa using hs
  omega

/-! ## Fields -/

section Fields

theorem toNat_unpackMantissa (bits : BitVec Format.binary64.numBits) :
    (unpackMantissa bits).toNat = bits.toNat % 4503599627370496 := by
  rw [unpackMantissa_def, BitVec.extractLsb'_toNat]
  rfl

theorem toNat_unpackExponent (bits : BitVec Format.binary64.numBits) :
    (unpackExponent bits).toNat = bits.toNat / 4503599627370496 % 2048 := by
  rw [unpackExponent_def, BitVec.extractLsb'_toNat, Nat.shiftRight_eq_div_pow]
  rfl

theorem toNat_unpackSign (bits : BitVec Format.binary64.numBits) :
    (unpackSign bits).toNat = bits.toNat / 9223372036854775808 := by
  have hlt : bits.toNat < 18446744073709551616 := bits.isLt
  rw [unpackSign_def, BitVec.extractLsb'_toNat, Nat.shiftRight_eq_div_pow]
  change bits.toNat / 9223372036854775808 % 2 = bits.toNat / 9223372036854775808
  omega

theorem toNat_packComponents (s : Sign) (exponent : BitVec 11) (mantissa : BitVec 52) :
    (packComponents .binary64 s exponent mantissa).toNat =
      (s.toBitVec.toNat * 2048 + exponent.toNat) * 4503599627370496 + mantissa.toNat := by
  have happend : (packComponents .binary64 s exponent mantissa).toNat =
      (s.toBitVec ++ exponent ++ mantissa).toNat := rfl
  rw [happend, BitVec.toNat_append, ← Nat.shiftLeft_add_eq_or_of_lt mantissa.isLt,
    BitVec.toNat_append, ← Nat.shiftLeft_add_eq_or_of_lt exponent.isLt, Nat.shiftLeft_eq,
    Nat.shiftLeft_eq]

variable (x : Float)

/-- The sign of a double. -/
def signOf (x : Float) : Sign := if isNegative x then .negative else .positive

theorem signOf_beq (x : Float) : (signOf x == .negative) = isNegative x := by
  unfold signOf
  cases isNegative x <;> rfl

theorem sign_field : Sign.ofBitVec (@unpackSign .binary64 x.toModel.toBits.toBitVec) =
    signOf x := by
  have h : _ = x.toBits.toNat / _ := toNat_unpackSign x.toModel.toBits.toBitVec
  have hlt := x.toBits.toNat_lt
  unfold Sign.ofBitVec signOf isNegative
  rw [signBit_eq]
  by_cases hs : 9223372036854775808 ≤ x.toBits.toNat
  · rw [if_neg, if_pos (decide_eq_true hs)]
    intro hz
    rw [hz, BitVec.toNat_ofNat] at h
    omega
  · rw [if_pos, if_neg (by simpa using hs)]
    apply BitVec.eq_of_toNat_eq
    rw [h, BitVec.toNat_ofNat]
    omega

theorem exponent_field : (@unpackExponent .binary64 x.toModel.toBits.toBitVec).toNat =
    rankOf x / 4503599627370496 := by
  rw [toNat_unpackExponent]
  change x.toBits.toNat / _ % _ = x.toBits.toNat % 9223372036854775808 / _
  omega

theorem mantissa_field : (@unpackMantissa .binary64 x.toModel.toBits.toBitVec).toNat =
    rankOf x % 4503599627370496 := by
  rw [toNat_unpackMantissa]
  change x.toBits.toNat % _ = x.toBits.toNat % 9223372036854775808 % _
  omega

end Fields

/-! ## The form in which doubles are computed with -/

section Unpacking
variable {x : Float}

theorem exponent_field_ne (h : IsFinite x) :
    @unpackExponent .binary64 x.toModel.toBits.toBitVec ≠ -1#11 := by
  intro he
  have hfield := exponent_field x
  rw [he] at hfield
  change 2047 = _ at hfield
  unfold IsFinite at h
  rw [infinityRank_eq] at h
  omega

/-- The exponent field is zero in the lowest binade. -/
theorem exponent_field_eq_zero :
    @unpackExponent .binary64 x.toModel.toBits.toBitVec = 0#11 ↔
      rankOf x < 4503599627370496 := by
  have hfield := exponent_field x
  constructor
  · intro he
    rw [he] at hfield
    change 0 = _ at hfield
    omega
  · intro hlow
    apply BitVec.eq_of_toNat_eq
    rw [hfield, Nat.div_eq_of_lt hlow]
    rfl

theorem unpack_zero (h : rankOf x = 0) : x.toModel.unpack = .zero (signOf x) := by
  have hfinite : IsFinite x := by
    unfold IsFinite
    rw [h]
    decide
  have hmantissa : @unpackMantissa .binary64 x.toModel.toBits.toBitVec = 0#52 := by
    apply BitVec.eq_of_toNat_eq
    rw [mantissa_field, h]
    rfl
  rw [Float.Model.unpack, unpack]
  simp only [if_neg (exponent_field_ne hfinite), sign_field]
  rw [if_pos (exponent_field_eq_zero.2 (by omega)), dif_pos hmantissa]

theorem unpack_finite (hpos : 0 < rankOf x) (h : IsFinite x) :
    x.toModel.unpack = .finite (signOf x) (significand (rankOf x))
      (lastPlace (rankOf x) - 1074) (significand_pos hpos) := by
  have hexponent := exponent_field x
  have hmantissa := mantissa_field x
  rw [Float.Model.unpack, unpack]
  simp only [if_neg (exponent_field_ne h), sign_field]
  by_cases hz : @unpackExponent .binary64 x.toModel.toBits.toBitVec = 0#11
  · have hlow := exponent_field_eq_zero.1 hz
    have hne : @unpackMantissa .binary64 x.toModel.toBits.toBitVec ≠ 0#52 := by
      intro hm
      rw [hm] at hmantissa
      change 0 = _ at hmantissa
      omega
    rw [if_pos hz, dif_neg hne]
    congr 1
    · rw [hmantissa, significand, binade_eq, if_pos hlow, Nat.mod_eq_of_lt hlow]
    · rw [hz, lastPlace, binade_eq, Nat.div_eq_of_lt hlow]
      rfl
  · have hhigh : ¬ rankOf x < 4503599627370496 := fun hlow => hz (exponent_field_eq_zero.2 hlow)
    rw [if_neg hz]
    congr 1
    · rw [BitVec.toNat_append, ← Nat.shiftLeft_add_eq_or_of_lt (BitVec.isLt _), hmantissa,
        significand, binade_eq, if_neg hhigh]
      rfl
    · rw [hexponent, lastPlace, binade_eq]
      change _ - ((1023 : Int) + 52) = _
      omega

end Unpacking

section Packing
variable {y : Float} {s : Sign}

/-- The double of a sign and the two fields. -/
theorem fields_of_packComponents {exponent : BitVec 11} {mantissa : BitVec 52}
    (h : y.toModel.toBits.toBitVec = packComponents .binary64 s exponent mantissa) :
    rankOf y = exponent.toNat * 4503599627370496 + mantissa.toNat ∧
      isNegative y = (s == .negative) := by
  have hexponent := exponent.isLt
  have hmantissa := mantissa.isLt
  have hbits : y.toBits.toNat = _ := congrArg BitVec.toNat h
  rw [toNat_packComponents] at hbits
  unfold rankOf isNegative
  rw [hbits, signBit_eq]
  cases s with
  | negative =>
    rw [show Sign.negative.toBitVec.toNat = 1 from rfl]
    constructor
    · omega
    · rw [show (Sign.negative == Sign.negative) = true from rfl, decide_eq_true_eq]
      omega
  | positive =>
    rw [show Sign.positive.toBitVec.toNat = 0 from rfl]
    constructor
    · omega
    · rw [show (Sign.positive == Sign.negative) = false from rfl, decide_eq_false_iff_not]
      omega

/-- The double of some digits in their place. From the rank of infinity on it is that. -/
theorem rank_of_pack {digits place : Nat} {hpos : 0 < digits}
    (hy : y.toModel = Float.Model.pack (.finite s digits (place - 1074) hpos))
    (hlt : digits < 2 * binade) (hn : binade ≤ digits ∨ place = 0) :
    rankOf y = min (place * binade + digits) infinityRank ∧ isNegative y = (s == .negative) := by
  rw [binade_eq] at *
  have hbits : y.toModel.toBits.toBitVec =
      pack .binary64 (.finite s digits (place - 1074) hpos) := by
    rw [hy]
    rfl
  have hexponent : ((place : Int) - 1074 + Format.binary64.exponentBias +
      Format.binary64.mantissaBitsWithoutImplicit).toNat = place + 1 := by
    change ((place : Int) - 1074 + 1023 + 52).toNat = place + 1
    omega
  simp only [pack, hexponent] at hbits
  change y.toModel.toBits.toBitVec =
    if 2048 ≤ place + 1 + 1 then _ else if digits.log2 + 1 = 53 then _ else _ at hbits
  split at hbits
  case isTrue hbig =>
    obtain ⟨hr, hs⟩ := fields_of_packComponents hbits
    refine ⟨?_, hs⟩
    rw [hr, infinityRank_eq]
    change 2047 * _ + 0 = _
    omega
  case isFalse hsmall =>
    split at hbits
    case isTrue hlog =>
      obtain ⟨hr, hs⟩ := fields_of_packComponents hbits
      refine ⟨?_, hs⟩
      have hnormal : 2 ^ 52 ≤ digits := (Nat.le_log2 (by omega)).1 (by omega)
      rw [hr, infinityRank_eq, BitVec.toNat_ofNat, BitVec.toNat_ofNat]
      omega
    case isFalse hlog =>
      obtain ⟨hr, hs⟩ := fields_of_packComponents hbits
      refine ⟨?_, hs⟩
      have hshort : digits < 2 ^ 52 := by
        by_contra hge
        have hl : digits.log2 = 52 := (Nat.log2_eq_iff (by omega)).2 ⟨by omega, by omega⟩
        omega
      have hfield : (BitVec.ofNat Format.binary64.mantissaBitsWithoutImplicit digits).toNat =
          digits := Nat.mod_eq_of_lt hshort
      rw [hr, infinityRank_eq, hfield, BitVec.toNat_ofNat, Nat.zero_mod]
      omega

theorem rank_of_pack_zero (hy : y.toModel = Float.Model.pack (.zero s)) :
    rankOf y = 0 ∧ isNegative y = (s == .negative) := by
  have hbits : y.toModel.toBits.toBitVec = packComponents .binary64 s 0#11 0#52 := by
    rw [hy]
    rfl
  obtain ⟨hr, hs⟩ := fields_of_packComponents hbits
  refine ⟨?_, hs⟩
  rw [hr, show (0#11).toNat = 0 from rfl, show (0#52).toNat = 0 from rfl, Nat.zero_mul]

theorem rank_of_pack_infinity (hy : y.toModel = Float.Model.pack (.infinity s)) :
    rankOf y = infinityRank ∧ isNegative y = (s == .negative) := by
  have hbits : y.toModel.toBits.toBitVec = packComponents .binary64 s (-1#11) 0#52 := by
    rw [hy]
    rfl
  obtain ⟨hr, hs⟩ := fields_of_packComponents hbits
  refine ⟨?_, hs⟩
  rw [hr, show (-1#11).toNat = 2047 from rfl, show (0#52).toNat = 0 from rfl, infinityRank_eq]

theorem rank_of_pack_finite {rank : Nat} {hpos : 0 < significand rank} (h : rank < infinityRank)
    (hy : y.toModel =
      Float.Model.pack (.finite s (significand rank) (lastPlace rank - 1074) hpos)) :
    rankOf y = rank ∧ isNegative y = (s == .negative) := by
  have hpack := rank_of_pack hy (significand_lt rank) (le_significand rank)
  rwa [rank_eq, Nat.min_eq_left (Nat.le_of_lt h)] at hpack

end Packing

/-! ## Negation, infinity and what is no number -/

section Signs
variable {x : Float} {negative : Bool} {rank : Nat}

/-- The exponent field has all bits set from infinity on. -/
theorem exponent_field_eq (h : infinityRank ≤ rankOf x) :
    @unpackExponent .binary64 x.toModel.toBits.toBitVec = -1#11 := by
  have hlt : rankOf x < signBit := Nat.mod_lt _ (by decide)
  apply BitVec.eq_of_toNat_eq
  rw [exponent_field]
  rw [infinityRank_eq] at h
  rw [signBit_eq] at hlt
  change _ = 2047
  omega

theorem unpack_infinity (h : rankOf x = infinityRank) :
    x.toModel.unpack = .infinity (signOf x) := by
  have hmantissa : @unpackMantissa .binary64 x.toModel.toBits.toBitVec = 0#52 := by
    apply BitVec.eq_of_toNat_eq
    rw [mantissa_field, h]
    rfl
  rw [Float.Model.unpack, unpack]
  simp only [if_pos (exponent_field_eq (Nat.le_of_eq h.symm)), if_pos hmantissa, sign_field]

/-- What has a higher rank than infinity is no number. -/
theorem isNaN_iff_rank : x.isNaN = true ↔ infinityRank < rankOf x := by
  rw [Float.isNaN_eq_decide_eq_nan, decide_eq_true_iff]
  constructor
  · rintro rfl
    decide
  · intro h
    have hmantissa : @unpackMantissa .binary64 x.toModel.toBits.toBitVec ≠ 0#52 := by
      intro hz
      have hfield := mantissa_field x
      have hlt : rankOf x < signBit := Nat.mod_lt _ (by decide)
      rw [hz, show (0#52).toNat = 0 from rfl] at hfield
      rw [infinityRank_eq] at h
      rw [signBit_eq] at hlt
      omega
    have hbits := x.toModel.valid.eq_packedNaN (exponent_field_eq (Nat.le_of_lt h)) hmantissa
    rw [← Float.toBits_inj, ← UInt64.toBitVec_inj]
    exact hbits

theorem neg_fields (h : rankOf x ≤ infinityRank) :
    rankOf (-x) = rankOf x ∧ isNegative (-x) = !isNegative x := by
  have hneg : (-x).toModel = Float.Model.pack (UnpackedFloat.neg x.toModel.unpack) := rfl
  have hsign : (-signOf x == .negative) = !isNegative x := by
    unfold signOf
    cases isNegative x <;> rfl
  rw [← hsign]
  rcases Nat.eq_zero_or_pos (rankOf x) with hz | hpos
  · rw [unpack_zero hz] at hneg
    rw [hz]
    exact rank_of_pack_zero hneg
  · rcases Nat.lt_or_eq_of_le h with hlt | heq
    · rw [unpack_finite hpos hlt] at hneg
      exact rank_of_pack_finite hlt hneg
    · rw [unpack_infinity heq] at hneg
      rw [heq]
      exact rank_of_pack_infinity hneg

/-- A word is kept as the bits of a double if it stands for a number. -/
theorem toBits_ofBits {word : UInt64} (h : word.toNat % signBit ≤ infinityRank) :
    (Float.ofBits word).toBits = word := by
  have hnumber : @isNaNBits .binary64 word.toBitVec = false := by
    refine decide_eq_false ?_
    rintro ⟨hexponent, hmantissa⟩
    have hfield : _ = word.toNat / 4503599627370496 % 2048 :=
      @toNat_unpackExponent word.toBitVec
    rw [hexponent, show (-1#11).toNat = 2047 from rfl] at hfield
    rw [signBit_eq, infinityRank_eq] at h
    refine hmantissa (BitVec.eq_of_toNat_eq ?_)
    rw [toNat_unpackMantissa]
    change word.toNat % 4503599627370496 = 0
    omega
  rw [← UInt64.toBitVec_inj]
  change pack .binary64 (unpack .binary64 word.toBitVec) = word.toBitVec
  rw [pack_unpack, hnumber]
  rfl

/-- Every rank up to that of infinity is the rank of a double of either sign. -/
theorem ofRank_fields (h : rank ≤ infinityRank) :
    rankOf (ofRank negative rank) = rank ∧ isNegative (ofRank negative rank) = negative := by
  obtain ⟨value, hvalue⟩ : ∃ value, value = if negative then signBit + rank else rank := ⟨_, rfl⟩
  rw [infinityRank_eq] at h
  rw [signBit_eq] at hvalue
  have hlt : value < 18446744073709551616 := by
    rw [hvalue]
    split <;> omega
  have hword : (UInt64.ofNat value).toNat = value := by
    rw [UInt64.toNat_ofNat']
    exact Nat.mod_eq_of_lt hlt
  have hmod : value % 9223372036854775808 = rank := by
    rw [hvalue]
    split <;> omega
  have hbits : (ofRank negative rank).toBits.toNat = value := by
    rw [ofRank, signBit_eq, ← hvalue, toBits_ofBits, hword]
    rw [hword, signBit_eq, hmod, infinityRank_eq]
    exact h
  rw [rankOf, isNegative, hbits, signBit_eq, hmod]
  refine ⟨rfl, ?_⟩
  rw [hvalue]
  cases negative with
  | false => exact decide_eq_false (by simp only [Bool.false_eq_true, if_false]; omega)
  | true => exact decide_eq_true (by simp only [if_true]; omega)

theorem neg_ofRank (h : rank ≤ infinityRank) : -ofRank negative rank = ofRank (!negative) rank := by
  obtain ⟨hr, hs⟩ : _ ∧ isNegative (ofRank negative rank) = negative := ofRank_fields h
  obtain ⟨hr', hs'⟩ : _ ∧ isNegative (ofRank (!negative) rank) = !negative := ofRank_fields h
  obtain ⟨hneg, hflip⟩ := neg_fields (x := ofRank negative rank) (by rwa [hr])
  exact eq_of_rankOf_eq (by rw [hflip, hs, hs']) (by rw [hneg, hr, hr'])

end Signs

/-! ## Order -/

/-- The places are compared first and then the digits. -/
theorem compare_fields (low high : Nat) :
    (compare ((lastPlace low : Int) - 1074) (lastPlace high - 1074)).then
      (compare (significand low) (significand high)) = compare (units low : Int) (units high) := by
  have hcases {a b : Nat} (h : a < b) : lastPlace a < lastPlace b ∨
      lastPlace a = lastPlace b ∧ significand a < significand b := by
    unfold lastPlace significand
    rw [binade_eq]
    split <;> split <;> omega
  have hlt {a b : Nat} (h : a < b) :
      (compare ((lastPlace a : Int) - 1074) (lastPlace b - 1074)).then
        (compare (significand a) (significand b)) = .lt := by
    rcases hcases h with hp | ⟨hp, hs⟩
    · rw [compare_lt_iff_lt.2 (by omega : (lastPlace a : Int) - 1074 < lastPlace b - 1074)]
      rfl
    · rw [hp, compare_eq_iff_eq.2 rfl, compare_lt_iff_lt.2 hs]
      rfl
  rcases Nat.lt_trichotomy low high with h | rfl | h
  · rw [hlt h, compare_lt_iff_lt.2 (Int.ofNat_lt.2 (units_strictMono h))]
  · rw [compare_eq_iff_eq.2 rfl, compare_eq_iff_eq.2 rfl, compare_eq_iff_eq.2 rfl]
    rfl
  · have hswap := congrArg Ordering.swap (hlt h)
    rwa [Ordering.swap_then, ← Std.OrientedCmp.eq_swap, ← Std.OrientedCmp.eq_swap, Ordering.swap_lt,
      ← compare_gt_iff_gt.2 (Int.ofNat_lt.2 (units_strictMono h))] at hswap

section Order
variable {x y : Float}

theorem signedUnits_of_zero (h : rankOf x = 0) : signedUnits x = 0 := by
  unfold signedUnits
  rw [h, units_zero]
  split <;> rfl

theorem of_not_isNegative (h : isNegative x = false) :
    signOf x = .positive ∧ signedUnits x = units (rankOf x) := by
  rw [signOf, signedUnits, h]
  exact ⟨rfl, rfl⟩

theorem of_isNegative (h : isNegative x = true) :
    signOf x = .negative ∧ signedUnits x = -(units (rankOf x) : Int) := by
  rw [signOf, signedUnits, h]
  exact ⟨rfl, rfl⟩

theorem compare_neg_neg (m n : Int) : compare (-m) (-n) = (compare m n).swap := by
  rw [← Std.OrientedCmp.eq_swap]
  change compareOfLessAndEq _ _ = compareOfLessAndEq _ _
  simp only [compareOfLessAndEq, neg_lt_neg_iff, neg_inj, eq_comm]

/-- Finite doubles are compared as their values are. -/
theorem compare_unpack (hx : IsFinite x) (hy : IsFinite y) :
    x.toModel.unpack.compare y.toModel.unpack = some (compare (signedUnits x) (signedUnits y)) := by
  rcases Nat.eq_zero_or_pos (rankOf x) with hx0 | hx0 <;>
    rcases Nat.eq_zero_or_pos (rankOf y) with hy0 | hy0
  · rw [unpack_zero hx0, unpack_zero hy0, signedUnits_of_zero hx0, signedUnits_of_zero hy0]
    rfl
  · have hpos := units_pos hy0
    rw [unpack_zero hx0, unpack_finite hy0 hy, signedUnits_of_zero hx0]
    cases hs : isNegative y with
    | false =>
      rw [(of_not_isNegative hs).1, (of_not_isNegative hs).2, compare_lt_iff_lt.2 (by omega)]
      rfl
    | true =>
      rw [(of_isNegative hs).1, (of_isNegative hs).2, compare_gt_iff_gt.2 (by omega)]
      rfl
  · have hpos := units_pos hx0
    rw [unpack_zero hy0, unpack_finite hx0 hx, signedUnits_of_zero hy0]
    cases hs : isNegative x with
    | false =>
      rw [(of_not_isNegative hs).1, (of_not_isNegative hs).2, compare_gt_iff_gt.2 (by omega)]
      rfl
    | true =>
      rw [(of_isNegative hs).1, (of_isNegative hs).2, compare_lt_iff_lt.2 (by omega)]
      rfl
  · have hxpos := units_pos hx0
    have hypos := units_pos hy0
    have hfields := compare_fields (rankOf x) (rankOf y)
    rw [unpack_finite hx0 hx, unpack_finite hy0 hy]
    cases hsx : isNegative x with
    | false =>
      rw [(of_not_isNegative hsx).1, (of_not_isNegative hsx).2]
      cases hsy : isNegative y with
      | false =>
        rw [(of_not_isNegative hsy).1, (of_not_isNegative hsy).2]
        exact congrArg some hfields
      | true =>
        rw [(of_isNegative hsy).1, (of_isNegative hsy).2, compare_gt_iff_gt.2 (by omega)]
        rfl
    | true =>
      rw [(of_isNegative hsx).1, (of_isNegative hsx).2]
      cases hsy : isNegative y with
      | false =>
        rw [(of_not_isNegative hsy).1, (of_not_isNegative hsy).2, compare_lt_iff_lt.2 (by omega)]
        rfl
      | true =>
        rw [(of_isNegative hsy).1, (of_isNegative hsy).2, compare_neg_neg, ← hfields]
        rfl

/-- Whether a finite double is at most another is a question of their values. -/
theorem le_iff (hx : IsFinite x) (hy : IsFinite y) : x ≤ y ↔ signedUnits x ≤ signedUnits y := by
  have hle : x ≤ y ↔ (x.toModel.unpack.compare y.toModel.unpack).any (·.isLE) = true := by
    change Float.le x y = true ↔ _
    unfold Float.le
    rw [decide_eq_true_iff]
    rfl
  rw [hle, compare_unpack hx hy, Option.any_some, Std.isLE_compare]

theorem lt_iff (hx : IsFinite x) (hy : IsFinite y) : x < y ↔ signedUnits x < signedUnits y := by
  have hlt : x < y ↔ x.toModel.unpack.compare y.toModel.unpack == some .lt := by
    change Float.lt x y = true ↔ _
    unfold Float.lt
    rw [decide_eq_true_iff]
    rfl
  rw [hlt, compare_unpack hx hy, beq_iff_eq, Option.some_inj, compare_lt_iff_lt]

end Order

end PrefixScript.Decimal
