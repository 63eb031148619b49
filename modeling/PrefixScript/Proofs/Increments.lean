import PrefixScript.Proofs.Sums

/-!
# Counting up by one

Adding one to a double is exact for the whole numbers below `2 ^ 53`. Up to that number every
double is moved, so a counter that starts at `-(2 ^ 53 + 2)` or above goes up until it arrives
there. Beyond these bounds one is half a step between two doubles at most, and a counter is moved
once or never.
-/
namespace PrefixScript.Decimal

/-- The rank of `2 ^ 53`. -/
def wholeRank : Nat := 1075 * binade + binade

theorem one_eq {n : Nat} (h : 1074 = n) : one = 2 ^ n := by
  delta one
  rw [h, Nat.pow_eq]

theorem one_pos : 0 < one := by
  obtain ⟨n, hn⟩ : ∃ n, 1074 = n := ⟨_, rfl⟩
  rw [one_eq hn]
  exact Nat.two_pow_pos n

section Steps
variable {place : Nat}

theorem two_pow_le_one (h : place ≤ 1074) : 2 ^ place ≤ one := by
  obtain ⟨n, hn⟩ : ∃ n, 1074 = n := ⟨_, rfl⟩
  rw [one_eq hn]
  exact Nat.pow_le_pow_right (by decide) (by omega)

theorem two_pow_eq_one (h : place = 1074) : 2 ^ place = one := (one_eq h.symm).symm

theorem two_pow_eq_two (h : place = 1075) : 2 ^ place = 2 * one := by
  obtain ⟨n, hn⟩ : ∃ n, 1074 = n := ⟨_, rfl⟩
  rw [one_eq hn, ← Nat.pow_succ']
  congr 1
  omega

theorem two_lt_two_pow (h : 1075 < place) : 2 * one < 2 ^ place := by
  obtain ⟨n, hn⟩ : ∃ n, 1074 = n := ⟨_, rfl⟩
  rw [one_eq hn, ← Nat.pow_succ']
  exact Nat.pow_lt_pow_right (by decide) (by omega)

end Steps

theorem units_rankOf_one : units (rankOf 1) = one := by
  obtain ⟨n, hn⟩ : ∃ n, 1074 = n := ⟨_, rfl⟩
  obtain ⟨place, hplace⟩ : ∃ place, 1022 = place := ⟨_, rfl⟩
  have hrank : rankOf 1 = place * binade + binade := by
    rw [← hplace]
    decide
  have hb : binade = 2 ^ 52 := rfl
  rw [hrank, units_of_fields (by decide) (.inl (Nat.le_refl _)), one_eq hn, hb, ← Nat.pow_add]
  congr 1
  omega

theorem signedUnits_one : signedUnits 1 = one := by
  rw [(of_not_isNegative (by decide)).2, units_rankOf_one]

theorem units_wholeRank : units wholeRank = 9007199254740992 * one := by
  obtain ⟨place, hplace⟩ : ∃ place, place = 1075 := ⟨_, rfl⟩
  rw [wholeRank, ← hplace, units_of_fields (by decide) (.inl (Nat.le_refl _)),
    two_pow_eq_two hplace, binade_eq, ← Nat.mul_assoc]

/-! ## The effect of adding one -/

/-- The value of a double after one was added to it. -/
def increment (value : Int) : Int := nearestUnits (value + one)

theorem le_increment (x : Float) : signedUnits x ≤ increment (signedUnits x) := by
  have hle := nearestUnits_mono (by omega : signedUnits x ≤ signedUnits x + one)
  rwa [nearestUnits_signedUnits] at hle

theorem infinityRank_pos : ∃ largest, infinityRank = largest + 1 ∧ 1075 < lastPlace largest :=
  ⟨9218868437227405311, by decide, by decide⟩

/-- No finite double becomes infinite when one is added. -/
theorem signedUnits_add_one {x : Float} (hx : IsFinite x) :
    IsFinite (x + 1) ∧ signedUnits (x + 1) = increment (signedUnits x) := by
  obtain ⟨largest, hlargest, hplace⟩ := infinityRank_pos
  have hle : units (rankOf x) ≤ units largest := by
    refine units_strictMono.monotone ?_
    unfold IsFinite at hx
    omega
  have hround : roundedRank (units largest + one) = largest := by
    refine roundedRank_of_lt (Nat.le_add_right _ _) ?_
    have hstep := two_lt_two_pow hplace
    rw [units_succ]
    omega
  have habs := natAbs_signedUnits x
  have hmono := roundedRank_mono (by omega :
    (signedUnits x + one).natAbs ≤ units largest + one)
  have hsum := signedUnits_add hx (y := 1) (by decide) (by rw [signedUnits_one]; omega)
  rwa [signedUnits_one] at hsum

/-! ## Whole numbers -/

/-- Whether a double is a whole number, and which. -/
structure IsWhole (x : Float) (n : Int) : Prop where
  finite : IsFinite x
  value : signedUnits x = n * one

theorem isWhole_one : IsWhole 1 1 := ⟨by decide, by rw [signedUnits_one, Int.one_mul]⟩

theorem IsWhole.add_one {x : Float} {n : Int} (h : IsWhole x n) (hn : (n + 1).natAbs ≤ 2 ^ 53) :
    IsWhole (x + 1) (n + 1) := by
  obtain ⟨place, hplace⟩ : ∃ place, 1074 = place := ⟨_, rfl⟩
  obtain ⟨hfinite, hvalue⟩ := signedUnits_add_one h.finite
  have hdigits : (n + 1).natAbs ≤ 2 * binade := hn
  obtain ⟨rank, hrank⟩ := exists_units_eq hdigits place
  have habs : ((n + 1) * one).natAbs = units rank := by
    rw [Int.natAbs_mul, Int.natAbs_natCast, hrank, one_eq hplace]
  refine ⟨hfinite, ?_⟩
  rw [hvalue, increment, h.value, ← nearestUnits_of_natAbs habs, Int.add_mul, Int.one_mul]

theorem IsWhole.le_iff {x y : Float} {m n : Int} (hx : IsWhole x m) (hy : IsWhole y n) :
    x ≤ y ↔ m ≤ n := by
  have hpos := one_pos
  rw [Decimal.le_iff hx.finite hy.finite, hx.value, hy.value,
    Int.mul_le_mul_iff_of_pos_right (by omega)]

/-! ## Where counting stops -/

section Resting
variable {rank : Nat}

theorem increment_units (rank : Nat) :
    increment (units rank) = units (roundedRank (units rank + one)) := by
  have habs : ((units rank : Int) + one).natAbs = units rank + one := by omega
  rw [increment, nearestUnits, if_neg (by omega), habs]

theorem increment_neg_units (h : one < units rank) :
    increment (-(units rank : Int)) = -(units (roundedRank (units rank - one)) : Int) := by
  have habs : (-(units rank : Int) + one).natAbs = units rank - one := by omega
  rw [increment, nearestUnits, if_pos (by omega), habs]

/-- From `2 ^ 53` on, one is at most half a step up. -/
theorem roundedRank_add_one (h : 1075 ≤ lastPlace rank) :
    roundedRank (units rank + one) =
      if lastPlace rank = 1075 ∧ rank % 2 = 1 then rank + 1 else rank := by
  have hstep := units_succ rank
  have hpos := one_pos
  rcases Nat.lt_or_eq_of_le h with hlt | heq
  · have htwo := two_lt_two_pow hlt
    rw [if_neg (by omega)]
    exact roundedRank_of_lt (Nat.le_add_right _ _) (by omega)
  · have htwo := two_pow_eq_two heq.symm
    have hmiddle : units rank + units (rank + 1) = 2 * (units rank + one) := by omega
    rw [roundedRank_of_eq hmiddle]
    simp only [heq, true_and]

/-- Above `2 ^ 53`, one is at most half a step down. -/
theorem roundedRank_sub_one (h : 1075 ≤ lastPlace rank) :
    roundedRank (units (rank + 1) - one) =
      if lastPlace rank = 1075 ∧ rank % 2 = 0 then rank else rank + 1 := by
  have hstep := units_succ rank
  have hpos := one_pos
  rcases Nat.lt_or_eq_of_le h with hlt | heq
  · have htwo := two_lt_two_pow hlt
    rw [if_neg (by omega)]
    exact roundedRank_of_gt (Nat.sub_le _ _) (by omega)
  · have htwo := two_pow_eq_two heq.symm
    have hmiddle : units rank + units (rank + 1) = 2 * (units (rank + 1) - one) := by omega
    rw [roundedRank_of_eq hmiddle]
    simp only [heq, true_and]
    split <;> split <;> omega

theorem le_lastPlace_iff : 1075 ≤ lastPlace rank ↔ wholeRank ≤ rank := by
  rw [lastPlace, wholeRank, binade_eq]
  omega

theorem wholeRank_even : wholeRank % 2 = 0 := by decide

theorem increment_units_of_le (h : wholeRank ≤ rank) :
    increment (units rank) =
      units (if lastPlace rank = 1075 ∧ rank % 2 = 1 then rank + 1 else rank) := by
  rw [increment_units, roundedRank_add_one (le_lastPlace_iff.2 h)]

theorem increment_neg_units_of_le (h : wholeRank ≤ rank) :
    increment (-(units (rank + 1) : Int)) =
      -(units (if lastPlace rank = 1075 ∧ rank % 2 = 0 then rank else rank + 1) : Int) := by
  have hone : one < units (rank + 1) := by
    have hlt := units_strictMono (Nat.lt_add_one_of_le h)
    have hpos := one_pos
    rw [units_wholeRank] at hlt
    omega
  rw [increment_neg_units hone, roundedRank_sub_one (le_lastPlace_iff.2 h)]

/-- Above `2 ^ 53` a counter is moved once at most, to a double of even rank. -/
theorem increment_increment_units (h : wholeRank ≤ rank) :
    increment (increment (units rank)) = increment (units rank) := by
  by_cases hodd : lastPlace rank = 1075 ∧ rank % 2 = 1
  · rw [increment_units_of_le h, if_pos hodd, increment_units_of_le (by omega), if_neg (by omega)]
  · rw [increment_units_of_le h, if_neg hodd, increment_units_of_le h, if_neg hodd]

/-- Likewise below `-(2 ^ 53 + 2)`. -/
theorem increment_increment_neg_units (h : wholeRank < rank) :
    increment (increment (-(units (rank + 1) : Int))) = increment (-(units (rank + 1) : Int)) := by
  have heven := wholeRank_even
  by_cases hodd : lastPlace rank = 1075 ∧ rank % 2 = 0
  · obtain ⟨below, rfl⟩ : ∃ below, rank = below + 1 := ⟨rank - 1, by omega⟩
    rw [increment_neg_units_of_le (Nat.le_of_lt h), if_pos hodd,
      increment_neg_units_of_le (by omega), if_neg (by omega)]
  · rw [increment_neg_units_of_le (Nat.le_of_lt h), if_neg hodd,
      increment_neg_units_of_le (Nat.le_of_lt h), if_neg hodd]

/-- A counter goes up if the next double is at most one away. -/
theorem lt_increment {value : Int} {next : Nat} (hpos : value < units next)
    (h : (units next : Int) ≤ value + one) : value < increment value := by
  have hmono := nearestUnits_mono h
  rw [nearestUnits_of_natAbs (Int.natAbs_natCast _)] at hmono
  exact lt_of_lt_of_le hpos hmono

theorem lt_increment_neg {value : Int} {next : Nat} (hpos : value < -(units next : Int))
    (h : -(units next : Int) ≤ value + one) : value < increment value := by
  have hmono := nearestUnits_mono h
  have habs : (-(units next : Int)).natAbs = units next := by omega
  rw [nearestUnits_of_natAbs habs] at hmono
  exact lt_of_lt_of_le hpos hmono

theorem units_succ_le (h : rank < wholeRank) : units (rank + 1) ≤ units rank + one := by
  have hplace := mt le_lastPlace_iff.1 (Nat.not_le_of_lt h)
  have hstep : 2 ^ lastPlace rank ≤ one := two_pow_le_one (by omega)
  rw [units_succ]
  omega

/-- The last double before `2 ^ 53` is one away. -/
theorem units_add_one_le (h : rank < wholeRank) : units rank + one ≤ units wholeRank := by
  obtain ⟨below, hbelow, hplace⟩ : ∃ below, wholeRank = below + 1 ∧ lastPlace below = 1074 :=
    ⟨wholeRank - 1, by decide, by decide⟩
  have hle : units rank ≤ units below := units_strictMono.monotone (by omega)
  rw [hbelow, units_succ, two_pow_eq_one hplace]
  omega

theorem increment_le {value : Int} (h : value + one ≤ units wholeRank) :
    increment value ≤ units wholeRank := by
  have hmono := nearestUnits_mono h
  rwa [nearestUnits_of_natAbs (Int.natAbs_natCast _)] at hmono

theorem increment_wholeRank : increment (units wholeRank) = units wholeRank := by
  rw [increment_units_of_le (Nat.le_refl _), if_neg (by decide)]

theorem lt_increment_units (h : rank < wholeRank) :
    (units rank : Int) < increment (units rank) := by
  have hnext := units_strictMono (Nat.lt_add_one rank)
  have hstep := units_succ_le h
  have hpos : (units rank : Int) < units (rank + 1) := by omega
  exact lt_increment hpos (by omega)

theorem lt_increment_neg_units (h : rank ≤ wholeRank + 1) :
    -(units rank : Int) < increment (-(units rank : Int)) := by
  cases rank with
  | zero =>
    have hup := lt_increment_units (by decide : 0 < wholeRank)
    rwa [units_zero] at hup ⊢
  | succ below =>
    have hlt := units_strictMono (Nat.lt_add_one below)
    rcases Nat.lt_or_eq_of_le (Nat.le_of_succ_le_succ h) with hb | rfl
    · have hstep := units_succ_le hb
      have hnext : -(units (below + 1) : Int) < -(units below : Int) := by omega
      exact lt_increment_neg hnext (by omega)
    · -- half way down to `-(2 ^ 53)` the even double is the upper one
      rw [increment_neg_units_of_le (Nat.le_refl _), if_pos (by decide)]
      omega

/-- Between the bounds a counter goes up, and not beyond `2 ^ 53`. -/
theorem increment_between {x : Float} (hlow : -(units (wholeRank + 1) : Int) ≤ signedUnits x)
    (hhigh : signedUnits x < units wholeRank) :
    signedUnits x < increment (signedUnits x) ∧ increment (signedUnits x) ≤ units wholeRank := by
  cases hs : isNegative x with
  | false =>
    rw [(of_not_isNegative hs).2] at hhigh ⊢
    have hlt : rankOf x < wholeRank := units_strictMono.lt_iff_lt.1 (by omega)
    have htop := units_add_one_le hlt
    exact ⟨lt_increment_units hlt, increment_le (by omega)⟩
  | true =>
    rw [(of_isNegative hs).2] at hlow ⊢
    have hle : rankOf x ≤ wholeRank + 1 := units_strictMono.le_iff_le.1 (by omega)
    have htop : units 0 + one ≤ units wholeRank := units_add_one_le (by decide)
    exact ⟨lt_increment_neg_units hle, increment_le (by omega)⟩

/-- Beyond the bounds a counter is moved once at most. -/
theorem increment_beyond {x : Float}
    (h : signedUnits x < -(units (wholeRank + 1) : Int) ∨ units wholeRank < signedUnits x) :
    increment (increment (signedUnits x)) = increment (signedUnits x) := by
  cases hs : isNegative x with
  | false =>
    rw [(of_not_isNegative hs).2] at h ⊢
    have hlt : wholeRank < rankOf x := units_strictMono.lt_iff_lt.1 (by omega)
    exact increment_increment_units (Nat.le_of_lt hlt)
  | true =>
    rw [(of_isNegative hs).2] at h ⊢
    have hlt : wholeRank + 1 < rankOf x := units_strictMono.lt_iff_lt.1 (by omega)
    obtain ⟨below, hbelow⟩ : ∃ below, rankOf x = below + 1 := ⟨rankOf x - 1, by omega⟩
    rw [hbelow]
    exact increment_increment_neg_units (by omega)

end Resting

/-! ## Counters -/

/-- The double after some steps up by one. -/
def countedFrom (first : Float) : Nat → Float
  | 0 => first
  | steps + 1 => countedFrom first steps + 1

/-- The double that a counter does not go beyond. -/
def restingPoint (first : Float) : Float :=
  if -9007199254740994 ≤ first ∧ first ≤ 9007199254740992 then 9007199254740992 else first + 1

section Counters
variable {first last : Float}

theorem countedFrom_succ (first : Float) (steps : Nat) :
    countedFrom first (steps + 1) = countedFrom (first + 1) steps := by
  induction steps with
  | zero => rfl
  | succ steps ih => rw [countedFrom, ih, countedFrom]

theorem IsFinite.countedFrom (h : IsFinite first) (steps : Nat) :
    IsFinite (Decimal.countedFrom first steps) := by
  induction steps with
  | zero => exact h
  | succ steps ih => exact (signedUnits_add_one ih).1

/-- Whole numbers are counted exactly. -/
theorem IsWhole.countedFrom {n : Int} (h : IsWhole first n) (hn : -2 ^ 53 ≤ n) {steps : Nat}
    (hs : n + steps ≤ 2 ^ 53) : IsWhole (Decimal.countedFrom first steps) (n + steps) := by
  induction steps with
  | zero => exact ⟨h.finite, by rw [Int.natCast_zero, Int.add_zero]; exact h.value⟩
  | succ steps ih =>
    have hnext := (ih (by omega)).add_one (by omega)
    rwa [Int.add_assoc] at hnext

theorem units_eq_of_literals : signedUnits 9007199254740992 = units wholeRank ∧
    signedUnits (-9007199254740994) = -(units (wholeRank + 1) : Int) := by
  have hhigh : rankOf 9007199254740992 = wholeRank := by decide
  have hlow : rankOf (-9007199254740994) = wholeRank + 1 := by decide
  rw [(of_not_isNegative (by decide)).2, (of_isNegative (by decide)).2, hhigh, hlow]
  exact ⟨rfl, rfl⟩

/-- The resting point is `2 ^ 53` between the bounds, and after one step beyond them. -/
theorem restingPoint_cases (hf : IsFinite first) :
    (-(units (wholeRank + 1) : Int) ≤ signedUnits first ∧ signedUnits first ≤ units wholeRank) ∧
        restingPoint first = 9007199254740992 ∨
      (signedUnits first < -(units (wholeRank + 1) : Int) ∨
        units wholeRank < signedUnits first) ∧ restingPoint first = first + 1 := by
  have hbounds : (-9007199254740994 ≤ first ∧ first ≤ 9007199254740992) ↔
      -(units (wholeRank + 1) : Int) ≤ signedUnits first ∧ signedUnits first ≤ units wholeRank := by
    obtain ⟨hhigh, hlow⟩ := units_eq_of_literals
    rw [le_iff (by decide) hf, le_iff hf (by decide), hhigh, hlow]
  unfold restingPoint
  split
  case isTrue h => exact .inl ⟨hbounds.1 h, rfl⟩
  case isFalse h =>
    have hbeyond := mt hbounds.2 h
    exact .inr ⟨by omega, rfl⟩

theorem exists_countedFrom_of_bounds (hf : IsFinite first) (hl : IsFinite last)
    (hlow : -(units (wholeRank + 1) : Int) ≤ signedUnits first)
    (hhigh : signedUnits last < units wholeRank) : ∃ steps, ¬ countedFrom first steps ≤ last := by
  obtain ⟨left, hleft⟩ : ∃ left : Nat, signedUnits last < signedUnits first + left :=
    ⟨(signedUnits last - signedUnits first).toNat + 1, by omega⟩
  induction left generalizing first with
  | zero => exact ⟨0, by rw [countedFrom, le_iff hf hl]; omega⟩
  | succ left ih =>
    by_cases hle : signedUnits first ≤ signedUnits last
    · obtain ⟨hnext, hvalue⟩ := signedUnits_add_one hf
      obtain ⟨hup, -⟩ := increment_between hlow (by omega)
      obtain ⟨steps, hsteps⟩ := ih hnext (by omega) (by omega)
      exact ⟨steps + 1, by rwa [countedFrom_succ]⟩
    · exact ⟨0, by rwa [countedFrom, le_iff hf hl]⟩

/-- A counter goes beyond every double below its resting point. -/
theorem exists_countedFrom (hf : IsFinite first) (hl : IsFinite last)
    (h : last < restingPoint first) : ∃ steps, ¬ countedFrom first steps ≤ last := by
  obtain ⟨hhigh, -⟩ := units_eq_of_literals
  rcases restingPoint_cases hf with ⟨⟨hlow, -⟩, hr⟩ | ⟨-, hr⟩
  · rw [hr, lt_iff hl (by decide), hhigh] at h
    exact exists_countedFrom_of_bounds hf hl hlow h
  · have hnext := (signedUnits_add_one hf).1
    rw [hr, lt_iff hl hnext] at h
    exact ⟨1, by rw [countedFrom, countedFrom, le_iff hnext hl]; omega⟩

theorem signedUnits_countedFrom_succ (hf : IsFinite first) (steps : Nat) :
    signedUnits (countedFrom first (steps + 1)) =
      increment (signedUnits (countedFrom first steps)) :=
  (signedUnits_add_one (hf.countedFrom steps)).2

theorem countedFrom_between (hf : IsFinite first)
    (h : -(units (wholeRank + 1) : Int) ≤ signedUnits first ∧ signedUnits first ≤ units wholeRank)
    (steps : Nat) :
    -(units (wholeRank + 1) : Int) ≤ signedUnits (countedFrom first steps) ∧
      signedUnits (countedFrom first steps) ≤ units wholeRank := by
  induction steps with
  | zero => exact h
  | succ steps ih =>
    rw [signedUnits_countedFrom_succ hf]
    rcases Int.lt_or_eq_of_le ih.2 with hlt | heq
    · obtain ⟨hup, htop⟩ := increment_between ih.1 hlt
      exact ⟨by omega, htop⟩
    · rw [heq, increment_wholeRank]
      omega

theorem countedFrom_beyond (hf : IsFinite first)
    (h : signedUnits first < -(units (wholeRank + 1) : Int) ∨ units wholeRank < signedUnits first)
    (steps : Nat) :
    signedUnits (countedFrom first (steps + 1)) = increment (signedUnits first) := by
  induction steps with
  | zero => exact signedUnits_countedFrom_succ hf 0
  | succ steps ih => rw [signedUnits_countedFrom_succ hf, ih, increment_beyond h]

/-- A counter does not go beyond its resting point. -/
theorem countedFrom_le (hf : IsFinite first) (hl : IsFinite last) (h : restingPoint first ≤ last)
    (steps : Nat) : countedFrom first steps ≤ last := by
  rw [le_iff (hf.countedFrom steps) hl]
  rcases restingPoint_cases hf with ⟨hbounds, hr⟩ | ⟨hbeyond, hr⟩
  · rw [hr, le_iff (by decide) hl, units_eq_of_literals.1] at h
    exact le_trans (countedFrom_between hf hbounds steps).2 h
  · obtain ⟨hnext, hvalue⟩ := signedUnits_add_one hf
    rw [hr, le_iff hnext hl, hvalue] at h
    cases steps with
    | zero => exact le_trans (le_increment first) h
    | succ steps => rwa [countedFrom_beyond hf hbeyond]

end Counters

end PrefixScript.Decimal
