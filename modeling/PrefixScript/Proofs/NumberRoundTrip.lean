import PrefixScript.Proofs.NumberTexts
import PrefixScript.Proofs.TextualEquality

/-!
# Numbers that are read back from their texts

The text of a number is a signed numeral exactly if the number is zero or its size lies from
`10 ^ (-4)` up to, but not including, `10 ^ 16`, and then it is read back as the same number. The
shortest decimals of doubles grow with the doubles, so the borders are those of the doubles nearest
to these powers of ten, which are the shortest decimals there. Every other text of a number has an
exponent or is a word, and is refused as an operand.
-/
namespace PrefixScript

namespace Decimal

/-! ## The nearest double is found -/

/-- Halving an interval finds the first rank that is not too low, if there are steps enough. -/
theorem bisect_eq {isTooLow : Nat → Bool} {rank : Nat} (hbelow : ∀ m < rank, isTooLow m = true)
    (hfrom : ∀ m, rank ≤ m → isTooLow m = false) {steps low high : Nat} (hl : low ≤ rank)
    (hh : rank ≤ high) (hs : high - low < 2 ^ steps) : bisect isTooLow steps low high = rank := by
  induction steps generalizing low high with
  | zero =>
    rw [bisect]
    omega
  | succ steps ih =>
    rw [Nat.pow_succ] at hs
    rw [bisect]
    by_cases hlt : low < high
    · rw [if_pos hlt]
      by_cases hm : (low + high) / 2 < rank
      · simp only [hbelow _ hm, if_true]
        apply ih <;> omega
      · simp only [hfrom _ (Nat.le_of_not_lt hm), Bool.false_eq_true, if_false]
        apply ih <;> omega
    · rw [if_neg hlt]
      omega

theorem nearestRank_eq {num den rank : Nat} (hd : 0 < den) (hr : rank ≤ infinityRank)
    (h : roundsTo num den rank = true) : nearestRank num den = rank := by
  obtain ⟨hnot, habove⟩ := roundsTo_iff.1 h
  refine bisect_eq (fun m hm => ?_) (fun m hm => ?_) (Nat.zero_le _) hr (by decide)
  · rcases habove with hz | habove
    · omega
    · exact isBeyond_of_le hd (by omega) habove
  · by_contra hbeyond
    have hup := isBeyond_of_le hd hm (by simpa using hbeyond)
    rw [roundsAbove, hup] at hnot
    cases hnot

/-! ## Numerals as decimals -/

section Numerals
variable {text : List Char}

/-- A numeral is read as a decimal, and stands for the double nearest to it. -/
theorem exists_scaled?_of_isNumeral (h : isNumeral text = true) :
    ∃ d, scaled? text = some d ∧ numeralRank text = nearestRank d.num d.den := by
  obtain ⟨whole, hwhole, tail, htail, rfl⟩ :=
    Language.mem_mul.1 ((Pattern.isNumeral_iff_mem text).1 h)
  obtain ⟨hne, hdigits⟩ := mem_someOf.1 hwhole
  rcases (Language.mem_add _ _ _).1 htail with hnil | hpoint
  · obtain rfl : tail = [] := hnil
    have htake : whole.takeWhile isDigit = whole := List.takeWhile_eq_self_iff.2 hdigits
    refine ⟨⟨Nat.ofDigitChars 10 whole 0, 0⟩, ?_, ?_⟩
    · simp [scaled?, htake, hne, exponent?]
    · simp [numeralRank, htake, Scaled.num, Scaled.den]
  · obtain ⟨_, rfl, places, hplaces, rfl⟩ := Language.mem_mul.1 hpoint
    obtain ⟨-, hplaces⟩ := mem_someOf.1 hplaces
    have htake : (whole ++ '.' :: places).takeWhile isDigit = whole :=
      Text.takeWhile_run hdigits rfl
    have htake' : places.takeWhile isDigit = places := List.takeWhile_eq_self_iff.2 hplaces
    have hdrop : places.dropWhile isDigit = [] := List.dropWhile_eq_nil_iff.2 hplaces
    have hfilter : ('.' :: places).filter isDigit = places := by
      rw [List.filter_cons_of_neg (by decide), List.filter_eq_self.2 hplaces]
    refine ⟨⟨Nat.ofDigitChars 10 (whole ++ places) 0, -places.length⟩, ?_, ?_⟩
    · simp [scaled?, htake, htake', hdrop, hne, exponent?]
    · simp [numeralRank, htake, hfilter, Scaled.num, Scaled.den]

theorem numeralRank_eq {d : Scaled} {rank : Nat} (h : isNumeral text = true)
    (hd : scaled? text = some d) (hr : rank ≤ infinityRank) (hread : d.readsAs rank = true) :
    numeralRank text = rank := by
  obtain ⟨e, he, hrank⟩ := exists_scaled?_of_isNumeral h
  obtain rfl : d = e := Option.some.inj (hd.symm.trans he)
  rw [hrank]
  exact nearestRank_eq d.den_pos hr hread

/-- A numeral has digits and points only. -/
theorem isDigit_or_point_of_isNumeral (h : isNumeral text = true) :
    ∀ c ∈ text, isDigit c = true ∨ c = '.' := by
  obtain ⟨whole, hwhole, tail, htail, rfl⟩ :=
    Language.mem_mul.1 ((Pattern.isNumeral_iff_mem text).1 h)
  obtain ⟨-, hdigits⟩ := mem_someOf.1 hwhole
  refine List.forall_mem_append.2 ⟨fun c hc => .inl (hdigits c hc), ?_⟩
  rcases (Language.mem_add _ _ _).1 htail with hnil | hpoint
  · obtain rfl : tail = [] := hnil
    simp
  · obtain ⟨_, rfl, places, hplaces, rfl⟩ := Language.mem_mul.1 hpoint
    exact List.forall_mem_cons.2 ⟨.inr rfl, fun c hc => .inl ((mem_someOf.1 hplaces).2 c hc)⟩

end Numerals

/-! ## Texts that are numerals -/

section Layout
variable {digits : List Char}

theorem isNumeral_of_digits (hne : digits ≠ []) (hdigits : ∀ c ∈ digits, isDigit c) :
    isNumeral digits = true :=
  (Pattern.isNumeral_iff_mem _).2 (Pattern.mem_number_of_digits hne hdigits)

theorem isNumeral_positional (hne : digits ≠ []) (hdigits : ∀ c ∈ digits, isDigit c)
    (point : Int) : isNumeral (positional digits point) = true := by
  have hzeros (count : Nat) : ∀ c ∈ List.replicate count '0', isDigit c :=
    fun c => isDigit_of_mem_zeros
  rw [Pattern.isNumeral_iff_mem]
  unfold positional
  split
  case isTrue hpoint =>
    exact Pattern.mem_number_of_point (List.cons_ne_nil '0' []) (hzeros 1)
      (List.append_ne_nil_of_right_ne_nil _ hne) (List.forall_mem_append.2 ⟨hzeros _, hdigits⟩)
  case isFalse hpoint =>
    split
    case isTrue hwithin =>
      have hwhole : digits.take point.toNat ≠ [] := by
        rw [← List.length_pos_iff, List.length_take]
        omega
      have hplaces : digits.drop point.toNat ≠ [] := by
        rw [← List.length_pos_iff, List.length_drop]
        omega
      exact Pattern.mem_number_of_point hwhole (fun c hc => hdigits c (List.mem_of_mem_take hc))
        hplaces fun c hc => hdigits c (List.mem_of_mem_drop hc)
    case isFalse hbeyond =>
      exact Pattern.mem_number_of_point (List.append_ne_nil_of_left_ne_nil hne _)
        (List.forall_mem_append.2 ⟨hdigits, hzeros _⟩) (List.cons_ne_nil '0' []) (hzeros 1)

theorem mark_mem_exponential (digits : List Char) (exponent : Int) :
    'e' ∈ exponential digits exponent := by
  simp [exponential]

theorem not_isNumeral_exponential (digits : List Char) (exponent : Int) :
    isNumeral (exponential digits exponent) = false := by
  by_contra h
  have hmark := isDigit_or_point_of_isNumeral (by simpa using h) 'e' (mark_mem_exponential _ _)
  revert hmark
  decide

end Layout

/-- More is beyond all that less is beyond. -/
theorem isBeyond_mono {less more den rank : Nat} (hle : less ≤ more)
    (h : isBeyond less den rank = true) : isBeyond more den rank = true := by
  simp only [isBeyond, Bool.or_eq_true, decide_eq_true_eq, Bool.and_eq_true, beq_iff_eq] at h ⊢
  omega

namespace Scaled
variable {d e : Scaled} {rank rank' : Nat}

theorem isNumeral_text (h : d.coefficient ≠ 0) : isNumeral d.text =
    isPositional ((Nat.toDigits 10 d.coefficient).length + d.exponent - 1) := by
  have hdigits : ∀ c ∈ dropZeros (Nat.toDigits 10 d.coefficient), isDigit c :=
    isDigit_of_mem_dropZeros
  rw [text]
  by_cases hp : isPositional ((Nat.toDigits 10 d.coefficient).length + d.exponent - 1) = true
  · rw [hp]
    exact isNumeral_positional (dropZeros_toDigits_ne_nil h) hdigits _
  · rw [Bool.not_eq_true] at hp
    rw [hp]
    exact not_isNumeral_exponential _ _

/-- The value of a decimal lies between the powers of ten that its leading digit tells. -/
theorem value_bounds (h : d.coefficient ≠ 0) :
    (10 : ℚ) ^ ((Nat.toDigits 10 d.coefficient).length + d.exponent - 1) ≤ d.value ∧
      d.value < (10 : ℚ) ^ ((Nat.toDigits 10 d.coefficient).length + d.exponent) := by
  have hten : (10 : ℚ) ≠ 0 := by decide
  have hpower : (0 : ℚ) < 10 ^ d.exponent := zpow_pos (by decide) _
  have hpos : 0 < (Nat.toDigits 10 d.coefficient).length := Nat.length_toDigits_pos
  have hupper : d.coefficient < 10 ^ (Nat.toDigits 10 d.coefficient).length :=
    (Nat.length_toDigits_le_iff (by decide) hpos).1 (Nat.le_refl _)
  have hlower : 10 ^ ((Nat.toDigits 10 d.coefficient).length - 1) ≤ d.coefficient := by
    generalize hlength : (Nat.toDigits 10 d.coefficient).length = length at hpos
    by_cases hone : length = 1
    · rw [hone]
      exact Nat.pos_of_ne_zero h
    · refine Nat.le_of_not_lt fun hlt => ?_
      have hshort := (Nat.length_toDigits_le_iff (by decide) (by omega)).2 hlt
      omega
  generalize (Nat.toDigits 10 d.coefficient).length = length at hpos hupper hlower
  constructor
  · have hexponent : (length : Int) + d.exponent - 1 = (length - 1 : Nat) + d.exponent := by omega
    rw [hexponent, zpow_add₀ hten, zpow_natCast, value]
    exact mul_le_mul_of_nonneg_right (by exact_mod_cast hlower) hpower.le
  · rw [zpow_add₀ hten, zpow_natCast, value]
    exact mul_lt_mul_of_pos_right (by exact_mod_cast hupper) hpower

theorem isPositional_iff (h : d.coefficient ≠ 0) :
    isPositional ((Nat.toDigits 10 d.coefficient).length + d.exponent - 1) = true ↔
      (10 : ℚ) ^ (-4 : Int) ≤ d.value ∧ d.value < (10 : ℚ) ^ (16 : Int) := by
  have hten : (1 : ℚ) < 10 := by norm_num
  obtain ⟨hlower, hupper⟩ := value_bounds h
  generalize ((Nat.toDigits 10 d.coefficient).length : Int) + d.exponent = point at hlower hupper
  rw [isPositional, Bool.and_eq_true, decide_eq_true_iff, decide_eq_true_iff]
  constructor
  · rintro ⟨hleast, hmost⟩
    constructor
    · exact (zpow_le_zpow_right₀ hten.le hleast).trans hlower
    · exact hupper.trans_le (zpow_le_zpow_right₀ hten.le (by omega))
  · rintro ⟨hleast, hmost⟩
    have hfrom : (-4 : Int) < point := (zpow_lt_zpow_iff_right₀ hten).1 (hleast.trans_lt hupper)
    have hto : point - 1 < 16 := (zpow_lt_zpow_iff_right₀ hten).1 (hlower.trans_lt hmost)
    omega

/-! ## The order of the shortest decimals -/

/-- What is not smaller is not rounded to a smaller double. -/
theorem rank_le_of_value_le (hd : d.readsAs rank = true) (he : e.readsAs rank' = true)
    (h : d.value ≤ e.value) : rank ≤ rank' := by
  refine Nat.le_of_not_lt fun hlt => ?_
  obtain ⟨-, hz | habove⟩ := roundsTo_iff.1 hd
  · omega
  · have hcross : d.num * e.den ≤ e.num * d.den := by
      have hcast : (d.num : ℚ) * e.den ≤ e.num * d.den := by
        rw [num_eq, num_eq, mul_right_comm]
        gcongr
      exact_mod_cast hcast
    have hhalves : 2 * d.num * one * e.den ≤ 2 * e.num * one * d.den := by
      have hside (a b : Nat) : 2 * a * one * b = 2 * (a * b) * one := by
        rw [Nat.mul_right_comm, Nat.mul_assoc 2]
      rw [hside, hside]
      exact Nat.mul_le_mul_right one (Nat.mul_le_mul_left 2 hcross)
    have hbeyond : isBeyond (2 * d.num * one) d.den rank' = true :=
      isBeyond_of_le d.den_pos (by omega) habove
    obtain ⟨hnot, -⟩ := roundsTo_iff.1 he
    rw [roundsAbove, ← isBeyond_mul d.den_pos, Nat.mul_comm e.den] at hnot
    rw [← isBeyond_mul e.den_pos] at hbeyond
    rw [isBeyond_mono hhalves hbeyond] at hnot
    cases hnot

end Scaled

/-- The shortest decimals of greater doubles are greater. -/
theorem shortest_strictMono : StrictMono fun rank => (shortest rank).value := by
  intro rank rank' hlt
  by_contra hle
  have := Scaled.rank_le_of_value_le (shortest_readsAs rank') (shortest_readsAs rank)
    (not_lt.1 hle)
  omega

/-! ## The doubles with numerals -/

/-- The rank of the double nearest to `10 ^ (-4)`. -/
def firstPointed : Nat := 4547007122018943789

/-- The rank of the double `10 ^ 16`. -/
def firstLarge : Nat := 4846369599423283200

theorem shortest_borders :
    shortest firstPointed = ⟨1, -4⟩ ∧ shortest firstLarge = ⟨1, 16⟩ := by decide +kernel

theorem units_borders :
    units firstPointed ≤ one ∧ units firstLarge = integerLimit * one := by decide +kernel

/-- A double is written with an exponent if it is small or large, and zero is not. -/
theorem isNumeral_finiteText_iff (rank : Nat) : isNumeral (finiteText rank) = true ↔
    rank = 0 ∨ firstPointed ≤ rank ∧ rank < firstLarge := by
  unfold finiteText
  by_cases hshort : isShortInteger rank = true
  · rw [if_pos hshort]
    rw [isShortInteger, Bool.and_eq_true, beq_iff_eq, decide_eq_true_iff] at hshort
    obtain ⟨hwhole, hlimit⟩ := hshort
    have hnumeral : isNumeral (Nat.toDigits 10 (units rank / one)) = true :=
      isNumeral_of_digits Nat.toDigits_ne_nil fun c => isDigit_of_mem_toDigits
    rw [← units_borders.2, units_strictMono.lt_iff_lt] at hlimit
    refine iff_of_true hnumeral ?_
    by_cases hz : rank = 0
    · exact .inl hz
    · have hpos := units_pos (Nat.pos_of_ne_zero hz)
      have hone : one ≤ units rank := Nat.le_of_dvd hpos (Nat.dvd_of_mod_eq_zero hwhole)
      exact .inr ⟨units_strictMono.le_iff_le.1 (units_borders.1.trans hone), hlimit⟩
  · have hz : rank ≠ 0 := fun hz => hshort (hz ▸ isShortInteger_zero)
    have hcoefficient := Scaled.coefficient_pos (Nat.pos_of_ne_zero hz) (shortest_readsAs rank)
    have hvalue : (shortest firstPointed).value = 10 ^ (-4 : Int) := by
      rw [shortest_borders.1, Scaled.value, Nat.cast_one, one_mul]
    have hvalue' : (shortest firstLarge).value = 10 ^ (16 : Int) := by
      rw [shortest_borders.2, Scaled.value, Nat.cast_one, one_mul]
    rw [if_neg hshort, Scaled.isNumeral_text hcoefficient.ne',
      Scaled.isPositional_iff hcoefficient.ne', ← hvalue, ← hvalue',
      shortest_strictMono.le_iff_le, shortest_strictMono.lt_iff_lt]
    exact (or_iff_right hz).symm

/-- Where the text of a double without its sign is a numeral, it stands for this double. -/
theorem numeralRank_finiteText {rank : Nat} (hr : rank ≤ infinityRank)
    (h : isNumeral (finiteText rank) = true) : numeralRank (finiteText rank) = rank := by
  obtain ⟨d, hd, hread⟩ := finiteText_readsAs rank
  exact numeralRank_eq h hd hr hread

theorem isNumeral_unsignedText_iff (rank : Nat) : isNumeral (unsignedText rank) = true ↔
    rank = 0 ∨ firstPointed ≤ rank ∧ rank < firstLarge := by
  unfold unsignedText
  by_cases hr : rank = infinityRank
  · rw [if_pos hr, hr]
    decide
  · rw [if_neg hr]
    exact isNumeral_finiteText_iff rank

theorem numeralRank_unsignedText {rank : Nat} (hr : rank < infinityRank)
    (h : isNumeral (unsignedText rank) = true) : numeralRank (unsignedText rank) = rank := by
  have hne : rank ≠ infinityRank := Nat.ne_of_lt hr
  unfold unsignedText at h ⊢
  rw [if_neg hne] at h ⊢
  exact numeralRank_finiteText (Nat.le_of_lt hr) h

/-! ## Texts of numbers have no blanks -/

/-- The characters of numbers: digits, a point, the mark of an exponent and signs. -/
def isNumberChar (c : Char) : Bool := isDigit c || ['.', 'e', '+', '-'].contains c

theorem isBlank_of_isNumberChar {c : Char} (h : isNumberChar c = true) :
    Text.isBlank c = false := by
  rw [isNumberChar, Bool.or_eq_true] at h
  rcases h with hdigit | hmark
  · exact Pattern.isBlank_of_isWordChar (Pattern.isWordChar_of_isDigit hdigit)
  · have hmark : c = '.' ∨ c = 'e' ∨ c = '+' ∨ c = '-' := by simpa using hmark
    rcases hmark with rfl | rfl | rfl | rfl <;> decide

theorem isNumberChar_of_isDigit {c : Char} (h : isDigit c = true) : isNumberChar c = true := by
  rw [isNumberChar, h, Bool.true_or]

theorem isNumberChar_of_isNumeral {text : List Char} (h : isNumeral text = true) :
    ∀ c ∈ text, isNumberChar c = true := by
  intro c hc
  rcases isDigit_or_point_of_isNumeral h c hc with hdigit | rfl
  · exact isNumberChar_of_isDigit hdigit
  · decide

theorem isNumberChar_exponential {digits : List Char} (hdigits : ∀ c ∈ digits, isDigit c)
    (exponent : Int) : ∀ c ∈ exponential digits exponent, isNumberChar c = true := by
  have hplaces : ∀ c ∈ List.replicate (2 - (Nat.toDigits 10 exponent.natAbs).length) '0' ++
      Nat.toDigits 10 exponent.natAbs, isNumberChar c = true :=
    fun c hc => isNumberChar_of_isDigit ((List.mem_append.1 hc).elim isDigit_of_mem_zeros
      isDigit_of_mem_toDigits)
  have hsign : isNumberChar (if exponent < 0 then '-' else '+') = true := by
    split <;> decide
  have hlead : ∀ c ∈ digits, isNumberChar c = true :=
    fun c hc => isNumberChar_of_isDigit (hdigits c hc)
  unfold exponential
  rw [List.append_assoc, List.forall_mem_append]
  constructor
  · split
    · rw [List.forall_mem_cons, List.forall_mem_cons] at hlead ⊢
      exact ⟨hlead.1, by decide, List.forall_mem_cons.2 hlead.2⟩
    · exact hlead
  · exact List.forall_mem_cons.2 ⟨by decide, List.forall_mem_cons.2 ⟨hsign, hplaces⟩⟩

theorem isNumberChar_finiteText (rank : Nat) : ∀ c ∈ finiteText rank, isNumberChar c = true := by
  unfold finiteText
  split
  · exact fun c hc => isNumberChar_of_isDigit (isDigit_of_mem_toDigits hc)
  · rename_i hshort
    have hz : rank ≠ 0 := fun hz => hshort (hz ▸ isShortInteger_zero)
    have hcoefficient := Scaled.coefficient_pos (Nat.pos_of_ne_zero hz) (shortest_readsAs rank)
    have hdigits : ∀ c ∈ dropZeros (Nat.toDigits 10 (shortest rank).coefficient), isDigit c :=
      isDigit_of_mem_dropZeros
    rw [Scaled.text]
    split
    · exact isNumberChar_of_isNumeral
        (isNumeral_positional (dropZeros_toDigits_ne_nil hcoefficient.ne') hdigits _)
    · exact isNumberChar_exponential hdigits _

theorem not_blank_unsignedText (rank : Nat) :
    ∀ c ∈ unsignedText rank, Text.isBlank c = false := by
  have hword : ∀ c ∈ ['i', 'n', 'f'], Pattern.isWordChar c := List.all_eq_true.1 rfl
  unfold unsignedText
  split
  · exact fun c hc => Pattern.isBlank_of_isWordChar (hword c hc)
  · exact fun c hc => isBlank_of_isNumberChar (isNumberChar_finiteText rank c hc)

/-- The text of a number has no blanks. -/
theorem not_blank_text (x : Float) : ∀ c ∈ (text x).toList, Text.isBlank c = false := by
  cases hnan : x.isNaN with
  | true =>
    have hword : ∀ c ∈ "nan".toList, Pattern.isWordChar c := List.all_eq_true.1 rfl
    rw [text, if_pos (isNaN_iff_rank.1 hnan)]
    exact fun c hc => Pattern.isBlank_of_isWordChar (hword c hc)
  | false =>
    have hunsigned := not_blank_unsignedText (rankOf x)
    rw [text_eq hnan, String.toList_ofList]
    split
    · exact List.forall_mem_cons.2 ⟨by decide, hunsigned⟩
    · exact hunsigned

/-! ## The sizes of numbers -/

section Sizes
variable {x : Float}

theorem abs_fields (h : rankOf x ≤ infinityRank) :
    rankOf x.abs = rankOf x ∧ isNegative x.abs = false := by
  have habs : x.abs.toModel = Float.Model.pack (Float.Model.UnpackedFloat.abs x.toModel.unpack) :=
    rfl
  by_cases hz : rankOf x = 0
  · rw [unpack_zero hz] at habs
    rw [hz]
    exact rank_of_pack_zero habs
  by_cases hinf : rankOf x = infinityRank
  · rw [unpack_infinity hinf] at habs
    rw [hinf]
    exact rank_of_pack_infinity habs
  · have hfinite : IsFinite x := Nat.lt_of_le_of_ne h hinf
    rw [unpack_finite (Nat.pos_of_ne_zero hz) hfinite] at habs
    exact rank_of_pack_finite hfinite habs

theorem eq_nan_of_rank (h : infinityRank < rankOf x) : x = Float.nan := by
  have hnan := isNaN_iff_rank.2 h
  rwa [Float.isNaN_eq_decide_eq_nan, decide_eq_true_iff] at hnan

/-- The size of a number is compared by its rank, and that of no number by nothing. -/
theorem size_iff (x : Float) : 1e-4 ≤ x.abs ∧ x.abs < 1e16 ↔
    firstPointed ≤ rankOf x ∧ rankOf x < firstLarge := by
  by_cases hle : rankOf x ≤ infinityRank
  · obtain ⟨hrank, hsign⟩ := abs_fields hle
    by_cases hinf : rankOf x = infinityRank
    · have heq : x.abs = ofRank false infinityRank := by
        obtain ⟨hrank', hsign'⟩ := @ofRank_fields false infinityRank (Nat.le_refl _)
        exact eq_of_rankOf_eq (hsign.trans hsign'.symm) (hrank.trans (hinf.trans hrank'.symm))
      have hlarge : ¬ ofRank false infinityRank < 1e16 := by decide
      have hlarge' : ¬ infinityRank < firstLarge := by decide
      rw [heq, hinf]
      exact iff_of_false (fun h => hlarge h.2) fun h => hlarge' h.2
    · have hfinite : IsFinite x.abs := by
        rw [IsFinite, hrank]
        exact Nat.lt_of_le_of_ne hle hinf
      have hlow : IsFinite 1e-4 ∧ signedUnits 1e-4 = units firstPointed := by decide
      have hhigh : IsFinite 1e16 ∧ signedUnits 1e16 = units firstLarge := by decide
      rw [le_iff hlow.1 hfinite, lt_iff hfinite hhigh.1, (of_not_isNegative hsign).2, hrank,
        hlow.2, hhigh.2, Int.ofNat_le, Int.ofNat_lt, units_strictMono.le_iff_le,
        units_strictMono.lt_iff_lt]
  · have hnan : ¬ Float.nan.abs < 1e16 := by decide
    have hlarge : firstLarge < infinityRank := by decide
    obtain rfl := eq_nan_of_rank (Nat.lt_of_not_le hle)
    exact iff_of_false (fun h => hnan h.2) fun h => hle (h.2.trans hlarge).le

theorem beq_zero_iff (x : Float) : (x == 0) = true ↔ rankOf x = 0 := by
  cases hnan : x.isNaN with
  | true =>
    have hrank := isNaN_iff_rank.1 hnan
    have hno : ¬ (Float.nan == 0) = true := by decide
    obtain rfl := eq_nan_of_rank hrank
    exact iff_of_false hno fun hz => absurd hrank (by rw [hz]; decide)
  | false =>
    have hzero : (0 : Float).isNaN = false ∧ rankOf 0 = 0 := by decide
    rw [beq_iff hnan hzero.1, hzero.2]
    exact ⟨fun h => h.1, fun h => ⟨h, .inr h⟩⟩

end Sizes

end Decimal

/-- A text without blanks has none at its ends. -/
theorem Text.trim_of_not_blank {text : List Char} (h : ∀ c ∈ text, isBlank c = false) :
    trim text = text := by
  have hkept (text : List Char) (h : ∀ c ∈ text, isBlank c = false) :
      text.dropWhile isBlank = text := by
    cases text with
    | nil => rfl
    | cons c rest => exact List.dropWhile_cons_of_neg (by simp [h c List.mem_cons_self])
  have hreverse : ∀ c ∈ text.reverse, isBlank c = false := fun c hc => h c (List.mem_reverse.1 hc)
  rw [trim, hkept text h, hkept text.reverse hreverse, List.reverse_reverse]

namespace Decimal
variable {x : Float}

/-- The numeral in the text of a number is read back with its sign. -/
theorem signedValue?_text (hx : x.isNaN = false) (h : isNumeral (unsignedText (rankOf x)) = true)
    (hr : rankOf x < infinityRank) :
    ∃ y, signedValue? (text x).toList = some y ∧ (y == x) = true := by
  have hrank := numeralRank_unsignedText hr h
  obtain ⟨hpos, hpos'⟩ := @ofRank_fields false (rankOf x) (Nat.le_of_lt hr)
  obtain ⟨hneg, hneg'⟩ := @ofRank_fields true (rankOf x) (Nat.le_of_lt hr)
  have hsigned : (isNegative x && rankOf x != 0) = true ↔ isNegative x = true ∧ rankOf x ≠ 0 := by
    rw [Bool.and_eq_true, bne_iff_ne]
  rw [text_eq hx, String.toList_ofList]
  by_cases hminus : (isNegative x && rankOf x != 0) = true
  · refine ⟨ofRank true (rankOf x), ?_, (beq_iff ?_ hx).2 ⟨hneg, .inl ?_⟩⟩
    · rw [if_pos hminus, signedValue?, if_pos h, hrank]
    · exact isNaN_ofRank (Nat.le_of_lt hr)
    · rw [hneg', (hsigned.1 hminus).1]
  · refine ⟨ofRank false (rankOf x), ?_, (beq_iff ?_ hx).2 ⟨hpos, ?_⟩⟩
    · rw [if_neg hminus, signedValue?_of_isNumeral h, numeralValue, hrank]
    · exact isNaN_ofRank (Nat.le_of_lt hr)
    · rw [hpos, hpos']
      by_cases hz : rankOf x = 0
      · exact .inr hz
      · have hplus : ¬ isNegative x = true := fun hs => hminus (hsigned.2 ⟨hs, hz⟩)
        exact .inl (Bool.eq_false_of_not_eq_true hplus).symm

/-- The text of a number is no signed numeral if it is none without its sign. -/
theorem signedValue?_text_eq_none (h : ¬ isNumeral (unsignedText (rankOf x)) = true) :
    signedValue? (text x).toList = none := by
  cases hx : x.isNaN with
  | true =>
    rw [text, if_pos (isNaN_iff_rank.1 hx)]
    rfl
  | false =>
    rw [text_eq hx, String.toList_ofList]
    split
    · rw [signedValue?, if_neg h]
    · exact signedValue?_eq_none h fun numeral hminus =>
        absurd hminus (unsignedText_ne_minus _ _)

end Decimal

/-- The text of a number is read back as the number it is equal to, if it is zero or its size is at
least `1e-4` and below `1e16`. The text of any other number, infinity and what is no number
included, is refused as an operand. -/
theorem number_of_rendered (x : Float) (site : Node) (s : Machine) :
    let content := (Value.number x).render
    ((x == 0) = true ∨ 1e-4 ≤ x.abs ∧ x.abs < 1e16 →
      ∃ y, Machine.number (.text content) site s = .ok y s ∧ (y == x) = true) ∧
    (¬ ((x == 0) = true ∨ 1e-4 ≤ x.abs ∧ x.abs < 1e16) →
      Machine.number (.text content) site s =
          .error (.fault (.notNumeric content (some site))) s ∧
        (Fault.notNumeric content (some site)).diagnostic.category = .operand) := by
  intro content
  have htrim : Text.trim content.toList = content.toList :=
    Text.trim_of_not_blank (Decimal.not_blank_text x)
  rw [Decimal.beq_zero_iff, Decimal.size_iff, ← Decimal.isNumeral_unsignedText_iff]
  constructor
  · intro h
    have hr : Decimal.rankOf x < Decimal.infinityRank := by
      rcases (Decimal.isNumeral_unsignedText_iff _).1 h with hz | ⟨-, hlarge⟩
      · rw [hz]
        decide
      · exact hlarge.trans (by decide)
    have hx : x.isNaN = false := by
      rw [Bool.eq_false_iff, ne_eq, Decimal.isNaN_iff_rank]
      exact Nat.lt_asymm hr
    obtain ⟨y, hy, hequal⟩ := Decimal.signedValue?_text hx h hr
    have hread : Decimal.signedValue? content.toList = some y := hy
    refine ⟨y, ?_, hequal⟩
    rw [Machine.number, Value.toNumber, htrim, hread]
    rfl
  · intro h
    have hnone : Decimal.signedValue? content.toList = none := Decimal.signedValue?_text_eq_none h
    refine ⟨?_, rfl⟩
    rw [Machine.number, Value.toNumber, htrim, hnone, String.ofList_toList]
    rfl

/-- The greatest number below the border is read back, and the border itself is refused. -/
theorem number_of_rendered_border :
    let s : Machine := .start ⟨.empty, [], fun _ => 0, 0, [], "/"⟩
    (∃ y, Machine.number (.text "9999999999999998") .read s = .ok y s ∧
      (y == 9999999999999998) = true) ∧
    Machine.number (.text "1e+16") .read s =
      .error (.fault (.notNumeric "1e+16" (some .read))) s := by
  intro s
  have hbelow : (Value.number 9999999999999998).render = "9999999999999998" := by decide +kernel
  have hborder : (Value.number 1e16).render = "1e+16" := by decide +kernel
  obtain ⟨hread, -⟩ := number_of_rendered 9999999999999998 .read s
  obtain ⟨-, hrefused⟩ := number_of_rendered 1e16 .read s
  rw [hbelow] at hread
  rw [hborder] at hrefused
  exact ⟨hread (by decide), (hrefused (by decide)).1⟩

end PrefixScript
