import PrefixScript.Decimal.Layout
import PrefixScript.Decimal.Written
import PrefixScript.Proofs.Languages
import PrefixScript.Proofs.NearestRank

/-!
# Decimals as text

The text of a decimal is read back as a decimal of the same value, wherever its point stands and
whether it has an exponent or not. So the text of a double without its sign is read as this double,
and no two doubles have one text.
-/
namespace PrefixScript.Decimal

/-! ## Digits -/

section Digits
variable {digits : List Char}

theorem isDigit_of_mem_toDigits {n : Nat} {c : Char} (h : c ∈ Nat.toDigits 10 n) :
    isDigit c = true := by
  have hdigit := Nat.isDigit_of_mem_toDigits (by decide) (by decide) h
  rw [Char.isDigit, Bool.and_eq_true, decide_eq_true_eq, decide_eq_true_eq] at hdigit
  rw [isDigit, Bool.and_eq_true, decide_eq_true_eq, decide_eq_true_eq]
  exact hdigit

theorem isDigit_of_mem_zeros {count : Nat} {c : Char} (h : c ∈ List.replicate count '0') :
    isDigit c = true := by
  rw [List.eq_of_mem_replicate h]
  rfl

theorem ofDigitChars_zeros_append (count : Nat) (digits : List Char) :
    Nat.ofDigitChars 10 (List.replicate count '0' ++ digits) 0 = Nat.ofDigitChars 10 digits 0 := by
  rw [Nat.ofDigitChars_append, Nat.ofDigitChars_replicate_zero, Nat.mul_zero]

theorem dropZeros_append_zeros (digits : List Char) :
    ∃ count, dropZeros digits ++ List.replicate count '0' = digits := by
  refine ⟨(digits.reverse.takeWhile (· == '0')).length, ?_⟩
  have hzeros : digits.reverse.takeWhile (· == '0') =
      List.replicate (digits.reverse.takeWhile (· == '0')).length '0' :=
    List.eq_replicate_of_mem fun c hc => eq_of_beq (@List.mem_takeWhile_imp _ (· == '0') _ _ hc)
  rw [dropZeros, ← List.reverse_replicate, ← hzeros, ← List.reverse_append,
    List.takeWhile_append_dropWhile, List.reverse_reverse]

theorem isDigit_of_mem_dropZeros {n : Nat} : ∀ c ∈ dropZeros (Nat.toDigits 10 n), isDigit c := by
  intro c hc
  obtain ⟨count, hcount⟩ := dropZeros_append_zeros (Nat.toDigits 10 n)
  exact isDigit_of_mem_toDigits (hcount ▸ List.mem_append_left _ hc)

/-- Zeros at the end of the digits stand for a power of ten. -/
theorem value_append_zeros (digits : List Char) (count : Nat) (exponent : Int) :
    (Nat.ofDigitChars 10 (digits ++ List.replicate count '0') 0 : ℚ) * 10 ^ exponent =
      Nat.ofDigitChars 10 digits 0 * 10 ^ (count + exponent) := by
  have hten : (10 : ℚ) ≠ 0 := by decide
  rw [Nat.ofDigitChars_append, Nat.ofDigitChars_replicate_zero, zpow_add₀ hten, zpow_natCast]
  push_cast
  rw [mul_comm ((10 : ℚ) ^ count), mul_assoc]

end Digits

/-! ## Reading a text back -/

/-- The text is read as a decimal of this value. -/
def Writes (text : List Char) (value : ℚ) : Prop := ∃ d, scaled? text = some d ∧ d.value = value

section Reading
variable {whole places rest digits : List Char} {exponent point : Int}

/-- Digits without a point, and what follows them. -/
theorem Writes.of_whole (hne : whole ≠ []) (hwhole : ∀ c ∈ whole, isDigit c)
    (hrest : ∀ c ∈ rest.head?, isDigit c = false ∧ c ≠ '.') (he : exponent? rest = some exponent) :
    Writes (whole ++ rest) (Nat.ofDigitChars 10 whole 0 * 10 ^ exponent) := by
  have htake := Text.takeWhile_run_append hwhole fun c hc => (hrest c hc).1
  refine ⟨⟨Nat.ofDigitChars 10 whole 0, exponent⟩, ?_, rfl⟩
  simp only [scaled?, htake, List.drop_left]
  split
  · exact absurd rfl (hrest '.' rfl).2
  · simp [he, hne]

/-- Digits with a point among them, and what follows them. -/
theorem Writes.of_point (hne : whole ≠ []) (hwhole : ∀ c ∈ whole, isDigit c)
    (hplaces : ∀ c ∈ places, isDigit c) (hrest : ∀ c ∈ rest.head?, isDigit c = false)
    (he : exponent? rest = some exponent) :
    Writes (whole ++ '.' :: (places ++ rest))
      (Nat.ofDigitChars 10 (whole ++ places) 0 * 10 ^ (exponent - places.length)) := by
  have htake : (whole ++ '.' :: (places ++ rest)).takeWhile isDigit = whole :=
    Text.takeWhile_run hwhole rfl
  have hplaced := Text.takeWhile_run_append hplaces hrest
  have hdrop : (places ++ rest).dropWhile isDigit = rest := by
    rw [← Text.drop_length_takeWhile, hplaced, List.drop_left]
  refine ⟨⟨Nat.ofDigitChars 10 (whole ++ places) 0, exponent - places.length⟩, ?_, rfl⟩
  simp [scaled?, htake, hdrop, hplaced, he, hne]

/-- The value of digits with the point after the first `point` of them. -/
theorem writes_positional (hne : digits ≠ []) (hdigits : ∀ c ∈ digits, isDigit c) (point : Int) :
    Writes (positional digits point)
      (Nat.ofDigitChars 10 digits 0 * 10 ^ (point - digits.length)) := by
  have hnone : ∀ c ∈ ([] : List Char).head?, isDigit c = false := nofun
  have hzeros (count : Nat) : ∀ c ∈ List.replicate count '0', isDigit c :=
    fun c => isDigit_of_mem_zeros
  unfold positional
  split
  case isTrue hpoint =>
    have hplaces := List.forall_mem_append.2 ⟨hzeros (-point).toNat, hdigits⟩
    have hwrites := Writes.of_point (List.cons_ne_nil '0' []) (hzeros 1) hplaces hnone rfl
    have hvalue := ofDigitChars_zeros_append ((-point).toNat + 1) digits
    have hexponent : (0 : Int) - ((-point).toNat + digits.length : Nat) =
      point - digits.length := by omega
    rw [List.append_nil, List.length_append, List.length_replicate, hexponent] at hwrites
    rw [← hvalue]
    exact hwrites
  case isFalse hpoint =>
    split
    case isTrue hwithin =>
      have hwhole : digits.take point.toNat ≠ [] := by
        rw [← List.length_pos_iff, List.length_take]
        omega
      have hplaces : ∀ c ∈ digits.drop point.toNat, isDigit c :=
        fun c hc => hdigits c (List.mem_of_mem_drop hc)
      have hwrites := Writes.of_point hwhole (fun c hc => hdigits c (List.mem_of_mem_take hc))
        hplaces hnone rfl
      have hexponent : (0 : Int) - (digits.length - point.toNat : Nat) =
        point - digits.length := by omega
      rwa [List.append_nil, List.take_append_drop, List.length_drop, hexponent] at hwrites
    case isFalse hbeyond =>
      have hwhole := List.forall_mem_append.2
        ⟨hdigits, hzeros (point.toNat - digits.length)⟩
      have hwrites := Writes.of_point (List.append_ne_nil_of_left_ne_nil hne _) hwhole (hzeros 1)
        hnone rfl
      have hexponent : ((point.toNat - digits.length + 1 : Nat) : Int) + (0 - (1 : Nat)) =
        point - digits.length := by omega
      rw [List.append_nil, List.append_assoc digits _ (List.replicate 1 '0'),
        List.replicate_append_replicate, value_append_zeros, List.length_replicate,
        hexponent] at hwrites
      exact hwrites

/-- The mark, the sign and the digits of an exponent. -/
def exponentText (exponent : Int) : List Char :=
  'e' :: (if exponent < 0 then '-' else '+') ::
    (List.replicate (2 - (Nat.toDigits 10 exponent.natAbs).length) '0' ++
      Nat.toDigits 10 exponent.natAbs)

theorem head_exponentText (exponent : Int) :
    ∀ c ∈ (exponentText exponent).head?, isDigit c = false ∧ c ≠ '.' := by
  rintro c ⟨⟩
  decide

/-- An exponent is read back. -/
theorem exponent?_exponentText (exponent : Int) :
    exponent? (exponentText exponent) = some exponent := by
  unfold exponentText
  generalize hplaces : List.replicate (2 - (Nat.toDigits 10 exponent.natAbs).length) '0' ++
    Nat.toDigits 10 exponent.natAbs = places
  have hvalue : Nat.ofDigitChars 10 places 0 = exponent.natAbs := by
    rw [← hplaces, ofDigitChars_zeros_append, Nat.ofDigitChars_ten_toDigits]
  have hne : places ≠ [] := hplaces ▸ List.append_ne_nil_of_right_ne_nil _ Nat.toDigits_ne_nil
  have hdigits : ∀ c ∈ places, isDigit c := hplaces ▸ List.forall_mem_append.2
    ⟨fun c => isDigit_of_mem_zeros, fun c => isDigit_of_mem_toDigits⟩
  have hread : 'e'.toLower = 'e' ∧ (!places.isEmpty) = true ∧ places.all isDigit = true :=
    ⟨rfl, by simpa using hne, List.all_eq_true.2 hdigits⟩
  by_cases hnegative : exponent < 0
  · simp only [exponent?, if_pos hnegative, splitSign, hvalue]
    rw [if_pos hread, if_pos trivial, show -(exponent.natAbs : Int) = exponent by omega]
  · simp only [exponent?, if_neg hnegative, splitSign, hvalue]
    rw [if_pos hread, if_neg Bool.false_ne_true, show (exponent.natAbs : Int) = exponent by omega]

/-- The value of digits with an exponent. -/
theorem writes_exponential (hne : digits ≠ []) (hdigits : ∀ c ∈ digits, isDigit c)
    (exponent : Int) :
    Writes (exponential digits exponent)
      (Nat.ofDigitChars 10 digits 0 * 10 ^ (exponent + 1 - digits.length)) := by
  have hhead := head_exponentText exponent
  have hread := exponent?_exponentText exponent
  unfold exponential
  rw [List.append_assoc]
  split
  case h_1 first second more =>
    obtain ⟨hfirst, hplaces⟩ := List.forall_mem_cons.1 hdigits
    have hwrites := Writes.of_point (List.cons_ne_nil first []) (by simpa using hfirst) hplaces
      (fun c hc => (hhead c hc).1) hread
    have hexponent : exponent - (second :: more).length =
        exponent + 1 - (first :: second :: more).length := by
      simp only [List.length_cons]
      omega
    rw [hexponent] at hwrites
    exact hwrites
  case h_2 hshort =>
    have hlength : digits.length = 1 := by
      rcases digits with _ | ⟨first, _ | ⟨second, more⟩⟩
      · exact absurd rfl hne
      · rfl
      · exact absurd rfl (hshort first second more)
    have hwrites := Writes.of_whole hne hdigits hhead hread
    have hexponent : exponent + 1 - digits.length = exponent := by omega
    rw [hexponent]
    exact hwrites

end Reading

/-! ## Texts of doubles -/

theorem dropZeros_toDigits_ne_nil {n : Nat} (h : n ≠ 0) : dropZeros (Nat.toDigits 10 n) ≠ [] := by
  intro hnil
  obtain ⟨count, hcount⟩ := dropZeros_append_zeros (Nat.toDigits 10 n)
  rw [hnil, List.nil_append] at hcount
  apply h
  rw [← Nat.ofDigitChars_ten_toDigits (n := n), ← hcount, Nat.ofDigitChars_replicate_zero,
    Nat.mul_zero]

/-- The text of a decimal is read back with its value. -/
theorem Scaled.writes_text {d : Scaled} (h : d.coefficient ≠ 0) : Writes d.text d.value := by
  obtain ⟨count, hcount⟩ := dropZeros_append_zeros (Nat.toDigits 10 d.coefficient)
  have hne := dropZeros_toDigits_ne_nil h
  have hdigits : ∀ c ∈ dropZeros (Nat.toDigits 10 d.coefficient), isDigit c :=
    isDigit_of_mem_dropZeros
  have hlength := congrArg List.length hcount
  rw [List.length_append, List.length_replicate] at hlength
  have hvalue : d.value = Nat.ofDigitChars 10 (dropZeros (Nat.toDigits 10 d.coefficient)) 0 *
      10 ^ ((Nat.toDigits 10 d.coefficient).length + d.exponent -
        (dropZeros (Nat.toDigits 10 d.coefficient)).length) := by
    have hexponent : (Nat.toDigits 10 d.coefficient).length + d.exponent -
        (dropZeros (Nat.toDigits 10 d.coefficient)).length = count + d.exponent := by omega
    rw [hexponent, ← value_append_zeros, hcount, Nat.ofDigitChars_ten_toDigits, value]
  rw [hvalue, text]
  split
  · exact writes_positional hne hdigits _
  · have hwrites := writes_exponential hne hdigits
      ((Nat.toDigits 10 d.coefficient).length + d.exponent - 1)
    rwa [Int.sub_add_cancel] at hwrites

theorem isShortInteger_zero : isShortInteger 0 = true := by
  have hlimit : 0 < integerLimit * one := Nat.mul_pos (by decide) one_pos
  rw [isShortInteger, units_zero, Nat.zero_mod, decide_eq_true hlimit]
  rfl

/-- A whole number reads as its double. -/
theorem whole_readsAs {rank : Nat} (h : units rank % one = 0) :
    Scaled.readsAs ⟨units rank / one, 0⟩ rank = true := by
  refine Scaled.readsAs_of_value ?_
  rw [Scaled.num, Scaled.den, Int.neg_zero, Int.toNat_zero, Nat.pow_eq, pow_zero, Nat.mul_one,
    Nat.mul_one]
  exact Nat.div_mul_cancel (Nat.dvd_of_mod_eq_zero h)

/-- The text of a double without its sign is read as this double. -/
theorem finiteText_readsAs (rank : Nat) :
    ∃ d, scaled? (finiteText rank) = some d ∧ d.readsAs rank = true := by
  have hread {d : Scaled} {text : List Char} (hwrites : Writes text d.value)
      (hd : d.readsAs rank = true) : ∃ e, scaled? text = some e ∧ e.readsAs rank = true := by
    obtain ⟨e, he, hvalue⟩ := hwrites
    exact ⟨e, he, (Scaled.readsAs_congr hvalue rank).trans hd⟩
  unfold finiteText
  split
  case isTrue hshort =>
    rw [isShortInteger, Bool.and_eq_true, beq_iff_eq] at hshort
    have hwrites := @Writes.of_whole (Nat.toDigits 10 (units rank / one)) [] 0
      Nat.toDigits_ne_nil (fun c => isDigit_of_mem_toDigits) (fun c hc => nomatch hc) rfl
    rw [List.append_nil, Nat.ofDigitChars_ten_toDigits] at hwrites
    exact @hread ⟨units rank / one, 0⟩ _ hwrites (whole_readsAs hshort.1)
  case isFalse hshort =>
    have hpos : 0 < rank := Nat.pos_of_ne_zero fun hz => hshort (hz ▸ isShortInteger_zero)
    have hcoefficient := Scaled.coefficient_pos hpos (shortest_readsAs rank)
    exact hread (Scaled.writes_text (Nat.ne_of_gt hcoefficient)) (shortest_readsAs rank)

end PrefixScript.Decimal
