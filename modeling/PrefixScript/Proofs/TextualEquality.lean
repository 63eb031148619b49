import PrefixScript.Evaluation
import PrefixScript.Proofs.DecimalTexts
import PrefixScript.Proofs.Outcome

/-!
# Equality of values

Two numbers are compared as numbers and other values by their texts. Apart from what is no number
the two ways agree: numbers are equal exactly if their texts are. So equality is an equivalence of
values of all kinds.
-/
namespace PrefixScript

namespace Decimal
variable {x y : Float}

/-- The text of a double without its sign. -/
def unsignedText (rank : Nat) : List Char :=
  if rank = infinityRank then ['i', 'n', 'f'] else finiteText rank

theorem text_eq (h : x.isNaN = false) : text x = String.ofList
    (if isNegative x && rankOf x != 0 then '-' :: unsignedText (rankOf x)
      else unsignedText (rankOf x)) := by
  rw [Bool.eq_false_iff, ne_eq, isNaN_iff_rank] at h
  simp only [text, if_neg h, unsignedText]

theorem unsignedText_ne_minus (rank : Nat) (rest : List Char) :
    unsignedText rank ≠ '-' :: rest := by
  intro h
  unfold unsignedText at h
  split at h
  · cases h
  · obtain ⟨d, hd, -⟩ := finiteText_readsAs rank
    rw [h] at hd
    cases hd

/-- No two doubles have one text, signs apart. -/
theorem unsignedText_injective : Function.Injective unsignedText := by
  intro rank rank' h
  unfold unsignedText at h
  obtain ⟨d, hd, hread⟩ := finiteText_readsAs rank
  obtain ⟨d', hd', hread'⟩ := finiteText_readsAs rank'
  split at h <;> split at h
  case isTrue.isTrue hr hr' => rw [hr, hr']
  case isTrue.isFalse =>
    rw [← h] at hd'
    cases hd'
  case isFalse.isTrue =>
    rw [h] at hd
    cases hd
  case isFalse.isFalse =>
    rw [h, hd'] at hd
    cases hd
    exact Scaled.readsAs_unique hread hread'

theorem eq_of_rankOf_eq_zero (h : rankOf x = 0) : x = if isNegative x then -0 else 0 := by
  cases hs : isNegative x
  · exact eq_of_rankOf_eq hs h
  · exact eq_of_rankOf_eq hs h

/-- Numbers are equal if they have the same rank and sign, and zeros are whatever their signs. -/
theorem beq_iff (hx : x.isNaN = false) (hy : y.isNaN = false) : (x == y) = true ↔
    rankOf x = rankOf y ∧ (isNegative x = isNegative y ∨ rankOf x = 0) := by
  rw [Float.isNaN_eq_decide_eq_nan, decide_eq_false_iff_not] at hx hy
  rw [Float.beq_iff_ne_nan_and_eq]
  constructor
  · rintro ⟨-, -, rfl | ⟨rfl, rfl⟩ | ⟨rfl, rfl⟩⟩
    · exact ⟨rfl, .inl rfl⟩
    · decide
    · decide
  · rintro ⟨hrank, hsign | hzero⟩
    · exact ⟨hx, hy, .inl (eq_of_rankOf_eq hsign hrank)⟩
    · refine ⟨hx, hy, ?_⟩
      rw [@eq_of_rankOf_eq_zero x hzero, @eq_of_rankOf_eq_zero y (hrank ▸ hzero)]
      cases isNegative x <;> cases isNegative y <;> simp

/-- Numbers are equal exactly if their texts are. -/
theorem beq_iff_text (hx : x.isNaN = false) (hy : y.isNaN = false) :
    (x == y) = true ↔ text x = text y := by
  have hsigned (z : Float) : (isNegative z && rankOf z != 0) = true ↔
      isNegative z = true ∧ rankOf z ≠ 0 := by rw [Bool.and_eq_true, bne_iff_ne]
  rw [beq_iff hx hy, text_eq hx, text_eq hy, String.ofList_inj]
  constructor
  · rintro ⟨hrank, hsign | hzero⟩
    · rw [hrank, hsign]
    · rw [← hrank, hzero, bne_self_eq_false, Bool.and_false, Bool.and_false]
  · intro htext
    split at htext <;> split at htext
    case isTrue.isTrue hnx hny =>
      rw [hsigned] at hnx hny
      exact ⟨unsignedText_injective (List.tail_eq_of_cons_eq htext),
        .inl (hnx.1.trans hny.1.symm)⟩
    case isTrue.isFalse => exact absurd htext.symm (unsignedText_ne_minus _ _)
    case isFalse.isTrue => exact absurd htext (unsignedText_ne_minus _ _)
    case isFalse.isFalse hnx hny =>
      have hrank := unsignedText_injective htext
      rw [hsigned] at hnx hny
      grind

end Decimal

namespace Value

/-- Whether a value is the double that is no number. -/
def isNaN : Value → Bool
  | number x => x.isNaN
  | _ => false

/-- Values are the same exactly if they have the same text. -/
theorem same_iff {a b : Value} (ha : a.isNaN = false) (hb : b.isNaN = false) :
    a.same b = true ↔ a.render = b.render := by
  cases a <;> cases b
  case number.number x y => exact Decimal.beq_iff_text ha hb
  all_goals exact beq_iff_eq

end Value

namespace Evaluation
open Machine

section Comparisons
variable {rounds depth : Nat} {left right : Node} {before between after : Machine} {a b : Value}

theorem eval_equal (hleft : eval rounds depth left before = .ok a between)
    (hright : eval rounds depth right between = .ok b after) :
    eval rounds (depth + 1) (.comparison "==" left right) before =
      .ok (.bool (a.same b)) after := by
  rw [eval, bind_of_ok hleft, bind_of_ok hright]
  rfl

theorem eval_different (hleft : eval rounds depth left before = .ok a between)
    (hright : eval rounds depth right between = .ok b after) :
    eval rounds (depth + 1) (.comparison "!=" left right) before =
      .ok (.bool !a.same b) after := by
  rw [eval, bind_of_ok hleft, bind_of_ok hright]
  rfl

end Comparisons

/-- A comparison yields whether the texts of two values are the same or differ, also if both are
numbers. So in every machine the equality of values of all kinds is an equivalence. -/
theorem comparison_by_text {rounds depth : Nat} :
    (∀ {left right : Node} {before between after : Machine} {a b : Value},
      eval rounds depth left before = .ok a between →
      eval rounds depth right between = .ok b after →
      a.isNaN = false → b.isNaN = false →
      eval rounds (depth + 1) (.comparison "==" left right) before =
          .ok (.bool (decide (a.render = b.render))) after ∧
        eval rounds (depth + 1) (.comparison "!=" left right) before =
          .ok (.bool (decide (a.render ≠ b.render))) after) ∧
    ∀ s, Equivalence fun a b : { value : Value // value.isNaN = false } =>
      eval rounds (depth + 2) (.comparison "==" (.literal a) (.literal b)) s =
        .ok (.bool true) s := by
  constructor
  · intro left right before between after a b hleft hright ha hb
    have hsame : a.same b = decide (a.render = b.render) :=
      Bool.eq_iff_iff.2 ((Value.same_iff ha hb).trans decide_eq_true_iff.symm)
    rw [eval_equal hleft hright, eval_different hleft hright, hsame, decide_not]
    exact ⟨rfl, rfl⟩
  · intro s
    have hequal (a b : { value : Value // value.isNaN = false }) :
        eval rounds (depth + 2) (.comparison "==" (.literal a) (.literal b)) s =
          .ok (.bool true) s ↔ a.1.render = b.1.render := by
      have hstep : eval rounds (depth + 2) (.comparison "==" (.literal a) (.literal b)) s =
          .ok (.bool (a.1.same b.1)) s := eval_equal rfl rfl
      rw [hstep, ← Value.same_iff a.2 b.2]
      exact ⟨fun h => by injections, fun hsame => by rw [hsame]⟩
    simp only [hequal]
    exact ⟨fun _ => rfl, Eq.symm, Eq.trans⟩

/-- The sum of `0.1` and `0.2` is equal to the text of its seventeen digits. -/
theorem comparison_by_text_of_sum :
    let sum := Node.math "+" (.literal (.number 0.1)) (.literal (.number 0.2))
    let digits := Node.literal (.text "0.30000000000000004")
    let s := Machine.start ⟨.empty, [], fun _ => 0, 0, [], "/"⟩
    eval 0 2 sum s = .ok (.number (0.1 + 0.2)) s ∧
      eval 0 2 digits s = .ok (.text "0.30000000000000004") s ∧
      (Value.number (0.1 + 0.2)).isNaN = false ∧
      eval 0 3 (.comparison "==" sum digits) s = .ok (.bool true) s ∧
      eval 0 3 (.comparison "!=" sum digits) s = .ok (.bool false) s := by
  intro sum digits s
  have hsum : eval 0 2 sum s = .ok (.number (0.1 + 0.2)) s := rfl
  have hdigits : eval 0 2 digits s = .ok (.text "0.30000000000000004") s := rfl
  have hnumber : (Value.number (0.1 + 0.2)).isNaN = false := by decide +kernel
  have hsame : (Value.number (0.1 + 0.2)).render =
      (Value.text "0.30000000000000004").render := by decide +kernel
  have hresult := comparison_by_text.1 hsum hdigits hnumber rfl
  rw [decide_eq_true hsame, decide_eq_false (not_not_intro hsame)] at hresult
  exact ⟨hsum, hdigits, hnumber, hresult⟩

end Evaluation

end PrefixScript
