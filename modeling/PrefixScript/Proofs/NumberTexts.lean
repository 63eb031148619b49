import PrefixScript.Proofs.CanonicalSource
import PrefixScript.Proofs.Doubles

/-!
# Numbers in texts

A text is a number if, blanks at its ends and one minus apart, a source of this text is one number
token. Its value is that of the literal, negated if there is a minus. So no sign, exponent, digit of
another script or word that a more liberal reader of numbers takes is accepted, and no text is the
double that is no number.
-/
namespace PrefixScript

namespace Decimal

/-! ## Values of numerals -/

/-- Halving an interval stays in it. -/
theorem bisect_le {isTooLow : Nat → Bool} {steps low high : Nat} (h : low ≤ high) :
    bisect isTooLow steps low high ≤ high := by
  induction steps generalizing low high with
  | zero => exact h
  | succ steps ih =>
    rw [bisect]
    split
    · dsimp only
      split
      · exact ih (by omega)
      · exact le_trans (ih (by omega)) (by omega)
    · exact h

theorem numeralRank_le (numeral : List Char) : numeralRank numeral ≤ infinityRank :=
  bisect_le (Nat.zero_le _)

theorem isNaN_ofRank {negative : Bool} {rank : Nat} (h : rank ≤ infinityRank) :
    (ofRank negative rank).isNaN = false := by
  rw [Bool.eq_false_iff, ne_eq, isNaN_iff_rank, (ofRank_fields h).1]
  exact Nat.not_lt.2 h

theorem neg_numeralValue (numeral : List Char) :
    -numeralValue numeral = ofRank true (numeralRank numeral) :=
  neg_ofRank (numeralRank_le numeral)

end Decimal

/-! ## Number tokens -/

/-- The only token of a source is a number, which is the source as a whole. -/
def OneNumber (directory : String) (before : Assembly) (source : String) : Prop :=
  ∃ after, Assembly.tokens directory source before = .ok [⟨.number, source⟩, .ending] after

/-- A number token with this text, as a program, is the literal of a number. -/
def LiteralOf (source : String) (x : Float) : Prop :=
  ∀ depth, Parse.tokens (depth + 2) [⟨.number, source⟩, .ending] =
    .ok [.print (.literal (.number x)) "implicit"] [.ending]

section Numerals
variable {source : String}

theorem oneNumber_iff (directory : String) (before : Assembly) (source : String) :
    OneNumber directory before source ↔ Decimal.isNumeral source.toList = true := by
  rw [Pattern.isNumeral_iff_mem]
  constructor
  · rintro ⟨after, htokens⟩
    obtain ⟨front, hfront, hscanned⟩ := Assembly.exists_scanned_of_tokens htokens
    obtain rfl : [⟨.number, source⟩] = front := (List.append_left_inj [Token.ending]).1 hfront
    have hstands : Rule.first? source.toList Rule.all =
        some (.token .number, source.toList.length) :=
      (hscanned _ List.mem_cons_self).stands
    obtain ⟨found, rest, htext, hlength, -, hm⟩ := Rule.first?_finds hstands
    obtain rfl : rest = [] := by
      rw [htext, List.length_append] at hlength
      exact List.length_eq_zero_iff.1 (by omega)
    rwa [htext, List.append_nil]
  · intro hm
    have hstands : ∀ token ∈ [(⟨.number, source⟩ : Token)], token.Stands := by
      simpa using Token.stands_number hm
    exact ⟨before, Assembly.tokens_written hstands (.singleton _) directory before⟩

theorem literalOf_numeral (h : Decimal.isNumeral source.toList = true) :
    LiteralOf source (Decimal.numeralValue source.toList) := by
  have hvalue : Decimal.writtenValue? source.toList =
      some (Decimal.numeralValue source.toList) := by
    rw [Decimal.writtenValue?, if_pos h]
  have hread (arities : Arities) (depth : Nat) (rest : List Token) :
      Parse.expression arities (depth + 1) (⟨.number, source⟩ :: rest) =
        .ok (.literal (.number (Decimal.numeralValue source.toList))) rest :=
    Parse.expression_number rfl hvalue
  exact Parse.tokens_of_literal (.inl rfl) hread

end Numerals

/-! ## Texts as numbers -/

namespace Decimal
variable {text numeral : List Char}

theorem not_isNumeral_minus (numeral : List Char) : isNumeral ('-' :: numeral) = false := rfl

theorem signedValue?_of_isNumeral (h : isNumeral text = true) :
    signedValue? text = some (numeralValue text) := by
  unfold signedValue?
  split
  · rw [not_isNumeral_minus] at h
    cases h
  · rw [if_pos h]

theorem signedValue?_minus (h : isNumeral numeral = true) :
    signedValue? ('-' :: numeral) = some (-numeralValue numeral) := by
  rw [signedValue?, if_pos h, neg_numeralValue]

theorem signedValue?_eq_none (h : ¬ isNumeral text = true)
    (hminus : ∀ numeral, text = '-' :: numeral → ¬ isNumeral numeral = true) :
    signedValue? text = none := by
  unfold signedValue?
  split
  · rw [if_neg (hminus _ rfl)]
  · rw [if_neg h]

end Decimal

/-- A text is a number exactly if, trimmed and without one minus in front, it is the only token of a
source of this text, a number. The value is that of the literal, and never what is no number. Any
other text is refused as an operand. -/
theorem text_is_number_iff_token (content : String) (site : Node) (s : Machine)
    (directory : String) (before : Assembly) :
    let trimmed := String.ofList (Text.trim content.toList)
    (OneNumber directory before trimmed → ∃ x, LiteralOf trimmed x ∧ x.isNaN = false ∧
      Machine.number (.text content) site s = .ok x s) ∧
    (∀ numeral, trimmed = "-" ++ numeral → OneNumber directory before numeral →
      ∃ x, LiteralOf numeral x ∧ (-x).isNaN = false ∧
        Machine.number (.text content) site s = .ok (-x) s) ∧
    (¬ OneNumber directory before trimmed →
      (∀ numeral, trimmed = "-" ++ numeral → ¬ OneNumber directory before numeral) →
      Machine.number (.text content) site s =
          .error (.fault (.notNumeric trimmed (some site))) s ∧
        (Fault.notNumeric trimmed (some site)).diagnostic.category = .operand) := by
  intro trimmed
  have htrimmed : trimmed.toList = Text.trim content.toList := String.toList_ofList
  have hminus (numeral : String) :
      trimmed = "-" ++ numeral ↔ Text.trim content.toList = '-' :: numeral.toList := by
    rw [← String.toList_inj, htrimmed, String.toList_append]
    rfl
  simp only [oneNumber_iff, htrimmed, hminus]
  refine ⟨fun hn => ?_, fun numeral htext hn => ?_, fun hn hm => ⟨?_, rfl⟩⟩
  · refine ⟨Decimal.numeralValue (Text.trim content.toList), ?_,
      Decimal.isNaN_ofRank (Decimal.numeralRank_le _), ?_⟩
    · rw [← htrimmed] at hn ⊢
      exact literalOf_numeral hn
    · rw [Machine.number, Value.toNumber, Decimal.signedValue?_of_isNumeral hn]
      rfl
  · refine ⟨Decimal.numeralValue numeral.toList, literalOf_numeral hn, ?_, ?_⟩
    · rw [Decimal.neg_numeralValue]
      exact Decimal.isNaN_ofRank (Decimal.numeralRank_le _)
    · rw [Machine.number, Value.toNumber, htext, Decimal.signedValue?_minus hn]
      rfl
  · have hnone : Decimal.signedValue? (Text.trim content.toList) = none := by
      refine Decimal.signedValue?_eq_none hn fun numeral htext => ?_
      have hsource := hm (String.ofList numeral)
      rw [String.toList_ofList] at hsource
      exact hsource htext
    rw [Machine.number, Value.toNumber, hnone]
    rfl

/-- A number with a minus and blanks around it, and one with a sign that literals lack. -/
theorem text_is_number_iff_token_signs :
    let s : Machine := .start ⟨.empty, [], fun _ => 0, 0, [], "/"⟩
    let before : Assembly := ⟨.start ⟨.empty, [], fun _ => 0, 0, [], "/"⟩ true, .empty⟩
    OneNumber "/" before "5" ∧
    (∃ x, LiteralOf "5" x ∧ (-x).isNaN = false ∧
      Machine.number (.text " -5\n") .read s = .ok (-x) s) ∧
    ¬ OneNumber "/" before "+5" ∧
    Machine.number (.text "+5") .read s = .error (.fault (.notNumeric "+5" (some .read))) s := by
  intro s before
  have hone : OneNumber "/" before "5" := (oneNumber_iff _ _ _).2 (by decide)
  have hnone : ¬ OneNumber "/" before "+5" := fun h =>
    absurd ((oneNumber_iff _ _ _).1 h) (by decide)
  obtain ⟨-, hminus, -⟩ := text_is_number_iff_token " -5\n" .read s "/" before
  obtain ⟨-, -, hrefused⟩ := text_is_number_iff_token "+5" .read s "/" before
  refine ⟨hone, hminus "5" (by decide) hone, hnone, (hrefused hnone fun numeral hn => ?_).1⟩
  have hplus : (String.ofList (Text.trim "+5".toList)).toList = '-' :: numeral.toList := by
    rw [hn, String.toList_append]
    rfl
  cases hplus

end PrefixScript
