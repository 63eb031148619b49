import Mathlib
import PrefixScript.Proofs.Languages

/-!
# Scanning across a line break

What a rule matches in front of a line break does not depend on the text behind it, unless something
is open there: a comment without the end of its line, a run of blanks, a literal without its closing
quote, or an import directive without its name. So if a text is scanned to its end and does not end
with the word of an import directive, then the tokens and directives of the text, a line feed and
another text are those of the one text and then those of the other.
-/
namespace PrefixScript
open Computability

/-! ## First characters -/

/-- The texts of a language are not empty, and their first characters are of a class. -/
def StartWith (language : Language Char) (p : Char → Bool) : Prop :=
  ∀ text ∈ language, text.head?.any p

section StartWith
variable {first second : Language Char} {p : Char → Bool}

theorem StartWith.mul (h : StartWith first p) (second : Language Char) :
    StartWith (first * second) p := by
  intro text hm
  obtain ⟨front, hf, back, -, rfl⟩ := Language.mem_mul.1 hm
  have hfront := h front hf
  cases front with
  | nil => cases hfront
  | cons c more => exact hfront

theorem StartWith.add (h : StartWith first p) (h' : StartWith second p) :
    StartWith (first + second) p := by
  intro text hm
  rcases (Language.mem_add _ _ _).1 hm with hm | hm
  · exact h text hm
  · exact h' text hm

theorem startWith_singleton {text : List Char} (h : text.head?.any p) :
    StartWith {text} p := by
  intro other hm
  rw [Set.mem_singleton_iff.1 hm]
  exact h

theorem startWith_oneOf (p : Char → Bool) : StartWith (oneOf p) p := by
  rintro text ⟨c, hc, rfl⟩
  exact hc

end StartWith

/-- Whether the tokens of a kind are spelled alike and start with a character. -/
def Kind.spelledFrom (kind : Kind) (c : Char) : Bool :=
  kind.spelling?.any fun spelling => spelling.toList.head? == some c

/-- The characters with which the texts of a label start. -/
def Label.starts : Label → Char → Bool
  | comment, c => c == '/'
  | directive, c => c == 'I'
  | blank, c => Text.isBlank c
  | token .number, c => Decimal.isDigit c
  | token .string, c => c == '"' || c == '\''
  | token .identifier, c => Pattern.isWordStart c
  | token kind, c => kind.spelledFrom c

/-- What is spelled alike starts with a character that starts nothing else that may be open at the
end of a text. -/
theorem Kind.exists_head_of_spelling {kind : Kind} {spelling : String}
    (h : kind.spelling? = some spelling) :
    ∃ c, spelling.toList.head? = some c ∧
      Text.isBlank c = false ∧ c ≠ '"' ∧ c ≠ '\'' ∧ c ≠ 'I' := by
  cases kind with
  | number | string | identifier | ending | other => cases h
  | _ =>
    cases h
    exact ⟨_, rfl, by decide⟩

theorem Kind.startWith_spelledFrom (kind : Kind) :
    StartWith {text | kind.spelling? = some (String.ofList text)} kind.spelledFrom := by
  intro text h
  obtain ⟨c, hc, -⟩ := Kind.exists_head_of_spelling h
  rw [String.toList_ofList] at hc
  have hs : kind.spelling? = some (String.ofList text) := h
  simp [spelledFrom, hs, hc]

theorem Kind.of_spelledFrom {kind : Kind} {c : Char} (h : kind.spelledFrom c) :
    Text.isBlank c = false ∧ c ≠ '"' ∧ c ≠ '\'' ∧ c ≠ 'I' := by
  obtain ⟨spelling, hk, hc⟩ := (Option.any_eq_true _ _).1 h
  obtain ⟨d, hd, hfree⟩ := Kind.exists_head_of_spelling hk
  rw [hd, beq_iff_eq, Option.some_inj] at hc
  exact hc ▸ hfree

theorem Label.startWith_language (label : Label) : StartWith label.language label.starts := by
  cases label with
  | comment => exact ((startWith_singleton rfl).mul _).mul _
  | directive => exact ((((startWith_singleton rfl).mul _).mul _).mul _).mul _
  | blank => exact (startWith_oneOf _).mul _
  | token kind =>
    cases kind with
    | number => exact ((startWith_oneOf _).mul _).mul _
    | string =>
      exact .add (((startWith_singleton rfl).mul _).mul _) (((startWith_singleton rfl).mul _).mul _)
    | identifier => exact (startWith_oneOf _).mul _
    | _ => exact Kind.startWith_spelledFrom _

/-- No character of words and numerals is blank. -/
theorem Pattern.isBlank_of_isWordChar {c : Char} (h : isWordChar c) : Text.isBlank c = false := by
  have hc : 48 ≤ c.toNat ∧ c.toNat ≤ 122 := by
    simp only [isWordChar, Char.isAlphanum, Char.isAlpha, Char.isUpper, Char.isLower, Char.isDigit,
      Bool.or_eq_true, Bool.and_eq_true, decide_eq_true_eq, beq_iff_eq, UInt32.le_iff_toNat_le,
      ge_iff_le] at h
    rcases h with ((h | h) | h) | rfl
    · change 65 ≤ c.toNat ∧ c.toNat ≤ 90 at h
      omega
    · change 97 ≤ c.toNat ∧ c.toNat ≤ 122 at h
      omega
    · change 48 ≤ c.toNat ∧ c.toNat ≤ 57 at h
      omega
    · decide
  simp [Text.isBlank, Text.inRanges, Text.blankRanges]
  omega

theorem Pattern.isWordChar_of_isWordStart {c : Char} (h : isWordStart c) : isWordChar c := by
  simp only [isWordStart, isWordChar, Char.isAlphanum, Bool.or_eq_true] at *
  exact h.imp_left .inl

theorem Pattern.isWordChar_of_isDigit {c : Char} (h : Decimal.isDigit c) : isWordChar c := by
  simp only [isWordChar, Char.isAlphanum, Bool.or_eq_true]
  exact .inl (.inr h)

namespace Label
variable {label : Label} {c : Char}

/-- What a token may start with. -/
theorem starts_token {kind : Kind} (h : (token kind).starts c) :
    kind = .string ∧ (c = '"' ∨ c = '\'') ∨ kind = .identifier ∧ Pattern.isWordStart c ∨
      Text.isBlank c = false ∧ c ≠ '"' ∧ c ≠ '\'' ∧ c ≠ 'I' := by
  cases kind with
  | string => exact .inl ⟨rfl, by simpa [starts] using h⟩
  | identifier => exact .inr (.inl ⟨rfl, h⟩)
  | number =>
    have hne : ∀ d, Decimal.isDigit d = false → c ≠ d := by
      rintro d hd rfl
      rw [show Decimal.isDigit c = true from h] at hd
      cases hd
    have hblank := Pattern.isBlank_of_isWordChar (Pattern.isWordChar_of_isDigit h)
    exact .inr (.inr ⟨hblank, hne _ (by decide), hne _ (by decide), hne _ (by decide)⟩)
  | _ =>
    have hs : Kind.spelledFrom _ c := h
    exact .inr (.inr (Kind.of_spelledFrom hs))

/-- Only blanks start with a blank. -/
theorem eq_blank_of_starts (hb : Text.isBlank c) (h : label.starts c) : label = .blank := by
  cases label with
  | blank => rfl
  | comment =>
    rw [beq_iff_eq.1 h] at hb
    exact absurd hb (by decide)
  | directive =>
    rw [beq_iff_eq.1 h] at hb
    exact absurd hb (by decide)
  | token kind =>
    have hnot : Text.isBlank c = false := by
      rcases starts_token h with ⟨-, rfl | rfl⟩ | ⟨-, hc⟩ | ⟨hc, -⟩
      · decide
      · decide
      · exact Pattern.isBlank_of_isWordChar (Pattern.isWordChar_of_isWordStart hc)
      · exact hc
    rw [hnot] at hb
    cases hb

/-- Only literals start with a quote. -/
theorem eq_string_of_starts (hq : c = '"' ∨ c = '\'') (h : label.starts c) :
    label = .token .string := by
  cases label with
  | blank | comment | directive => rcases hq with rfl | rfl <;> cases h
  | token kind =>
    rcases starts_token h with ⟨rfl, -⟩ | ⟨-, hc⟩ | ⟨-, hd, hs, -⟩
    · rfl
    · rcases hq with rfl | rfl <;> cases hc
    · rcases hq with rfl | rfl
      · exact absurd rfl hd
      · exact absurd rfl hs

/-- The word of an import directive starts a directive or is an identifier. -/
theorem eq_of_starts_import (h : label.starts 'I') :
    label = .directive ∨ label = .token .identifier := by
  cases label with
  | directive => exact .inl rfl
  | blank | comment => cases h
  | token kind =>
    rcases starts_token h with ⟨-, hc | hc⟩ | ⟨rfl, -⟩ | ⟨-, -, -, hc⟩
    · cases hc
    · cases hc
    · exact .inr rfl
    · exact absurd rfl hc

end Label

/-! ## Matches by their first characters -/

/-- The pattern of a label that is not spelled alike. -/
def Label.pattern? : Label → Option Pattern
  | comment => some .comment
  | directive => some .directive
  | blank => some .blank
  | token .number => some Decimal.numeralLength
  | token .string => some .literal
  | token .identifier => some .identifier
  | token _ => none

namespace Rule
variable {c : Char} {rest text : List Char} {label : Label} {length : Nat}

theorem first?_starts (h : first? (c :: rest) all = some (label, length)) : label.starts c := by
  obtain ⟨found, behind, htext, -, hne, hm⟩ := first?_finds h
  have hstart := Label.startWith_language label found hm
  cases found with
  | nil => exact absurd rfl hne
  | cons d more =>
    rw [List.cons_append, List.cons.injEq] at htext
    rw [htext.1]
    exact hstart

theorem Form.pattern_eq {rule : Rule} (h : rule.Form) {pattern : Pattern}
    (hp : rule.label.pattern? = some pattern) : rule.pattern = pattern := by
  cases h with
  | symbol hk | word hk =>
    rename_i kind spelling _
    have hnone : (Label.token kind).pattern? = none := by
      cases kind with
      | number | string | identifier => cases hk
      | _ => rfl
    exact absurd (hnone.symm.trans hp) (by simp)
  | _ => exact Option.some.inj hp

theorem first?_pattern (h : first? text all = some (label, length)) {pattern : Pattern}
    (hp : label.pattern? = some pattern) : pattern text = length ∧ length ≠ 0 := by
  obtain ⟨rule, hm, rfl, hl⟩ := exists_of_first? h
  rw [← (form_of_mem rule hm).pattern_eq hp]
  exact ⟨hl, ne_zero_of_first? h⟩

/-- Comments come before everything else. -/
theorem first?_of_comment (h : Pattern.comment text ≠ 0) :
    first? text all = some (.comment, Pattern.comment text) := by
  obtain ⟨length, hl⟩ := Nat.exists_eq_succ_of_ne_zero h
  simp only [all, first?, hl]

/-- Where a text starts with a blank, the run of blanks is matched. -/
theorem first?_of_blank (hb : Text.isBlank c) :
    first? (c :: rest) all = some (.blank, Pattern.blank (c :: rest)) := by
  have hm : (⟨.blank, .blank⟩ : Rule) ∈ all := by simp [all]
  have hsome : first? (c :: rest) all ≠ none := first?_ne_none hm (by simp [Pattern.blank, hb])
  obtain ⟨⟨label, length⟩, h⟩ := Option.ne_none_iff_exists'.1 hsome
  obtain rfl := Label.eq_blank_of_starts hb (first?_starts h)
  rw [h, (first?_pattern h rfl).1]

/-- A literal that is not closed is not matched. -/
theorem first?_of_open_literal (hq : c = '"' ∨ c = '\'') (hz : Pattern.literal (c :: rest) = 0) :
    first? (c :: rest) all = none := by
  cases h : first? (c :: rest) all with
  | none => rfl
  | some found =>
    obtain ⟨label, length⟩ := found
    obtain rfl := Label.eq_string_of_starts hq (first?_starts h)
    obtain ⟨hl, hne⟩ := first?_pattern h rfl
    exact absurd (hl.symm.trans hz) hne

/-- The word of an import directive is an identifier where no directive is matched. -/
theorem first?_of_importWord (hz : Pattern.directive (Pattern.importWord ++ rest) = 0)
    (hrest : rest.takeWhile Pattern.isWordChar = []) :
    first? (Pattern.importWord ++ rest) all = some (.token .identifier, 3) := by
  have hlength : Pattern.identifier (Pattern.importWord ++ rest) = 3 := by
    have hword : (['M', 'P'] ++ rest).takeWhile Pattern.isWordChar = ['M', 'P'] := by
      rw [List.takeWhile_append_of_pos (List.all_eq_true.1 rfl), hrest]
      rfl
    calc Pattern.identifier (Pattern.importWord ++ rest)
        = ((['M', 'P'] ++ rest).takeWhile Pattern.isWordChar).length + 1 := rfl
      _ = 3 := by rw [hword]; rfl
  have hm : (⟨.token .identifier, .identifier⟩ : Rule) ∈ all := by simp [all]
  have hsome : first? (Pattern.importWord ++ rest) all ≠ none :=
    first?_ne_none hm fun hz => absurd (hlength.symm.trans hz) (by decide)
  obtain ⟨⟨label, length⟩, h⟩ := Option.ne_none_iff_exists'.1 hsome
  rcases Label.eq_of_starts_import (first?_starts h) with rfl | rfl
  · obtain ⟨hl, hne⟩ := first?_pattern h rfl
    exact absurd (hl.symm.trans hz) hne
  · rw [h, ← (first?_pattern h rfl).1, hlength]

end Rule

/-! ## Patterns in front of a blank -/

/-- Something starts with the text that is not over at its end, so that what follows may change it:
a comment, a run of blanks, an import directive without its name or within it, or a literal. -/
inductive Unclosed : List Char → Prop
  | comment {line : List Char} (h : '\n' ∉ line) : Unclosed ('/' :: '/' :: line)
  | blanks {text : List Char} (h : ∀ c ∈ text, Text.isBlank c) : Unclosed text
  | word {blanks : List Char} (h : ∀ c ∈ blanks, Text.isBlank c) :
      Unclosed (Pattern.importWord ++ blanks)
  | name {blanks name : List Char} (h : ∀ c ∈ blanks, Text.isBlank c) (hn : '"' ∉ name) :
      Unclosed (Pattern.importWord ++ (blanks ++ '"' :: name))
  | literal {c : Char} {text : List Char} (hq : c = '"' ∨ c = '\'')
      (h : Pattern.literal (c :: text) = 0) : Unclosed (c :: text)

/-- No spelling has a blank in it. -/
theorem Kind.isBlank_of_mem_spelling {kind : Kind} {spelling : String}
    (h : kind.spelling? = some spelling) : ∀ c ∈ spelling.toList, !Text.isBlank c := by
  cases kind with
  | number | string | identifier | ending | other => cases h
  | _ =>
    cases h
    exact List.all_eq_true.1 rfl

namespace Pattern
variable {front : List Char} {gap : Char} (back : List Char)

/-- A spelling without a blank stands in front of the blank or not at all. -/
theorem isPrefixOf_break {spelling : List Char} (hs : gap ∉ spelling) (front : List Char) :
    spelling.isPrefixOf (front ++ gap :: back) = spelling.isPrefixOf front := by
  induction spelling generalizing front with
  | nil => simp
  | cons c more ih =>
    rw [List.mem_cons, not_or] at hs
    cases front with
    | nil => simp [List.isPrefixOf, Ne.symm hs.1]
    | cons d rest => simp [List.isPrefixOf, ih hs.2]

theorem symbol_break {spelling : List Char} (hs : gap ∉ spelling) (front : List Char) :
    symbol spelling (front ++ gap :: back) = symbol spelling front := by
  rw [symbol, isPrefixOf_break back hs, symbol]

/-- No word goes on with a blank. -/
theorem isWordChar_of_isBlank (hg : Text.isBlank gap) : isWordChar gap = false := by
  by_contra hw
  rw [isBlank_of_isWordChar (by simpa using hw)] at hg
  cases hg

theorem word_break (hg : isWordChar gap = false) {spelling : List Char} (hs : gap ∉ spelling)
    (front : List Char) : word spelling (front ++ gap :: back) = word spelling front := by
  by_cases hp : spelling.isPrefixOf front
  · obtain ⟨more, rfl⟩ := List.isPrefixOf_iff_prefix.1 hp
    have hnext : (more ++ gap :: back).head?.any isWordChar = more.head?.any isWordChar := by
      cases more with
      | nil => exact hg
      | cons c more => rfl
    rw [word, word, isPrefixOf_break back hs, List.append_assoc, List.drop_left, List.drop_left,
      hnext]
  · simp only [word, isPrefixOf_break back hs, hp, Bool.false_and]

theorem identifier_break (hg : isWordChar gap = false) (front : List Char) :
    identifier (front ++ gap :: back) = identifier front := by
  cases front with
  | nil =>
    have hstart : isWordStart gap = false := by
      by_contra hs
      rw [isWordChar_of_isWordStart (by simpa using hs)] at hg
      cases hg
    simp [identifier, hstart]
  | cons c rest => simp only [List.cons_append, identifier, Text.takeWhile_append_stop hg]

theorem numeral_break (hg : Text.isBlank gap) (front : List Char) :
    Decimal.numeralLength (front ++ gap :: back) = Decimal.numeralLength front := by
  have hbreak : Decimal.isDigit gap = false := by
    by_contra hd
    have hword := isWordChar_of_isDigit (by simpa using hd)
    rw [isWordChar_of_isBlank hg] at hword
    cases hword
  have hpoint : gap ≠ '.' := by
    rintro rfl
    exact absurd hg (by decide)
  rcases Text.run_or_split Decimal.isDigit front with hall | ⟨whole, c, rest, hwhole, hc, rfl⟩
  · have hend : Decimal.numeralLength (front ++ []) = front.length :=
      numeralLength_stop hall (by simp)
    rw [List.append_nil] at hend
    rw [hend, numeralLength_stop hall (by simpa using ⟨hbreak, hpoint⟩)]
  · rw [List.append_assoc, List.cons_append]
    by_cases hne : whole = []
    · simp [hne, Decimal.numeralLength, hc]
    by_cases hpoint : c = '.'
    · rw [hpoint, numeralLength_point hne hwhole, numeralLength_point hne hwhole,
        Text.takeWhile_append_stop hbreak]
    · have hstop : ∀ rest, Decimal.numeralLength (whole ++ c :: rest) = whole.length := fun rest =>
        numeralLength_stop hwhole (by simpa using ⟨hc, hpoint⟩)
      rw [hstop, hstop]

theorem comment_break (hg : Text.isBlank gap) (h : ¬ Unclosed front) :
    comment (front ++ gap :: back) = comment front := by
  by_cases hp : ['/', '/'].isPrefixOf front
  · obtain ⟨more, rfl⟩ := List.isPrefixOf_iff_prefix.1 hp
    rcases Text.run_or_split (· != '\n') more with hall | ⟨line, c, rest, hline, hc, rfl⟩
    · exact absurd (.comment (Text.forall_bne_iff.1 hall)) h
    · have hc : c = '\n' := by simpa using hc
      have hline := Text.forall_bne_iff.1 hline
      have htext : ['/', '/'] ++ (line ++ c :: rest) ++ gap :: back =
          '/' :: '/' :: (line ++ '\n' :: (rest ++ gap :: back)) := by
        rw [hc, List.append_assoc, List.append_assoc]
        rfl
      rw [htext, comment_line hline, hc]
      exact (comment_line hline).symm
  · have hnone : ∀ text, ¬ ['/', '/'].isPrefixOf text → comment text = 0 := by
      intro text ht
      unfold comment
      split
      · simp [List.isPrefixOf] at ht
      · rfl
    have hslash : gap ∉ ['/', '/'] := by
      intro hm
      obtain rfl : gap = '/' := by simpa using hm
      exact absurd hg (by decide)
    have hbreak : ¬ ['/', '/'].isPrefixOf (front ++ gap :: back) := by
      rw [isPrefixOf_break back hslash]
      exact hp
    rw [hnone front hp, hnone _ hbreak]

theorem blank_break (h : ¬ Unclosed front) : blank (front ++ gap :: back) = blank front := by
  rcases Text.run_or_split Text.isBlank front with hall | ⟨run, c, rest, hrun, hc, rfl⟩
  · exact absurd (.blanks hall) h
  · rw [blank, blank, List.append_assoc, List.cons_append, Text.takeWhile_run hrun hc,
      Text.takeWhile_run hrun hc]

/-- A closed literal is not changed by what follows. -/
theorem closing_append {quote : Char} (hq : quote ≠ '\\') {before : Nat} {text : List Char}
    (h : closing quote before text ≠ 0) (more : List Char) :
    closing quote before (text ++ more) = closing quote before text := by
  fun_induction closing quote before text with
  | case1 => exact absurd rfl h
  | case2 => exact absurd rfl h
  | case3 before c rest hc ih =>
    simp only [List.cons_append, closing, if_neg hc]
    exact ih h
  | case4 before rest => simp [closing, hq]
  | case5 => exact absurd rfl h
  | case6 before c rest _ hquote hb ih =>
    have hstep : ∀ text, closing quote before (c :: text) = closing quote (before + 1) text := by
      intro text
      simp [closing, hquote, hb]
    rw [List.cons_append, hstep]
    exact ih h

theorem literal_break (hg : Text.isBlank gap) (h : ¬ Unclosed front) :
    literal (front ++ gap :: back) = literal front := by
  cases front with
  | nil =>
    have hquote : gap ≠ '"' ∧ gap ≠ '\'' := by
      constructor
      · rintro rfl
        exact absurd hg (by decide)
      · rintro rfl
        exact absurd hg (by decide)
    simp [literal, hquote]
  | cons c text =>
    by_cases hq : c = '"' ∨ c = '\''
    · have hclosed : literal (c :: text) ≠ 0 := fun hz => h (.literal hq hz)
      rcases hq with rfl | rfl
      · exact closing_append (by decide) hclosed _
      · exact closing_append (by decide) hclosed _
    · rw [not_or] at hq
      have hnone : ∀ text, literal (c :: text) = 0 := by
        intro text
        simp [literal, hq.1, hq.2]
      rw [List.cons_append, hnone, hnone]

theorem directive_break (hg : Text.isBlank gap) (h : ¬ Unclosed front) :
    directive (front ++ gap :: back) = directive front := by
  by_cases hp : importWord.isPrefixOf front
  · obtain ⟨more, rfl⟩ := List.isPrefixOf_iff_prefix.1 hp
    rcases Text.run_or_split Text.isBlank more with hall | ⟨blanks, c, rest, hblanks, hc, rfl⟩
    · exact absurd (.word hall) h
    rw [List.append_assoc, List.append_assoc, List.cons_append]
    by_cases hq : c = '"'
    · rw [hq, directive_quote hblanks, directive_quote hblanks]
      rcases Text.run_or_split (· != '"') rest with hall | ⟨name, d, behind, hname, hd, rfl⟩
      · exact absurd (hq ▸ .name hblanks (Text.forall_bne_iff.1 hall)) h
      · rw [List.append_assoc, List.cons_append, Text.takeWhile_run hname hd,
          Text.takeWhile_run hname hd]
        simp
    · have hother : ∀ rest, directive (importWord ++ (blanks ++ c :: rest)) = 0 := fun rest =>
        directive_other hblanks (by simpa using ⟨hc, hq⟩)
      rw [hother, hother]
  · have hword : gap ∉ importWord := by
      intro hm
      have hall : ∀ c ∈ importWord, isWordChar c := List.all_eq_true.1 rfl
      rw [isBlank_of_isWordChar (hall gap hm)] at hg
      cases hg
    have hbreak : ¬ importWord.isPrefixOf (front ++ gap :: back) := by
      rw [isPrefixOf_break back hword]
      exact hp
    rw [directive, if_neg hbreak, directive, if_neg hp]

end Pattern

section Break
variable {front : List Char} {gap : Char}

/-- Where nothing is open, a rule measures the same in front of a blank as at the end. -/
theorem Rule.Form.pattern_break {rule : Rule} (h : rule.Form) (hg : Text.isBlank gap)
    (hu : ¬ Unclosed front) (back : List Char) :
    rule.pattern (front ++ gap :: back) = rule.pattern front := by
  have hspelling {kind : Kind} {spelling : String} (hk : kind.spelling? = some spelling) :
      gap ∉ spelling.toList := by
    intro hm
    have hne := Kind.isBlank_of_mem_spelling hk gap hm
    rw [hg] at hne
    cases hne
  have hword := Pattern.isWordChar_of_isBlank hg
  cases h with
  | comment => exact Pattern.comment_break back hg hu
  | directive => exact Pattern.directive_break back hg hu
  | number => exact Pattern.numeral_break back hg front
  | literal => exact Pattern.literal_break back hg hu
  | identifier => exact Pattern.identifier_break back hword front
  | blank => exact Pattern.blank_break back hu
  | symbol hk => exact Pattern.symbol_break back (hspelling hk) front
  | word hk => exact Pattern.word_break back hword (hspelling hk) front

theorem Rule.first?_break (hg : Text.isBlank gap) (hu : ¬ Unclosed front) (back : List Char) :
    Rule.first? (front ++ gap :: back) Rule.all = Rule.first? front Rule.all :=
  Rule.first?_congr fun rule hm => (Rule.form_of_mem rule hm).pattern_break hg hu back

end Break

/-! ## Scans without comments and blanks -/

/-- Whether a piece makes a difference to the tokens of a source. -/
def Piece.counts : Piece → Bool
  | token _ => true
  | directive .. => true
  | comment _ => false
  | blank _ => false

/-- A scan without comments and blanks. -/
def Scan.bare (scan : Scan) : Scan := ⟨scan.pieces.filter Piece.counts, scan.rest⟩

namespace Scan
variable {front text : List Char} {label : Label} {length : Nat}

@[simp] theorem rest_bare (scan : Scan) : scan.bare.rest = scan.rest := rfl

theorem bare_of_some (h : Rule.first? text Rule.all = some (label, length)) :
    (ofText text).bare =
      ⟨([label.piece (text.take length)].filter Piece.counts) ++
        (ofText (text.drop length)).bare.pieces, (ofText (text.drop length)).rest⟩ := by
  rw [ofText_of_some h, bare, bare, ← List.filter_append, List.singleton_append]

/-- Blanks at the start make no difference. -/
theorem bare_dropWhile (text : List Char) :
    (ofText (text.dropWhile Text.isBlank)).bare = (ofText text).bare := by
  cases text with
  | nil => rfl
  | cons c rest =>
    by_cases hb : Text.isBlank c
    · rw [bare_of_some (Rule.first?_of_blank hb), Pattern.blank, Text.drop_length_takeWhile]
      rfl
    · rw [List.dropWhile_cons_of_neg hb]

theorem bare_of_blanks (h : ∀ c ∈ front, Text.isBlank c) (back : List Char) :
    (ofText (front ++ back)).bare = (ofText back).bare := by
  rw [← bare_dropWhile, List.dropWhile_append_of_pos h, bare_dropWhile]

/-- A comment without the end of its line goes to the line feed. -/
theorem bare_break_comment {line : List Char} (h : '\n' ∉ line) (back : List Char) :
    (ofText ('/' :: '/' :: line)).bare = ⟨[], []⟩ ∧
      (ofText ('/' :: '/' :: line ++ '\n' :: back)).bare = (ofText back).bare := by
  constructor
  · have hend := Pattern.comment_end h
    rw [bare_of_some (Rule.first?_of_comment (by omega)), hend]
    have hdrop : ('/' :: '/' :: line).drop (line.length + 2) = [] := List.drop_length
    rw [hdrop]
    rfl
  · have hline : Pattern.comment ('/' :: '/' :: line ++ '\n' :: back) = line.length + 3 :=
      Pattern.comment_line h
    have hdrop : ('/' :: '/' :: line ++ '\n' :: back).drop (line.length + 3) = back := by
      have htext : '/' :: '/' :: line ++ '\n' :: back = ('/' :: '/' :: line ++ ['\n']) ++ back := by
        simp
      rw [htext]
      exact List.drop_left' (by simp)
    rw [bare_of_some (Rule.first?_of_comment (by omega)), hline, hdrop]
    rfl

/-- The word of an import directive is a token where no directive is matched. -/
theorem bare_importWord {rest : List Char} (hz : Pattern.directive (Pattern.importWord ++ rest) = 0)
    (hrest : rest.takeWhile Pattern.isWordChar = []) :
    (ofText (Pattern.importWord ++ rest)).bare =
      ⟨.token ⟨.identifier, "IMP"⟩ :: (ofText rest).bare.pieces, (ofText rest).rest⟩ := by
  rw [bare_of_some (Rule.first?_of_importWord hz hrest)]
  rfl

theorem takeWhile_isWordChar_of_blanks {blanks rest : List Char}
    (h : ∀ c ∈ blanks, Text.isBlank c) (hrest : rest.takeWhile Pattern.isWordChar = []) :
    (blanks ++ rest).takeWhile Pattern.isWordChar = [] := by
  cases blanks with
  | nil => exact hrest
  | cons c more =>
    have hc : ¬ Pattern.isWordChar c := by
      intro hw
      have hblank := h c List.mem_cons_self
      rw [Pattern.isBlank_of_isWordChar hw] at hblank
      cases hblank
    exact List.takeWhile_cons_of_neg hc

/-- A text that ends with the word of an import directive has it as its last token. -/
theorem bare_word_blanks {blanks : List Char} (h : ∀ c ∈ blanks, Text.isBlank c) :
    (ofText (Pattern.importWord ++ blanks)).bare.pieces = [.token ⟨.identifier, "IMP"⟩] := by
  have hz : Pattern.directive (Pattern.importWord ++ (blanks ++ [])) = 0 :=
    Pattern.directive_other h (by simp)
  have hrest : (blanks ++ []).takeWhile Pattern.isWordChar = [] :=
    takeWhile_isWordChar_of_blanks h rfl
  have hend := bare_of_blanks h []
  rw [List.append_nil] at hz hrest hend
  rw [bare_importWord hz hrest, hend]
  rfl

/-- A text that ends within the name of an import directive is not scanned to its end. -/
theorem rest_ne_nil_of_name {blanks name : List Char} (h : ∀ c ∈ blanks, Text.isBlank c)
    (hn : '"' ∉ name) :
    (ofText (Pattern.importWord ++ (blanks ++ '"' :: name))).rest ≠ [] := by
  have hz := Pattern.directive_open h hn
  have hliteral : Pattern.literal ('"' :: name) = 0 := by
    by_contra hne
    obtain ⟨inside, rest, rfl, -⟩ := Pattern.closing_finds hne
    exact hn (by simp)
  have hopen : (ofText ('"' :: name)).bare = ⟨[], '"' :: name⟩ := by
    rw [ofText_of_none (Rule.first?_of_open_literal (.inl rfl) hliteral)]
    rfl
  have hword := bare_importWord hz (takeWhile_isWordChar_of_blanks h rfl)
  have hname := congrArg Scan.rest (bare_of_blanks h ('"' :: name))
  rw [hopen] at hname
  have hrest := congrArg Scan.rest hword
  intro hnil
  exact absurd (hname.symm.trans (hrest.symm.trans hnil)) (by simp)

/-- If a text is scanned to its end, and does not end with the word of an import directive, then
behind it and a line feed another text is scanned as if it stood alone. -/
theorem bare_break (hrest : (ofText front).rest = [])
    (hlast : (ofText front).bare.pieces.getLast? ≠ some (.token ⟨.identifier, "IMP"⟩))
    (back : List Char) :
    (ofText (front ++ '\n' :: back)).bare =
      ⟨(ofText front).bare.pieces ++ (ofText back).bare.pieces, (ofText back).rest⟩ := by
  have hfeed : (ofText ('\n' :: back)).bare = (ofText back).bare := by
    have hblank : ∀ c ∈ ['\n'], Text.isBlank c := List.all_eq_true.1 rfl
    exact bare_of_blanks hblank back
  -- The induction goes from match to match; what is open reaches to the end of the text.
  induction front using Scan.induction with
  | stuck text h =>
    rw [ofText_of_none h] at hrest
    obtain rfl : text = [] := hrest
    exact hfeed
  | piece text label length h ih =>
    by_cases hu : Unclosed text
    · cases hu with
      | comment hline =>
        obtain ⟨hfront, hboth⟩ := bare_break_comment hline back
        rw [hboth, hfront]
        rfl
      | blanks hall =>
        have hend := bare_of_blanks hall []
        rw [List.append_nil] at hend
        rw [bare_of_blanks hall, hfeed, hend]
        rfl
      | word hblanks => exact absurd (by rw [bare_word_blanks hblanks]; rfl) hlast
      | name hblanks hname => exact absurd hrest (rest_ne_nil_of_name hblanks hname)
      | literal hq hz =>
        rw [Rule.first?_of_open_literal hq hz] at h
        cases h
    · obtain ⟨found, behind, rfl, rfl, -, -⟩ := Rule.first?_finds h
      have hblank : Text.isBlank '\n' := rfl
      have hb := (Rule.first?_break hblank hu back).trans h
      have hdrop : (found ++ behind).drop found.length = behind := List.drop_left
      rw [bare_of_some h, hdrop, List.getLast?_append] at hlast
      rw [ofText_of_some h, hdrop] at hrest
      rw [hdrop] at ih
      have hrec := ih hrest fun hl => hlast (by rw [hl, Option.some_or])
      have hend : (ofText (behind ++ '\n' :: back)).rest = (ofText back).rest := by
        rw [← rest_bare, hrec]
      rw [bare_of_some hb, bare_of_some h, hdrop, List.append_assoc, List.drop_left, List.take_left,
        List.take_left, hrec, hend, List.append_assoc]

end Scan

end PrefixScript
