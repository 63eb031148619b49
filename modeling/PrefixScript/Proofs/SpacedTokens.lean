import PrefixScript.Proofs.Composition
import PrefixScript.Proofs.ScannedTokens

/-!
# Tokens with single spaces between them

A scanned token stands alone: its text is scanned as this token when nothing is in front of it and
nothing behind it. Nothing is open at the end of such a text, except behind the word of an import
directive. So the texts of scanned tokens, with a single space between any two of them, are scanned
as those tokens again, as long as that word is not in front of a name in double quotes.
-/
namespace PrefixScript
open Computability

/-! ## Matches by the first character -/

theorem Label.mem_all_of_pattern? {label : Label} {pattern : Pattern}
    (hp : label.pattern? = some pattern) : (⟨label, pattern⟩ : Rule) ∈ Rule.all := by
  cases label with
  | token kind =>
    cases kind with
    | number | string | identifier =>
      cases hp
      simp [Rule.all]
    | _ => cases hp
  | _ =>
    cases hp
    simp [Rule.all]

/-- Where texts of one label only can start, its pattern decides. -/
theorem Rule.first?_of_starts {label : Label} {pattern : Pattern} {c : Char} {rest : List Char}
    (hp : label.pattern? = some pattern) (hne : pattern (c :: rest) ≠ 0)
    (honly : ∀ other : Label, other.starts c → other = label) :
    first? (c :: rest) all = some (label, pattern (c :: rest)) := by
  have hsome : first? (c :: rest) all ≠ none := first?_ne_none (Label.mem_all_of_pattern? hp) hne
  obtain ⟨⟨other, length⟩, h⟩ := Option.ne_none_iff_exists'.1 hsome
  obtain rfl := honly other (first?_starts h)
  rw [h, (first?_pattern h hp).1]

namespace Pattern

theorem isDigit_of_isWordStart {c : Char} (h : isWordStart c) : Decimal.isDigit c = false := by
  have hc : 65 ≤ c.toNat := by
    simp only [isWordStart, Char.isAlpha, Char.isUpper, Char.isLower, Bool.or_eq_true,
      Bool.and_eq_true, decide_eq_true_eq, beq_iff_eq, UInt32.le_iff_toNat_le, ge_iff_le] at h
    rcases h with (h | h) | rfl
    · change 65 ≤ c.toNat ∧ c.toNat ≤ 90 at h
      omega
    · change 97 ≤ c.toNat ∧ c.toNat ≤ 122 at h
      omega
    · decide
  have hnine : ¬ c ≤ '9' := by
    intro hle
    change c.toNat ≤ 57 at hle
    omega
  simp [Decimal.isDigit, hnine]

/-- A character that starts no word starts neither a comment nor a literal, and so on. -/
theorem ne_of_isWordStart {c d : Char} (h : isWordStart c) (hd : isWordStart d = false) :
    c ≠ d := by
  rintro rfl
  rw [h] at hd
  cases hd

end Pattern

/-- Only numerals start with a digit. -/
theorem Label.eq_number_of_starts {label : Label} {c : Char} (hd : Decimal.isDigit c)
    (h : label.starts c) : label = .token .number := by
  have hne (other : Char) (ho : Decimal.isDigit other = false) : c ≠ other := by
    rintro rfl
    rw [hd] at ho
    cases ho
  cases label with
  | comment => exact absurd (beq_iff_eq.1 h) (hne _ rfl)
  | directive => exact absurd (beq_iff_eq.1 h) (hne _ rfl)
  | blank =>
    have hblank : Text.isBlank c = true := h
    rw [Pattern.isBlank_of_isWordChar (Pattern.isWordChar_of_isDigit hd)] at hblank
    cases hblank
  | token kind =>
    cases kind with
    | number => rfl
    | string =>
      have hq : c = '"' ∨ c = '\'' := by simpa [starts] using h
      exact absurd hq (not_or.2 ⟨hne _ rfl, hne _ rfl⟩)
    | identifier =>
      rw [Pattern.isDigit_of_isWordStart h] at hd
      cases hd
    | ending | other => cases h
    | _ =>
      obtain ⟨spelling, hk, hc⟩ := (Option.any_eq_true _ _).1 (show Kind.spelledFrom _ c from h)
      cases hk
      exact absurd (Option.some.inj (beq_iff_eq.1 hc)).symm (hne _ rfl)

theorem StartWith.exists_cons {language : Language Char} {p : Char → Bool} {text : List Char}
    (h : StartWith language p) (hm : text ∈ language) : ∃ c more, text = c :: more ∧ p c := by
  have hhead := h text hm
  cases text with
  | nil => cases hhead
  | cons c more => exact ⟨c, more, rfl, hhead⟩

/-! ## Texts of the languages alone -/

namespace Pattern
variable {found : List Char}

theorem takeWhile_le_numeralLength (text : List Char) :
    (text.takeWhile Decimal.isDigit).length ≤ Decimal.numeralLength text := by
  simp only [Decimal.numeralLength]
  split
  · omega
  · split
    · split <;> omega
    · exact Nat.le_refl _

/-- A numeral is measured to its end at least, whatever follows it. -/
theorem length_le_numeralLength (h : found ∈ Kind.language .number) (rest : List Char) :
    found.length ≤ Decimal.numeralLength (found ++ rest) := by
  obtain ⟨whole, hwhole, tail, htail, rfl⟩ := Language.mem_mul.1 h
  obtain ⟨hne, hdigits⟩ := mem_someOf.1 hwhole
  rcases (Language.mem_add _ _ _).1 htail with hnil | hplaces
  · obtain rfl : tail = [] := hnil
    have hrun := takeWhile_le_numeralLength (whole ++ rest)
    rw [List.takeWhile_append_of_pos hdigits, List.length_append] at hrun
    rw [List.append_nil]
    omega
  · obtain ⟨_, rfl, places, hsome, rfl⟩ := Language.mem_mul.1 hplaces
    obtain ⟨hsome, hplaces⟩ := mem_someOf.1 hsome
    have hpos := List.length_pos_iff.2 hsome
    have hdigit : places.length + (rest.takeWhile Decimal.isDigit).length ≠ 0 := by omega
    rw [List.append_assoc, List.append_assoc, List.singleton_append, List.singleton_append,
      numeralLength_point hne hdigits, List.takeWhile_append_of_pos hplaces, List.length_append,
      List.length_append, List.length_cons, if_neg hdigit]
    omega

/-- The digits of a numeral are measured to their end. -/
theorem numeralLength_of_mem (h : found ∈ Kind.language .number) :
    Decimal.numeralLength found = found.length := by
  have hle := length_le_numeralLength h []
  rw [List.append_nil] at hle
  by_cases hz : Decimal.numeralLength found = 0
  · omega
  · obtain ⟨front, rest, hfound, hl, -⟩ := numeral_finds found hz
    have hsum : found.length = front.length + rest.length := by rw [hfound, List.length_append]
    omega

/-- The numerals are the language of numbers. -/
theorem isNumeral_iff_mem (text : List Char) :
    Decimal.isNumeral text = true ↔ text ∈ Kind.language .number := by
  rw [Decimal.isNumeral, Bool.and_eq_true, beq_iff_eq, Bool.not_eq_true',
    List.isEmpty_eq_false_iff]
  constructor
  · rintro ⟨hlength, hne⟩
    have hpos : Decimal.numeralLength text ≠ 0 := by
      rw [hlength]
      exact fun hz => hne (List.length_eq_zero_iff.1 hz)
    obtain ⟨found, rest, rfl, hfound, hm⟩ := numeral_finds text hpos
    obtain rfl : rest = [] := by
      rw [hfound, List.length_append] at hlength
      exact List.length_eq_zero_iff.1 (by omega)
    rwa [List.append_nil]
  · intro hm
    obtain ⟨c, more, rfl, -⟩ := (Label.startWith_language (.token .number)).exists_cons hm
    exact ⟨numeralLength_of_mem hm, List.cons_ne_nil c more⟩

/-- A literal is closed by the first quote that is not escaped. -/
theorem closing_of_mem {quote : Char} (hq : quote ≠ '\\') {inside : List Char}
    (h : inside ∈ (insideQuotes quote)∗) (before : Nat) (rest : List Char) :
    closing quote before (inside ++ quote :: rest) = before + inside.length + 1 := by
  obtain ⟨parts, rfl, hparts⟩ := h
  induction parts generalizing before with
  | nil => simp [closing, hq]
  | cons part more ih =>
    obtain ⟨hpart, hmore⟩ := List.forall_mem_cons.1 hparts
    have hrest := fun before => ih before hmore
    rw [List.flatten_cons, List.append_assoc]
    rcases (Language.mem_add _ _ _).1 hpart with hplain | hescaped
    · obtain ⟨c, hc, rfl⟩ := hplain
      obtain ⟨hc, hb⟩ : c ≠ quote ∧ c ≠ '\\' := by simpa using hc
      have hstep (text : List Char) :
          closing quote before (c :: text) = closing quote (before + 1) text := by
        simp [closing, hc, hb]
      rw [List.singleton_append, hstep, hrest, List.length_append, List.length_singleton]
      omega
    · obtain ⟨_, rfl, _, ⟨c, hc, rfl⟩, rfl⟩ := Language.mem_mul.1 hescaped
      have hfeed : c ≠ '\n' := by simpa using hc
      have hstep (text : List Char) :
          closing quote before ('\\' :: c :: text) = closing quote (before + 2) text := by
        simp [closing, hfeed]
      rw [List.singleton_append, List.cons_append, List.singleton_append, hstep, hrest,
        List.length_append, List.length_cons, List.length_singleton]
      omega

/-- A text literal starts with its quote and goes to its end, whatever follows it. -/
theorem literal_of_mem (h : found ∈ Kind.language .string) :
    ∃ quote more, (quote = '"' ∨ quote = '\'') ∧ found = quote :: more ∧
      ∀ rest, literal (found ++ rest) = found.length := by
  have hquoted : ∃ quote, (quote = '"' ∨ quote = '\'') ∧ found ∈ quotedIn quote := by
    rcases (Language.mem_add _ _ _).1 h with h | h
    · exact ⟨_, .inl rfl, h⟩
    · exact ⟨_, .inr rfl, h⟩
  obtain ⟨quote, hq, hm⟩ := hquoted
  obtain ⟨_, hopened, _, rfl, rfl⟩ := Language.mem_mul.1 hm
  obtain ⟨_, rfl, inside, hinside, rfl⟩ := Language.mem_mul.1 hopened
  have hliteral (more : List Char) : literal (quote :: more) = closing quote 1 more := by
    rcases hq with rfl | rfl <;> rfl
  have hb : quote ≠ '\\' := by rcases hq with rfl | rfl <;> decide
  refine ⟨quote, inside ++ [quote], hq, rfl, fun rest => ?_⟩
  have htext : [quote] ++ inside ++ [quote] ++ rest = quote :: (inside ++ quote :: rest) := by simp
  rw [htext, hliteral, closing_of_mem hb hinside]
  simp only [List.length_cons, List.length_append, List.length_nil]

theorem directive_of_wordChars (h : ∀ c ∈ found, isWordChar c) : directive found = 0 := by
  by_contra hne
  obtain ⟨blanks, name, rest, -, -, -, -, rfl⟩ := directive_cases hne
  have hquote := h '"' (by simp)
  cases hquote

end Pattern

/-! ## Words -/

section Words
variable {c gap : Char}

/-- The keywords and the builtins. -/
def Kind.isWord : Kind → Bool
  | letWord | printWord | sayWord | ifWord | elseWord | whileWord | forWord | functionWord
  | returnWord | sqrt | random | reverse | len | read | pause | wipe => true
  | _ => false

/-- What is spelled in one way is a word, or no word starts like it, and only the two comparisons
have more than one character then. -/
theorem Kind.spelling_cases {kind : Kind} {spelling : String}
    (h : kind.spelling? = some spelling) :
    (kind.isWord ∧ spelling.toList.head?.any Pattern.isWordStart ∧
        ∀ c ∈ spelling.toList, Pattern.isWordChar c) ∨
      (kind.isWord = false ∧ ∃ d more, spelling.toList = d :: more ∧
        Pattern.isWordStart d = false ∧ (more = [] ∨ kind = equal ∨ kind = notEqual)) := by
  cases kind with
  | number | string | identifier | ending | other => cases h
  | equal | notEqual =>
    cases h
    exact .inr ⟨rfl, _, _, rfl, rfl, .inr (by simp)⟩
  | minus | plus | times | divide | assign | leftBrace | rightBrace | leftParen | rightParen
    | colon | comma =>
    cases h
    exact .inr ⟨rfl, _, _, rfl, rfl, .inl rfl⟩
  | _ =>
    cases h
    exact .inl ⟨rfl, rfl, List.all_eq_true.1 rfl⟩

/-- What a rule measures of a word does not depend on what is behind the word. A directive goes on
behind its word. -/
theorem Rule.Form.pattern_word {rule : Rule} (h : rule.Form) (hl : rule.label ≠ .directive)
    (hc : Pattern.isWordStart c) (hg : Pattern.isWordChar gap = false) (more back : List Char) :
    rule.pattern (c :: more ++ gap :: back) = rule.pattern (c :: more) := by
  have hspelled {kind : Kind} {spelling : String} (hk : kind.spelling? = some spelling) :
      gap ∉ spelling.toList ∨ ∀ text, spelling.toList.isPrefixOf (c :: text) = false := by
    rcases Kind.spelling_cases hk with ⟨-, -, hword⟩ | ⟨-, d, tail, hd, hstart, -⟩
    · refine .inl fun hm => ?_
      have hgap := hword gap hm
      rw [hg] at hgap
      cases hgap
    · refine .inr fun text => ?_
      rw [hd]
      simp [List.isPrefixOf, (Pattern.ne_of_isWordStart hc hstart).symm]
  cases h with
  | comment =>
    have hslash : c ≠ '/' := Pattern.ne_of_isWordStart hc rfl
    simp [Pattern.comment, hslash]
  | directive => exact absurd rfl hl
  | number => simp [Decimal.numeralLength, Pattern.isDigit_of_isWordStart hc]
  | literal =>
    have hdouble : c ≠ '"' := Pattern.ne_of_isWordStart hc rfl
    have hsingle : c ≠ '\'' := Pattern.ne_of_isWordStart hc rfl
    simp [Pattern.literal, hdouble, hsingle]
  | identifier => exact Pattern.identifier_break back hg (c :: more)
  | blank =>
    have hblank := Pattern.isBlank_of_isWordChar (Pattern.isWordChar_of_isWordStart hc)
    simp [Pattern.blank, hblank]
  | symbol hk =>
    rcases hspelled hk with hs | hnone
    · exact Pattern.symbol_break back hs (c :: more)
    · simp [Rule.symbol, Pattern.symbol, hnone]
  | word hk =>
    rcases hspelled hk with hs | hnone
    · exact Pattern.word_break back hg hs (c :: more)
    · simp [Rule.word, Pattern.word, hnone]

/-- An import directive comes before an identifier. -/
theorem Rule.first?_of_directive {text : List Char} (h : Pattern.directive text ≠ 0) :
    first? text all = some (.directive, Pattern.directive text) := by
  obtain ⟨length, hl⟩ := Nat.exists_eq_succ_of_ne_zero h
  obtain ⟨blanks, name, rest, -, -, -, -, rfl⟩ := Pattern.directive_cases h
  simp only [all, first?, hl]
  rfl

end Words

/-! ## Tokens that stand alone -/

namespace Token
variable {token next : Token}

/-- The text of a token, taken alone, is scanned as the token. -/
def Stands (token : Token) : Prop :=
  Rule.first? token.lexeme.toList Rule.all = some (.token token.kind, token.lexeme.toList.length)

theorem stands_of_spelling {kind : Kind} {spelling : String} (h : kind.spelling? = some spelling) :
    Stands ⟨kind, spelling⟩ := by
  cases kind with
  | number | string | identifier | ending | other => cases h
  | _ =>
    cases h
    rfl

theorem stands_number {lexeme : String} (h : lexeme.toList ∈ Kind.language .number) :
    Stands ⟨.number, lexeme⟩ := by
  have hlength := Pattern.numeralLength_of_mem h
  obtain ⟨c, more, hfound, hc⟩ := (Label.startWith_language (.token .number)).exists_cons h
  rw [hfound] at hlength
  have hp : (Label.token .number).pattern? = some Decimal.numeralLength := rfl
  have hne : Decimal.numeralLength (c :: more) ≠ 0 := by
    rw [hlength]
    exact Nat.succ_ne_zero _
  rw [Stands, hfound, Rule.first?_of_starts hp hne fun _ => Label.eq_number_of_starts hc, hlength]

theorem stands_string {lexeme : String} (h : lexeme.toList ∈ Kind.language .string) :
    Stands ⟨.string, lexeme⟩ := by
  obtain ⟨quote, more, hq, hfound, hliteral⟩ := Pattern.literal_of_mem h
  have hlength := hliteral []
  rw [List.append_nil, hfound] at hlength
  have hp : (Label.token .string).pattern? = some Pattern.literal := rfl
  have hne : Pattern.literal (quote :: more) ≠ 0 := by
    rw [hlength]
    exact Nat.succ_ne_zero _
  rw [Stands, hfound, Rule.first?_of_starts hp hne fun _ => Label.eq_string_of_starts hq, hlength]

/-- A word that is scanned as an identifier in front of something is one alone. -/
theorem stands_identifier {lexeme : String} {rest : List Char}
    (h : Rule.first? (lexeme.toList ++ rest) Rule.all =
      some (.token .identifier, lexeme.toList.length))
    (hm : lexeme.toList ∈ Kind.language .identifier) : Stands ⟨.identifier, lexeme⟩ := by
  obtain ⟨_, ⟨c, hc, rfl⟩, more, hmore, hfound⟩ := Language.mem_mul.1 hm
  have hword := mem_kstar_oneOf.1 hmore
  rw [Stands]
  rw [← hfound] at h ⊢
  cases rest with
  | nil => rwa [List.append_nil] at h
  | cons gap back =>
    have hg : Pattern.isWordChar gap = false := by
      by_contra hg
      have hlength := (Rule.first?_pattern h rfl).1
      rw [List.append_assoc, List.singleton_append, Pattern.identifier, if_pos hc,
        List.takeWhile_append_of_pos hword,
        List.takeWhile_cons_of_pos (by simpa using hg)] at hlength
      simp at hlength
    have hnone : Pattern.directive ([c] ++ more ++ gap :: back) = 0 := by
      by_contra hne
      rw [Rule.first?_of_directive hne] at h
      cases h
    have halone : Pattern.directive ([c] ++ more) = 0 :=
      Pattern.directive_of_wordChars
        (List.forall_mem_cons.2 ⟨Pattern.isWordChar_of_isWordStart hc, hword⟩)
    rw [← h]
    refine (Rule.first?_congr fun rule hr => ?_).symm
    have hform := Rule.form_of_mem rule hr
    by_cases hl : rule.label = .directive
    · rw [hform.pattern_eq (by rw [hl]; rfl), hnone, halone]
    · exact hform.pattern_word hl hc hg more back

theorem Scanned.lexeme_of_spelling (h : token.Scanned) {spelling : String}
    (hk : token.kind.spelling? = some spelling) : token.lexeme = spelling := by
  obtain ⟨text, length, hf, hlexeme⟩ := h
  obtain ⟨found, rest, rfl, rfl, -, hm⟩ := Rule.first?_finds hf
  have hfound : found = spelling.toList := (Kind.mem_language_of_spelling hk).1 hm
  rw [hlexeme, List.take_left, hfound, String.ofList_toList]

/-- The text of a scanned token stands alone. -/
theorem Scanned.stands (h : token.Scanned) : token.Stands := by
  obtain ⟨text, length, hf, hlexeme⟩ := h
  obtain ⟨found, rest, rfl, rfl, -, hm⟩ := Rule.first?_finds hf
  rw [List.take_left] at hlexeme
  obtain ⟨kind, lexeme⟩ := token
  obtain rfl : lexeme = String.ofList found := hlexeme
  obtain ⟨lexeme, rfl⟩ : ∃ lexeme : String, found = lexeme.toList :=
    ⟨String.ofList found, String.toList_ofList.symm⟩
  rw [String.ofList_toList]
  cases hs : kind.spelling? with
  | some spelling =>
    have heq := (Kind.mem_language_of_spelling hs).1 hm
    rw [String.toList_inj.1 heq]
    exact stands_of_spelling hs
  | none =>
    cases kind with
    | number => exact stands_number hm
    | string => exact stands_string hm
    | identifier => exact stands_identifier hf hm
    | ending | other => cases hm
    | _ => cases hs

theorem Stands.ne_nil (h : token.Stands) : token.lexeme.toList ≠ [] := by
  intro hnil
  rw [Stands, hnil, Rule.first?_nil] at h
  cases h

/-- Of the tokens that stand alone only one is open at its end. -/
theorem Stands.eq_importWord (h : token.Stands) (hu : Unclosed token.lexeme.toList) :
    token = ⟨.identifier, "IMP"⟩ := by
  have hword {rest : List Char} (hfound : token.lexeme.toList = Pattern.importWord ++ rest)
      (hz : Pattern.directive (Pattern.importWord ++ rest) = 0)
      (hrest : rest.takeWhile Pattern.isWordChar = []) : token = ⟨.identifier, "IMP"⟩ := by
    rw [Stands, hfound, Rule.first?_of_importWord hz hrest, Option.some.injEq, Prod.mk.injEq] at h
    obtain ⟨hkind, hlength⟩ := h
    obtain rfl : rest = [] := by
      rw [List.length_append] at hlength
      exact List.length_eq_zero_iff.1 (Nat.add_left_cancel hlength).symm
    obtain ⟨kind, lexeme⟩ := token
    obtain rfl : .identifier = kind := Label.token.inj hkind
    obtain rfl : lexeme = "IMP" := String.toList_inj.1 hfound
    rfl
  generalize hfound : token.lexeme.toList = text at hu
  cases hu with
  | comment hline =>
    rw [Stands, hfound, Rule.first?_of_comment (by rw [Pattern.comment_end hline]; omega)] at h
    cases h
  | blanks hall =>
    cases text with
    | nil => exact absurd hfound h.ne_nil
    | cons c rest =>
      rw [Stands, hfound, Rule.first?_of_blank (hall c List.mem_cons_self)] at h
      cases h
  | @word blanks hblanks =>
    have hz : Pattern.directive (Pattern.importWord ++ (blanks ++ [])) = 0 :=
      Pattern.directive_other hblanks (by simp)
    have hrest : (blanks ++ []).takeWhile Pattern.isWordChar = [] :=
      Scan.takeWhile_isWordChar_of_blanks hblanks rfl
    rw [List.append_nil] at hz hrest
    exact hword hfound hz hrest
  | name hblanks hname =>
    have hz := Pattern.directive_open hblanks hname
    exact hword hfound hz (Scan.takeWhile_isWordChar_of_blanks hblanks rfl)
  | literal hq hz =>
    rw [Stands, hfound, Rule.first?_of_open_literal hq hz] at h
    cases h

/-- The word of an import directive and a name in double quotes, which together are one. -/
def Imports (word name : Token) : Prop :=
  word = ⟨.identifier, "IMP"⟩ ∧ name.kind = .string ∧ name.lexeme.toList.head? = some '"'

instance (word name : Token) : Decidable (word.Imports name) :=
  inferInstanceAs (Decidable (_ ∧ _ ∧ _))

/-- In front of a space and a token with which it does not import, a token is scanned as alone. -/
theorem Stands.append_space (h : token.Stands) (hn : next.Stands) (hi : ¬ token.Imports next)
    (back : List Char) :
    Rule.first? (token.lexeme.toList ++ ' ' :: (next.lexeme.toList ++ back)) Rule.all =
      some (.token token.kind, token.lexeme.toList.length) := by
  by_cases hu : Unclosed token.lexeme.toList
  · obtain rfl := h.eq_importWord hu
    -- Behind the word stands neither a further blank nor a double quote.
    have hhead : ∀ c ∈ (next.lexeme.toList ++ back).head?, Text.isBlank c = false ∧ c ≠ '"' := by
      obtain ⟨c, more, hfound⟩ := List.exists_cons_of_ne_nil hn.ne_nil
      have hstarts : (Label.token next.kind).starts c := by
        rw [Stands, hfound] at hn
        exact Rule.first?_starts hn
      rw [hfound, List.cons_append]
      rintro d ⟨⟩
      constructor
      · by_contra hblank
        cases Label.eq_blank_of_starts (by simpa using hblank) hstarts
      · rintro rfl
        have hkind := Label.eq_string_of_starts (.inl rfl) hstarts
        exact hi ⟨rfl, Label.token.inj hkind, by rw [hfound]; rfl⟩
    have hspace : ∀ c ∈ [' '], Text.isBlank c := List.all_eq_true.1 rfl
    exact Rule.first?_of_importWord (Pattern.directive_other hspace hhead) rfl
  · have hspace : Text.isBlank ' ' := rfl
    rw [Rule.first?_break hspace hu]
    exact h

/-! ## Writing tokens -/

/-- The texts of some tokens, with single spaces between them. -/
def written (tokens : List Token) : String := " ".intercalate (tokens.map lexeme)

theorem toList_written_cons_cons (token next : Token) (rest : List Token) :
    (written (token :: next :: rest)).toList =
      token.lexeme.toList ++ ' ' :: (written (next :: rest)).toList := by
  simp [written, String.toList_intercalate]

end Token

/-- Written tokens are scanned as they are. -/
theorem Scan.bare_written {tokens : List Token} (h : ∀ token ∈ tokens, token.Stands)
    (hi : tokens.IsChain fun token next => ¬ token.Imports next) :
    (ofText (Token.written tokens).toList).bare = ⟨tokens.map .token, []⟩ := by
  induction tokens with
  | nil => rfl
  | cons token rest ih =>
    obtain ⟨htoken, hrest⟩ := List.forall_mem_cons.1 h
    cases rest with
    | nil =>
      have hm : Rule.first? (Token.written [token]).toList Rule.all =
          some (.token token.kind, token.lexeme.toList.length) := htoken
      have htext : (Token.written [token]).toList = token.lexeme.toList := rfl
      rw [bare_of_some hm, htext, List.drop_length, List.take_length, Label.piece,
        String.ofList_toList]
      rfl
    | cons next more =>
      obtain ⟨hnot, hi⟩ := List.isChain_cons_cons.1 hi
      obtain ⟨back, hback⟩ : ∃ back, (Token.written (next :: more)).toList =
          next.lexeme.toList ++ back := by
        cases more with
        | nil => exact ⟨[], (List.append_nil _).symm⟩
        | cons other more => exact ⟨_, Token.toList_written_cons_cons next other more⟩
      have hm := htoken.append_space (hrest next List.mem_cons_self) hnot back
      have hspace : ∀ c ∈ [' '], Text.isBlank c := List.all_eq_true.1 rfl
      have hgap := bare_of_blanks hspace (Token.written (next :: more)).toList
      rw [ih hrest hi, List.singleton_append] at hgap
      rw [← hback] at hm
      rw [Token.toList_written_cons_cons, bare_of_some hm, List.drop_left, List.take_left, hgap,
        ← rest_bare, hgap, Label.piece, String.ofList_toList]
      rfl

namespace Assembly

theorem collect_tokens (expand : String → List Token → AssemblyM (List Token))
    (tokens earlier : List Token) :
    collect expand (tokens.map .token) earlier = pure (tokens.reverse ++ earlier) := by
  induction tokens generalizing earlier with
  | nil => rfl
  | cons token rest ih => rw [List.map_cons, collect, ih, List.reverse_cons, List.append_assoc,
      List.singleton_append]

/-- The tokens of a text are those that it is scanned as, if it has no import directives, and to
find them nothing is read. -/
theorem tokens_of_scan {source : String} {tokens : List Token}
    (hscan : (Scan.ofText source.toList).bare = ⟨tokens.map .token, []⟩) (directory : String)
    (before : Assembly) :
    Assembly.tokens directory source before = .ok (tokens ++ [Token.ending]) before := by
  obtain ⟨depth, hd⟩ : ∃ depth, depthBound before.files = depth + 1 := ⟨_, rfl⟩
  have hgather : gather depth directory source.toList [] = pure tokens.reverse := by
    rw [gather, hscan, collect_tokens, List.append_nil]
  have hrest : (Scan.ofText source.toList).rest = [] := by
    rw [← Scan.rest_bare, hscan]
  rw [tokens_eq hd, hgather, hrest]
  show EStateM.Result.ok (tokens.reverse.reverse ++ _) before = _
  rw [List.reverse_reverse]

/-- The tokens of written tokens are these. -/
theorem tokens_written {tokens : List Token} (h : ∀ token ∈ tokens, token.Stands)
    (hi : tokens.IsChain fun token next => ¬ token.Imports next) (directory : String)
    (before : Assembly) :
    Assembly.tokens directory (Token.written tokens) before =
      .ok (tokens ++ [Token.ending]) before :=
  tokens_of_scan (Scan.bare_written h hi) directory before

end Assembly

/-- The tokens of a source are found again, in any directory and state, in the text that has their
texts with single spaces between them, unless the word of an import directive is in front of a text
literal in double quotes among them. Nothing is read on the way. -/
theorem tokens_found_again {directory source : String} {before after : Assembly}
    {tokens : List Token} (h : Assembly.tokens directory source before = .ok tokens after)
    (hi : tokens.IsChain fun token next => ¬ token.Imports next) (other : String)
    (fresh : Assembly) :
    Assembly.tokens other (Token.written tokens.dropLast) fresh = .ok tokens fresh := by
  obtain ⟨front, rfl, hscanned⟩ := Assembly.exists_scanned_of_tokens h
  rw [List.dropLast_concat]
  exact Assembly.tokens_written (fun token hm => (hscanned token hm).stands)
    (List.isChain_append.1 hi).1 other fresh

/-- Two slashes are no comment, and the word of an import directive is in front of single quotes. -/
theorem tokens_found_again_slashes :
    let files : Files := Table.empty.insert "/a" "x".toUTF8
    let before : Assembly := ⟨.start ⟨files, [], fun _ => 0, 0, [], "/"⟩ true, .empty⟩
    let tokens : List Token :=
      [⟨.identifier, "x"⟩, ⟨.divide, "/"⟩, ⟨.divide, "/"⟩, ⟨.identifier, "IMP"⟩, ⟨.string, "'p'"⟩,
        .ending]
    ∃ after, Assembly.tokens "/" "IMP \"a\" / /IMP'p'" before = .ok tokens after ∧
      tokens.IsChain (fun token next => ¬ token.Imports next) ∧
      Token.written tokens.dropLast = "x / / IMP 'p'" ∧
      Assembly.tokens "/b" "x / / IMP 'p'" before = .ok tokens before := by
  intro files before tokens
  have hread : before.files.read "/a" = .text "x" :=
    Files.read_insert _ (by decide) (by decide) (by decide) (by decide)
  have hbound : Assembly.depthBound before.files = 3 := rfl
  clear_value files
  have hends : Ends (Assembly.tokens "/" "IMP \"a\" / /IMP'p'") before
      (fun found _ => found = tokens) fun _ _ => False := by
    have hsource : Scan.ofText "IMP \"a\" / /IMP'p'".toList =
        ⟨[.directive "IMP \"a\"" "a", .blank " ", .token ⟨.divide, "/"⟩, .blank " ",
          .token ⟨.divide, "/"⟩, .token ⟨.identifier, "IMP"⟩, .token ⟨.string, "'p'"⟩], []⟩ := by
      cbv
    have hinner : Scan.ofText ("x".toList ++ ['\n']) =
        ⟨[.token ⟨.identifier, "x"⟩, .blank "\n"], []⟩ := by cbv
    have hfresh : ¬ (Table.empty : Included).contains (Files.key "/a") := by decide
    rw [Assembly.ends_tokens, hbound, Assembly.ends_tokensFrom, hsource]
    simp only [Assembly.collect, ends_bind, ends_pure, if_true]
    rw [Assembly.ends_expand_of_text (show "/a" = _ by decide) hfresh hread,
      Assembly.ends_tokensFrom, hinner]
    simp only [Assembly.collect, ends_pure, if_true]
    rfl
  obtain ⟨found, after, hok, rfl⟩ := hends.exists_ok_and
  have hchain : tokens.IsChain (fun token next => ¬ token.Imports next) := by decide
  have hwritten : Token.written tokens.dropLast = "x / / IMP 'p'" := by decide
  have hagain := tokens_found_again hok hchain "/b" before
  rw [hwritten] at hagain
  exact ⟨after, hok, hchain, hwritten, hagain⟩

end PrefixScript
