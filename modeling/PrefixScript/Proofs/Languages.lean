import Mathlib.Computability.Language
import Mathlib.Data.List.TakeWhile
import PrefixScript.Proofs.Scanning

/-!
# The languages of the rules

Each kind of token has a language, and so have comments, import directives and blanks. A rule is
looked up by measuring how much of a text it matches; here it is shown that what is measured is a
text of the language of the rule, from the start of the given text.
-/
namespace PrefixScript
open Computability

/-! ## Characters -/

namespace Text
variable {p : Char → Bool} {run rest : List Char} {c : Char}

/-- A text is a run of characters of a class, or such a run is ended by another character. -/
theorem run_or_split (p : Char → Bool) (text : List Char) :
    (∀ c ∈ text, p c) ∨
      ∃ run c rest, (∀ d ∈ run, p d) ∧ p c = false ∧ text = run ++ c :: rest := by
  induction text with
  | nil => exact .inl (by simp)
  | cons d text ih =>
    by_cases hd : p d
    · rcases ih with hall | ⟨run, c, rest, hrun, hc, rfl⟩
      · exact .inl (List.forall_mem_cons.2 ⟨hd, hall⟩)
      · exact .inr ⟨d :: run, c, rest, List.forall_mem_cons.2 ⟨hd, hrun⟩, hc, rfl⟩
    · exact .inr ⟨[], d, text, by simp, by simpa using hd, rfl⟩

/-- A run is taken as a whole up to the character that ends it. -/
theorem takeWhile_run (hrun : ∀ d ∈ run, p d) (hc : p c = false) :
    (run ++ c :: rest).takeWhile p = run := by
  rw [List.takeWhile_append_of_pos hrun, List.takeWhile_cons_of_neg (by simp [hc]),
    List.append_nil]

/-- A run is taken as a whole where no character of the class follows it. -/
theorem takeWhile_run_append (hrun : ∀ d ∈ run, p d) (hrest : ∀ d ∈ rest.head?, p d = false) :
    (run ++ rest).takeWhile p = run := by
  cases rest with
  | nil => rw [List.append_nil, List.takeWhile_eq_self_iff.2 hrun]
  | cons d more => exact takeWhile_run hrun (hrest d rfl)

/-- Taking a run stops at a character that is not of the class, whatever follows it. -/
theorem takeWhile_append_stop (hc : p c = false) (front : List Char) :
    (front ++ c :: rest).takeWhile p = front.takeWhile p := by
  rcases run_or_split p front with hall | ⟨run, d, more, hrun, hd, rfl⟩
  · rw [takeWhile_run hall hc, List.takeWhile_eq_self_iff.2 hall]
  · rw [List.append_assoc, List.cons_append, takeWhile_run hrun hd, takeWhile_run hrun hd]

theorem drop_length_takeWhile (p : Char → Bool) (text : List Char) :
    text.drop (text.takeWhile p).length = text.dropWhile p := by
  induction text with
  | nil => rfl
  | cons c rest ih =>
    by_cases hc : p c
    · simp [hc, ih]
    · simp [hc]

theorem forall_bne_iff {text : List Char} : (∀ d ∈ text, (d != c) = true) ↔ c ∉ text := by
  simp only [bne_iff_ne, ne_eq]
  exact ⟨fun h hm => h c hm rfl, fun h d hd he => h (he ▸ hd)⟩

end Text

/-! ## The languages -/

/-- The texts of one character of a class. -/
def oneOf (p : Char → Bool) : Language Char := {text | ∃ c, p c ∧ text = [c]}

/-- The texts of one or more characters of a class. -/
def someOf (p : Char → Bool) : Language Char := oneOf p * (oneOf p)∗

/-- What may stand inside quotes: a character, or a backslash and the character behind it, which is
no line feed. -/
def insideQuotes (quote : Char) : Language Char :=
  oneOf (fun c => c != quote && c != '\\') + {['\\']} * oneOf (· != '\n')

/-- The text literals in a kind of quotes. -/
def quotedIn (quote : Char) : Language Char :=
  {[quote]} * (insideQuotes quote)∗ * {[quote]}

namespace Kind

/-- How the tokens of a kind are spelled, if they are all spelled alike. -/
def spelling? : Kind → Option String
  | equal => some "=="
  | notEqual => some "!="
  | letWord => some "let"
  | printWord => some "print"
  | sayWord => some "say"
  | ifWord => some "if"
  | elseWord => some "else"
  | whileWord => some "while"
  | forWord => some "for"
  | functionWord => some "function"
  | returnWord => some "return"
  | minus => some "-"
  | plus => some "+"
  | times => some "*"
  | divide => some "/"
  | assign => some "="
  | leftBrace => some "\x7b"
  | rightBrace => some "\x7d"
  | leftParen => some "("
  | rightParen => some ")"
  | colon => some ":"
  | comma => some ","
  | sqrt => some "SQRT"
  | random => some "RANDOM"
  | reverse => some "REVERSE"
  | len => some "LEN"
  | read => some "read"
  | pause => some "pause"
  | wipe => some "wipe"
  | number | string | identifier | ending | other _ => none

/-- The language of a kind of token. -/
def language : Kind → Language Char
  | number => someOf Decimal.isDigit * (1 + {['.']} * someOf Decimal.isDigit)
  | string => quotedIn '"' + quotedIn '\''
  | identifier => oneOf Pattern.isWordStart * (oneOf Pattern.isWordChar)∗
  | kind => {text | kind.spelling? = some (String.ofList text)}

end Kind

/-- The language of what a rule recognises. -/
def Label.language : Label → Language Char
  | comment => {['/', '/']} * (oneOf (· != '\n'))∗ * (1 + {['\n']})
  | directive =>
    {Pattern.importWord} * someOf Text.isBlank * {['"']} * someOf (· != '"') * {['"']}
  | blank => someOf Text.isBlank
  | token kind => kind.language

section Membership
variable {p : Char → Bool} {text : List Char}

theorem singleton_mem_oneOf {c : Char} (h : p c) : [c] ∈ oneOf p := ⟨c, h, rfl⟩

theorem mem_kstar_oneOf : text ∈ (oneOf p)∗ ↔ ∀ c ∈ text, p c := by
  constructor
  · rintro ⟨parts, rfl, hparts⟩ c hc
    obtain ⟨part, hm, hpart⟩ := List.mem_flatten.1 hc
    obtain ⟨d, hd, rfl⟩ := hparts part hm
    rw [List.mem_singleton.1 hpart]
    exact hd
  · intro h
    refine ⟨text.map fun c => [c], by simp [← List.flatMap_def], fun part hm => ?_⟩
    obtain ⟨c, hc, rfl⟩ := List.mem_map.1 hm
    exact singleton_mem_oneOf (h c hc)

theorem mem_someOf : text ∈ someOf p ↔ text ≠ [] ∧ ∀ c ∈ text, p c := by
  constructor
  · intro h
    obtain ⟨_, ⟨c, hc, rfl⟩, more, hmore, rfl⟩ := Language.mem_mul.1 h
    exact ⟨by simp, List.forall_mem_cons.2 ⟨hc, mem_kstar_oneOf.1 hmore⟩⟩
  · rintro ⟨hne, h⟩
    cases text with
    | nil => exact absurd rfl hne
    | cons c more =>
      obtain ⟨hc, hmore⟩ := List.forall_mem_cons.1 h
      exact Language.append_mem_mul (singleton_mem_oneOf hc) (mem_kstar_oneOf.2 hmore)

theorem Kind.mem_language_of_spelling {kind : Kind} {spelling : String}
    (h : kind.spelling? = some spelling) : text ∈ kind.language ↔ text = spelling.toList := by
  have hmem : text ∈ kind.language ↔ kind.spelling? = some (String.ofList text) := by
    cases kind with
    | number | string | identifier => cases h
    | _ => exact Iff.rfl
  rw [hmem, h, Option.some.injEq]
  constructor
  · intro he
    rw [he, String.toList_ofList]
  · intro he
    rw [he, String.ofList_toList]

end Membership

/-! ## The forms of the rules -/

/-- The forms that rules have. The rules of symbols and words differ in their spellings only. -/
inductive Rule.Form : Rule → Prop
  | comment : Form ⟨.comment, .comment⟩
  | directive : Form ⟨.directive, .directive⟩
  | number : Form ⟨.token .number, Decimal.numeralLength⟩
  | literal : Form ⟨.token .string, .literal⟩
  | identifier : Form ⟨.token .identifier, .identifier⟩
  | blank : Form ⟨.blank, .blank⟩
  | symbol {kind : Kind} {spelling : String} (hk : kind.spelling? = some spelling)
      (hs : '\n' ∉ spelling.toList) : Form (.symbol kind spelling)
  | word {kind : Kind} {spelling : String} (hk : kind.spelling? = some spelling)
      (hs : '\n' ∉ spelling.toList) : Form (.word kind spelling)

theorem Rule.form_of_mem : ∀ rule ∈ Rule.all, rule.Form := by
  simp only [Rule.all, List.forall_mem_cons, List.not_mem_nil, IsEmpty.forall_iff, implies_true,
    and_true]
  exact ⟨.comment, .symbol rfl (by decide), .symbol rfl (by decide), .directive,
    .word rfl (by decide), .word rfl (by decide), .word rfl (by decide), .word rfl (by decide),
    .word rfl (by decide), .word rfl (by decide), .word rfl (by decide), .word rfl (by decide),
    .word rfl (by decide), .symbol rfl (by decide), .symbol rfl (by decide),
    .symbol rfl (by decide), .symbol rfl (by decide), .symbol rfl (by decide),
    .symbol rfl (by decide), .symbol rfl (by decide), .symbol rfl (by decide),
    .symbol rfl (by decide), .symbol rfl (by decide), .symbol rfl (by decide), .number, .literal,
    .word rfl (by decide), .word rfl (by decide), .word rfl (by decide), .word rfl (by decide),
    .word rfl (by decide), .word rfl (by decide), .word rfl (by decide), .identifier, .blank⟩

/-! ## What the patterns measure -/

namespace Pattern
variable {text : List Char}

/-- What a pattern measures at the start of a text is a text of the language. -/
def Finds (pattern : Pattern) (language : Language Char) : Prop :=
  ∀ text, pattern text ≠ 0 →
    ∃ found rest, text = found ++ rest ∧ pattern text = found.length ∧ found ∈ language

theorem symbol_finds (spelling : List Char) : (symbol spelling).Finds {spelling} := by
  intro text h
  unfold symbol at h ⊢
  split at h
  · rename_i hp
    obtain ⟨rest, rfl⟩ := List.isPrefixOf_iff_prefix.1 hp
    exact ⟨spelling, rest, rfl, if_pos hp, rfl⟩
  · exact absurd rfl h

theorem word_finds (spelling : List Char) : (word spelling).Finds {spelling} := by
  intro text h
  unfold word at h ⊢
  split at h
  · rename_i hp
    obtain ⟨rest, rfl⟩ := List.isPrefixOf_iff_prefix.1 (Bool.and_eq_true _ _ ▸ hp).1
    exact ⟨spelling, rest, rfl, if_pos hp, rfl⟩
  · exact absurd rfl h

theorem identifier_finds : identifier.Finds (Kind.language .identifier) := by
  intro text h
  cases text with
  | nil => exact absurd rfl h
  | cons c more =>
    by_cases hc : isWordStart c
    · refine ⟨c :: more.takeWhile isWordChar, more.dropWhile isWordChar, ?_, ?_, ?_⟩
      · rw [List.cons_append, List.takeWhile_append_dropWhile]
      · simp only [identifier, if_pos hc, List.length_cons]
      · have hrun : more.takeWhile isWordChar ∈ (oneOf isWordChar)∗ :=
          mem_kstar_oneOf.2 fun d => List.mem_takeWhile_imp
        exact Language.append_mem_mul (singleton_mem_oneOf hc) hrun
    · simp [identifier, hc] at h

theorem blank_finds : blank.Finds (someOf Text.isBlank) := by
  intro text h
  refine ⟨text.takeWhile Text.isBlank, text.dropWhile Text.isBlank,
    List.takeWhile_append_dropWhile.symm, rfl, mem_someOf.2 ⟨?_, fun d => List.mem_takeWhile_imp⟩⟩
  exact List.length_pos_iff.1 (Nat.pos_of_ne_zero h)

section Numeral
open Decimal (isDigit numeralLength)
variable {whole rest : List Char}

/-- A point belongs to a numeral if digits follow it. -/
theorem numeralLength_point (hne : whole ≠ []) (hwhole : ∀ c ∈ whole, isDigit c) :
    numeralLength (whole ++ '.' :: rest) =
      if (rest.takeWhile isDigit).length = 0 then whole.length
      else whole.length + 1 + (rest.takeWhile isDigit).length := by
  have htake : (whole ++ '.' :: rest).takeWhile isDigit = whole := Text.takeWhile_run hwhole rfl
  have hpos : whole.length ≠ 0 := by simpa using hne
  simp only [numeralLength, htake, if_neg hpos, List.drop_left]

/-- A numeral ends with the digits before any other character. -/
theorem numeralLength_stop (hwhole : ∀ c ∈ whole, isDigit c)
    (hrest : ∀ c ∈ rest.head?, isDigit c = false ∧ c ≠ '.') :
    numeralLength (whole ++ rest) = whole.length := by
  have htake := Text.takeWhile_run_append hwhole fun c hc => (hrest c hc).1
  simp only [numeralLength, htake, List.drop_left]
  split
  · rename_i hzero
    exact hzero.symm
  · split
    · exact absurd rfl (hrest '.' rfl).2
    · rfl

theorem mem_number_of_digits (hne : whole ≠ []) (hwhole : ∀ c ∈ whole, isDigit c) :
    whole ∈ Kind.language .number := by
  have hnone : [] ∈ 1 + {['.']} * someOf isDigit := (Language.mem_add _ _ _).2 (.inl rfl)
  have hmem := Language.append_mem_mul (mem_someOf.2 ⟨hne, hwhole⟩) hnone
  rwa [List.append_nil] at hmem

theorem mem_number_of_point {places : List Char} (hne : whole ≠ [])
    (hwhole : ∀ c ∈ whole, isDigit c) (hsome : places ≠ []) (hplaces : ∀ c ∈ places, isDigit c) :
    whole ++ '.' :: places ∈ Kind.language .number := by
  have hpoint : ['.'] ++ places ∈ {['.']} * someOf isDigit :=
    Language.append_mem_mul rfl (mem_someOf.2 ⟨hsome, hplaces⟩)
  exact Language.append_mem_mul (mem_someOf.2 ⟨hne, hwhole⟩)
    ((Language.mem_add _ _ _).2 (.inr hpoint))

theorem numeral_finds : Pattern.Finds numeralLength (Kind.language .number) := by
  intro text h
  rcases Text.run_or_split isDigit text with hall | ⟨whole, c, rest, hwhole, hc, rfl⟩
  · have hl : numeralLength (text ++ []) = text.length := numeralLength_stop hall (by simp)
    rw [List.append_nil] at hl
    have hne : text ≠ [] := by
      rintro rfl
      exact h rfl
    exact ⟨text, [], by simp, hl, mem_number_of_digits hne hall⟩
  · have hne : whole ≠ [] := by
      rintro rfl
      simp [numeralLength, hc] at h
    by_cases hpoint : c = '.' ∧ rest.takeWhile isDigit ≠ []
    · obtain ⟨rfl, hsome⟩ := hpoint
      refine ⟨whole ++ '.' :: rest.takeWhile isDigit, rest.dropWhile isDigit, ?_, ?_, ?_⟩
      · rw [List.append_assoc, List.cons_append, List.takeWhile_append_dropWhile]
      · rw [numeralLength_point hne hwhole, if_neg (by simpa using hsome), List.length_append,
          List.length_cons]
        omega
      · exact mem_number_of_point hne hwhole hsome fun d => List.mem_takeWhile_imp
    · refine ⟨whole, c :: rest, rfl, ?_, mem_number_of_digits hne hwhole⟩
      by_cases hdot : c = '.'
      · subst hdot
        have hnone : rest.takeWhile isDigit = [] := by simpa using hpoint
        rw [numeralLength_point hne hwhole, if_pos (by rw [hnone, List.length_nil])]
      · exact numeralLength_stop hwhole (by simpa using ⟨hc, hdot⟩)

end Numeral

section Literal
variable {quote : Char}

/-- One more character, or an escaped one, in front of the inside of a literal. -/
theorem append_mem_insideQuotes {first more : List Char} (hf : first ∈ insideQuotes quote)
    (hm : more ∈ (insideQuotes quote)∗) : first ++ more ∈ (insideQuotes quote)∗ := by
  obtain ⟨parts, rfl, hparts⟩ := hm
  exact ⟨first :: parts, rfl, List.forall_mem_cons.2 ⟨hf, hparts⟩⟩

/-- The inside of a literal that is closed, and the closing quote. -/
theorem closing_finds {before : Nat} (h : closing quote before text ≠ 0) :
    ∃ inside rest, text = inside ++ quote :: rest ∧
      closing quote before text = before + inside.length + 1 ∧ inside ∈ (insideQuotes quote)∗ := by
  fun_induction closing quote before text with
  | case1 => exact absurd rfl h
  | case2 => exact absurd rfl h
  | case3 before c rest hc ih =>
    obtain ⟨inside, behind, rfl, hl, hm⟩ := ih h
    have hescaped : ['\\'] ++ [c] ∈ insideQuotes quote :=
      .inr (Language.append_mem_mul rfl (singleton_mem_oneOf (by simpa using hc)))
    refine ⟨'\\' :: c :: inside, behind, rfl, ?_, append_mem_insideQuotes hescaped hm⟩
    rw [hl, List.length_cons, List.length_cons]
    omega
  | case4 before rest => exact ⟨[], rest, rfl, rfl, Language.nil_mem_kstar _⟩
  | case5 => exact absurd rfl h
  | case6 before c rest _ hq hb ih =>
    obtain ⟨inside, behind, rfl, hl, hm⟩ := ih h
    have hplain : [c] ∈ insideQuotes quote := .inl (singleton_mem_oneOf (by simp [hq, hb]))
    refine ⟨c :: inside, behind, rfl, ?_, append_mem_insideQuotes hplain hm⟩
    rw [hl, List.length_cons]
    omega

theorem mem_quotedIn {inside : List Char} (h : inside ∈ (insideQuotes quote)∗) :
    quote :: (inside ++ [quote]) ∈ quotedIn quote := by
  have hopened : [quote] ++ inside ∈ {[quote]} * (insideQuotes quote)∗ :=
    Language.append_mem_mul rfl h
  have hclosed := Language.append_mem_mul hopened (m := {[quote]}) (b := [quote]) rfl
  rwa [List.append_assoc] at hclosed

theorem literal_finds : literal.Finds (Kind.language .string) := by
  intro text h
  unfold literal at h ⊢
  split at h
  · rename_i more
    obtain ⟨inside, rest, rfl, hl, hm⟩ := closing_finds h
    refine ⟨'"' :: (inside ++ ['"']), rest, by simp, ?_, .inl (mem_quotedIn hm)⟩
    simp only [hl, List.length_cons, List.length_append, List.length_nil]
    omega
  · rename_i more
    obtain ⟨inside, rest, rfl, hl, hm⟩ := closing_finds h
    refine ⟨'\'' :: (inside ++ ['\'']), rest, by simp, ?_, .inr (mem_quotedIn hm)⟩
    simp only [hl, List.length_cons, List.length_append, List.length_nil]
    omega
  · exact absurd rfl h

end Literal

section Comment
variable {line rest : List Char}

theorem comment_line (hline : '\n' ∉ line) :
    comment ('/' :: '/' :: (line ++ '\n' :: rest)) = line.length + 3 := by
  have htake : (line ++ '\n' :: rest).takeWhile (· != '\n') = line :=
    Text.takeWhile_run (Text.forall_bne_iff.2 hline) (by simp)
  simp [comment, htake]

theorem comment_end (hline : '\n' ∉ line) : comment ('/' :: '/' :: line) = line.length + 2 := by
  have htake : line.takeWhile (· != '\n') = line :=
    List.takeWhile_eq_self_iff.2 (Text.forall_bne_iff.2 hline)
  simp [comment, htake]

/-- A comment goes through the end of its line, or to the end of the text. -/
theorem comment_cases (h : comment text ≠ 0) :
    ∃ line, '\n' ∉ line ∧
      ((∃ rest, text = '/' :: '/' :: (line ++ '\n' :: rest)) ∨ text = '/' :: '/' :: line) := by
  unfold comment at h
  split at h
  · rename_i more
    rcases Text.run_or_split (· != '\n') more with hall | ⟨line, c, rest, hline, hc, rfl⟩
    · exact ⟨more, Text.forall_bne_iff.1 hall, .inr rfl⟩
    · have hc : c = '\n' := by simpa using hc
      subst hc
      exact ⟨line, Text.forall_bne_iff.1 hline, .inl ⟨rest, rfl⟩⟩
  · exact absurd rfl h

theorem mem_comment (hline : '\n' ∉ line) {close : List Char} (hc : close = [] ∨ close = ['\n']) :
    '/' :: '/' :: (line ++ close) ∈ Label.language .comment := by
  have hrun : line ∈ (oneOf (· != '\n'))∗ :=
    mem_kstar_oneOf.2 (Text.forall_bne_iff.2 hline)
  have hfront : ['/', '/'] ++ line ∈ {['/', '/']} * (oneOf (· != '\n'))∗ :=
    Language.append_mem_mul rfl hrun
  have hclose : close ∈ (1 + {['\n']} : Language Char) := hc
  have hmem := Language.append_mem_mul hfront hclose
  rwa [List.append_assoc] at hmem

theorem comment_finds : comment.Finds (Label.language .comment) := by
  intro text h
  obtain ⟨line, hline, ⟨rest, rfl⟩ | rfl⟩ := comment_cases h
  · refine ⟨'/' :: '/' :: (line ++ ['\n']), rest, by simp, ?_, mem_comment hline (.inr rfl)⟩
    rw [comment_line hline, List.length_cons, List.length_cons, List.length_append]
    rfl
  · refine ⟨'/' :: '/' :: line, [], by simp, comment_end hline, ?_⟩
    have := mem_comment hline (.inl rfl)
    rwa [List.append_nil] at this

end Comment

section Directive
variable {blanks name rest : List Char}

/-- Behind the word and its blanks the quote decides. -/
theorem directive_quote (hblanks : ∀ c ∈ blanks, Text.isBlank c) :
    directive (importWord ++ (blanks ++ '"' :: rest)) =
      if 0 < blanks.length ∧ 0 < (rest.takeWhile (· != '"')).length ∧
          (rest.takeWhile (· != '"')).length < rest.length then
        blanks.length + (rest.takeWhile (· != '"')).length + 5
      else 0 := by
  have hp : importWord.isPrefixOf (importWord ++ (blanks ++ '"' :: rest)) :=
    List.isPrefixOf_iff_prefix.2 (List.prefix_append _ _)
  have hdrop : (importWord ++ (blanks ++ '"' :: rest)).drop 3 = blanks ++ '"' :: rest := rfl
  have htake : (blanks ++ '"' :: rest).takeWhile Text.isBlank = blanks :=
    Text.takeWhile_run hblanks (by decide)
  simp only [directive, if_pos hp, ← List.drop_drop, hdrop, htake, List.drop_left]

theorem directive_other (hblanks : ∀ c ∈ blanks, Text.isBlank c)
    (hrest : ∀ c ∈ rest.head?, Text.isBlank c = false ∧ c ≠ '"') :
    directive (importWord ++ (blanks ++ rest)) = 0 := by
  have hp : importWord.isPrefixOf (importWord ++ (blanks ++ rest)) :=
    List.isPrefixOf_iff_prefix.2 (List.prefix_append _ _)
  have hdrop : (importWord ++ (blanks ++ rest)).drop 3 = blanks ++ rest := rfl
  have htake : (blanks ++ rest).takeWhile Text.isBlank = blanks := by
    cases rest with
    | nil => rw [List.append_nil, List.takeWhile_eq_self_iff.2 hblanks]
    | cons c more => exact Text.takeWhile_run hblanks (hrest c rfl).1
  simp only [directive, if_pos hp, ← List.drop_drop, hdrop, htake, List.drop_left]
  split
  · exact absurd rfl (hrest '"' rfl).2
  · rfl

/-- There is no directive without the end of its name. -/
theorem directive_open (hblanks : ∀ c ∈ blanks, Text.isBlank c) (hname : '"' ∉ name) :
    directive (importWord ++ (blanks ++ '"' :: name)) = 0 := by
  rw [directive_quote hblanks, List.takeWhile_eq_self_iff.2 (Text.forall_bne_iff.2 hname)]
  simp

theorem directive_eq (hb : blanks ≠ []) (hblanks : ∀ c ∈ blanks, Text.isBlank c) (hn : name ≠ [])
    (hname : '"' ∉ name) :
    directive (importWord ++ (blanks ++ '"' :: (name ++ '"' :: rest))) =
      blanks.length + name.length + 5 := by
  have htake : (name ++ '"' :: rest).takeWhile (· != '"') = name :=
    Text.takeWhile_run (Text.forall_bne_iff.2 hname) (by simp)
  have hb : 0 < blanks.length := List.length_pos_iff.2 hb
  have hn : 0 < name.length := List.length_pos_iff.2 hn
  rw [directive_quote hblanks, htake, if_pos ⟨hb, hn, by simp⟩]

/-- The parts of an import directive. -/
theorem directive_cases (h : directive text ≠ 0) :
    ∃ blanks name rest, blanks ≠ [] ∧ (∀ c ∈ blanks, Text.isBlank c) ∧ name ≠ [] ∧ '"' ∉ name ∧
      text = importWord ++ (blanks ++ '"' :: (name ++ '"' :: rest)) := by
  by_cases hp : importWord.isPrefixOf text
  · obtain ⟨more, rfl⟩ := List.isPrefixOf_iff_prefix.1 hp
    rcases Text.run_or_split Text.isBlank more with hall | ⟨blanks, c, rest, hblanks, hc, rfl⟩
    · have hzero : directive (importWord ++ (more ++ [])) = 0 := directive_other hall (by simp)
      rw [List.append_nil] at hzero
      exact absurd hzero h
    by_cases hq : c = '"'
    · subst hq
      rw [directive_quote hblanks] at h
      split at h
      · rename_i hlengths
        obtain ⟨hb, hn, hclosed⟩ := hlengths
        rcases Text.run_or_split (· != '"') rest with hall | ⟨name, d, behind, hname, hd, rfl⟩
        · rw [List.takeWhile_eq_self_iff.2 hall] at hclosed
          exact absurd hclosed (Nat.lt_irrefl _)
        · have hd' : d = '"' := by simpa using hd
          subst hd'
          rw [Text.takeWhile_run hname hd] at hn
          exact ⟨blanks, name, behind, List.length_pos_iff.1 hb, hblanks, List.length_pos_iff.1 hn,
            Text.forall_bne_iff.1 hname, rfl⟩
      · exact absurd rfl h
    · exact absurd (directive_other hblanks (by simpa using ⟨hc, hq⟩)) h
  · exact absurd (by simp only [directive, if_neg hp]) h

theorem mem_directive (hb : blanks ≠ []) (hblanks : ∀ c ∈ blanks, Text.isBlank c) (hn : name ≠ [])
    (hname : '"' ∉ name) :
    importWord ++ (blanks ++ '"' :: (name ++ ['"'])) ∈ Label.language .directive := by
  have hword : importWord ++ blanks ∈ {importWord} * someOf Text.isBlank :=
    Language.append_mem_mul rfl (mem_someOf.2 ⟨hb, hblanks⟩)
  have hopened := Language.append_mem_mul hword (m := {['"']}) (b := ['"']) rfl
  have hnamed := Language.append_mem_mul hopened
    (mem_someOf.2 ⟨hn, Text.forall_bne_iff.2 hname⟩)
  have hclosed := Language.append_mem_mul hnamed (m := {['"']}) (b := ['"']) rfl
  simp only [List.append_assoc, List.cons_append, List.nil_append] at hclosed
  exact hclosed

theorem directive_finds : directive.Finds (Label.language .directive) := by
  intro text h
  obtain ⟨blanks, name, rest, hb, hblanks, hn, hname, rfl⟩ := directive_cases h
  refine ⟨importWord ++ (blanks ++ '"' :: (name ++ ['"'])), rest, by simp, ?_,
    mem_directive hb hblanks hn hname⟩
  rw [directive_eq hb hblanks hn hname]
  simp [importWord]
  omega

end Directive

end Pattern

/-- What a rule measures belongs to its language. -/
theorem Rule.Form.finds {rule : Rule} (h : rule.Form) :
    rule.pattern.Finds rule.label.language := by
  cases h with
  | comment => exact Pattern.comment_finds
  | directive => exact Pattern.directive_finds
  | number => exact Pattern.numeral_finds
  | literal => exact Pattern.literal_finds
  | identifier => exact Pattern.identifier_finds
  | blank => exact Pattern.blank_finds
  | symbol hk hs =>
    intro text hne
    obtain ⟨found, rest, ht, hl, rfl⟩ := Pattern.symbol_finds _ text hne
    exact ⟨_, rest, ht, hl, (Kind.mem_language_of_spelling hk).2 rfl⟩
  | word hk hs =>
    intro text hne
    obtain ⟨found, rest, ht, hl, rfl⟩ := Pattern.word_finds _ text hne
    exact ⟨_, rest, ht, hl, (Kind.mem_language_of_spelling hk).2 rfl⟩

/-- A match is a text of the language of its label, at the start of the text. -/
theorem Rule.first?_finds {text : List Char} {label : Label} {length : Nat}
    (h : Rule.first? text Rule.all = some (label, length)) :
    ∃ found rest, text = found ++ rest ∧ length = found.length ∧ found ≠ [] ∧
      found ∈ label.language := by
  obtain ⟨rule, hm, rfl, rfl⟩ := Rule.exists_of_first? h
  have hpos := Rule.ne_zero_of_first? h
  obtain ⟨found, rest, ht, hl, hf⟩ := (Rule.form_of_mem rule hm).finds text hpos
  exact ⟨found, rest, ht, hl, List.length_pos_iff.1 (by omega), hf⟩

end PrefixScript
