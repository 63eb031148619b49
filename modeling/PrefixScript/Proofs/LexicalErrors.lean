import PrefixScript.Proofs.FileChain
import PrefixScript.Proofs.LongestMatch

/-!
# Characters at which a source cannot be scanned

A lexical error of a source points at the character at which scanning ends. All texts of a rule's
language that stand at a place are as long as what the rule measures there, or shorter, so cutting
off what is left of a source changes none of the matches before it: the text in front of the
character is scanned to its end, into the same pieces, and yields tokens. The line, the column and
the number that the diagnostic tells are those of the character, and the mark of the excerpt stands
under it.
-/
namespace PrefixScript
open Computability

/-! ## Texts that are cut off -/

namespace Pattern
variable {front rest : List Char}

/-- No text of a language is longer than what the pattern measures at its place. -/
def Maximal (pattern : Pattern) (language : Language Char) : Prop :=
  ∀ found ∈ language, ∀ rest, found.length ≤ pattern (found ++ rest)

/-- What is measured within a text does not depend on what follows the text. -/
theorem Finds.cut {pattern : Pattern} {language : Language Char} (hf : pattern.Finds language)
    (hm : pattern.Maximal language) (hle : pattern (front ++ rest) ≤ front.length) :
    pattern front = pattern (front ++ rest) := by
  apply Nat.le_antisymm
  · by_cases hz : pattern front = 0
    · omega
    · obtain ⟨found, behind, rfl, hl, hfound⟩ := hf front hz
      rw [hl, List.append_assoc]
      exact hm found hfound _
  · by_cases hz : pattern (front ++ rest) = 0
    · omega
    · obtain ⟨found, behind, htext, hl, hfound⟩ := hf (front ++ rest) hz
      rw [hl] at hle ⊢
      have hprefix : found <+: front ++ rest := ⟨behind, htext.symm⟩
      obtain ⟨more, rfl⟩ :=
        List.prefix_of_prefix_length_le hprefix (List.prefix_append front rest) hle
      exact hm found hfound more

theorem symbol_maximal (spelling : List Char) : (symbol spelling).Maximal {spelling} := by
  intro found hm rest
  obtain rfl : found = spelling := hm
  have hp : found.isPrefixOf (found ++ rest) :=
    List.isPrefixOf_iff_prefix.2 (List.prefix_append _ _)
  rw [symbol, if_pos hp]

theorem identifier_maximal : identifier.Maximal (Kind.language .identifier) := by
  intro found hm rest
  obtain ⟨_, ⟨c, hc, rfl⟩, more, hmore, rfl⟩ := Language.mem_mul.1 hm
  have hrun : ((more ++ rest).takeWhile isWordChar).length =
      more.length + (rest.takeWhile isWordChar).length := by
    rw [List.takeWhile_append_of_pos (mem_kstar_oneOf.1 hmore), List.length_append]
  simp only [List.cons_append, List.nil_append, List.length_cons, identifier, if_pos hc, hrun]
  omega

theorem blank_maximal : blank.Maximal (someOf Text.isBlank) := by
  intro found hm rest
  rw [blank, List.takeWhile_append_of_pos (mem_someOf.1 hm).2, List.length_append]
  omega

theorem literal_maximal : literal.Maximal (Kind.language .string) := by
  intro found hm rest
  obtain ⟨quote, more, -, -, hl⟩ := literal_of_mem hm
  exact (hl rest).ge

/-- Behind a word, all that counts is that no word character follows. -/
theorem word_cut {spelling : List Char} (hrest : ∀ c ∈ rest.head?, isWordChar c = false)
    (hle : word spelling (front ++ rest) ≤ front.length) :
    word spelling front = word spelling (front ++ rest) := by
  by_cases hp : spelling <+: front
  · obtain ⟨more, rfl⟩ := hp
    have hnext : (more ++ rest).head?.any isWordChar = more.head?.any isWordChar := by
      cases more with
      | cons c behind => rfl
      | nil =>
        cases rest with
        | nil => rfl
        | cons c behind => exact hrest c rfl
    rw [List.append_assoc, word, word, List.drop_left, List.drop_left, hnext]
    simp only [List.isPrefixOf_iff_prefix.2 (List.prefix_append _ _)]
  · have hfront : word spelling front = 0 := by
      have hnot : spelling.isPrefixOf front = false := by
        rw [← Bool.not_eq_true, List.isPrefixOf_iff_prefix]
        exact hp
      rw [word, hnot]
      rfl
    rw [hfront]
    by_contra hne
    obtain ⟨_, behind, htext, hl, rfl⟩ := word_finds spelling (front ++ rest) (Ne.symm hne)
    rw [hl] at hle
    exact hp (List.prefix_of_prefix_length_le ⟨behind, htext.symm⟩ (List.prefix_append _ _) hle)

end Pattern

namespace Rule
variable {front rest : List Char} {label : Label} {length : Nat}

theorem Form.pattern_cut {rule : Rule} (h : rule.Form)
    (hrest : ∀ c ∈ rest.head?, Pattern.isWordChar c = false)
    (hle : rule.pattern (front ++ rest) ≤ front.length) :
    rule.pattern front = rule.pattern (front ++ rest) := by
  cases h with
  | comment => exact Pattern.comment_finds.cut (fun _ => Pattern.length_le_comment) hle
  | directive => exact Pattern.directive_finds.cut (fun _ => Pattern.length_le_directive) hle
  | number => exact Pattern.numeral_finds.cut (fun _ => Pattern.length_le_numeralLength) hle
  | literal => exact Pattern.literal_finds.cut Pattern.literal_maximal hle
  | identifier => exact Pattern.identifier_finds.cut Pattern.identifier_maximal hle
  | blank => exact Pattern.blank_finds.cut Pattern.blank_maximal hle
  | symbol => exact (Pattern.symbol_finds _).cut (Pattern.symbol_maximal _) hle
  | word => exact Pattern.word_cut hrest hle

/-- A match within a text is the match of that text, if what is cut off continues no word: no rule
measures more than the match. -/
theorem first?_cut (h : first? (front ++ rest) all = some (label, length))
    (hrest : ∀ c ∈ rest.head?, Pattern.isWordChar c = false) (hle : length ≤ front.length) :
    first? front all = some (label, length) := by
  rw [← h]
  refine first?_congr fun rule hm => (form_of_mem rule hm).pattern_cut hrest ?_
  exact (pattern_le_of_first? h hm).trans hle

/-- Where no rule matches, each of them measures nothing. -/
theorem pattern_eq_zero {text : List Char} (h : first? text all = none) :
    ∀ rule ∈ all, rule.pattern text = 0 := by
  intro rule hm
  by_contra hne
  exact first?_ne_none hm hne h

/-- Every word character starts a match. -/
theorem isWordChar_of_none (h : first? rest all = none) :
    ∀ c ∈ rest.head?, Pattern.isWordChar c = false := by
  intro c hc
  obtain ⟨more, rfl⟩ := List.head?_eq_some_iff.1 hc
  have hdigit : Decimal.isDigit c = false := by
    by_contra hd
    have hm : (⟨.token .number, Decimal.numeralLength⟩ : Rule) ∈ all := by simp [all]
    have hzero : Decimal.numeralLength (c :: more) = 0 := pattern_eq_zero h _ hm
    have hpos := Pattern.takeWhile_le_numeralLength (c :: more)
    rw [hzero, List.takeWhile_cons_of_pos (by simpa using hd)] at hpos
    cases hpos
  have hstart : Pattern.isWordStart c = false := by
    by_contra hs
    have hm : (⟨.token .identifier, .identifier⟩ : Rule) ∈ all := by simp [all]
    have hzero : Pattern.identifier (c :: more) = 0 := pattern_eq_zero h _ hm
    rw [Pattern.identifier, if_pos (by simpa using hs)] at hzero
    cases hzero
  have hclasses : Pattern.isWordChar c = (Pattern.isWordStart c || Decimal.isDigit c) := by
    show (c.isAlpha || c.isDigit || c == '_') = (c.isAlpha || c == '_' || c.isDigit)
    rw [Bool.or_right_comm]
  rw [hclasses, hstart, hdigit]
  rfl

end Rule

namespace Scan

/-- No rule matches where scanning ends. -/
theorem first?_rest (text : List Char) : Rule.first? (ofText text).rest Rule.all = none := by
  induction text using Scan.induction with
  | stuck text h => rwa [ofText_of_none h]
  | piece text label length h ih => rwa [ofText_of_some h]

/-- Without what is left of it, a text is scanned to its end, into the same pieces. -/
theorem ofText_passed {front rest : List Char} (h : (ofText (front ++ rest)).rest = rest) :
    ofText front = ⟨(ofText (front ++ rest)).pieces, []⟩ := by
  have hnone : Rule.first? rest Rule.all = none := by
    rw [← h]
    exact first?_rest _
  have hword := Rule.isWordChar_of_none hnone
  generalize htext : front ++ rest = text at h
  induction text using Scan.induction generalizing front with
  | stuck text hstuck =>
    rw [ofText_of_none hstuck] at h ⊢
    obtain rfl : front = [] := by
      rw [← htext] at h
      exact List.append_left_eq_self.1 h
    rfl
  | piece text label length hf ih =>
    subst htext
    have hrest : (ofText ((front ++ rest).drop length)).rest = rest := by
      rw [ofText_of_some hf] at h
      exact h
    have hle : length ≤ front.length := by
      obtain ⟨found, behind, htext, rfl, -⟩ := Rule.first?_finds hf
      have hsuffix := rest_suffix ((front ++ rest).drop found.length)
      have hlength := congrArg List.length htext
      rw [hrest, htext, List.drop_left] at hsuffix
      rw [List.length_append, List.length_append] at hlength
      have hshort := hsuffix.length_le
      omega
    have hdrop : (front ++ rest).drop length = front.drop length ++ rest :=
      List.drop_append_of_le_length hle
    have htake : (front ++ rest).take length = front.take length :=
      List.take_append_of_le_length hle
    rw [ofText_of_some hf, ofText_of_some (Rule.first?_cut hf hword hle), htake,
      ih hdrop.symm hrest]

end Scan

/-! ## Places -/

/-- The place of a character in a text: its line, what stands before and behind the line, and its
column. -/
structure Place (source : List Char) where
  before : List Char
  line : List Char
  behind : List Char
  column : Nat
  char : Char
  text_eq : source = before ++ line ++ behind
  whole : '\n' ∉ line
  opens : ∀ c ∈ before.getLast?, c = '\n'
  closes : ∀ c ∈ behind.head?, c = '\n'
  char_eq : (line)[column]? = some char

namespace Place
variable {source : List Char} (place : Place source)

/-- The number of the line, counted from one. -/
def number : Nat := place.before.count '\n' + 1

/-- The text in front of the character. -/
def passed : List Char := place.before ++ place.line.take place.column

/-- The text from the character on. -/
def left : List Char := place.line.drop place.column ++ place.behind

theorem passed_append_left : place.passed ++ place.left = source := by
  rw [passed, left, ← List.append_assoc, List.append_assoc place.before, List.take_append_drop,
    ← place.text_eq]

theorem head?_left : place.left.head? = some place.char := by
  rw [left, List.head?_append, List.head?_drop, place.char_eq, Option.some_or]

/-- No character of the line in front of the place ends a line. -/
theorem count_passed : place.passed.count '\n' + 1 = place.number := by
  have hline : (place.line.take place.column).count '\n' = 0 :=
    List.count_eq_zero.2 fun hm => place.whole (List.mem_of_mem_take hm)
  rw [passed, List.count_append, hline, Nat.add_zero, number]

/-- Every character has a place, unless it ends a line. -/
theorem exists_of_split (passed more : List Char) {c : Char} (hc : c ≠ '\n') :
    ∃ place : Place (passed ++ c :: more), place.passed = passed ∧ place.left = c :: more ∧
      place.char = c ∧
      place.line = (passed.reverse.takeWhile (· != '\n')).reverse ++
        (c :: more).takeWhile (· != '\n') ∧
      place.column = (passed.reverse.takeWhile (· != '\n')).reverse.length := by
  obtain ⟨front, hfront, hopens⟩ := Assembly.exists_lastLine passed
  obtain ⟨back, hback, hcloses⟩ := Assembly.exists_firstLine (c :: more)
  have hstart : '\n' ∉ (passed.reverse.takeWhile (· != '\n')).reverse := fun hm =>
    absurd (List.mem_takeWhile_imp (List.mem_reverse.1 hm)) (by decide)
  generalize (passed.reverse.takeWhile (· != '\n')).reverse = start at hfront hstart ⊢
  have hstop : '\n' ∉ (c :: more).takeWhile (· != '\n') := fun hm =>
    absurd (List.mem_takeWhile_imp hm) (by decide)
  have hhead : (c :: more).takeWhile (· != '\n') = c :: more.takeWhile (· != '\n') :=
    List.takeWhile_cons_of_pos (by simpa using hc)
  generalize (c :: more).takeWhile (· != '\n') = stop at hback hstop hhead ⊢
  refine ⟨⟨front, start ++ stop, back, start.length, c, ?_, ?_, hopens, hcloses, ?_⟩, ?_, ?_, rfl,
    rfl, rfl⟩
  · rw [hback, hfront, List.append_assoc, List.append_assoc, List.append_assoc]
  · intro hm
    exact (List.mem_append.1 hm).elim hstart hstop
  · rw [List.getElem?_append_right (Nat.le_refl _), Nat.sub_self, hhead]
    rfl
  · rw [Place.passed, List.take_left, ← hfront]
  · rw [Place.left, List.drop_left, ← hback]

/-- Scanning ends at a place: what stands in front of it is scanned to its end, into the pieces of
the whole, and no rule matches at its character, which is not blank. -/
structure EndsScan : Prop where
  pieces : ∃ pieces, Scan.ofText place.passed = ⟨pieces, []⟩ ∧
    Scan.ofText source = ⟨pieces, place.left⟩
  unmatched : ∀ rule ∈ Rule.all, rule.pattern place.left = 0
  not_blank : Text.isBlank place.char = false

theorem endsScan (h : (Scan.ofText source).rest = place.left) : place.EndsScan where
  pieces := by
    have hpassed := @Scan.ofText_passed place.passed place.left
    rw [place.passed_append_left] at hpassed
    exact ⟨_, hpassed h, by rw [← h]⟩
  unmatched := by
    rw [← h]
    exact Rule.pattern_eq_zero (Scan.first?_rest source)
  not_blank := by
    obtain ⟨more, hmore⟩ := List.head?_eq_some_iff.1 place.head?_left
    exact Scan.not_blank_of_rest (h.trans hmore)

end Place

/-! ## Diagnostics that point at a place -/

/-- The parts of a text before, in and behind a slice. -/
theorem Text.parts_eq (text : List Char) {start stop : Int} (hs : 0 ≤ start) (hle : start ≤ stop) :
    upTo text start ++ slice text start stop ++ onward text stop = text := by
  have hclamp : clamp text.length start ≤ clamp text.length stop := by
    rw [clamp, clamp, if_neg (by omega), if_neg (by omega)]
    omega
  have hfirst : upTo text start = (text.take (clamp text.length stop)).take
      (clamp text.length start) := by
    rw [List.take_take, min_eq_left hclamp, upTo]
  rw [hfirst, slice, List.take_append_drop, onward, List.take_append_drop]

/-- If the part at fault is not empty, an excerpt without colours is the text at fault and, on a
second line, a mark under the first character of the part and a wave under the others. -/
theorem Diagnostic.highlight_content {d : Diagnostic} (hs : 0 ≤ d.start) (hd : d.start < d.stop)
    (ink : Ink) :
    (d.highlight ink).content = "  " ++ d.subject ++ "\n" ++
      ("  " ++ String.ofList (List.replicate d.start.toNat ' ') ++
        String.ofList ('^' :: List.replicate (d.stop - d.start - 1).toNat '~')) := by
  have hstop : max d.stop (d.start + 1) = d.stop := max_eq_left hd
  have hparts := Text.parts_eq d.subject.toList hs hd.le
  have hsubject : String.ofList (Text.upTo d.subject.toList d.start) ++
      String.ofList (Text.slice d.subject.toList d.start d.stop) ++
      String.ofList (Text.onward d.subject.toList d.stop) = d.subject := by
    rw [← String.ofList_append, ← String.ofList_append, hparts, String.ofList_toList]
  simp only [highlight, hstop, Styled.content, Styled.plain, Styled.inked, List.cons_append,
    List.nil_append, List.map_cons, List.map_nil, Span.content, String.join, List.foldl]
  conv_rhs => rw [← hsubject]
  simp only [String.append_assoc, String.empty_append]

/-- A diagnostic tells of the character at a place, and its excerpt marks it. -/
structure Diagnostic.PointsAt (d : Diagnostic) {source : List Char} (place : Place source) :
    Prop where
  subject : d.subject = String.ofList place.line
  start : d.start = place.column
  stop : d.stop = place.column + 1
  context : d.context = .text place.char.toString
  message : d.message.content = "'" ++ d.subject ++ "' has unexpected character '" ++
    place.char.toString ++ "' on line " ++ place.number.repr
  shown : d.isHighlighted
  mark : ∀ ink, (d.highlight ink).render false = "  " ++ d.subject ++ "\n" ++
    ("  " ++ String.ofList (List.replicate place.column ' ') ++ "^")

namespace Place
variable {source : List Char}

/-- The fault that the scan of a source tells of at a place. -/
def fault (place : Place source) : Fault :=
  .unexpectedCharacter (String.ofList place.line) place.column place.char place.number

theorem pointsAt (place : Place source) : place.fault.diagnostic.PointsAt place where
  subject := rfl
  start := rfl
  stop := rfl
  context := rfl
  message := by
    simp [fault, Fault.diagnostic, Diagnostic.basic, Styled.content, Styled.plain, Styled.bold,
      Span.content, String.join, String.append_assoc]
  shown := by
    have hne : place.line ≠ [] := by
      intro hnil
      have hchar := place.char_eq
      rw [hnil, List.getElem?_nil] at hchar
      cases hchar
    have hsubject : place.fault.diagnostic.subject ≠ "" := by
      show String.ofList place.line ≠ ""
      simpa using hne
    rw [Diagnostic.isHighlighted, bne_iff_ne.2 hsubject]
    rfl
  mark ink := by
    have hs : (0 : Int) ≤ place.column := by omega
    have hd : (place.column : Int) < place.column + 1 := by omega
    have hone : ((place.column : Int) + 1 - place.column - 1).toNat = 0 := by omega
    have hcontent := place.fault.diagnostic.highlight_content hs hd ink
    rw [Styled.render_false, hcontent]
    show _ ++ (_ ++ String.ofList ('^' :: List.replicate
      ((place.column : Int) + 1 - place.column - 1).toNat '~')) = _
    rw [hone]
    rfl

end Place

namespace Assembly

/-- What is left of a source starts at a place, and the fault is that of the place. -/
theorem exists_place {source : List Char} (h : (Scan.ofText source).rest ≠ []) :
    ∃ place : Place source, (Scan.ofText source).rest = place.left ∧
      unexpected source (Scan.ofText source).rest = place.fault := by
  obtain ⟨passed, hpassed⟩ := Scan.rest_suffix source
  obtain ⟨c, more, hrest⟩ := List.exists_cons_of_ne_nil h
  have hc : c ≠ '\n' := by
    rintro rfl
    cases Scan.not_blank_of_rest hrest
  rw [hrest] at hpassed ⊢
  subst hpassed
  obtain ⟨place, hfront, hleft, hchar, hline, hcolumn⟩ := Place.exists_of_split passed more hc
  refine ⟨place, hleft.symm, ?_⟩
  rw [unexpected_append, Place.fault, ← place.count_passed, hfront, hchar, hline, hcolumn]
  rfl

/-- A source of which the own text fails: all its files were found, and something is left of it. -/
theorem fault_of_own {directory source : String} {before after : Assembly} {fault : Fault}
    (h : tokens directory source before = .error (.fault fault) after)
    (hl : fault.diagnostic.category = .lexical) (ht : after.trace.length = before.trace.length) :
    (Scan.ofText source.toList).rest ≠ [] ∧
      fault = unexpected source.toList (Scan.ofText source.toList).rest ∧
      ∃ depth found, depthBound before.files = depth + 1 ∧
        gather depth directory source.toList [] before = .ok found after := by
  obtain ⟨depth, hd⟩ : ∃ depth, depthBound before.files = depth + 1 := ⟨_, rfl⟩
  have hstops : Stops 0 (.fault fault) before after := by
    have hends : Ends (tokens directory source) before (fun _ _ => True)
        fun failure after => failure ≠ .unfinished ∧ Stops 0 failure before after := by
      rw [ends_tokens]
      exact (tokensFrom_reads directory source.toList before).mono (fun _ _ _ => trivial)
        fun _ _ h => h
    exact (hends.of_error h).2
  rw [tokens_eq hd] at h
  cases hg : gather depth directory source.toList [] before with
  | ok found middle =>
    rw [hg] at h
    by_cases hrest : (Scan.ofText source.toList).rest = []
    · simp [hrest] at h
    · simp only [if_neg hrest] at h
      cases h
      exact ⟨hrest, rfl, depth, found, hd, hg⟩
  | error failure middle =>
    rw [hg] at h
    cases h
    -- Further down in a file, the same fault would have another number.
    have htrace := (gather_obeys_trace depth directory source.toList [] before).of_error hg
    rcases htrace with hlong | hown
    · omega
    · cases hstops with
      | lexical =>
        have hlater := hown.2 1
        simp [Failure.later, Fault.later] at hlater
      | unreadable => cases hl

end Assembly

/-- If the own text of a source cannot be scanned, and not that of a file that it imports, the error
points at the character at which scanning ends. The files that were entered on the way have been
left then, so the chain of files is as long as before. The text in front of the character alone
yields tokens, and what they are found with is left as the error leaves it. -/
theorem lexical_error_at_place {directory source : String} {before after : Assembly} {fault : Fault}
    (h : Assembly.tokens directory source before = .error (.fault fault) after)
    (hl : fault.diagnostic.category = .lexical) (ht : after.trace.length = before.trace.length) :
    ∃ place : Place source.toList, fault.diagnostic.PointsAt place ∧ place.EndsScan ∧
      ∃ tokens,
        Assembly.tokens directory (String.ofList place.passed) before = .ok tokens after := by
  obtain ⟨hrest, rfl, depth, found, hd, hg⟩ := Assembly.fault_of_own h hl ht
  obtain ⟨place, hleft, hfault⟩ := Assembly.exists_place hrest
  have hends := place.endsScan hleft
  obtain ⟨pieces, hpassed, hall⟩ := hends.pieces
  have hgather : Assembly.gather depth directory place.passed [] before = .ok found after := by
    rw [← hg, Assembly.gather, Assembly.gather, hpassed, hall]
    rfl
  refine ⟨place, hfault ▸ place.pointsAt, hends, found.reverse ++ [Token.ending], ?_⟩
  rw [Assembly.tokens_eq hd, String.toList_ofList, hgather, hpassed]
  exact if_pos rfl

/-- The character stands behind a directive and a literal that end on later lines than they start,
and behind a comment. -/
theorem lexical_error_on_fourth_line :
    let files : Files := Table.empty.insert "/a" "x".toUTF8
    let before : Assembly := ⟨.start ⟨files, [], fun _ => 0, 0, [], "/"⟩ true, .empty⟩
    let source := "IMP\n\"a\" 'b\nc' // d\n1 ? e\nf"
    let fault : Fault := .unexpectedCharacter "1 ? e" 2 '?' 4
    ∃ after, Assembly.tokens "/" source before = .error (.fault fault) after ∧
      fault.diagnostic.category = .lexical ∧ after.trace.length = before.trace.length ∧
      ∃ place : Place source.toList, fault.diagnostic.PointsAt place ∧ place.EndsScan ∧
        ∃ tokens,
          Assembly.tokens "/" (String.ofList place.passed) before = .ok tokens after := by
  intro files before source fault
  have hread : before.files.read "/a" = .text "x" :=
    Files.read_insert _ (by decide) (by decide) (by decide) (by decide)
  have hbound : Assembly.depthBound before.files = 3 := rfl
  clear_value files
  have hends : Ends (Assembly.tokens "/" source) before (fun _ _ => False)
      fun failure after => failure = .fault fault ∧ after.trace = before.trace := by
    have hsource : Scan.ofText source.toList =
        ⟨[.directive "IMP\n\"a\"" "a", .blank " ", .token ⟨.string, "'b\nc'"⟩, .blank " ",
          .comment "// d\n", .token ⟨.number, "1"⟩, .blank " "], "? e\nf".toList⟩ := by cbv
    have hinner : Scan.ofText ("x".toList ++ ['\n']) =
        ⟨[.token ⟨.identifier, "x"⟩, .blank "\n"], []⟩ := by cbv
    have hfresh : ¬ (Table.empty : Included).contains (Files.key "/a") := by decide
    have hfault : Assembly.unexpected source.toList "? e\nf".toList = fault := by cbv
    rw [Assembly.ends_tokens, hbound, Assembly.ends_tokensFrom, hsource]
    simp only [Assembly.collect, ends_bind, ends_pure, hfault]
    rw [Assembly.ends_expand_of_text (show "/a" = _ by decide) hfresh hread,
      Assembly.ends_tokensFrom, hinner]
    simp only [Assembly.collect, ends_pure, if_true]
    exact ⟨trivial, rfl⟩
  cases herror : Assembly.tokens "/" source before with
  | ok found after => exact (hends.of_ok herror).elim
  | error failure after =>
    obtain ⟨rfl, htrace⟩ := hends.of_error herror
    have hlength := congrArg List.length htrace
    exact ⟨after, rfl, rfl, hlength, lexical_error_at_place herror rfl hlength⟩

end PrefixScript
