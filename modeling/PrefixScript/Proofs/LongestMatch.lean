import PrefixScript.Proofs.SpacedTokens
import PrefixScript.Proofs.Splicing

/-!
# The first rule that matches has the longest match

The order of the rules alone decides between them, and it decides for the longest match: no text of
any of their languages that stands at the place of a match is longer. Rules whose texts can start
alike are few. Words end together, with the run of word characters that they start, and of the
others the longer one comes first.
-/
namespace PrefixScript
open Computability

/-! ## Words -/

namespace Pattern
variable {spelling text : List Char}

/-- A word is matched up to the end of the run of word characters. -/
theorem word_eq_run (hs : ∀ c ∈ spelling, isWordChar c) (h : word spelling text ≠ 0) :
    word spelling text = (text.takeWhile isWordChar).length := by
  unfold word at h ⊢
  split at h
  · rename_i hp
    obtain ⟨hmatched, hend⟩ := Bool.and_eq_true _ _ ▸ hp
    obtain ⟨rest, rfl⟩ := List.isPrefixOf_iff_prefix.1 hmatched
    have hrest : rest.takeWhile isWordChar = [] := by
      cases rest with
      | nil => rfl
      | cons c more =>
        rw [List.drop_left] at hend
        exact List.takeWhile_cons_of_neg (by simpa using hend)
    rw [if_pos hp, List.takeWhile_append_of_pos hs, hrest, List.append_nil]
  · exact absurd rfl h

theorem identifier_eq_run (h : identifier text ≠ 0) :
    identifier text = (text.takeWhile isWordChar).length := by
  cases text with
  | nil => rfl
  | cons c rest =>
    by_cases hc : isWordStart c
    · rw [identifier, if_pos hc, List.takeWhile_cons_of_pos (isWordChar_of_isWordStart hc),
        List.length_cons]
    · simp [identifier, hc] at h

/-- The run of word characters at the start of a directive is its word. -/
theorem run_le_directive (h : directive text ≠ 0) :
    (text.takeWhile isWordChar).length ≤ directive text := by
  obtain ⟨blanks, name, rest, hb, hblanks, hn, hname, rfl⟩ := directive_cases h
  have hword : ∀ c ∈ importWord, isWordChar c := List.all_eq_true.1 rfl
  rw [List.takeWhile_append_of_pos hword, Scan.takeWhile_isWordChar_of_blanks hblanks rfl,
    directive_eq hb hblanks hn hname, List.append_nil]
  have hthree : importWord.length = 3 := rfl
  omega

end Pattern

namespace Rule
variable {text : List Char} {label : Label} {kind : Kind} {length : Nat}

/-- The rule of a keyword or a builtin looks for it as a whole word. -/
theorem pattern_of_isWord : ∀ rule ∈ all, ∀ kind, rule.label = .token kind → kind.isWord →
    ∃ spelling, kind.spelling? = some spelling ∧ rule.pattern = Pattern.word spelling.toList := by
  simp only [all, symbol, word, List.forall_mem_cons, Label.token.injEq, reduceCtorEq]
  simp [Kind.isWord, Kind.spelling?]

/-- Keywords, builtins and identifiers are matched up to the end of the run of word characters. -/
theorem first?_eq_run (h : first? text all = some (.token kind, length))
    (hk : kind.isWord ∨ kind = .identifier) :
    length = (text.takeWhile Pattern.isWordChar).length := by
  rcases hk with hk | rfl
  · obtain ⟨rule, hm, hl, rfl⟩ := exists_of_first? h
    obtain ⟨spelling, hs, hp⟩ := pattern_of_isWord rule hm kind hl hk
    have hpos := ne_zero_of_first? h
    rw [hp] at hpos ⊢
    rcases Kind.spelling_cases hs with ⟨-, -, hword⟩ | ⟨hnot, -⟩
    · exact Pattern.word_eq_run hword hpos
    · rw [hnot] at hk
      cases hk
  · obtain ⟨hl, hpos⟩ := first?_pattern h rfl
    rw [← hl] at hpos ⊢
    exact Pattern.identifier_eq_run hpos

/-- Where a word starts, no match is shorter than the run of word characters. -/
theorem run_le_of_first? {c : Char} {rest : List Char} (hc : Pattern.isWordStart c)
    (h : first? (c :: rest) all = some (label, length)) :
    ((c :: rest).takeWhile Pattern.isWordChar).length ≤ length := by
  have hstarts := first?_starts h
  cases label with
  | comment =>
    rw [beq_iff_eq.1 hstarts] at hc
    cases hc
  | blank =>
    have hblank : Text.isBlank c = true := hstarts
    rw [Pattern.isBlank_of_isWordChar (Pattern.isWordChar_of_isWordStart hc)] at hblank
    cases hblank
  | directive =>
    obtain ⟨hl, hpos⟩ := first?_pattern h rfl
    rw [← hl] at hpos ⊢
    exact Pattern.run_le_directive hpos
  | token kind =>
    refine (first?_eq_run h ?_).ge
    cases kind with
    | identifier => exact .inr rfl
    | number =>
      have hdigit : Decimal.isDigit c = true := hstarts
      rw [Pattern.isDigit_of_isWordStart hc] at hdigit
      cases hdigit
    | string =>
      have hq : c = '"' ∨ c = '\'' := by simpa [Label.starts] using hstarts
      rcases hq with rfl | rfl <;> cases hc
    | ending | other => cases hstarts
    | _ =>
      obtain ⟨spelling, hk, hs⟩ :=
        (Option.any_eq_true _ _).1 (show Kind.spelledFrom _ c from hstarts)
      rcases Kind.spelling_cases hk with ⟨hword, -, -⟩ | ⟨-, d, more, hd, hstart, -⟩
      · exact .inl hword
      · rw [hd] at hs
        rw [← Option.some.inj (beq_iff_eq.1 hs), hstart] at hc
        cases hc

end Rule

/-! ## Texts of the languages at the place of a match -/

namespace Pattern
variable {found : List Char}

/-- A comment is matched to the end of its line. -/
theorem length_le_comment (h : found ∈ Label.language .comment) (rest : List Char) :
    found.length ≤ comment (found ++ rest) := by
  obtain ⟨_, hfront, close, hclose, rfl⟩ := Language.mem_mul.1 h
  obtain ⟨_, rfl, line, hline, rfl⟩ := Language.mem_mul.1 hfront
  have hline := mem_kstar_oneOf.1 hline
  rcases hclose with hnone | hfeed
  · obtain rfl : close = [] := hnone
    have hrun : line.length ≤ ((line ++ rest).takeWhile (· != '\n')).length := by
      rw [List.takeWhile_append_of_pos hline, List.length_append]
      omega
    simp only [List.append_nil, List.cons_append, List.nil_append, List.length_cons, comment]
    split <;> omega
  · obtain rfl : close = ['\n'] := hfeed
    have htext : ['/', '/'] ++ line ++ ['\n'] ++ rest = '/' :: '/' :: (line ++ '\n' :: rest) := by
      simp
    rw [htext, comment_line (Text.forall_bne_iff.1 hline)]
    simp

/-- A directive is matched to its closing quote. -/
theorem length_le_directive (h : found ∈ Label.language .directive) (rest : List Char) :
    found.length ≤ directive (found ++ rest) := by
  obtain ⟨_, hnamed, _, rfl, rfl⟩ := Language.mem_mul.1 h
  obtain ⟨_, hopened, name, hname, rfl⟩ := Language.mem_mul.1 hnamed
  obtain ⟨_, hword, _, rfl, rfl⟩ := Language.mem_mul.1 hopened
  obtain ⟨_, rfl, blanks, hblanks, rfl⟩ := Language.mem_mul.1 hword
  obtain ⟨hb, hblanks⟩ := mem_someOf.1 hblanks
  obtain ⟨hn, hname⟩ := mem_someOf.1 hname
  have htext : importWord ++ blanks ++ ['"'] ++ name ++ ['"'] ++ rest =
      importWord ++ (blanks ++ '"' :: (name ++ '"' :: rest)) := by simp
  rw [htext, directive_eq hb hblanks hn (Text.forall_bne_iff.1 hname)]
  simp only [List.length_append, List.length_cons, List.length_nil, importWord]
  omega

end Pattern

namespace Rule
variable {found rest : List Char} {label : Label} {length : Nat}

/-- No word is longer than the match at its place. -/
theorem word_le_of_first? (h : first? (found ++ rest) all = some (label, length))
    (hstart : found.head?.any Pattern.isWordStart) (hword : ∀ c ∈ found, Pattern.isWordChar c) :
    found.length ≤ length := by
  cases found with
  | nil => cases hstart
  | cons c more =>
    have hrun : ((c :: more ++ rest).takeWhile Pattern.isWordChar).length ≤ length :=
      run_le_of_first? hstart h
    rw [List.takeWhile_append_of_pos hword, List.length_append] at hrun
    omega

/-- What is spelled in one way is no longer than the match at its place: of what is no word, only
the comparisons are longer than one character, and nothing but a comment comes before them. -/
theorem spelling_le_of_first? {kind : Kind} {spelling : String}
    (hs : kind.spelling? = some spelling)
    (h : first? (spelling.toList ++ rest) all = some (label, length)) :
    spelling.toList.length ≤ length := by
  rcases Kind.spelling_cases hs with ⟨-, hstart, hword⟩ | ⟨-, d, tail, hd, -, hshort⟩
  · exact word_le_of_first? h hstart hword
  · have hpos := ne_zero_of_first? h
    rcases hshort with rfl | rfl | rfl
    · rw [hd, List.length_singleton]
      omega
    · cases hs
      have hequal : first? ("==".toList ++ rest) all = some (.token .equal, 2) := rfl
      cases hequal.symm.trans h
      exact Nat.le_refl _
    · cases hs
      have hnot : first? ("!=".toList ++ rest) all = some (.token .notEqual, 2) := rfl
      cases hnot.symm.trans h
      exact Nat.le_refl _

/-- No text of a language is longer than the match at its place. -/
theorem length_le_of_first? (h : first? (found ++ rest) all = some (label, length))
    {other : Label} (hm : found ∈ other.language) : found.length ≤ length := by
  obtain ⟨c, more, rfl, hc⟩ := (Label.startWith_language other).exists_cons hm
  -- A text of this length is measured, so that this pattern matches.
  have hpos {measured : Nat} (hle : (c :: more).length ≤ measured) : measured ≠ 0 := by
    rintro rfl
    cases hle
  cases other with
  | comment =>
    have hle := Pattern.length_le_comment hm rest
    rw [first?_of_comment (hpos hle)] at h
    cases h
    exact hle
  | directive =>
    have hle := Pattern.length_le_directive hm rest
    rw [first?_of_directive (hpos hle)] at h
    cases h
    exact hle
  | blank =>
    rw [List.cons_append, first?_of_blank hc] at h
    cases h
    rw [← List.cons_append, Pattern.blank,
      List.takeWhile_append_of_pos (mem_someOf.1 hm).2, List.length_append]
    omega
  | token kind =>
    have hstarts := first?_starts h
    cases kind with
    | number =>
      obtain rfl := Label.eq_number_of_starts hc hstarts
      rw [← (first?_pattern h rfl).1]
      exact Pattern.length_le_numeralLength hm rest
    | string =>
      obtain ⟨quote, inside, hq, hfound, hliteral⟩ := Pattern.literal_of_mem hm
      cases hfound
      obtain rfl := Label.eq_string_of_starts hq hstarts
      rw [← (first?_pattern h rfl).1]
      exact (hliteral rest).ge
    | identifier =>
      obtain ⟨_, ⟨d, hd, rfl⟩, tail, htail, hfound⟩ := Language.mem_mul.1 hm
      have hword : ∀ d ∈ c :: more, Pattern.isWordChar d := by
        rw [← hfound]
        exact List.forall_mem_cons.2
          ⟨Pattern.isWordChar_of_isWordStart hd, mem_kstar_oneOf.1 htail⟩
      exact word_le_of_first? h hc hword
    | ending | other => cases hc
    | _ =>
      obtain ⟨spelling, hs, -⟩ := (Option.any_eq_true _ _).1 (show Kind.spelledFrom _ c from hc)
      rw [(Kind.mem_language_of_spelling hs).1 hm] at h ⊢
      exact spelling_le_of_first? hs h

/-- What a rule measures is no longer than the match. -/
theorem pattern_le_of_first? {text : List Char} (h : first? text all = some (label, length))
    {rule : Rule} (hr : rule ∈ all) : rule.pattern text ≤ length := by
  by_cases hz : rule.pattern text = 0
  · omega
  · obtain ⟨found, rest, rfl, hl, hm⟩ := (form_of_mem rule hr).finds text hz
    rw [hl]
    exact length_le_of_first? h hm

/-- The first rule that measures something makes the match. -/
theorem first?_append_cons {text : List Char} {earlier later : List Rule} {rule : Rule}
    (he : ∀ other ∈ earlier, other.pattern text = 0) (hr : rule.pattern text ≠ 0) :
    first? text (earlier ++ rule :: later) = some (rule.label, rule.pattern text) := by
  induction earlier with
  | nil =>
    obtain ⟨more, hmore⟩ := Nat.exists_eq_succ_of_ne_zero hr
    simp only [List.nil_append, first?, hmore]
  | cons other rest ih =>
    obtain ⟨hother, hrest⟩ := List.forall_mem_cons.1 he
    simp only [List.cons_append, first?, hother, ih hrest]

end Rule

/-! ## Tokens at their places -/

/-- A token stands at the start of a text, nothing that stands there is longer, and it is a keyword
or a builtin if its text is the word. -/
structure Token.LongestAt (token : Token) (place : List Char) : Prop where
  start : token.lexeme.toList <+: place
  rules : ∀ rule ∈ Rule.all, rule.pattern place ≤ token.lexeme.toList.length
  texts : ∀ label found, found ∈ Label.language label → found <+: place →
    found.length ≤ token.lexeme.toList.length
  run : token.kind.isWord ∨ token.kind = .identifier →
    token.lexeme.toList = place.takeWhile Pattern.isWordChar
  word : ∀ kind, kind.isWord → (token.kind = kind ↔ kind.spelling? = some token.lexeme)

/-- A scanned token has the kind of a word if its text is the word. -/
theorem Token.Scanned.kind_eq_iff {token : Token} (h : token.Scanned) {kind : Kind}
    (hk : kind.isWord) : token.kind = kind ↔ kind.spelling? = some token.lexeme := by
  constructor
  · rintro rfl
    have hsome : ∃ spelling, token.kind.spelling? = some spelling := by
      cases hkind : token.kind with
      | number | string | identifier | ending | other =>
        rw [hkind] at hk
        cases hk
      | _ => exact ⟨_, rfl⟩
    obtain ⟨spelling, hs⟩ := hsome
    rw [hs, h.lexeme_of_spelling hs]
  · intro hs
    have halone : Rule.first? token.lexeme.toList Rule.all =
        some (.token kind, token.lexeme.toList.length) := Token.stands_of_spelling hs
    cases halone.symm.trans h.stands
    rfl

/-- What is matched at a place is the longest there. -/
theorem Rule.longestAt_of_first? {place : List Char} {kind : Kind} {length : Nat}
    (h : first? place all = some (.token kind, length)) :
    Token.LongestAt ⟨kind, String.ofList (place.take length)⟩ place := by
  have hscanned : Token.Scanned ⟨kind, String.ofList (place.take length)⟩ :=
    ⟨place, length, h, rfl⟩
  have hlength : (place.take length).length = length := by
    obtain ⟨found, rest, rfl, rfl, -⟩ := first?_finds h
    rw [List.take_left]
  refine ⟨?_, fun rule hr => ?_, ?_, fun hk => ?_, fun other => hscanned.kind_eq_iff⟩
  · rw [String.toList_ofList]
    exact List.take_prefix _ _
  · rw [String.toList_ofList, hlength]
    exact pattern_le_of_first? h hr
  · rintro label found hm ⟨rest, rfl⟩
    rw [String.toList_ofList, hlength]
    exact length_le_of_first? h hm
  · rw [String.toList_ofList, first?_eq_run h hk]
    exact (List.prefix_iff_eq_take.1 (List.takeWhile_prefix _)).symm

/-- Each piece is the match at the place behind the pieces before it. -/
theorem Scan.exists_place {text : List Char} {before after : List Piece} {piece : Piece}
    (h : (ofText text).pieces = before ++ piece :: after) :
    ∃ place label length, text = before.flatMap (·.text.toList) ++ place ∧
      Rule.first? place Rule.all = some (label, length) ∧
      piece = label.piece (place.take length) := by
  induction text using Scan.induction generalizing before with
  | stuck text hf =>
    rw [ofText_of_none hf] at h
    cases before <;> cases h
  | piece text label length hf ih =>
    rw [ofText_of_some hf] at h
    cases before with
    | nil =>
      obtain ⟨hpiece, -⟩ := List.cons.inj h
      exact ⟨text, label, length, rfl, hf, hpiece.symm⟩
    | cons first rest =>
      obtain ⟨rfl, hrest⟩ := List.cons.inj h
      obtain ⟨place, other, more, htext, hplace⟩ := ih hrest
      refine ⟨place, other, more, ?_, hplace⟩
      rw [List.flatMap_cons, Label.text_piece, String.toList_ofList, List.append_assoc, ← htext,
        List.take_append_drop]

theorem Scan.exists_longestAt {text : List Char} {before after : List Piece} {token : Token}
    (h : (ofText text).pieces = before ++ .token token :: after) :
    ∃ place, text = before.flatMap (·.text.toList) ++ place ∧ token.LongestAt place := by
  obtain ⟨place, label, length, htext, hf, hpiece⟩ := exists_place h
  cases label with
  | comment | directive | blank => cases hpiece
  | token kind =>
    cases hpiece
    exact ⟨place, htext, Rule.longestAt_of_first? hf⟩

/-- The texts that may be scanned for a source: its own, and those of the files, each with a line
feed after it. -/
def Files.Scans (files : Files) (source text : List Char) : Prop :=
  text = source ∨ ∃ path content, files.read path = .text content ∧
    text = content.toList ++ ['\n']

/-- Spliced tokens are pieces of the source or of a file. -/
theorem Spliced.token_mem {files : Files} {directory : String} {pieces : List Piece}
    {before after : Included} {paths : List String} {tokens : List Token}
    (h : Spliced files directory pieces before paths tokens after) :
    ∀ token ∈ tokens, .token token ∈ pieces ∨
      ∃ path content, files.read path = .text content ∧
        .token token ∈ (Scan.ofText (content.toList ++ ['\n'])).pieces := by
  induction h with
  | done => simp
  | token found _ ih =>
    refine List.forall_mem_cons.2 ⟨.inl List.mem_cons_self, fun token hm => ?_⟩
    exact (ih token hm).imp_left (List.mem_cons_of_mem _)
  | comment _ _ ih | blank _ _ ih | skipped _ _ _ ih =>
    exact fun token hm => (ih token hm).imp_left (List.mem_cons_of_mem _)
  | file _ _ _ hr hscan _ _ _ ihi ih =>
    intro token hm
    rcases List.mem_append.1 hm with hm | hm
    · refine .inr ((ihi token hm).elim (fun hinner => ?_) id)
      exact ⟨_, _, hr, by rwa [hscan]⟩
    · exact (ih token hm).imp_left (List.mem_cons_of_mem _)

/-- Before the ending token, each token is a piece of the source or of a file. -/
theorem Assembly.exists_piece_of_tokens {directory source : String} {before after : Assembly}
    {tokens : List Token} (h : Assembly.tokens directory source before = .ok tokens after) :
    ∀ token ∈ tokens, token = .ending ∨
      ∃ text, before.files.Scans source.toList text ∧
        .token token ∈ (Scan.ofText text).pieces := by
  have hends : Ends (Assembly.tokens directory source) before
      (fun tokens _ => ∀ token ∈ tokens, token = .ending ∨
        ∃ text, before.files.Scans source.toList text ∧
          .token token ∈ (Scan.ofText text).pieces) fun _ _ => True := by
    rw [ends_tokens]
    refine (tokensFrom_splices _ directory source.toList [] before).mono ?_ fun _ _ h => h
    rintro found after ⟨pieces, paths, front, rfl, hscan, hspliced, -, -⟩ token hm
    rw [List.append_nil, List.reverse_reverse] at hm
    rcases List.mem_append.1 hm with hm | hm
    · refine .inr ?_
      rcases hspliced.token_mem token hm with hm | ⟨path, content, hr, hm⟩
      · exact ⟨source.toList, .inl rfl, by rwa [hscan]⟩
      · exact ⟨_, .inr ⟨path, content, hr, rfl⟩, hm⟩
    · exact .inl (List.mem_singleton.1 hm)
  exact hends.of_ok h

/-- The order of the rules decides for the longest match. So every token of a source is the longest
that there is at its place, and so is every token that is assembled from a source and its files. -/
theorem first_match_longest :
    (∀ (text : List Char) (earlier later : List Rule) (rule : Rule),
      Rule.all = earlier ++ rule :: later → (∀ other ∈ earlier, other.pattern text = 0) →
      rule.pattern text ≠ 0 → ∀ other ∈ later, other.pattern text ≤ rule.pattern text) ∧
    (∀ (source : List Char) (before after : List Piece) (token : Token),
      (Scan.ofText source).pieces = before ++ .token token :: after →
      ∃ place, source = before.flatMap (·.text.toList) ++ place ∧ token.LongestAt place) ∧
    ∀ (directory source : String) (before after : Assembly) (tokens : List Token),
      Assembly.tokens directory source before = .ok tokens after →
      ∀ token ∈ tokens, token = .ending ∨ ∃ text front behind,
        before.files.Scans source.toList text ∧
        (Scan.ofText text).pieces = front ++ .token token :: behind ∧
        ∃ place, text = front.flatMap (·.text.toList) ++ place ∧ token.LongestAt place := by
  refine ⟨fun text earlier later rule hall he hr other ho => ?_,
    fun source before after token h => Scan.exists_longestAt h,
    fun directory source before after tokens hok => ?_⟩
  · have hfirst : Rule.first? text Rule.all = some (rule.label, rule.pattern text) := by
      rw [hall]
      exact Rule.first?_append_cons he hr
    have hm : other ∈ Rule.all := by
      rw [hall]
      exact List.mem_append_right _ (List.mem_cons_of_mem _ ho)
    exact Rule.pattern_le_of_first? hfirst hm
  · refine fun token hm => (Assembly.exists_piece_of_tokens hok token hm).imp_right ?_
    rintro ⟨text, htext, hpiece⟩
    obtain ⟨front, behind, hpieces⟩ := List.append_of_mem hpiece
    exact ⟨text, front, behind, htext, hpieces, Scan.exists_longestAt hpieces⟩

/-- A comparison is not taken for two signs of an assignment, whose rule comes later. -/
theorem first_match_longest_equal :
    let before : Assembly := ⟨.start ⟨.empty, [], fun _ => 0, 0, [], "/"⟩ true, .empty⟩
    (∀ other ∈ Rule.all.drop 2, other.pattern ['=', '=', '1'] ≤ 2) ∧
    (∃ place, ['x', '=', '=', '1'] = ['x'] ++ place ∧ Token.LongestAt ⟨.equal, "=="⟩ place) ∧
    ∃ text front behind, before.files.Scans ['x', '=', '=', '1'] text ∧
      (Scan.ofText text).pieces = front ++ .token ⟨.equal, "=="⟩ :: behind ∧
      ∃ place, text = front.flatMap (·.text.toList) ++ place ∧
        Token.LongestAt ⟨.equal, "=="⟩ place := by
  intro before
  obtain ⟨hrules, hscan, hassembled⟩ := first_match_longest
  have hpieces : Scan.ofText ['x', '=', '=', '1'] =
      ⟨[.token ⟨.identifier, "x"⟩, .token ⟨.equal, "=="⟩, .token ⟨.number, "1"⟩], []⟩ := by cbv
  have htokens : Assembly.tokens "/" "x==1" before =
      .ok [⟨.identifier, "x"⟩, ⟨.equal, "=="⟩, ⟨.number, "1"⟩, .ending] before := by cbv
  refine ⟨?_, ?_, ?_⟩
  · exact hrules ['=', '=', '1'] [⟨.comment, .comment⟩] (Rule.all.drop 2) (.symbol .equal "==") rfl
      (by decide) (by decide)
  · exact hscan _ [.token ⟨.identifier, "x"⟩] [.token ⟨.number, "1"⟩] _ (by rw [hpieces]; rfl)
  · exact (hassembled _ _ _ _ _ htokens _ (by simp)).resolve_left (by decide)

end PrefixScript
