import Mathlib
import PrefixScript.Proofs.Expansion
import PrefixScript.Proofs.Languages

/-!
# Sources are cut into pieces, and files are spliced in

Scanning cuts a text into pieces and drops nothing: the pieces, one behind the other, are the text
up to the place where no rule matches. The tokens of a source are those of its pieces in order. In
place of an import directive stand the tokens of its file, or nothing if the file was included
before.
-/
namespace PrefixScript

/-! ## Cutting a text into pieces -/

namespace Piece

/-- What the rule of a piece recognises. -/
def label : Piece → Label
  | token found => .token found.kind
  | comment _ => .comment
  | directive .. => .directive
  | blank _ => .blank

/-- A comment ends with its line, the name of a directive stands between its quotes, and all blanks
are taken together. -/
def Closes : Piece → (rest : List Char) → Prop
  | comment text, rest => text.toList.getLast? = some '\n' ∨ rest = []
  | directive text name, _ =>
    ∃ front, '"' ∉ front ∧ text.toList = front ++ '"' :: (name.toList ++ ['"'])
  | blank _, rest => ∀ c ∈ rest.head?, Text.isBlank c = false
  | token _, _ => True

/-- A piece may stand in a text in front of the given rest. -/
structure Fits (piece : Piece) (rest : List Char) : Prop where
  ne_empty : piece.text ≠ ""
  language : piece.text.toList ∈ piece.label.language
  closes : piece.Closes rest

end Piece

@[simp] theorem Label.text_piece (label : Label) (text : List Char) :
    (label.piece text).text = String.ofList text := by
  cases label <;> rfl

@[simp] theorem Label.label_piece (label : Label) (text : List Char) :
    (label.piece text).label = label := by
  cases label <;> rfl

/-- Pieces that stand one behind the other at the start of a text, and what is left behind them. -/
inductive Cut : List Piece → (text rest : List Char) → Prop
  | done (rest : List Char) : Cut [] rest rest
  | piece {piece : Piece} {pieces : List Piece} {text rest : List Char} (hp : piece.Fits text)
      (h : Cut pieces text rest) : Cut (piece :: pieces) (piece.text.toList ++ text) rest

/-- Nothing of the text is lost, and nothing is made up. -/
theorem Cut.text_eq {pieces : List Piece} {text rest : List Char} (h : Cut pieces text rest) :
    text = pieces.flatMap (·.text.toList) ++ rest := by
  induction h with
  | done rest => rfl
  | piece _ _ ih => rw [List.flatMap_cons, List.append_assoc, ← ih]

theorem Cut.language {pieces : List Piece} {text rest : List Char} (h : Cut pieces text rest) :
    ∀ piece ∈ pieces, piece.text.toList ∈ piece.label.language := by
  induction h with
  | done rest => simp
  | piece hp _ ih => exact List.forall_mem_cons.2 ⟨hp.language, ih⟩

/-! ## A match is a piece -/

namespace Pattern
variable {text : List Char}

theorem comment_closes (h : comment text ≠ 0) :
    (text.take (comment text)).getLast? = some '\n' ∨ text.drop (comment text) = [] := by
  obtain ⟨line, hline, ⟨rest, rfl⟩ | rfl⟩ := comment_cases h
  · left
    have htext : '/' :: '/' :: (line ++ '\n' :: rest) = ('/' :: '/' :: line ++ ['\n']) ++ rest := by
      simp
    rw [comment_line hline, htext, List.take_left' (by simp), List.getLast?_concat]
  · right
    rw [comment_end hline]
    exact List.drop_length

/-- The name of a directive is read off between its quotes. -/
theorem directive_closes (h : directive text ≠ 0) :
    ∃ front, '"' ∉ front ∧ text.take (directive text) =
      front ++ '"' :: (directiveName (text.take (directive text)) ++ ['"']) := by
  obtain ⟨blanks, name, rest, hb, hblanks, hn, hname, rfl⟩ := directive_cases h
  have hfront : '"' ∉ importWord ++ blanks := by
    intro hm
    rcases List.mem_append.1 hm with hm | hm
    · exact absurd hm (by decide)
    · exact absurd (hblanks _ hm) (by decide)
  have htext : importWord ++ (blanks ++ '"' :: (name ++ '"' :: rest)) =
      ((importWord ++ blanks) ++ '"' :: (name ++ ['"'])) ++ rest := by
    simp
  have hlength : ((importWord ++ blanks) ++ '"' :: (name ++ ['"'])).length =
      blanks.length + name.length + 5 := by
    simp only [List.length_append, List.length_cons, List.length_nil, importWord]
    omega
  have hdrop : ((importWord ++ blanks) ++ '"' :: (name ++ ['"'])).dropWhile (· != '"') =
      '"' :: (name ++ ['"']) := by
    rw [List.dropWhile_append_of_pos (Text.forall_bne_iff.2 hfront)]
    exact List.dropWhile_cons_of_neg (by simp)
  have hread : directiveName ((importWord ++ blanks) ++ '"' :: (name ++ ['"'])) = name := by
    rw [directiveName, hdrop, List.drop_one, List.tail_cons, List.dropLast_concat]
  refine ⟨importWord ++ blanks, hfront, ?_⟩
  rw [directive_eq hb hblanks hn hname, htext, List.take_left' hlength, hread]

theorem blank_closes (text : List Char) :
    ∀ c ∈ (text.drop (blank text)).head?, Text.isBlank c = false := by
  rcases Text.run_or_split Text.isBlank text with hall | ⟨run, c, rest, hrun, hc, rfl⟩
  · rw [blank, List.takeWhile_eq_self_iff.2 hall, List.drop_length]
    simp
  · rw [blank, Text.takeWhile_run hrun hc, List.drop_left]
    simpa using hc

end Pattern

section Match
variable {text : List Char} {label : Label} {length : Nat}

/-- A match closes as its piece has to. -/
theorem Rule.first?_closes (h : Rule.first? text Rule.all = some (label, length)) :
    (label.piece (text.take length)).Closes (text.drop length) := by
  obtain ⟨rule, hm, rfl, rfl⟩ := Rule.exists_of_first? h
  have hpos := Rule.ne_zero_of_first? h
  cases Rule.form_of_mem rule hm with
  | comment => simpa only [Label.piece, Piece.Closes, String.toList_ofList] using
      Pattern.comment_closes hpos
  | directive => simpa only [Label.piece, Piece.Closes, String.toList_ofList] using
      Pattern.directive_closes hpos
  | blank => exact Pattern.blank_closes text
  | number | literal | identifier | symbol | word => trivial

/-- The first match of a text is a piece that may stand there. -/
theorem Rule.first?_fits (h : Rule.first? text Rule.all = some (label, length)) :
    (label.piece (text.take length)).Fits (text.drop length) where
  ne_empty := by
    obtain ⟨found, rest, rfl, rfl, hne, -⟩ := Rule.first?_finds h
    simpa using hne
  language := by
    obtain ⟨found, rest, rfl, rfl, -, hmem⟩ := Rule.first?_finds h
    simpa using hmem
  closes := Rule.first?_closes h

end Match

/-- Scanning cuts a text. -/
theorem Scan.cut (text : List Char) : Cut (ofText text).pieces text (ofText text).rest := by
  induction text using Scan.induction with
  | stuck text h =>
    rw [ofText_of_none h]
    exact .done text
  | piece text label length h ih =>
    have hcut := Cut.piece (Rule.first?_fits h) ih
    rw [Label.text_piece, String.toList_ofList, List.take_append_drop] at hcut
    rw [ofText_of_some h]
    exact hcut

/-! ## Splicing files -/

/-- The pieces of a source in a directory yield tokens, when some keys are included at its start and
some at its end. The listed files are spliced in, in the order in which their directives stand. -/
inductive Spliced (files : Files) :
    (directory : String) → List Piece → Included → (paths : List String) → List Token →
      Included → Prop
  | done (directory : String) (included : Included) :
      Spliced files directory [] included [] [] included
  | token {directory : String} {pieces : List Piece} {before after : Included}
      {paths : List String} {tokens : List Token} (found : Token)
      (h : Spliced files directory pieces before paths tokens after) :
      Spliced files directory (.token found :: pieces) before paths (found :: tokens) after
  | comment {directory : String} {pieces : List Piece} {before after : Included}
      {paths : List String} {tokens : List Token} (text : String)
      (h : Spliced files directory pieces before paths tokens after) :
      Spliced files directory (.comment text :: pieces) before paths tokens after
  | blank {directory : String} {pieces : List Piece} {before after : Included}
      {paths : List String} {tokens : List Token} (text : String)
      (h : Spliced files directory pieces before paths tokens after) :
      Spliced files directory (.blank text :: pieces) before paths tokens after
  /-- Of a file that is included nothing is put in. -/
  | skipped {directory name : String} {pieces : List Piece} {before after : Included}
      {paths : List String} {tokens : List Token} (text : String)
      (hc : before.contains (Files.key (Path.absolute (Path.join directory name))))
      (h : Spliced files directory pieces before paths tokens after) :
      Spliced files directory (.directive text name :: pieces) before paths tokens after
  /-- The tokens of any other file are put in, as they are found once the file is included. -/
  | file {directory name path content : String} {inner pieces : List Piece}
      {before middle after : Included} {paths more : List String} {tokens others : List Token}
      (text : String) (hp : path = Path.absolute (Path.join directory name))
      (hc : ¬ before.contains (Files.key path)) (hr : files.read path = .text content)
      (hscan : Scan.ofText (content.toList ++ ['\n']) = ⟨inner, []⟩)
      (hcut : Cut inner (content.toList ++ ['\n']) [])
      (hi : Spliced files (Path.parent path) inner (before.insert (Files.key path) ()) paths tokens
        middle)
      (h : Spliced files directory pieces middle more others after) :
      Spliced files directory (.directive text name :: pieces) before (path :: paths ++ more)
        (tokens ++ others) after

namespace Spliced
variable {files : Files} {directory : String} {first second pieces : List Piece}
  {before middle after : Included} {paths more : List String} {tokens others : List Token}

theorem append (hf : Spliced files directory first before paths tokens middle)
    (hs : Spliced files directory second middle more others after) :
    Spliced files directory (first ++ second) before (paths ++ more) (tokens ++ others) after := by
  induction hf with
  | done => exact hs
  | token found _ ih => exact .token found (ih hs)
  | comment text _ ih => exact .comment text (ih hs)
  | blank text _ ih => exact .blank text (ih hs)
  | skipped text hc _ ih => exact .skipped text hc (ih hs)
  | file text hp hc hr hscan hcut hi _ _ ih =>
    rw [List.append_assoc, List.append_assoc]
    exact .file text hp hc hr hscan hcut hi (ih hs)

/-- The tokens are of the languages of their kinds, in all files. -/
theorem language (h : Spliced files directory pieces before paths tokens after)
    (hp : ∀ piece ∈ pieces, piece.text.toList ∈ piece.label.language) :
    ∀ token ∈ tokens, token.lexeme.toList ∈ token.kind.language := by
  induction h with
  | done => simp
  | token found _ ih =>
    obtain ⟨hfound, hp⟩ := List.forall_mem_cons.1 hp
    exact List.forall_mem_cons.2 ⟨hfound, ih hp⟩
  | comment _ _ ih | blank _ _ ih | skipped _ _ _ ih => exact ih (List.forall_mem_cons.1 hp).2
  | file _ _ _ _ _ hcut _ _ ihi ih =>
    intro token hm
    rcases List.mem_append.1 hm with hm | hm
    · exact ihi hcut.language token hm
    · exact ih (List.forall_mem_cons.1 hp).2 token hm

end Spliced

/-- The ending token is in no language. -/
theorem Token.kind_ne_ending_of_language {token : Token}
    (h : token.lexeme.toList ∈ token.kind.language) : token.kind ≠ .ending := by
  intro he
  rw [he] at h
  cases h

namespace Assembly

/-- An activity that finds tokens, last first, splices the files into some pieces. -/
def Splices (directory : String) (pieces : List Piece)
    (find : List Token → AssemblyM (List Token)) : Prop :=
  ∀ earlier before, Ends (find earlier) before
    (fun found after => ∃ paths tokens, found = tokens.reverse ++ earlier ∧
      Spliced before.files directory pieces before.included paths tokens after.included ∧
      after.files = before.files ∧ after.opened = before.opened ++ paths)
    fun _ _ => True

theorem Splices.bind {directory : String} {first second : List Piece}
    {find next : List Token → AssemblyM (List Token)} (hf : Splices directory first find)
    (hs : Splices directory second next) :
    Splices directory (first ++ second) fun earlier => find earlier >>= next := by
  intro earlier before
  rw [ends_bind]
  refine (hf earlier before).mono (fun found middle h => ?_) fun _ _ h => h
  obtain ⟨paths, tokens, rfl, hspliced, hfiles, hopened⟩ := h
  refine (hs _ middle).mono (fun found after h => ?_) fun _ _ h => h
  obtain ⟨more, others, rfl, hmore, hfiles', hopened'⟩ := h
  rw [hfiles] at hmore
  refine ⟨paths ++ more, tokens ++ others, by simp, hspliced.append hmore, hfiles'.trans hfiles, ?_⟩
  rw [hopened', hopened, List.append_assoc]

theorem collect_splices {directory : String}
    {expand : String → List Token → AssemblyM (List Token)}
    (h : ∀ text name, Splices directory [.directive text name] (expand name))
    (pieces : List Piece) : Splices directory pieces (collect expand pieces) := by
  induction pieces with
  | nil => exact fun earlier before => ⟨[], [], rfl, .done _ _, rfl, by simp⟩
  | cons piece rest ih =>
    cases piece with
    | token found =>
      intro earlier before
      refine (ih (found :: earlier) before).mono (fun _ after hs => ?_) fun _ _ h => h
      obtain ⟨paths, tokens, rfl, hspliced, hstate⟩ := hs
      exact ⟨paths, found :: tokens, by simp, .token found hspliced, hstate⟩
    | directive text name => exact (h text name).bind ih
    | comment text =>
      intro earlier before
      refine (ih earlier before).mono (fun _ after hs => ?_) fun _ _ h => h
      obtain ⟨paths, tokens, hfound, hspliced, hstate⟩ := hs
      exact ⟨paths, tokens, hfound, .comment text hspliced, hstate⟩
    | blank text =>
      intro earlier before
      refine (ih earlier before).mono (fun _ after hs => ?_) fun _ _ h => h
      obtain ⟨paths, tokens, hfound, hspliced, hstate⟩ := hs
      exact ⟨paths, tokens, hfound, .blank text hspliced, hstate⟩

/-- A source that is scanned to its end is spliced piece by piece. -/
def SplicesSources (find : String → List Char → List Token → AssemblyM (List Token)) : Prop :=
  ∀ directory source earlier before, Ends (find directory source earlier) before
    (fun found after => ∃ pieces paths tokens, found = tokens.reverse ++ earlier ∧
      Scan.ofText source = ⟨pieces, []⟩ ∧
      Spliced before.files directory pieces before.included paths tokens after.included ∧
      after.files = before.files ∧ after.opened = before.opened ++ paths)
    fun _ _ => True

theorem expand_splices {inner : String → List Char → List Token → AssemblyM (List Token)}
    (hi : SplicesSources inner) (directory text name : String) :
    Splices directory [.directive text name] (expand inner directory name) := by
  intro earlier before
  rw [ends_expand inner directory name earlier rfl]
  split
  · rename_i hc
    exact ⟨[], [], rfl, .skipped text hc (.done _ _), rfl, by simp⟩
  · rename_i hc
    cases hr : before.files.read (Path.absolute (Path.join directory name)) with
    | nullInPath => trivial
    | unreadable => trivial
    | text content =>
      refine (hi _ _ earlier _).mono (fun found after h => ?_) fun _ _ h => h
      obtain ⟨pieces, paths, tokens, rfl, hscan, hspliced, hfiles, hopened⟩ := h
      have hcut := Scan.cut (content.toList ++ ['\n'])
      rw [hscan] at hcut
      refine ⟨_ :: paths ++ [], tokens ++ [], by simp,
        .file text rfl hc hr hscan hcut hspliced (.done _ _), hfiles, ?_⟩
      rw [opened_left, hopened, opened_entered, List.append_nil, List.append_assoc]
      rfl

/-- The induction is on the depth of the imports. -/
theorem tokensFrom_splices (depth : Nat) : SplicesSources (tokensFrom depth) := by
  induction depth with
  | zero => exact fun _ _ _ _ => trivial
  | succ depth ih =>
    intro directory source earlier before
    rw [ends_tokensFrom]
    have hcollect := collect_splices (expand_splices ih directory) (Scan.ofText source).pieces
    refine (hcollect earlier before).mono (fun found after h => ?_) fun _ _ h => h
    obtain ⟨paths, tokens, hfound, hstate⟩ := h
    split
    · rename_i hrest
      exact ⟨_, paths, tokens, hfound, by rw [← hrest], hstate⟩
    · trivial

end Assembly

/-- The tokens of a source: the source is cut into pieces without loss, its tokens are those of its
pieces with the files spliced in, each of the language of its kind, and the ending token stands
behind them and nowhere else. The files are asked for in the order in which they are spliced in. -/
theorem tokens_of_pieces {directory source : String} {before after : Assembly}
    {tokens : List Token} (h : Assembly.tokens directory source before = .ok tokens after) :
    ∃ pieces paths front,
      Cut pieces source.toList [] ∧ source.toList = pieces.flatMap (·.text.toList) ∧
      Spliced before.files directory pieces before.included paths front after.included ∧
      after.opened = before.opened ++ paths ∧
      tokens = front ++ [Token.ending] ∧
      ∀ token ∈ front, token.kind ≠ .ending ∧ token.lexeme.toList ∈ token.kind.language := by
  have hends : Ends (Assembly.tokens directory source) before
      (fun tokens after => ∃ pieces paths front, tokens = front ++ [Token.ending] ∧
        Scan.ofText source.toList = ⟨pieces, []⟩ ∧
        Spliced before.files directory pieces before.included paths front after.included ∧
        after.opened = before.opened ++ paths) fun _ _ => True := by
    rw [Assembly.ends_tokens]
    refine (Assembly.tokensFrom_splices _ directory source.toList [] before).mono ?_ fun _ _ h => h
    rintro found after ⟨pieces, paths, front, rfl, hscan, hspliced, -, hopened⟩
    exact ⟨pieces, paths, front, by simp, hscan, hspliced, hopened⟩
  obtain ⟨pieces, paths, front, rfl, hscan, hspliced, hopened⟩ := hends.of_ok h
  have hcut := Scan.cut source.toList
  rw [hscan] at hcut
  have hlanguage := hspliced.language hcut.language
  refine ⟨pieces, paths, front, hcut, ?_, hspliced, hopened, rfl, fun token hm => ?_⟩
  · rw [hcut.text_eq, List.append_nil]
  · exact ⟨Token.kind_ne_ending_of_language (hlanguage token hm), hlanguage token hm⟩

/-- Neither slashes in quotes nor a quote in a comment is taken for what it is elsewhere, and the
second directive asks for the file of the first one in another letter case. -/
theorem tokens_of_pieces_repeated_import :
    let files : Files := Table.empty.insert "/a" "print '//'".toUTF8
    let before : Assembly := ⟨.start ⟨files, [], fun _ => 0, 0, [], "/"⟩ true, .empty⟩
    let tokens : List Token :=
      [⟨.printWord, "print"⟩, ⟨.string, "'//'"⟩, ⟨.identifier, "x"⟩, .ending]
    ∃ after pieces paths front,
      Assembly.tokens "/" "IMP \"a\" // '\nx IMP \"A\"" before = .ok tokens after ∧
      Cut pieces "IMP \"a\" // '\nx IMP \"A\"".toList [] ∧
      "IMP \"a\" // '\nx IMP \"A\"".toList = pieces.flatMap (·.text.toList) ∧
      Spliced before.files "/" pieces before.included paths front after.included ∧
      after.opened = before.opened ++ paths ∧
      tokens = front ++ [Token.ending] ∧
      ∀ token ∈ front, token.kind ≠ .ending ∧ token.lexeme.toList ∈ token.kind.language := by
  intro files before tokens
  have hread : before.files.read "/a" = .text "print '//'" :=
    Files.read_insert _ (by decide) (by decide) (by decide) (by decide)
  have hbound : Assembly.depthBound before.files = 3 := rfl
  clear_value files
  have hends : Ends (Assembly.tokens "/" "IMP \"a\" // '\nx IMP \"A\"") before
      (fun found _ => found = tokens) fun _ _ => False := by
    have hsource : Scan.ofText "IMP \"a\" // '\nx IMP \"A\"".toList =
        ⟨[.directive "IMP \"a\"" "a", .blank " ", .comment "// '\n", .token ⟨.identifier, "x"⟩,
          .blank " ", .directive "IMP \"A\"" "A"], []⟩ := by cbv
    have hinner : Scan.ofText ("print '//'".toList ++ ['\n']) =
      ⟨[.token ⟨.printWord, "print"⟩, .blank " ", .token ⟨.string, "'//'"⟩, .blank "\n"], []⟩ := by
      cbv
    rw [Assembly.ends_tokens, hbound, Assembly.ends_tokensFrom, hsource]
    simp only [Assembly.collect, ends_bind, ends_pure, if_true]
    have hfirst : ¬ (Table.empty : Included).contains (Files.key "/a") := by decide
    have hsecond : ((before.entered "/a").left "/a").included.contains (Files.key "/A") := by
      show ((Table.empty : Included).insert (Files.key "/a") ()).contains (Files.key "/A")
      decide
    rw [Assembly.ends_expand_of_text (show "/a" = _ by decide) hfirst hread,
      Assembly.ends_tokensFrom, hinner]
    simp only [Assembly.collect, ends_pure, if_true]
    rw [Assembly.ends_expand _ "/" "A" _ (show "/A" = _ by decide), if_pos hsecond]
    rfl
  obtain ⟨found, after, hok, rfl⟩ := hends.exists_ok_and
  exact ⟨after, (tokens_of_pieces hok).imp fun _ h => h.imp fun _ h => h.imp fun _ h => ⟨hok, h⟩⟩

end PrefixScript
