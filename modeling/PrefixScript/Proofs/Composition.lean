import PrefixScript.Proofs.Inclusion
import PrefixScript.Proofs.LineBreaks

/-!
# Sources line by line

The tokens of two texts with a line feed between them are those of the one, found first, and then
those of the other, found from the state that the first left. If the second text fails, the whole
fails alike. Only the line number of a character at which the second text itself cannot be scanned
counts the lines of the first one too.
-/
namespace PrefixScript

/-- The same fault that many lines further down. -/
def Fault.later (lines : Nat) : Fault → Fault
  | unexpectedCharacter line column char number =>
    .unexpectedCharacter line column char (number + lines)
  | fault => fault

def Failure.later (lines : Nat) : Failure → Failure
  | fault f => .fault (f.later lines)
  | failure => failure

namespace Assembly

/-! ## The pieces that count -/

/-- Comments and blanks make no difference. -/
theorem collect_filter (expand : String → List Token → AssemblyM (List Token))
    (pieces : List Piece) (earlier : List Token) :
    collect expand (pieces.filter Piece.counts) earlier = collect expand pieces earlier := by
  induction pieces generalizing earlier with
  | nil => rfl
  | cons piece rest ih =>
    cases piece with
    | token token => exact ih (token :: earlier)
    | directive text name => exact bind_congr fun found => ih found
    | comment text => exact ih earlier
    | blank text => exact ih earlier

theorem collect_append (expand : String → List Token → AssemblyM (List Token))
    (first second : List Piece) (earlier : List Token) :
    collect expand (first ++ second) earlier =
      collect expand first earlier >>= collect expand second := by
  induction first generalizing earlier with
  | nil => rfl
  | cons piece rest ih =>
    cases piece with
    | token token => exact ih (token :: earlier)
    | directive text name =>
      rw [List.cons_append, collect, collect, bind_assoc]
      exact bind_congr fun found => ih found
    | comment text => exact ih earlier
    | blank text => exact ih earlier

/-- The tokens of the pieces of a source that count, last first, in front of earlier tokens. -/
def gather (depth : Nat) (directory : String) (source : List Char) :
    List Token → AssemblyM (List Token) :=
  collect (expand (tokensFrom depth) directory) (Scan.ofText source).bare.pieces

/-- The tokens of a source are gathered, unless something is left of it. -/
theorem tokensFrom_gather (depth : Nat) (directory : String) (source : List Char) :
    tokensFrom (depth + 1) directory source = fun earlier =>
      gather depth directory source earlier >>= fun found =>
        if (Scan.ofText source).rest = [] then pure found
        else throw (.fault (unexpected source (Scan.ofText source).rest)) := by
  funext earlier
  rw [tokensFrom, gather, Scan.bare, collect_filter]
  cases (Scan.ofText source).rest <;> rfl

/-- The tokens of two texts are gathered one after the other. -/
theorem gather_break {front : List Char} (hrest : (Scan.ofText front).rest = [])
    (hlast : (Scan.ofText front).bare.pieces.getLast? ≠ some (.token ⟨.identifier, "IMP"⟩))
    (depth : Nat) (directory : String) (back : List Char) (earlier : List Token) :
    gather depth directory (front ++ '\n' :: back) earlier =
      gather depth directory front earlier >>= gather depth directory back := by
  rw [gather, Scan.bare_break hrest hlast back, collect_append, gather, gather]

/-! ## Tokens found before -/

/-- What an activity finds does not depend on the tokens found before. -/
def Prepends (find : List Token → AssemblyM (List Token)) : Prop :=
  ∀ earlier, find earlier = (· ++ earlier) <$> find []

namespace Prepends
variable {find next : List Token → AssemblyM (List Token)}

theorem append (hf : Prepends find) (found earlier : List Token) :
    find (found ++ earlier) = (· ++ earlier) <$> find found := by
  rw [hf (found ++ earlier), hf found, Functor.map_map]
  simp only [List.append_assoc]

theorem bind (hf : Prepends find) (hn : Prepends next) :
    Prepends fun earlier => find earlier >>= next := by
  intro earlier
  simp only [hf earlier, bind_map_left, hn.append, map_bind]

/-- What is done before and after does not look at the tokens. -/
theorem around {α : Type} {activity : AssemblyM α}
    {find : α → List Token → AssemblyM (List Token)} (hf : ∀ a, Prepends (find a)) :
    Prepends fun earlier => activity >>= fun a => find a earlier := by
  intro earlier
  simp only [map_bind]
  exact bind_congr fun a => hf a earlier

theorem pure : Prepends fun earlier => (Pure.pure earlier : AssemblyM (List Token)) := by
  intro earlier
  simp

end Prepends

theorem collect_prepends {expand : String → List Token → AssemblyM (List Token)}
    (h : ∀ name, Prepends (expand name)) (pieces : List Piece) :
    Prepends (collect expand pieces) := by
  induction pieces with
  | nil => exact .pure
  | cons piece rest ih =>
    cases piece with
    | token token =>
      exact fun earlier => ih.append [token] earlier
    | directive text name => exact (h name).bind ih
    | comment text => exact ih
    | blank text => exact ih

theorem expand_prepends {inner : String → List Char → List Token → AssemblyM (List Token)}
    (hi : ∀ directory source, Prepends (inner directory source)) (directory name : String) :
    Prepends (expand inner directory name) := by
  unfold expand
  generalize Path.absolute (Path.join directory name) = path
  have hskip : Prepends fun earlier => do
      ofHost (Host.warn (skipped name))
      return earlier := .around fun _ => .pure
  have hfile : Prepends fun earlier => do
      let text ← readImport name path
      ofHost (Host.enter path)
      let tokens ← inner (Path.parent path) text earlier
      ofHost (Host.leave path)
      return tokens :=
    .around fun text => .around fun _ => (hi _ text).bind (.around fun _ => .pure)
  refine .around fun before => ?_
  split
  · exact hskip
  · exact hfile

/-- The induction is on the depth of the imports. -/
theorem tokensFrom_prepends (depth : Nat) (directory : String) (source : List Char) :
    Prepends (tokensFrom depth directory source) := by
  induction depth generalizing directory source with
  | zero => exact fun earlier => rfl
  | succ depth ih =>
    have hgather : Prepends (gather depth directory source) :=
      collect_prepends (expand_prepends ih directory) _
    rw [tokensFrom_gather]
    refine hgather.bind ?_
    split
    · exact .pure
    · exact fun earlier => rfl

theorem gather_prepends (depth : Nat) (directory : String) (source : List Char) :
    Prepends (gather depth directory source) :=
  collect_prepends (expand_prepends (tokensFrom_prepends depth) directory) _

/-! ## The files that are being processed -/

/-- The chain of files that are being processed, where an assembly ends. A failure inside of a file
leaves the file in the chain; any other one is as in `own`. -/
def traceLaw (own : Failure → Prop) : Law Failure Assembly where
  kept before after := after.trace.Perm before.trace
  failed failure before after :=
    before.trace.length < after.trace.length ∨
      after.trace.length = before.trace.length ∧ own failure
  refl before := .refl _
  trans h h' := h'.trans h
  failed_of_kept h h' := by rwa [h.length_eq] at h'

theorem expand_obeys_trace {inner : String → List Char → List Token → AssemblyM (List Token)}
    (hi : ∀ directory source earlier,
      (traceLaw fun _ => True).Obeyed (inner directory source earlier))
    (directory name : String) (earlier : List Token) :
    (traceLaw fun failure => ∀ lines, failure.later lines = failure).Obeyed
      (expand inner directory name earlier) := by
  intro before
  rw [ends_expand inner directory name earlier rfl]
  generalize Path.absolute (Path.join directory name) = path
  split
  · exact .refl _
  · cases before.files.read path with
    | nullInPath => exact .inr ⟨rfl, fun _ => rfl⟩
    | unreadable => exact .inr ⟨rfl, fun _ => rfl⟩
    | text content =>
      have hlength : (before.entered path).trace.length = before.trace.length + 1 := by
        rw [trace_entered, List.length_append, List.length_singleton]
      refine (hi _ _ _ _).mono (fun found after h => ?_) fun failure after h => .inl ?_
      · have hperm : after.trace.Perm (path :: before.trace) :=
          h.trans (List.perm_append_singleton path before.trace)
        have herase := hperm.erase path
        rw [List.erase_cons_head] at herase
        exact herase
      · rcases h with h | ⟨h, -⟩
        · omega
        · omega

/-- The induction is on the depth of the imports. -/
theorem tokensFrom_obeys_trace (depth : Nat) (directory : String) (source : List Char)
    (earlier : List Token) :
    (traceLaw fun _ => True).Obeyed (tokensFrom depth directory source earlier) := by
  induction depth generalizing directory source earlier with
  | zero => exact fun before => .inr ⟨rfl, trivial⟩
  | succ depth ih =>
    intro before
    have hexpand := expand_obeys_trace ih directory
    rw [ends_tokensFrom]
    refine (collect_obeyed (fun _ name _ => hexpand name) earlier before).mono ?_ ?_
    · intro found after h
      split
      · exact h
      · exact .inr ⟨h.length_eq, trivial⟩
    · exact fun failure after h => h.imp_right fun h => ⟨h.1, trivial⟩

theorem gather_obeys_trace (depth : Nat) (directory : String) (source : List Char)
    (earlier : List Token) :
    (traceLaw fun failure => ∀ lines, failure.later lines = failure).Obeyed
      (gather depth directory source earlier) := by
  have hexpand := expand_obeys_trace (tokensFrom_obeys_trace depth) directory
  exact collect_obeyed (fun _ name _ => hexpand name) earlier

/-! ## Two texts -/

/-- The fault of a source from what stands in front of its rest. -/
theorem unexpected_append (passed rest : List Char) :
    unexpected (passed ++ rest) rest =
      .unexpectedCharacter
        (String.ofList ((passed.reverse.takeWhile (· != '\n')).reverse ++
          rest.takeWhile (· != '\n')))
        (passed.reverse.takeWhile (· != '\n')).reverse.length (rest.headD ' ')
        (passed.count '\n' + 1) := by
  have htake : (passed ++ rest).take ((passed ++ rest).length - rest.length) = passed := by
    rw [List.length_append, Nat.add_sub_cancel]
    exact List.take_left
  rw [unexpected, htake]

/-- A fault behind a text and a line feed is that many lines further down. -/
theorem unexpected_break (front : List Char) {back rest : List Char} (h : rest <:+ back) :
    unexpected (front ++ '\n' :: back) rest =
      (unexpected back rest).later (front.count '\n' + 1) := by
  obtain ⟨passed, rfl⟩ := h
  have htext : front ++ '\n' :: (passed ++ rest) = (front ++ '\n' :: passed) ++ rest := by
    rw [List.append_assoc, List.cons_append]
  have hline : (front ++ '\n' :: passed).reverse.takeWhile (· != '\n') =
      passed.reverse.takeWhile (· != '\n') := by
    rw [List.reverse_append, List.reverse_cons, List.append_assoc, List.singleton_append]
    exact Text.takeWhile_append_stop (by decide) _
  have hcount : (front ++ '\n' :: passed).count '\n' + 1 =
      passed.count '\n' + 1 + (front.count '\n' + 1) := by
    rw [List.count_append, List.count_cons_self]
    omega
  rw [htext, unexpected_append, unexpected_append, hline, hcount]
  rfl

/-- The last token of a source is the last of the tokens found, if no directive follows it. -/
theorem head?_of_collect {expand : String → List Token → AssemblyM (List Token)}
    {pieces : List Piece} {token : Token} (hlast : pieces.getLast? = some (.token token))
    {earlier found : List Token} {before after : Assembly}
    (h : collect expand pieces earlier before = .ok found after) : found.head? = some token := by
  obtain ⟨front, rfl⟩ := List.getLast?_eq_some_iff.1 hlast
  rw [collect_append] at h
  have hends : Ends (collect expand front earlier >>= collect expand [.token token]) before
      (fun found _ => found.head? = some token) fun _ _ => True :=
    ends_bind_of_forall (fun _ _ => rfl) fun _ _ => trivial
  exact hends.of_ok h

/-- The tokens of a source, from what is gathered. -/
theorem tokens_eq {depth : Nat} {before : Assembly} (hd : depthBound before.files = depth + 1)
    (directory source : String) :
    tokens directory source before =
      match gather depth directory source.toList [] before with
      | .ok found after =>
        if (Scan.ofText source.toList).rest = [] then .ok (found.reverse ++ [Token.ending]) after
        else .error (.fault (unexpected source.toList (Scan.ofText source.toList).rest)) after
      | .error failure after => .error failure after := by
  have hstart : tokens directory source before =
      (tokensFrom (depthBound before.files) directory source.toList [] >>= fun found =>
        pure (Token.ending :: found).reverse) before := rfl
  rw [hstart, hd, tokensFrom_gather, bind_assoc]
  cases hc : gather depth directory source.toList [] before with
  | ok found after =>
    rw [bind_of_ok hc]
    split
    · rw [pure_bind, List.reverse_cons]
      rfl
    · rfl
  | error failure after => rw [bind_of_error hc]

theorem exists_of_tokens_ok {depth : Nat} {before after : Assembly}
    (hd : depthBound before.files = depth + 1) {directory source : String} {tokens : List Token}
    (h : Assembly.tokens directory source before = .ok tokens after) :
    (Scan.ofText source.toList).rest = [] ∧ ∃ found, tokens = found.reverse ++ [Token.ending] ∧
      gather depth directory source.toList [] before = .ok found after := by
  rw [tokens_eq hd] at h
  split at h
  · rename_i found middle hc
    split at h
    · rename_i hrest
      cases h
      exact ⟨hrest, found, rfl, hc⟩
    · cases h
  · cases h

theorem files_of_tokens_ok {before after : Assembly} {directory source : String}
    {tokens : List Token} (h : Assembly.tokens directory source before = .ok tokens after) :
    after.files = before.files := by
  have hends : Ends (Assembly.tokens directory source) before
      (fun _ after => after.files = before.files) fun _ _ => True := by
    rw [ends_tokens]
    refine (tokensFrom_reads directory source.toList before).mono (fun _ _ h => ?_) ?_
    · obtain ⟨paths, hgains⟩ := h
      exact hgains.files
    · exact fun _ _ _ => trivial
  exact hends.of_ok h

end Assembly

/-- If the tokens of a text are found, and the last of them is not the word of an import directive,
then with a line feed and another text behind it they are followed by the tokens of that text, as
they are found from the state that the first text leaves. If those are not found, the failure and
the state are the same, except that a character of the second text itself is found as many lines
further down as the first text and the line feed have. It is one of the text itself if no file is
being processed any more that was entered on the way, so that the chain of files is as long as it
was; a failure in a file keeps its line number. -/
theorem tokens_of_lines {directory first second : String} {before middle : Assembly}
    {found : List Token} (h : Assembly.tokens directory first before = .ok found middle)
    (hlast : found.dropLast.getLast? ≠ some ⟨.identifier, "IMP"⟩) :
    Assembly.tokens directory (first ++ "\n" ++ second) before =
      match Assembly.tokens directory second middle with
      | .ok more after => .ok (found.dropLast ++ more) after
      | .error failure after =>
        .error (if after.trace.length = middle.trace.length then
          failure.later (first.toList.count '\n' + 1) else failure) after := by
  obtain ⟨depth, hd⟩ : ∃ depth, Assembly.depthBound before.files = depth + 1 := ⟨_, rfl⟩
  have hd' : Assembly.depthBound middle.files = depth + 1 := by
    rw [Assembly.files_of_tokens_ok h, hd]
  obtain ⟨hrest, found, rfl, hfirst⟩ := Assembly.exists_of_tokens_ok hd h
  rw [List.dropLast_concat] at hlast ⊢
  have hpieces : (Scan.ofText first.toList).bare.pieces.getLast? ≠
      some (.token ⟨.identifier, "IMP"⟩) := by
    intro hl
    apply hlast
    rw [List.getLast?_reverse]
    exact Assembly.head?_of_collect hl hfirst
  have htext : (first ++ "\n" ++ second).toList = first.toList ++ '\n' :: second.toList := by
    simp
  have hend : (Scan.ofText (first.toList ++ '\n' :: second.toList)).rest =
      (Scan.ofText second.toList).rest := by
    rw [← Scan.rest_bare, Scan.bare_break hrest hpieces]
  have hfault := Assembly.unexpected_break first.toList (Scan.rest_suffix second.toList)
  have htrace := Assembly.gather_obeys_trace depth directory second.toList [] middle
  -- Both sides gather the pieces of the second text from the same state; what was found before is
  -- in front of what they find on the left only.
  rw [Assembly.tokens_eq hd, Assembly.tokens_eq hd', htext, hend, hfault,
    Assembly.gather_break hrest hpieces, bind_of_ok hfirst, Assembly.gather_prepends]
  cases hsecond : Assembly.gather depth directory second.toList [] middle with
  | ok more after =>
    have hlength := (htrace.of_ok hsecond).length_eq
    simp only [Functor.map, EStateM.map, hsecond]
    by_cases hdone : (Scan.ofText second.toList).rest = []
    · simp only [if_pos hdone, List.reverse_append, List.append_assoc]
    · simp only [if_neg hdone, if_pos hlength]
      rfl
  | error failure after =>
    simp only [Functor.map, EStateM.map, hsecond]
    rcases htrace.of_error hsecond with hlonger | ⟨hsame, hkept⟩
    · rw [if_neg (by omega)]
    · rw [if_pos hsame, hkept]

/-- The first text ends with a comment, behind an import. In the second one a quote is not closed,
on its first line, which is the second line of the whole. -/
theorem tokens_of_lines_open_quote :
    let files : Files := Table.empty.insert "/a" "x".toUTF8
    let before : Assembly := ⟨.start ⟨files, [], fun _ => 0, 0, [], "/"⟩ true, .empty⟩
    ∃ middle,
      Assembly.tokens "/" "IMP \"a\" // c" before = .ok [⟨.identifier, "x"⟩, .ending] middle ∧
      Assembly.tokens "/" "y '" middle =
        .error (.fault (.unexpectedCharacter "y '" 2 '\'' 1)) middle ∧
      Assembly.tokens "/" ("IMP \"a\" // c" ++ "\n" ++ "y '") before =
        .error (.fault (.unexpectedCharacter "y '" 2 '\'' 2)) middle := by
  intro files before
  have hread : before.files.read "/a" = .text "x" :=
    Files.read_insert _ (by decide) (by decide) (by decide) (by decide)
  have hbound : Assembly.depthBound before.files = 3 := rfl
  clear_value files
  have hends : Ends (Assembly.tokens "/" "IMP \"a\" // c") before
      (fun found _ => found = [⟨.identifier, "x"⟩, .ending]) fun _ _ => False := by
    have hsource : Scan.ofText "IMP \"a\" // c".toList =
        ⟨[.directive "IMP \"a\"" "a", .blank " ", .comment "// c"], []⟩ := by cbv
    have hinner : Scan.ofText ("x".toList ++ ['\n']) =
        ⟨[.token ⟨.identifier, "x"⟩, .blank "\n"], []⟩ := by cbv
    have hfresh : ¬ (Table.empty : Included).contains (Files.key "/a") := by decide
    rw [Assembly.ends_tokens, hbound, Assembly.ends_tokensFrom, hsource]
    simp only [Assembly.collect, ends_bind, ends_pure, if_true]
    rw [Assembly.ends_expand_of_text (show "/a" = _ by decide) hfresh hread,
      Assembly.ends_tokensFrom, hinner]
    simp only [Assembly.collect, ends_pure, if_true]
    rfl
  obtain ⟨found, middle, hok, rfl⟩ := hends.exists_ok_and
  have hsecond : Assembly.tokens "/" "y '" middle =
      .error (.fault (.unexpectedCharacter "y '" 2 '\'' 1)) middle := by
    have hscan : Scan.ofText "y '".toList =
        ⟨[.token ⟨.identifier, "y"⟩, .blank " "], ['\'']⟩ := by cbv
    have hd : Assembly.depthBound middle.files = 2 * middle.files.entries.length + 1 := rfl
    rw [Assembly.tokens_eq hd, hscan]
    rfl
  refine ⟨middle, hok, hsecond, ?_⟩
  rw [tokens_of_lines hok (by decide), hsecond]
  show EStateM.Result.error (if _ then _ else _) _ = _
  rw [if_pos rfl]
  rfl

end PrefixScript
