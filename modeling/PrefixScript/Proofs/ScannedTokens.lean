import PrefixScript.Proofs.Expansion
import PrefixScript.Proofs.Scanning

/-!
# Where tokens come from

Every token of an assembled source was scanned: it is the first match of the rules at some place of
a text, be it the source or an imported file. Behind these tokens stands the ending token, which no
rule yields.
-/
namespace PrefixScript

/-- A rule found this token at the start of some text. -/
def Token.Scanned (token : Token) : Prop :=
  ∃ text length, Rule.first? text Rule.all = some (.token token.kind, length) ∧
    token.lexeme = String.ofList (text.take length)

/-- No rule yields the ending token. -/
theorem Rule.label_ne_ending : ∀ label ∈ Rule.all.map Rule.label, label ≠ .token .ending := by
  simp only [Rule.all, Rule.symbol, Rule.word, List.map, List.forall_mem_cons]
  simp

theorem Token.Scanned.kind_ne_ending {token : Token} (h : token.Scanned) :
    token.kind ≠ .ending := by
  obtain ⟨text, length, hf, -⟩ := h
  obtain ⟨rule, hm, hl, -⟩ := Rule.exists_of_first? hf
  intro he
  rw [he] at hl
  exact Rule.label_ne_ending rule.label (List.mem_map_of_mem hm) hl

/-- The token of a piece, if it is one, was scanned. -/
def Piece.Scanned : Piece → Prop
  | .token found => found.Scanned
  | _ => True

theorem Label.piece_scanned {text : List Char} {label : Label} {length : Nat}
    (h : Rule.first? text Rule.all = some (label, length)) :
    (label.piece (text.take length)).Scanned := by
  cases label with
  | token kind => exact ⟨text, length, h, rfl⟩
  | _ => trivial

/-- Each match is one piece. -/
theorem Scan.pieces_scanned (text : List Char) :
    ∀ piece ∈ (Scan.ofText text).pieces, piece.Scanned := by
  induction text using Scan.induction with
  | stuck text h =>
    rw [Scan.ofText_of_none h]
    exact fun piece hm => absurd hm List.not_mem_nil
  | piece text label length h ih =>
    rw [Scan.ofText_of_some h]
    exact List.forall_mem_cons.2 ⟨Label.piece_scanned h, ih⟩

namespace Assembly

/-- An activity that finds tokens, last first, finds scanned ones only. -/
def FindsScanned (find : List Token → AssemblyM (List Token)) : Prop :=
  ∀ earlier, (∀ token ∈ earlier, token.Scanned) → ∀ assembly,
    Ends (find earlier) assembly (fun tokens _ => ∀ token ∈ tokens, token.Scanned) fun _ _ => True

theorem collect_scanned {expand : String → List Token → AssemblyM (List Token)}
    (he : ∀ name, FindsScanned (expand name)) (pieces : List Piece)
    (hp : ∀ piece ∈ pieces, piece.Scanned) : FindsScanned (collect expand pieces) := by
  induction pieces with
  | nil => exact fun earlier hearlier assembly => hearlier
  | cons piece rest ih =>
    have hrest := ih fun other ho => hp other (List.mem_cons_of_mem piece ho)
    intro earlier hearlier assembly
    cases piece with
    | token token =>
      refine hrest (token :: earlier) (fun other ho => ?_) assembly
      rcases List.mem_cons.1 ho with rfl | ho
      · exact hp _ List.mem_cons_self
      · exact hearlier other ho
    | directive text name =>
      rw [collect, ends_bind]
      exact (he name earlier hearlier assembly).mono (fun tokens after ht => hrest tokens ht after)
        fun _ _ h => h
    | comment text => exact hrest earlier hearlier assembly
    | blank text => exact hrest earlier hearlier assembly

theorem expand_scanned {inner : String → List Char → List Token → AssemblyM (List Token)}
    (hi : ∀ directory text, FindsScanned (inner directory text)) (directory name : String) :
    FindsScanned (expand inner directory name) := by
  intro earlier hearlier assembly
  rw [ends_expand inner directory name earlier rfl]
  generalize Path.absolute (Path.join directory name) = path
  split
  · exact hearlier
  · cases assembly.files.read path with
    | nullInPath => trivial
    | unreadable => trivial
    | text content => exact hi _ _ earlier hearlier _

/-- The induction is on the depth of the imports. -/
theorem tokensFrom_scanned (depth : Nat) (directory : String) (source : List Char) :
    FindsScanned (tokensFrom depth directory source) := by
  induction depth generalizing directory source with
  | zero => exact fun earlier hearlier assembly => trivial
  | succ depth ih =>
    intro earlier hearlier assembly
    have hcollect := collect_scanned (expand_scanned ih directory) _ (Scan.pieces_scanned source)
    rw [ends_tokensFrom]
    refine (hcollect earlier hearlier assembly).mono (fun tokens after ht => ?_) fun _ _ h => h
    split
    · exact ht
    · trivial

/-- The tokens of a source are scanned tokens, closed by the ending token. -/
theorem exists_scanned_of_tokens {directory source : String} {before after : Assembly}
    {tokens : List Token} (h : Assembly.tokens directory source before = .ok tokens after) :
    ∃ front, tokens = front ++ [Token.ending] ∧ ∀ token ∈ front, token.Scanned := by
  have hends : Ends (Assembly.tokens directory source) before
      (fun tokens _ => ∃ front, tokens = front ++ [Token.ending] ∧ ∀ token ∈ front, token.Scanned)
      fun _ _ => True := by
    rw [ends_tokens]
    have hfound := tokensFrom_scanned (depthBound before.files) directory source.toList []
      (fun token hm => absurd hm List.not_mem_nil)
    refine (hfound before).mono (fun found _ hf => ?_) fun _ _ h => h
    exact ⟨found.reverse, rfl, fun token ht => hf token (List.mem_reverse.1 ht)⟩
  exact hends.of_ok h

end Assembly

theorem Host.tokenize_eq {directory source : String} {path : Option String} {host after : Host}
    {tokens : List Token} (h : Host.tokenize directory path source host = .ok tokens after) :
    ∃ front, tokens = front ++ [Token.ending] ∧ ∀ token ∈ front, token.Scanned := by
  rw [Host.tokenize] at h
  split at h
  · rename_i hok
    cases h
    exact Assembly.exists_scanned_of_tokens hok
  · cases h

end PrefixScript
