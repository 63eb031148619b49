import PrefixScript.Proofs.Composition
import PrefixScript.Proofs.Expansion
import PrefixScript.Proofs.GrammarSoundness
import PrefixScript.Proofs.SessionChain
import PrefixScript.Proofs.TameTexts

/-!
# Sources without control sequences

The pieces of a text are made of its characters, and so are the tokens of a source and of the files
that it imports, and the nodes that these are parsed to. What is told on the way, of skipped files
and of errors in the source, therefore has no control sequences either if the source, the files and
their paths have none.
-/
namespace PrefixScript

/-! ## Activities that bring in no control sequences -/

section Tamely
variable {σ α β : Type} {inv : σ → Prop} {ok ok' : α → Prop} {activity : EStateM Failure σ α}

/-- From every state with an invariant an activity ends in such a state, with a result as in `ok` or
with a failure of which nothing is told that has control sequences. -/
def Tamely (inv : σ → Prop) (ok : α → Prop) (activity : EStateM Failure σ α) : Prop :=
  ∀ s, inv s → Ends activity s (fun a t => ok a ∧ inv t) fun failure t => failure.Tame ∧ inv t

namespace Tamely

theorem pure {a : α} (h : ok a) : Tamely inv ok (pure a : EStateM Failure σ α) :=
  fun _ hs => ⟨h, hs⟩

theorem throw {failure : Failure} (h : failure.Tame) :
    Tamely inv ok (throw failure : EStateM Failure σ α) :=
  fun _ hs => ⟨h, hs⟩

theorem modify {ok : PUnit → Prop} {f : σ → σ} (hok : ok ()) (hf : ∀ s, inv s → inv (f s)) :
    Tamely inv ok (modify f : EStateM Failure σ PUnit) :=
  fun s hs => ⟨hok, hf s hs⟩

theorem bind {next : α → EStateM Failure σ β} {ok' : β → Prop} (h : Tamely inv ok activity)
    (hn : ∀ a, ok a → Tamely inv ok' (next a)) : Tamely inv ok' (activity >>= next) := by
  intro s hs
  rw [ends_bind]
  refine (h s hs).mono (fun a t ht => ?_) fun _ _ he => he
  exact hn a ht.1 t ht.2

theorem ite {p : Prop} [Decidable p] {other : EStateM Failure σ α} (h : Tamely inv ok activity)
    (ho : Tamely inv ok other) : Tamely inv ok (if p then activity else other) := by
  split
  · exact h
  · exact ho

theorem mono (h : Tamely inv ok activity) (hok : ∀ a, ok a → ok' a) : Tamely inv ok' activity :=
  fun s hs => (h s hs).mono (fun a _ ha => ⟨hok a ha.1, ha.2⟩) fun _ _ he => he

end Tamely

end Tamely

/-! ## Pieces of a text -/

/-- The texts that are used of a piece have no control sequences. -/
def Piece.Tame : Piece → Prop
  | .token found => found.Tame
  | .directive _ name => Text.Tame name
  | .comment _ | .blank _ => True

/-- The kinds that rules yield have names without control sequences. -/
theorem Rule.tame_name : ∀ label ∈ Rule.all.map Rule.label, ∀ kind, label = .token kind →
    Text.Tame kind.name := by
  simp only [Rule.all, Rule.symbol, Rule.word, List.map, List.forall_mem_cons, Label.token.injEq,
    reduceCtorEq, false_implies, implies_true, true_and, forall_eq']
  simp only [List.not_mem_nil, false_implies, implies_true, and_true]
  decide

theorem Pattern.directiveName_subset (text : List Char) : directiveName text ⊆ text :=
  fun _ hc => List.dropWhile_subset _ (List.drop_subset _ _ (List.dropLast_subset _ hc))

theorem Label.tame_piece {text : List Char} {label : Label} {length : Nat}
    (h : Rule.first? text Rule.all = some (label, length)) (ht : Text.lead ∉ text) :
    (label.piece (text.take length)).Tame := by
  obtain ⟨rule, hm, rfl, -⟩ := Rule.exists_of_first? h
  have htake : Text.lead ∉ text.take length := fun hm => ht (List.take_subset _ _ hm)
  cases hl : rule.label with
  | comment => trivial
  | blank => trivial
  | directive => exact Text.tame_ofList.2 fun hm => htake (Pattern.directiveName_subset _ hm)
  | token kind =>
    exact ⟨Text.tame_ofList.2 htake, Rule.tame_name _ (List.mem_map_of_mem hm) kind hl⟩

theorem Scan.tame_pieces {text : List Char} (h : Text.lead ∉ text) :
    ∀ piece ∈ (Scan.ofText text).pieces, piece.Tame := by
  induction text using Scan.induction with
  | stuck text hf =>
    rw [Scan.ofText_of_none hf]
    exact fun piece hm => absurd hm List.not_mem_nil
  | piece text label length hf ih =>
    rw [Scan.ofText_of_some hf]
    have hrest := ih fun hm => h (List.drop_subset _ _ hm)
    exact List.forall_mem_cons.2 ⟨Label.tame_piece hf h, hrest⟩

/-! ## Worlds and hosts -/

theorem Files.mem_of_mem_unifyBreaks {text acc : List Char} {c : Char}
    (h : c ∈ unifyBreaks text acc) : c ∈ text ∨ c = '\n' ∨ c ∈ acc := by
  fun_induction unifyBreaks text acc with
  | case1 acc => exact .inr (.inr (List.mem_reverse.1 h))
  | case2 acc rest ih => grind
  | case3 acc rest hne ih => grind
  | case4 acc d rest hne hd ih => grind

/-- Neither the texts of the files nor the input nor the working directory of a world have control
sequences, and nothing was written that has some, but for what clears the screen. -/
structure World.Tame (world : World) : Prop where
  files : world.files.Holds fun _ bytes =>
    ∀ text, String.fromUTF8? bytes = some text → Text.Tame text
  input : Text.lead ∉ world.input
  written : ∀ text, .wrote text ∈ world.log → text.Tame ∨ text = .plain Operator.clearScreen
  working : Text.Tame world.working

/-- The same of a host, of which the paths in the chain have no control sequences either. -/
structure Host.Tame (host : Host) : Prop where
  world : host.world.Tame
  trace : ∀ path ∈ host.trace, Text.Tame path

namespace World
variable {world : World}

/-- Unified line breaks are the only characters of a text that is read that the file may lack. -/
theorem Tame.text_of_read (h : world.Tame) {path content : String}
    (hr : world.files.read path = .text content) : Text.Tame content := by
  obtain ⟨bytes, text, hfind, hbytes, rfl⟩ := Files.exists_of_read hr
  have hlead : Text.lead ≠ '\n' := by decide
  have htext : Text.lead ∉ text.toList := h.files _ bytes hfind text hbytes
  rw [Text.tame_ofList]
  intro hm
  rcases Files.mem_of_mem_unifyBreaks hm with hm | hm | hm
  · exact htext hm
  · exact hlead hm
  · exact List.not_mem_nil hm

theorem Tame.write (h : world.Tame) {text : Styled}
    (ht : text.Tame ∨ text = .plain Operator.clearScreen) : (world.write text).Tame where
  files := h.files
  input := h.input
  written other hm := by
    rcases List.mem_cons.1 hm with he | hm
    · cases he
      exact ht
    · exact h.written other hm
  working := h.working

/-- What writes nothing leaves a world as tame as it is. -/
theorem Tame.record (h : world.Tame) {event : Event} (he : ∀ text, event ≠ .wrote text) :
    (world.record event).Tame where
  files := h.files
  input := h.input
  written text hm := h.written text ((List.mem_cons.1 hm).resolve_left fun h => he text h.symm)
  working := h.working

theorem Tame.read (h : world.Tame) (path : String) : (world.read path).2.Tame :=
  h.record (by simp)

end World

/-! ## Tokens of a source -/

namespace Assembly

theorem tame_unexpected {source rest : List Char} (h : Text.lead ∉ source)
    (hr : rest <:+ source) : (unexpected source rest).diagnostic.Tame := by
  obtain ⟨passed, rfl⟩ := hr
  rw [List.mem_append, not_or] at h
  obtain ⟨hpassed, hrest⟩ := h
  have hbefore : Text.lead ∉ (passed.reverse.takeWhile (· != '\n')).reverse := by
    intro hm
    exact hpassed (List.mem_reverse.1 (List.takeWhile_subset _ (List.mem_reverse.1 hm)))
  have hafter : Text.lead ∉ rest.takeWhile (· != '\n') :=
    fun hm => hrest (List.takeWhile_subset _ hm)
  have hchar : Text.Tame (rest.headD ' ').toString := by
    cases rest with
    | nil => decide
    | cons c rest => simp_all [Text.Tame]
  rw [unexpected_append]
  generalize (passed.reverse.takeWhile (· != '\n')).reverse = before at hbefore ⊢
  generalize rest.takeWhile (· != '\n') = after at hafter ⊢
  have hline : Text.Tame (String.ofList (before ++ after)) := by
    rw [Text.tame_ofList, List.mem_append, not_or]
    exact ⟨hbefore, hafter⟩
  have htexts : Text.Tame "'" ∧ Text.Tame "' has unexpected character '" ∧
      Text.Tame "' on line " := by decide
  constructor
  · simp only [Fault.diagnostic, Diagnostic.basic, Styled.tame_append, Styled.tame_plain,
      Styled.tame_bold, Text.tame_append]
    exact ⟨⟨⟨⟨htexts.1, hline⟩, htexts.2.1⟩, hchar⟩, htexts.2.2, Text.tame_repr _⟩
  · exact hline

/-- Activities of an assembly that find tokens. -/
abbrev FindsTame (find : AssemblyM (List Token)) : Prop :=
  Tamely (fun assembly => assembly.host.Tame) (fun tokens => ∀ token ∈ tokens, token.Tame) find

variable {earlier : List Token}

theorem collect_tame {expand : String → List Token → AssemblyM (List Token)}
    (h : ∀ name earlier, Text.Tame name → (∀ token ∈ earlier, token.Tame) →
      FindsTame (expand name earlier)) {pieces : List Piece} (hp : ∀ piece ∈ pieces, piece.Tame)
    (he : ∀ token ∈ earlier, token.Tame) : FindsTame (collect expand pieces earlier) := by
  induction pieces generalizing earlier with
  | nil => exact .pure he
  | cons piece rest ih =>
    obtain ⟨hpiece, hrest⟩ := List.forall_mem_cons.1 hp
    cases piece with
    | token token => exact ih hrest (List.forall_mem_cons.2 ⟨hpiece, he⟩)
    | directive text name =>
      exact .bind (h name earlier hpiece he) fun tokens ht => ih hrest ht
    | comment text => exact ih hrest he
    | blank text => exact ih hrest he

/-- A skipped file is told of with its name, a file that cannot be read too. A file that is read is
tame, and so are the paths of the files in the chain. -/
theorem expand_tame {inner : String → List Char → List Token → AssemblyM (List Token)}
    (h : ∀ directory source earlier, Text.Tame directory → Text.lead ∉ source →
      (∀ token ∈ earlier, token.Tame) → FindsTame (inner directory source earlier))
    {directory name : String} (hd : Text.Tame directory) (hn : Text.Tame name)
    (he : ∀ token ∈ earlier, token.Tame) : FindsTame (expand inner directory name earlier) := by
  intro before hb
  have hpath : Text.Tame (Path.absolute (Path.join directory name)) :=
    Path.tame_absolute (Path.tame_join hd hn)
  have hasked : (before.asked (Path.absolute (Path.join directory name))).host.Tame :=
    ⟨hb.world.read _, hb.trace⟩
  rw [ends_expand inner directory name earlier rfl]
  generalize Path.absolute (Path.join directory name) = path at hpath hasked ⊢
  split
  · have hskipped : (skipped name).Tame :=
      (Fault.tame_told (by decide) hn (by decide)).excerpt false
    exact ⟨he, hb.world.write (.inl (Host.tame_warning hb.trace hskipped)), hb.trace⟩
  · cases hr : before.files.read path with
    | nullInPath => exact ⟨Failure.tame_nullInPath, hasked⟩
    | unreadable => exact ⟨(Fault.tame_told (by decide) hn (by decide)).excerpt false, hasked⟩
    | text content =>
      have hcontent : Text.lead ∉ content.toList ++ ['\n'] := by
        have hbreak : Text.lead ∉ ['\n'] := by decide
        rw [List.mem_append, not_or]
        exact ⟨hb.world.text_of_read hr, hbreak⟩
      have hentered : (before.entered path).host.Tame := by
        refine ⟨hasked.world, fun other hm => ?_⟩
        rcases List.mem_append.1 hm with hm | hm
        · exact hb.trace other hm
        · exact List.mem_singleton.1 hm ▸ hpath
      have hinner := h _ _ earlier (Path.tame_parent hpath) hcontent he (before.entered path)
        hentered
      refine hinner.mono (fun tokens after ha => ?_) fun _ _ hf => hf
      exact ⟨ha.1, ha.2.world, fun other hm => ha.2.trace other (List.mem_of_mem_erase hm)⟩

/-- The induction is on the depth: imported files are processed at the depth below. -/
theorem tokensFrom_tame (depth : Nat) {directory : String} {source : List Char}
    (hd : Text.Tame directory) (hs : Text.lead ∉ source) (he : ∀ token ∈ earlier, token.Tame) :
    FindsTame (tokensFrom depth directory source earlier) := by
  induction depth generalizing directory source earlier with
  | zero => exact .throw trivial
  | succ depth ih =>
    intro before hb
    have hcollect := collect_tame
      (fun name earlier hn he => expand_tame (fun _ _ _ => ih) hd hn he)
      (Scan.tame_pieces hs) he before hb
    rw [ends_tokensFrom]
    refine hcollect.mono (fun tokens after ha => ?_) fun _ _ hf => hf
    split
    · exact ha
    · exact ⟨tame_unexpected hs (Scan.rest_suffix source), ha.2⟩

theorem tokens_tame {directory source : String} (hd : Text.Tame directory)
    (hs : Text.Tame source) : FindsTame (tokens directory source) := by
  intro before hb
  have hfrom := tokensFrom_tame (depthBound before.files) hd hs (List.forall_mem_nil _) before hb
  have hending : Token.ending.Tame := ⟨by decide, by decide⟩
  rw [ends_tokens]
  refine hfrom.mono (fun found after ha => ⟨?_, ha.2⟩) fun _ _ hf => hf
  intro token hm
  rcases List.mem_append.1 hm with hm | hm
  · exact ha.1 token (List.mem_reverse.1 hm)
  · exact List.mem_singleton.1 hm ▸ hending

end Assembly

theorem Host.tokenize_tame {directory source : String} {path : Option String}
    (hd : Text.Tame directory) (hs : Text.Tame source) :
    Tamely Host.Tame (fun tokens => ∀ token ∈ tokens, token.Tame)
      (Host.tokenize directory path source) := by
  intro host hh
  rw [Host.ends_tokenize]
  exact Assembly.tokens_tame hd hs ⟨host, .ofPath path⟩ hh

/-! ## Nodes of a token list -/

namespace Parse

/-- Parsers that leave tame tokens. -/
abbrev ParsesTame {α : Type} (ok : α → Prop) (parser : ParseM α) : Prop :=
  Tamely (fun tokens => ∀ token ∈ tokens, token.Tame) ok parser

section Rules
variable {α : Type} {ok : α → Prop} {item : ParseM α}

theorem tame_peek : ParsesTame Token.Tame peek := by
  intro tokens ht
  cases tokens with
  | nil => exact ⟨Failure.tame_tokensExhausted, ht⟩
  | cons token rest => exact ⟨ht token List.mem_cons_self, ht⟩

theorem tame_advance : ParsesTame (fun _ => True) advance :=
  .modify trivial fun _ ht token hm => ht token (List.mem_of_mem_tail hm)

theorem tame_consume {expected : Kind} (he : Text.Tame expected.name) :
    ParsesTame Token.Tame (consume expected) := by
  refine .bind tame_peek fun token ht => .ite (.bind tame_advance fun _ _ => .pure ht) (.throw ?_)
  have htexts : Text.Tame "expected " ∧ Text.Tame " but got " := by decide
  exact Diagnostic.tame_basic (by simp [htexts, he, ht.kind]) he

theorem tame_repeated (h : ParsesTame ok item) (count : Nat) {before : List α}
    (hb : ∀ a ∈ before, ok a) : ParsesTame (fun all => ∀ a ∈ all, ok a)
      (repeated item count before) := by
  induction count generalizing before with
  | zero => exact .pure fun a hm => hb a (List.mem_reverse.1 hm)
  | succ count ih => exact .bind h fun a ha => ih (List.forall_mem_cons.2 ⟨ha, hb⟩)

theorem tame_upTo {stop : Kind} (h : ParsesTame ok item) (rounds : Nat) {before : List α}
    (hb : ∀ a ∈ before, ok a) : ParsesTame (fun all => ∀ a ∈ all, ok a)
      (upTo stop item rounds before) := by
  induction rounds generalizing before with
  | zero => exact .throw Failure.tame_tokensExhausted
  | succ rounds ih =>
    refine .bind tame_peek fun token _ => .ite ?_ (.bind h fun a ha => ?_)
    · exact .pure fun a hm => hb a (List.mem_reverse.1 hm)
    · exact ih (List.forall_mem_cons.2 ⟨ha, hb⟩)

/-- A parser that goes on behind the first token as a tame one. -/
theorem ends_of_eq {parser next : ParseM α} {token : Token} {rest : List Token}
    (he : parser (token :: rest) = next rest) (h : ParsesTame ok next)
    (ht : ∀ other ∈ token :: rest, other.Tame) :
    Ends parser (token :: rest) (fun a left => ok a ∧ ∀ other ∈ left, other.Tame)
      fun failure left => failure.Tame ∧ ∀ other ∈ left, other.Tame := by
  unfold Ends
  rw [he]
  exact h rest (List.forall_mem_cons.1 ht).2

end Rules

/-- The trees of some nodes are tame. -/
abbrev TameTrees (nodes : List Node) : Prop := Node.Throughout Node.Tame nodes

theorem tameTrees_of_forall {nodes : List Node} (h : ∀ node ∈ nodes, TameTrees [node]) :
    TameTrees nodes := by
  intro inner hi
  obtain ⟨node, hn, hi⟩ := Node.mem_subnodesOf.1 hi
  exact h node hn inner (Node.mem_subnodesOf.2 ⟨node, List.mem_singleton_self node, hi⟩)

theorem tame_literalText {lexeme : String} (h : Text.Tame lexeme) :
    Text.Tame (literalText lexeme) :=
  h.of_subset fun _ hc => List.tail_subset _ (List.dropLast_subset _ (Text.unescape_subset _ hc))

section Nodes
variable {arities : Arities} {depth rounds : Nat} {token : Token} {rest : List Token}

theorem tame_arguments
    (h : ∀ lower < depth, ParsesTame (fun node => TameTrees [node]) (expression arities lower))
    (count : Nat) : ParsesTame TameTrees (arguments arities depth count) := by
  cases depth with
  | zero => exact .throw trivial
  | succ depth =>
    have hargs := tame_repeated (h depth depth.lt_succ_self) count (List.forall_mem_nil _)
    exact hargs.mono fun _ => tameTrees_of_forall

/-- What is read as an expression is made of the tokens. The induction is on the depth. -/
theorem tame_expression (depth : Nat) :
    ParsesTame (fun node => TameTrees [node]) (expression arities depth) := by
  induction depth using Nat.strongRecOn with
  | ind depth below =>
    cases depth with
    | zero => exact .throw trivial
    | succ depth =>
      have ih := below depth depth.lt_succ_self
      intro tokens ht
      cases tokens with
      | nil => exact ⟨Failure.tame_tokensExhausted, ht⟩
      | cons token rest =>
        obtain ⟨htoken, hrest⟩ := List.forall_mem_cons.1 ht
        cases ho : token.kind.opensExpression with
        | false =>
          rw [Ends, expression_unexpected ho]
          exact ⟨Fault.tame_told (by decide) htoken.kind (by decide), ht⟩
        | true =>
          rcases Kind.opensExpression_cases ho with hk | hk | hk | hk | hk | hk | hk | hk | hk
          · refine ends_of_eq (expression_unary hk) (.bind ih fun operand h => .pure ?_) ht
            exact .node htoken.lexeme rfl h
          · refine ends_of_eq (expression_comparison hk) ?_ ht
            refine .bind ih fun left hl => .bind ih fun right hr => .pure ?_
            exact .node htoken.lexeme rfl (hl.append hr)
          · refine ends_of_eq (expression_math hk) ?_ ht
            refine .bind ih fun left hl => .bind ih fun right hr => .pure ?_
            exact .node htoken.lexeme rfl (hl.append hr)
          · cases ha : arities.find? token.lexeme with
            | none =>
              exact ends_of_eq (expression_lookup hk ha) (.pure (.node htoken.lexeme rfl .nil)) ht
            | some count =>
              have hargs := tame_arguments
                (fun lower hl => below lower (Nat.lt_succ_of_lt hl)) count
              refine ends_of_eq (expression_call hk ha) (.bind hargs fun args h => .pure ?_) ht
              exact .node htoken.lexeme (List.append_nil _) h
          · cases hv : Decimal.writtenValue? token.lexeme.toList with
            | some value =>
              exact ends_of_eq (expression_number hk hv)
                (.pure (.node (Value.tame_number value) rfl .nil)) ht
            | none =>
              have htext : Text.Tame "could not convert string to float: " := by decide
              have hquoted : Text.Tame ("could not convert string to float: " ++
                  Text.quoted token.lexeme) :=
                Text.tame_append.2 ⟨htext, Text.tame_quoted htoken.lexeme⟩
              rw [Ends, expression_noNumber hk hv]
              exact ⟨⟨(by decide : Text.Tame "ValueError"), hquoted⟩, hrest⟩
          · exact ends_of_eq (expression_string hk)
              (.pure (.node (tame_literalText htoken.lexeme) rfl .nil)) ht
          · exact ends_of_eq (expression_read hk) (.pure (.node trivial rfl .nil)) ht
          · exact ends_of_eq (expression_pause hk)
              (.bind ih fun delay h => .pure (.node trivial rfl h)) ht
          · exact ends_of_eq (expression_wipe hk) (.pure (.node trivial rfl .nil)) ht

theorem tame_parameter : ParsesTame (fun _ => True) parameter := by
  refine .bind (tame_consume (by decide)) fun token _ => .bind tame_peek fun next _ => ?_
  have hname : ParsesTame (fun _ => True) (pure token.lexeme) := .pure trivial
  exact .ite (.bind tame_advance fun _ _ => hname) hname

theorem tame_binding : ParsesTame (fun node => TameTrees [node]) (binding arities depth) := by
  cases depth with
  | zero => exact .throw trivial
  | succ depth =>
    refine .bind (tame_consume (by decide)) fun _ _ =>
      .bind (tame_consume (by decide)) fun name _ => .bind (tame_consume (by decide)) fun _ _ =>
        .bind (tame_expression depth) fun value h => .pure ?_
    exact .node trivial rfl h

theorem tame_printing : ParsesTame (fun node => TameTrees [node]) (printing arities depth) := by
  cases depth with
  | zero => exact .throw trivial
  | succ depth =>
    refine .bind tame_peek fun word _ => .bind tame_advance fun _ _ =>
      .bind (tame_expression depth) fun value h => .pure ?_
    exact .node trivial rfl h

theorem tame_statements {stop : Kind}
    (h : ParsesTame (fun node => TameTrees [node]) (statement arities rounds depth)) :
    ParsesTame TameTrees (upTo stop (statement arities rounds depth) rounds []) :=
  (tame_upTo h rounds (List.forall_mem_nil _)).mono fun _ => tameTrees_of_forall

section Lists
variable (hs : ∀ lower < depth,
  ParsesTame (fun node => TameTrees [node]) (statement arities rounds lower))
include hs

theorem tame_block : ParsesTame TameTrees (block arities rounds depth) := by
  cases depth with
  | zero => exact .throw trivial
  | succ depth =>
    exact .bind (tame_consume (by decide)) fun _ _ =>
      .bind (tame_statements (hs depth depth.lt_succ_self)) fun _ h =>
        .bind (tame_consume (by decide)) fun _ _ => .pure h

theorem tame_body : ParsesTame TameTrees (body arities rounds depth) := by
  cases depth with
  | zero => exact .throw trivial
  | succ depth =>
    have hblock := tame_block fun lower hl => hs lower (Nat.lt_succ_of_lt hl)
    have honly := hs depth depth.lt_succ_self
    exact .bind tame_peek fun _ _ => .ite hblock (.bind honly fun _ h => .pure h)

theorem tame_conditional :
    ParsesTame (fun node => TameTrees [node]) (conditional arities rounds depth) := by
  cases depth with
  | zero => exact .throw trivial
  | succ depth =>
    have hbody := tame_body fun lower hl => hs lower (Nat.lt_succ_of_lt hl)
    refine .bind (tame_consume (by decide)) fun _ _ => .bind (tame_expression depth) fun cond hc =>
      .bind hbody fun first hf => .bind tame_peek fun next _ => ?_
    refine .ite ?_ (.pure (.node trivial rfl (hc.append hf)))
    exact .bind tame_advance fun _ _ => .bind hbody fun second hs =>
      .pure (.node trivial rfl (hc.append (hf.append hs)))

theorem tame_whileLoop :
    ParsesTame (fun node => TameTrees [node]) (whileLoop arities rounds depth) := by
  cases depth with
  | zero => exact .throw trivial
  | succ depth =>
    have hbody := tame_body fun lower hl => hs lower (Nat.lt_succ_of_lt hl)
    exact .bind (tame_consume (by decide)) fun _ _ => .bind (tame_expression depth) fun cond hc =>
      .bind hbody fun inner h => .pure (.node trivial rfl (hc.append h))

theorem tame_forLoop :
    ParsesTame (fun node => TameTrees [node]) (forLoop arities rounds depth) := by
  cases depth with
  | zero => exact .throw trivial
  | succ depth =>
    have hvalue := @tame_expression arities depth
    have hbody := tame_body fun lower hl => hs lower (Nat.lt_succ_of_lt hl)
    refine .bind (tame_consume (by decide)) fun _ _ =>
      .bind (tame_consume (by decide)) fun counter _ => .bind (tame_consume (by decide)) fun _ _ =>
        .bind hvalue fun start hl => .bind hvalue fun stop hr => .bind hbody fun inner h => .pure ?_
    exact .node trivial rfl (hl.append (hr.append h))

theorem tame_declaration :
    ParsesTame (fun node => TameTrees [node]) (declaration arities rounds depth) := by
  cases depth with
  | zero => exact .throw trivial
  | succ depth =>
    have hblock := tame_block fun lower hl => hs lower (Nat.lt_succ_of_lt hl)
    refine .bind (tame_consume (by decide)) fun _ _ =>
      .bind (tame_consume (by decide)) fun name _ => .bind (tame_consume (by decide)) fun _ _ =>
        .bind (tame_upTo tame_parameter rounds (List.forall_mem_nil _)) fun params _ => ?_
    exact .bind (tame_consume (by decide)) fun _ _ => .bind hblock fun inner h =>
      .pure (.node trivial rfl h)

end Lists

/-- What is read as a statement is made of the tokens. The induction is on the depth. -/
theorem tame_statement (rounds depth : Nat) :
    ParsesTame (fun node => TameTrees [node]) (statement arities rounds depth) := by
  induction depth using Nat.strongRecOn with
  | ind depth ih =>
    cases depth with
    | zero => exact .throw trivial
    | succ depth =>
      have below (lower : Nat) (hl : lower < depth) :
          ParsesTame (fun node => TameTrees [node]) (statement arities rounds lower) :=
        ih lower (Nat.lt_succ_of_lt hl)
      have hvalue := @tame_expression arities depth
      intro tokens ht
      cases tokens with
      | nil => exact ⟨Failure.tame_tokensExhausted, ht⟩
      | cons token rest =>
        cases ho : token.kind.opensOther with
        | false =>
          by_cases ha : token.kind = .pause ∨ token.kind = .wipe
          · rw [Ends, statement_action ha]
            exact hvalue _ ht
          · obtain ⟨hp, hw⟩ := not_or.1 ha
            rw [Ends, statement_implicit ho hp hw]
            exact Tamely.bind hvalue (fun value h => .pure (.node trivial rfl h)) _ ht
        | true =>
          rcases Kind.opensOther_cases ho with hk | hk | hk | hk | hk | hk | hk
          · rw [Ends, statement_print hk]
            exact tame_printing _ ht
          · rw [Ends, statement_let hk]
            exact tame_binding _ ht
          · rw [Ends, statement_if hk]
            exact tame_conditional below _ ht
          · rw [Ends, statement_while hk]
            exact tame_whileLoop below _ ht
          · rw [Ends, statement_for hk]
            exact tame_forLoop below _ ht
          · rw [Ends, statement_function hk]
            exact tame_declaration below _ ht
          · exact ends_of_eq (statement_return hk)
              (.bind hvalue fun value h => .pure (.node trivial rfl h)) ht

end Nodes

end Parse

theorem Host.parse_tame (limits : Limits) {tokens : List Token}
    (ht : ∀ token ∈ tokens, token.Tame) :
    Tamely Host.Tame Parse.TameTrees (Host.parse limits tokens) := by
  intro host hh
  have hprogram : Parse.ParsesTame Parse.TameTrees
      (Parse.program (.ofTokens tokens) tokens.length limits.nesting) :=
    Parse.tame_statements (Parse.tame_statement tokens.length limits.nesting)
  have hends := hprogram tokens ht
  rw [ends_parse]
  cases hp : Parse.tokens limits.nesting tokens with
  | ok program left => exact ⟨(hends.of_ok hp).1, hh⟩
  | error failure left => exact ⟨(hends.of_error hp).1, hh⟩

end PrefixScript
