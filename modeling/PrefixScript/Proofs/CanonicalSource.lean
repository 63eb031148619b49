import PrefixScript.Proofs.ArityAgreement
import PrefixScript.Proofs.TextLiterals

/-!
# Programs are written and read again

A program is written in canonical form: all bodies in braces, commas between parameters, texts in
single quotes, and a single space between any two tokens. A number is written as some numeral of it.
Of a program that was parsed the written tokens are derived as the same trees, with the same
arities, since these depend on the trees alone; and they are scanned as written, since each of them
stands alone. So the program is found again, where the parser may go down deeply enough: braces are
one more level than a body without them.
-/
namespace PrefixScript

/-! ## Writing trees -/

namespace Kind

/-- The token of a kind that is spelled in one way. -/
def token (kind : Kind) : Token := ⟨kind, kind.spelling?.getD ""⟩

/-- The kind of the tokens that are spelled like a text. -/
def ofSpelling (spelling : String) : Kind :=
  (known.find? (·.spelling? = some spelling)).getD (.other spelling)

theorem ofSpelling_of_spelling {kind : Kind} {spelling : String}
    (h : kind.spelling? = some spelling) : ofSpelling spelling = kind := by
  cases kind with
  | number | string | identifier | ending | other => cases h
  | _ =>
    cases h
    rfl

end Kind

namespace Token

/-- The token of an operator, or of a word that prints. -/
def spelled (spelling : String) : Token := ⟨.ofSpelling spelling, spelling⟩

end Token

namespace Node

/-- Tokens in braces. -/
def braced (tokens : List Token) : List Token :=
  Kind.leftBrace.token :: (tokens ++ [Kind.rightBrace.token])

/-- Names with commas between them. -/
def writtenNames : List String → List Token
  | [] => []
  | [name] => [⟨.identifier, name⟩]
  | name :: next :: rest =>
    ⟨.identifier, name⟩ :: Kind.comma.token :: writtenNames (next :: rest)

section Written
variable (numeral : Float → String)

mutual

/-- The tokens of a tree in canonical form. Trees that no source yields are not written. -/
def written : Node → List Token
  | literal (.number x) => [⟨.number, numeral x⟩]
  | literal (.text content) => [.literal '\'' content]
  | literal _ => []
  | lookup name => [⟨.identifier, name⟩]
  | math op left right => .spelled op :: (written left ++ written right)
  | unary op operand => .spelled op :: written operand
  | comparison op left right => .spelled op :: (written left ++ written right)
  | call name args => ⟨.identifier, name⟩ :: writtenAll args
  | read => [Kind.read.token]
  | pause delay => Kind.pause.token :: written delay
  | wipe => [Kind.wipe.token]
  | bind name value =>
    Kind.letWord.token :: ⟨.identifier, name⟩ :: Kind.assign.token :: written value
  | print value variant =>
    if variant = "implicit" then written value else .spelled variant :: written value
  | ifThen cond body => Kind.ifWord.token :: (written cond ++ braced (writtenAll body))
  | ifElse cond body other =>
    Kind.ifWord.token :: (written cond ++
      (braced (writtenAll body) ++ Kind.elseWord.token :: braced (writtenAll other)))
  | whileLoop cond body => Kind.whileWord.token :: (written cond ++ braced (writtenAll body))
  | forLoop counter start stop body =>
    Kind.forWord.token :: ⟨.identifier, counter⟩ :: Kind.assign.token ::
      (written start ++ (written stop ++ braced (writtenAll body)))
  | function name params body =>
    Kind.functionWord.token :: ⟨.identifier, name⟩ :: Kind.leftParen.token ::
      (writtenNames params ++ Kind.rightParen.token :: braced (writtenAll body))
  | ret value => Kind.returnWord.token :: written value
  | program body => writtenAll body
  | unknown _ => []

/-- The tokens of several trees, one tree after the other. -/
def writtenAll : List Node → List Token
  | [] => []
  | node :: rest => written node ++ writtenAll rest

end

/-- The canonical source of a program. -/
def canonicalSource (program : List Node) : String := Token.written (writtenAll numeral program)

/-- The chosen numeral of a number literal stands for its number. -/
def HasNumeral : Node → Prop
  | literal (.number x) =>
    Decimal.isNumeral (numeral x).toList ∧ Decimal.numeralValue (numeral x).toList = x
  | _ => True

end Written

end Node

/-! ## Tokens that can be written -/

namespace Token
variable {token : Token}

/-- A token that stands alone and is not in double quotes. -/
structure Plain (token : Token) : Prop where
  stands : token.Stands
  no_quote : ¬ (token.kind = .string ∧ token.lexeme.toList.head? = some '"')

theorem plain_of_spelling {kind : Kind} {spelling : String} (h : kind.spelling? = some spelling) :
    Plain ⟨kind, spelling⟩ where
  stands := stands_of_spelling h
  no_quote := by
    rintro ⟨rfl, -⟩
    cases h

/-- All of some tokens can be written. -/
def AllPlain (tokens : List Token) : Prop := ∀ token ∈ tokens, token.Plain

namespace AllPlain
variable {first second tokens : List Token}

theorem nil : AllPlain [] := fun _ hm => absurd hm List.not_mem_nil

theorem cons (h : AllPlain tokens) (ht : token.Plain) : AllPlain (token :: tokens) :=
  List.forall_mem_cons.2 ⟨ht, h⟩

theorem word {kind : Kind} (h : AllPlain tokens)
    (hk : kind.spelling? = some (kind.spelling?.getD "")) : AllPlain (kind.token :: tokens) :=
  h.cons (plain_of_spelling hk)

theorem append (h : AllPlain first) (h' : AllPlain second) : AllPlain (first ++ second) :=
  List.forall_mem_append.2 ⟨h, h'⟩

/-- No two tokens that can be written import. -/
theorem isChain (h : AllPlain tokens) :
    tokens.IsChain fun token next => ¬ token.Imports next := by
  induction tokens with
  | nil => exact .nil
  | cons token rest ih =>
    have hrest : AllPlain rest := (List.forall_mem_cons.1 h).2
    cases rest with
    | nil => exact .singleton token
    | cons next more =>
      have hnext := (hrest next List.mem_cons_self).no_quote
      exact .cons_cons (fun hi => hnext hi.2) (ih hrest)

end AllPlain

theorem Scanned.plain (h : token.Scanned) (hk : token.kind ≠ .string) : token.Plain :=
  ⟨h.stands, fun hs => hk hs.1⟩

/-- A scanned token that is spelled in one way is written as it was. -/
theorem Scanned.eq_spelled (h : token.Scanned) (hk : token.kind.spelling? ≠ none) :
    spelled token.lexeme = token := by
  obtain ⟨spelling, hs⟩ := Option.ne_none_iff_exists'.1 hk
  rw [spelled, h.lexeme_of_spelling hs, Kind.ofSpelling_of_spelling hs, ← h.lexeme_of_spelling hs]

theorem eq_of_kind {kind : Kind} (hk : token.kind = kind) :
    (⟨kind, token.lexeme⟩ : Token) = token := by
  rw [← hk]

theorem plain_literal (content : String) : (literal '\'' content).Plain where
  stands := stands_literal (.inr rfl) content
  no_quote := by
    rw [literal, String.toList_ofList]
    simp

/-- A numeral is of the language of numbers. -/
theorem plain_number {lexeme : String} (h : Decimal.isNumeral lexeme.toList) :
    Plain ⟨.number, lexeme⟩ where
  stands := stands_number ((Pattern.isNumeral_iff_mem _).1 h)
  no_quote := fun hs => by cases hs.1

end Token

/-! ## Written tokens are derived -/

/-- Some tokens are written as the grammar says, and all of them can be written. -/
structure Phrase.Written (arities : Arities) (phrase : Phrase) (tokens : List Token) : Prop where
  derives : Derives arities phrase tokens
  plain : Token.AllPlain tokens

/-- The canonical form of a phrase is a phrase for the same trees. Bodies become blocks, so the
statements in it may be dangling where they were not before, or the other way round. -/
def Phrase.Rewritten (arities : Arities) (numeral : Float → String) : Phrase → Prop
  | .expression node => Written arities (.expression node) (node.written numeral)
  | .expressions nodes => Written arities (.expressions nodes) (Node.writtenAll numeral nodes)
  | .statement _ node =>
    ∃ dangling, Written arities (.statement dangling node) (node.written numeral)
  | .statements nodes | .block nodes | .body _ nodes =>
    Written arities (.statements nodes) (Node.writtenAll numeral nodes)
  | .parameters names => Written arities (.parameters names) (Node.writtenNames names)

section Rewritten
variable {arities : Arities} {numeral : Float → String} {phrase : Phrase} {used : List Token}

namespace Phrase.Written
variable {nodes : List Node} {names : List String}

theorem block (h : Written arities (.statements nodes) used) :
    Written arities (.block nodes) (Node.braced used) :=
  ⟨.block rfl h.derives rfl, (h.plain.append (.word .nil rfl)).word rfl⟩

/-- Statements in braces are a body that is not dangling. -/
theorem body (h : Written arities (.statements nodes) used) :
    Written arities (.body false nodes) (Node.braced used) :=
  ⟨.braces h.block.derives, h.block.plain⟩

/-- One more name, with a comma behind it if it is not the last one. -/
theorem parameter {name : String} (hn : Token.Plain ⟨.identifier, name⟩)
    (h : Written arities (.parameters names) (Node.writtenNames names)) :
    Written arities (.parameters (name :: names)) (Node.writtenNames (name :: names)) := by
  cases names with
  | nil =>
    have hd := @Derives.parameter arities ⟨.identifier, name⟩ _ _ rfl .noParameter
    exact ⟨hd, .cons .nil hn⟩
  | cons next rest =>
    have hd := @Derives.parameterComma arities ⟨.identifier, name⟩ _ _ _ rfl
      (rfl : Kind.comma.token.kind = .comma) h.derives
    exact ⟨hd, (h.plain.word rfl).cons hn⟩

end Phrase.Written

/-- A scanned name is written as it was. -/
theorem Token.Scanned.plain_name {token : Token} (h : token.Scanned)
    (hk : token.kind = .identifier) : Plain ⟨.identifier, token.lexeme⟩ := by
  rw [eq_of_kind hk]
  exact h.plain (by simp [hk])

/-- The words that print are not the mark of what is printed without a word. -/
theorem Token.Scanned.lexeme_ne_implicit {token : Token} (h : token.Scanned)
    (hk : token.kind ∈ Kind.prints) : token.lexeme ≠ "implicit" := by
  rcases Kind.mem_prints.1 hk with hk | hk
  · rw [h.lexeme_of_spelling (by rw [hk]; rfl)]
    decide
  · rw [h.lexeme_of_spelling (by rw [hk]; rfl)]
    decide

/-- The induction follows the derivation. Operators and names are written as the tokens that they
come from, and everything else does not depend on how it was written before. -/
theorem Derives.rewritten (h : Derives arities phrase used) (hs : ∀ token ∈ used, token.Scanned)
    (hn : Node.Throughout (Node.HasNumeral numeral) phrase.nodes) :
    phrase.Rewritten arities numeral := by
  induction h with
  | unary hk _ ih =>
    obtain ⟨htoken, hused⟩ := List.forall_mem_cons.1 hs
    have hspelled := htoken.eq_spelled (by grind [Kind.spelling?])
    have ho := ih hused (hn.operands (by simp [Phrase.nodes, Node.operands]))
    simp only [Phrase.Rewritten, Node.written, hspelled]
    exact ⟨.unary hk ho.derives, ho.plain.cons (htoken.plain (by grind))⟩
  | comparison hk _ _ ihl ihr =>
    simp only [List.forall_mem_cons, List.forall_mem_append] at hs
    obtain ⟨htoken, hfirst, hsecond⟩ := hs
    have hspelled := htoken.eq_spelled (by grind [Kind.spelling?])
    have hl := ihl hfirst (hn.operands (by simp [Phrase.nodes, Node.operands]))
    have hr := ihr hsecond (hn.operands (by simp [Phrase.nodes, Node.operands]))
    simp only [Phrase.Rewritten, Node.written, hspelled]
    exact ⟨.comparison hk hl.derives hr.derives,
      (hl.plain.append hr.plain).cons (htoken.plain (by grind))⟩
  | math hk _ _ ihl ihr =>
    simp only [List.forall_mem_cons, List.forall_mem_append] at hs
    obtain ⟨htoken, hfirst, hsecond⟩ := hs
    have hspelled := htoken.eq_spelled (by grind [Kind.spelling?])
    have hl := ihl hfirst (hn.operands (by simp [Phrase.nodes, Node.operands]))
    have hr := ihr hsecond (hn.operands (by simp [Phrase.nodes, Node.operands]))
    simp only [Phrase.Rewritten, Node.written, hspelled]
    exact ⟨.math hk hl.derives hr.derives,
      (hl.plain.append hr.plain).cons (htoken.plain (by grind))⟩
  | call hk ha _ ih =>
    obtain ⟨htoken, hused⟩ := List.forall_mem_cons.1 hs
    have hargs := ih hused (hn.operands (by simp [Phrase.nodes, Node.operands]))
    exact ⟨@Derives.call arities ⟨.identifier, _⟩ _ _ rfl ha hargs.derives,
      hargs.plain.cons (htoken.plain_name hk)⟩
  | lookup hk ha =>
    have hname := (List.forall_mem_singleton.1 hs).plain_name hk
    exact ⟨@Derives.lookup arities ⟨.identifier, _⟩ rfl ha, .cons .nil hname⟩
  | @number token value hk hv =>
    obtain ⟨hnumeral, hvalue⟩ := hn.self
    have hwritten : Decimal.writtenValue? (numeral value).toList = some value := by
      rw [Decimal.writtenValue?, if_pos hnumeral, hvalue]
    exact ⟨@Derives.number arities ⟨.number, _⟩ value rfl hwritten,
      .cons .nil (Token.plain_number hnumeral)⟩
  | @string token hk =>
    have hd := @Derives.string arities (.literal '\'' (Parse.literalText token.lexeme)) rfl
    rw [Token.literalText_literal (.inr rfl)] at hd
    exact ⟨hd, .cons .nil (Token.plain_literal _)⟩
  | read => exact ⟨.read rfl, .word .nil rfl⟩
  | wipe => exact ⟨.wipe rfl, .word .nil rfl⟩
  | pause _ _ ih =>
    have hused := (List.forall_mem_cons.1 hs).2
    have hd := ih hused (hn.operands (by simp [Phrase.nodes, Node.operands]))
    exact ⟨.pause rfl hd.derives, hd.plain.word rfl⟩
  | noExpression => exact ⟨.noExpression, .nil⟩
  | noStatement => exact ⟨.noStatement, .nil⟩
  | moreExpressions _ _ ih ihm =>
    obtain ⟨hfirst, hmore⟩ := List.forall_mem_append.1 hs
    have hd := ih hfirst (hn.of_subset (by simp [Phrase.nodes]))
    have hm := ihm hmore (hn.of_subset (by simp [Phrase.nodes]))
    exact ⟨.moreExpressions hd.derives hm.derives, hd.plain.append hm.plain⟩
  | moreStatements _ _ ih ihm =>
    obtain ⟨hfirst, hmore⟩ := List.forall_mem_append.1 hs
    obtain ⟨dangling, hd⟩ := ih hfirst (hn.of_subset (by simp [Phrase.nodes]))
    have hm := ihm hmore (hn.of_subset (by simp [Phrase.nodes]))
    exact ⟨.moreStatements hd.derives hm.derives, hd.plain.append hm.plain⟩
  | bind _ hk _ _ ih =>
    simp only [List.forall_mem_cons] at hs
    obtain ⟨-, hname, -, hused⟩ := hs
    have hv := ih hused (hn.operands (by simp [Phrase.nodes, Node.operands]))
    exact ⟨false, @Derives.bind arities _ ⟨.identifier, _⟩ _ _ _ rfl rfl rfl hv.derives,
      ((hv.plain.word rfl).cons (hname.plain_name hk)).word rfl⟩
  | @print word value used hw _ ih =>
    obtain ⟨hword, hused⟩ := List.forall_mem_cons.1 hs
    have hspelled := hword.eq_spelled (by grind [Kind.spelling?])
    have hv := ih hused (hn.operands (by simp [Phrase.nodes, Node.operands]))
    have hexplicit : word.lexeme ≠ "implicit" := hword.lexeme_ne_implicit hw
    simp only [Phrase.Rewritten, Node.written, if_neg hexplicit, hspelled]
    exact ⟨false, .print hw hv.derives, hv.plain.cons (hword.plain (by grind))⟩
  | ifThen _ _ _ ihc ihb =>
    simp only [List.forall_mem_cons, List.forall_mem_append] at hs
    obtain ⟨-, hfirst, hsecond⟩ := hs
    have hc := ihc hfirst (hn.operands (by simp [Phrase.nodes, Node.operands]))
    have hb := ihb hsecond (hn.steps (by simp [Phrase.nodes, Node.steps]))
    exact ⟨true, .ifThen rfl hc.derives hb.body.derives, (hc.plain.append hb.body.plain).word rfl⟩
  | ifElse _ _ _ _ _ ihc ihb iho =>
    simp only [List.forall_mem_cons, List.forall_mem_append] at hs
    obtain ⟨-, hfirst, hsecond, -, hthird⟩ := hs
    have hc := ihc hfirst (hn.operands (by simp [Phrase.nodes, Node.operands]))
    have hb := ihb hsecond (hn.steps (by simp [Phrase.nodes, Node.steps]))
    have ho := iho hthird (hn.steps (by simp [Phrase.nodes, Node.steps]))
    exact ⟨false, .ifElse rfl hc.derives hb.body.derives rfl ho.body.derives,
      (hc.plain.append (hb.body.plain.append (ho.body.plain.word rfl))).word rfl⟩
  | whileLoop _ _ _ ihc ihb =>
    simp only [List.forall_mem_cons, List.forall_mem_append] at hs
    obtain ⟨-, hfirst, hsecond⟩ := hs
    have hc := ihc hfirst (hn.operands (by simp [Phrase.nodes, Node.operands]))
    have hb := ihb hsecond (hn.steps (by simp [Phrase.nodes, Node.steps]))
    exact ⟨false, .whileLoop rfl hc.derives hb.body.derives,
      (hc.plain.append hb.body.plain).word rfl⟩
  | forLoop _ hk _ _ _ _ ihl ihr ihb =>
    simp only [List.forall_mem_cons, List.forall_mem_append] at hs
    obtain ⟨-, hname, -, hfirst, hsecond, hthird⟩ := hs
    have hl := ihl hfirst (hn.operands (by simp [Phrase.nodes, Node.operands]))
    have hr := ihr hsecond (hn.operands (by simp [Phrase.nodes, Node.operands]))
    have hb := ihb hthird (hn.steps (by simp [Phrase.nodes, Node.steps]))
    have hplain := hl.plain.append (hr.plain.append hb.body.plain)
    exact ⟨false, @Derives.forLoop arities _ ⟨.identifier, _⟩ _ _ _ _ _ _ _ _ rfl rfl rfl
      hl.derives hr.derives hb.body.derives,
      ((hplain.word rfl).cons (hname.plain_name hk)).word rfl⟩
  | function _ hk _ _ _ _ ihp ihb =>
    simp only [List.forall_mem_cons, List.forall_mem_append] at hs
    obtain ⟨-, hname, -, hfirst, -, hsecond⟩ := hs
    have hp := ihp hfirst .nil
    have hb := ihb hsecond (hn.steps (by simp [Phrase.nodes, Node.steps]))
    have hclosed : Token.AllPlain (Kind.rightParen.token :: _) := hb.block.plain.word rfl
    have hplain := hp.plain.append hclosed
    exact ⟨false, @Derives.function arities _ ⟨.identifier, _⟩ _ _ _ _ _ _ rfl rfl rfl
      hp.derives rfl hb.block.derives,
      ((hplain.word rfl).cons (hname.plain_name hk)).word rfl⟩
  | ret _ _ ih =>
    have hused := (List.forall_mem_cons.1 hs).2
    have hv := ih hused (hn.operands (by simp [Phrase.nodes, Node.operands]))
    exact ⟨false, .ret rfl hv.derives, hv.plain.word rfl⟩
  | action _ ha ih =>
    have hd := ih hs hn
    exact ⟨false, .action hd.derives ha, hd.plain⟩
  | implicit _ ha ih =>
    have hd := ih hs (hn.operands (by simp [Phrase.nodes, Node.operands]))
    simp only [Phrase.Rewritten, Node.written]
    exact ⟨false, .implicit hd.derives ha, hd.plain⟩
  | block _ _ _ ih =>
    simp only [List.forall_mem_cons, List.forall_mem_append] at hs
    exact ih hs.2.1 hn
  | braces _ ih => exact ih hs hn
  | single _ ih =>
    obtain ⟨dangling, hd⟩ := ih hs hn
    exact ⟨.moreStatements hd.derives .noStatement, hd.plain.append .nil⟩
  | noParameter => exact ⟨.noParameter, .nil⟩
  | parameter hk _ ih =>
    obtain ⟨hname, hused⟩ := List.forall_mem_cons.1 hs
    exact .parameter (hname.plain_name hk) (ih hused .nil)
  | parameterComma hk _ _ ih =>
    simp only [List.forall_mem_cons] at hs
    obtain ⟨hname, -, hused⟩ := hs
    exact .parameter (hname.plain_name hk) (ih hused .nil)

end Rewritten

section Program
variable {front : List Token} {last : Token} {program : List Node}

/-- The written tokens of a program have the arities of the tokens it was parsed from. -/
theorem Derives.ofTokens_eq {arities others : Arities} {used : List Token}
    (h : Derives arities (.statements program) front)
    (h' : Derives others (.statements program) used) (hl : last.kind = .ending) :
    Arities.ofTokens (used ++ [last]) = Arities.ofTokens (front ++ [last]) :=
  Table.ext_find? fun name => (h'.find?_ofTokens hl name).trans (h.find?_ofTokens hl name).symm

end Program

/-- A program that was parsed is found again, from any directory and state, in its canonical source,
for which nothing is read. Each number in it has to be written as a numeral that stands for it. The
parser finds the program wherever it may go down deeply enough for the canonical source, and finds
nothing else elsewhere. -/
theorem program_found_again {directory source : String} {before after : Assembly}
    {tokens rest : List Token} {depth : Nat} {program : List Node} {numeral : Float → String}
    (ht : Assembly.tokens directory source before = .ok tokens after)
    (hp : Parse.tokens depth tokens = .ok program rest)
    (hn : ∀ x, Node.literal (.number x) ∈ Node.subnodesOf program →
      Decimal.isNumeral (numeral x).toList ∧ Decimal.numeralValue (numeral x).toList = x)
    (other : String) (fresh : Assembly) :
    ∃ written, Assembly.tokens other (Node.canonicalSource numeral program) fresh =
        .ok written fresh ∧
      (∃ enough, ∀ limit, enough ≤ limit →
        Parse.tokens limit written = .ok program [Token.ending]) ∧
      ∀ limit, Parse.tokens limit written = .ok program [Token.ending] ∨
        ∃ left, Parse.tokens limit written = .error .tooDeep left := by
  obtain ⟨front, rfl, hscanned⟩ := Assembly.exists_scanned_of_tokens ht
  have hf : ∀ token ∈ front, token.kind ≠ .ending := fun token hm =>
    (hscanned token hm).kind_ne_ending
  have hd := (Parse.derives_of_tokens_ok hf rfl hp).1
  have hnumerals : Node.Throughout (Node.HasNumeral numeral) program := by
    intro inner hi
    cases inner with
    | literal value =>
      cases value with
      | number x => exact hn x hi
      | _ => trivial
    | _ => trivial
  have hw : Phrase.Written _ (.statements program) (Node.writtenAll numeral program) :=
    hd.rewritten hscanned hnumerals
  have hderives : Derives (.ofTokens (Node.writtenAll numeral program ++ [Token.ending]))
      (.statements program) (Node.writtenAll numeral program) := by
    rw [hd.ofTokens_eq hw.derives rfl]
    exact hw.derives
  refine ⟨Node.writtenAll numeral program ++ [Token.ending], ?_,
    ⟨Parse.ample (Node.writtenAll numeral program), fun limit =>
      Parse.program_of_derives_of_ample rfl hderives⟩,
    fun limit => Parse.program_of_derives limit rfl hderives⟩
  exact Assembly.tokens_written (fun token hm => (hw.plain token hm).stands) hw.plain.isChain
      other fresh

/-- A comma, braces and an escape are added, and the double quotes become single ones. -/
theorem program_found_again_braces :
    let before : Assembly := ⟨.start ⟨.empty, [], fun _ => 0, 0, [], "/"⟩ true, .empty⟩
    let one : Node := .literal (.number (Decimal.numeralValue ['1']))
    let program : List Node :=
      [.function "f" ["a", "b"] [.ifThen (.lookup "a") [.print (.literal (.text "it's")) "say"]],
        .print (.call "f" [one, one]) "implicit"]
    ∃ tokens,
      Assembly.tokens "/" "function f(a b)\x7bif a say \"it's\"\x7d f 1 1" before =
        .ok tokens before ∧
      Parse.tokens 9 tokens = .ok program [.ending] ∧
      Node.canonicalSource (fun _ => "1") program =
        "function f ( a , b ) \x7b if a \x7b say 'it\\'s' \x7d \x7d f 1 1" ∧
      ∃ written,
        Assembly.tokens "/" "function f ( a , b ) \x7b if a \x7b say 'it\\'s' \x7d \x7d f 1 1"
          before = .ok written before ∧
        ∃ enough, ∀ limit, enough ≤ limit → Parse.tokens limit written = .ok program [.ending] := by
  intro before one program
  have hscan : Scan.ofText "function f(a b)\x7bif a say \"it's\"\x7d f 1 1".toList =
      ⟨[.token ⟨.functionWord, "function"⟩, .blank " ", .token ⟨.identifier, "f"⟩,
        .token ⟨.leftParen, "("⟩, .token ⟨.identifier, "a"⟩, .blank " ",
        .token ⟨.identifier, "b"⟩, .token ⟨.rightParen, ")"⟩, .token ⟨.leftBrace, "\x7b"⟩,
        .token ⟨.ifWord, "if"⟩, .blank " ", .token ⟨.identifier, "a"⟩, .blank " ",
        .token ⟨.sayWord, "say"⟩, .blank " ", .token ⟨.string, "\"it's\""⟩,
        .token ⟨.rightBrace, "\x7d"⟩, .blank " ", .token ⟨.identifier, "f"⟩, .blank " ",
        .token ⟨.number, "1"⟩, .blank " ", .token ⟨.number, "1"⟩], []⟩ := by cbv
  have hbound : Assembly.depthBound before.files = 0 + 1 := rfl
  have ht : Assembly.tokens "/" "function f(a b)\x7bif a say \"it's\"\x7d f 1 1" before =
      .ok ([⟨.functionWord, "function"⟩, ⟨.identifier, "f"⟩, ⟨.leftParen, "("⟩,
        ⟨.identifier, "a"⟩, ⟨.identifier, "b"⟩, ⟨.rightParen, ")"⟩, ⟨.leftBrace, "\x7b"⟩,
        ⟨.ifWord, "if"⟩, ⟨.identifier, "a"⟩, ⟨.sayWord, "say"⟩, ⟨.string, "\"it's\""⟩,
        ⟨.rightBrace, "\x7d"⟩, ⟨.identifier, "f"⟩, ⟨.number, "1"⟩, ⟨.number, "1"⟩, .ending])
        before := by
    rw [Assembly.tokens_eq hbound, Assembly.gather, hscan]
    rfl
  have hp : Parse.tokens 9 [⟨.functionWord, "function"⟩, ⟨.identifier, "f"⟩, ⟨.leftParen, "("⟩,
        ⟨.identifier, "a"⟩, ⟨.identifier, "b"⟩, ⟨.rightParen, ")"⟩, ⟨.leftBrace, "\x7b"⟩,
        ⟨.ifWord, "if"⟩, ⟨.identifier, "a"⟩, ⟨.sayWord, "say"⟩, ⟨.string, "\"it's\""⟩,
        ⟨.rightBrace, "\x7d"⟩, ⟨.identifier, "f"⟩, ⟨.number, "1"⟩, ⟨.number, "1"⟩, .ending] =
      .ok program [.ending] := rfl
  have hn : ∀ x, Node.literal (.number x) ∈ Node.subnodesOf program →
      Decimal.isNumeral "1".toList ∧ Decimal.numeralValue "1".toList = x := by
    intro x hx
    have hx : x = Decimal.numeralValue ['1'] := by
      simpa [program, one, Node.subnodesOf, Node.subnodes] using hx
    exact ⟨by decide, hx.symm⟩
  have hwritten : Node.canonicalSource (fun _ => "1") program =
      "function f ( a , b ) \x7b if a \x7b say 'it\\'s' \x7d \x7d f 1 1" := rfl
  have hagain := program_found_again ht hp hn "/" before
  rw [hwritten] at hagain
  obtain ⟨written, hscanned, hfound, -⟩ := hagain
  exact ⟨_, ht, hp, hwritten, written, hscanned, hfound⟩

/-! ## Braces are one more level -/

section Nested

/-- So many conditional statements, one inside the other. -/
def Node.nestedIfs : (count : Nat) → Node
  | 0 => .wipe
  | count + 1 => .ifThen (.literal (.number (Decimal.numeralValue ['0']))) [nestedIfs count]

/-- The tokens of nested conditional statements without braces. -/
def Token.bareIfs : (count : Nat) → List Token
  | 0 => [Kind.wipe.token]
  | count + 1 => Kind.ifWord.token :: ⟨.number, "0"⟩ :: bareIfs count

theorem Token.plain_zero : Token.Plain ⟨.number, "0"⟩ := plain_number (by decide)

theorem Token.allPlain_bareIfs (count : Nat) : AllPlain (bareIfs count) := by
  induction count with
  | zero => exact .word .nil rfl
  | succ count ih => exact (ih.cons plain_zero).word rfl

theorem Token.allPlain_nestedIfs (count : Nat) :
    AllPlain ((Node.nestedIfs count).written fun _ => "0") := by
  induction count with
  | zero => exact .word .nil rfl
  | succ count ih =>
    have hbraced : AllPlain (Node.braced (((Node.nestedIfs count).written fun _ => "0") ++ [])) :=
      ((ih.append .nil).append (.word .nil rfl)).word rfl
    exact (hbraced.cons plain_zero).word rfl

theorem Node.hasNumeral_nestedIfs (count : Nat) :
    Throughout (HasNumeral fun _ => "0") [nestedIfs count] := by
  induction count with
  | zero => exact .node trivial rfl .nil
  | succ count ih =>
    have hzero : HasNumeral (fun _ => "0") (.literal (.number (Decimal.numeralValue ['0']))) :=
      ⟨by decide, rfl⟩
    exact .node trivial rfl (.append (.node hzero rfl .nil) ih)

namespace Parse
variable {arities : Arities} {rest : List Token}

theorem expression_zero (depth : Nat) :
    expression arities (depth + 1) (⟨.number, "0"⟩ :: rest) =
      .ok (.literal (.number (Decimal.numeralValue ['0']))) rest :=
  expression_number rfl (by rfl)

theorem conditional_zero (rounds depth : Nat) :
    conditional arities rounds (depth + 2) (Kind.ifWord.token :: ⟨.number, "0"⟩ :: rest) =
      (do
        let first ← body arities rounds (depth + 1)
        let next ← peek
        if next.kind = .elseWord then
          advance
          let second ← body arities rounds (depth + 1)
          return .ifElse (.literal (.number (Decimal.numeralValue ['0']))) first second
        else return .ifThen (.literal (.number (Decimal.numeralValue ['0']))) first :
        ParseM Node) rest := by
  have hword : consume .ifWord (Kind.ifWord.token :: ⟨.number, "0"⟩ :: rest) =
      .ok Kind.ifWord.token (⟨.number, "0"⟩ :: rest) := consume_of_kind rfl
  rw [conditional, bind_of_ok hword, bind_of_ok (expression_zero depth)]

theorem body_alone {token : Token} (rounds depth : Nat) (hk : token.kind ≠ .leftBrace) :
    body arities rounds (depth + 1) (token :: rest) =
      (do
        let only ← statement arities rounds depth
        return [only] : ParseM (List Node)) (token :: rest) := by
  change (if token.kind = .leftBrace then block arities rounds depth else _ : ParseM (List Node)) _
    = _
  rw [if_neg hk]

theorem body_of_error {token : Token} {failure : Failure} {left : List Token}
    {rounds depth : Nat} (hk : token.kind ≠ .rightBrace)
    (h : statement arities (rounds + 1) depth (token :: rest) = .error failure left) :
    body arities (rounds + 1) (depth + 2) (Kind.leftBrace.token :: token :: rest) =
      .error failure left := by
  have hbrace : consume .leftBrace (Kind.leftBrace.token :: token :: rest) =
      .ok Kind.leftBrace.token (token :: rest) := consume_of_kind rfl
  change block arities (rounds + 1) (depth + 1) (Kind.leftBrace.token :: token :: rest) = _
  rw [block, bind_of_ok hbrace, bind_of_error (upTo_of_error hk h)]

/-- Each statement without braces takes three levels. -/
theorem statement_bareIfs (rounds spare count : Nat) :
    statement arities rounds (3 * count + (spare + 2)) (Token.bareIfs count ++ [.ending]) =
      .ok (.nestedIfs count) [.ending] := by
  induction count with
  | zero => rw [Nat.mul_zero, Nat.zero_add]; rfl
  | succ count ih =>
    have hbody : body arities rounds (3 * count + (spare + 2) + 1)
        (Token.bareIfs count ++ [.ending]) = .ok [.nestedIfs count] [.ending] := by
      cases count with
      | zero => exact (body_alone rounds _ (by decide)).trans (bind_of_ok ih)
      | succ count => exact (body_alone rounds _ (by decide)).trans (bind_of_ok ih)
    have hdepth : 3 * (count + 1) + (spare + 2) = 3 * count + (spare + 2) + 3 := by omega
    rw [hdepth]
    change statement arities rounds (3 * count + (spare + 2) + 3)
      (Kind.ifWord.token :: ⟨.number, "0"⟩ :: (Token.bareIfs count ++ [.ending])) = _
    rw [statement_if rfl, conditional_zero, bind_of_ok hbody]
    rfl

theorem tokens_bareIfs (spare count : Nat) :
    tokens (3 * count + (spare + 2)) (Token.bareIfs count ++ [.ending]) =
      .ok [.nestedIfs count] [.ending] := by
  cases count with
  | zero =>
    exact @program_of_statement _ _ .ending Kind.wipe.token [] _ (by decide) rfl
      fun rounds => statement_bareIfs rounds spare 0
  | succ count =>
    exact @program_of_statement _ _ .ending Kind.ifWord.token
      (⟨.number, "0"⟩ :: Token.bareIfs count) _ (by decide) rfl
      fun rounds => statement_bareIfs rounds spare (count + 1)

/-- Each statement in braces takes four. -/
theorem statement_nestedIfs (rounds depth count : Nat) (h : depth ≤ 4 * count) :
    ∃ left, statement arities (rounds + 1) depth
      (((Node.nestedIfs count).written fun _ => "0") ++ rest) = .error .tooDeep left := by
  induction count generalizing depth rest with
  | zero =>
    obtain rfl : depth = 0 := by omega
    exact ⟨_, rfl⟩
  | succ count ih =>
    match depth, h with
    | 0, _ => exact ⟨_, rfl⟩
    | 1, _ => exact ⟨_, rfl⟩
    | 2, _ => exact ⟨_, rfl⟩
    | 3, _ => exact ⟨_, rfl⟩
    | depth + 4, h =>
      have htokens : ((Node.nestedIfs (count + 1)).written fun _ => "0") ++ rest =
          Kind.ifWord.token :: ⟨.number, "0"⟩ :: Kind.leftBrace.token ::
            (((Node.nestedIfs count).written fun _ => "0") ++ (Kind.rightBrace.token :: rest)) := by
        simp [Node.nestedIfs, Node.written, Node.writtenAll, Node.braced]
      obtain ⟨left, hinner⟩ := @ih (Kind.rightBrace.token :: rest) depth (by omega)
      have hbody : body arities (rounds + 1) (depth + 2) (Kind.leftBrace.token ::
          (((Node.nestedIfs count).written fun _ => "0") ++ (Kind.rightBrace.token :: rest))) =
          .error .tooDeep left := by
        cases count with
        | zero => exact body_of_error (by decide) hinner
        | succ count => exact body_of_error (by decide) hinner
      rw [htokens, statement_if rfl, conditional_zero, bind_of_error hbody]
      exact ⟨left, rfl⟩

theorem tokens_nestedIfs (depth count : Nat) (h : depth ≤ 4 * count) :
    ∃ left, tokens depth (((Node.nestedIfs count).written fun _ => "0") ++ [.ending]) =
      .error .tooDeep left := by
  obtain ⟨left, hstatement⟩ := @statement_nestedIfs
    (.ofTokens (((Node.nestedIfs count).written fun _ => "0") ++ [.ending])) [.ending]
    ((Node.nestedIfs count).written fun _ => "0").length depth count h
  have hlength : (((Node.nestedIfs count).written fun _ => "0") ++ [Token.ending]).length =
      ((Node.nestedIfs count).written fun _ => "0").length + 1 := by simp
  refine ⟨left, ?_⟩
  rw [tokens, program, hlength]
  cases count with
  | zero => exact upTo_of_error (by decide) hstatement
  | succ count => exact upTo_of_error (by decide) hstatement

end Parse

/-- The conditional statements can be nested so deeply without braces, but not with them. -/
theorem nestedIfs_not_found_again :
    let before : Assembly := ⟨.start ⟨.empty, [], fun _ => 0, 0, [], "/"⟩ true, .empty⟩
    ∃ tokens written left,
      Assembly.tokens "/" (Token.written (Token.bareIfs 4900)) before = .ok tokens before ∧
      Parse.tokens Limits.standard.nesting tokens = .ok [.nestedIfs 4900] [.ending] ∧
      (∀ x, Node.literal (.number x) ∈ Node.subnodesOf [Node.nestedIfs 4900] →
        Decimal.isNumeral "0".toList ∧ Decimal.numeralValue "0".toList = x) ∧
      Assembly.tokens "/" (Node.canonicalSource (fun _ => "0") [Node.nestedIfs 4900]) before =
        .ok written before ∧
      Parse.tokens Limits.standard.nesting written = .error .tooDeep left := by
  intro before
  have hbare : Assembly.tokens "/" (Token.written (Token.bareIfs 4900)) before =
      .ok (Token.bareIfs 4900 ++ [.ending]) before :=
    Assembly.tokens_written (fun token hm => (Token.allPlain_bareIfs 4900 token hm).stands)
      (Token.allPlain_bareIfs 4900).isChain "/" before
  have hplain : Token.AllPlain (Node.writtenAll (fun _ => "0") [Node.nestedIfs 4900]) :=
    (Token.allPlain_nestedIfs 4900).append .nil
  have hwritten := Assembly.tokens_written (fun token hm => (hplain token hm).stands) hplain.isChain
    "/" before
  have hparsed : Parse.tokens Limits.standard.nesting (Token.bareIfs 4900 ++ [.ending]) =
      .ok [.nestedIfs 4900] [.ending] := Parse.tokens_bareIfs 298 4900
  obtain ⟨left, hdeep⟩ := Parse.tokens_nestedIfs Limits.standard.nesting 4900 (by decide)
  have hlist : Node.writtenAll (fun _ => "0") [Node.nestedIfs 4900] ++ [Token.ending] =
      ((Node.nestedIfs 4900).written fun _ => "0") ++ [.ending] := by
    rw [Node.writtenAll, Node.writtenAll, List.append_nil]
  rw [← hlist] at hdeep
  refine ⟨_, _, left, hbare, hparsed, fun x hx => ?_, hwritten, hdeep⟩
  exact Node.hasNumeral_nestedIfs 4900 _ hx

end Nested

end PrefixScript
