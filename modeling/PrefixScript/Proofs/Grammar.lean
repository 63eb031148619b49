import PrefixScript.Node.Parse

/-!
# The grammar

The phrases of the language and the token sequences they are written as, given the arities of the
functions. Every construct is known by its first token. An `if` without an `else` that stands at the
end of a phrase leaves the phrase dangling, and an `else` never follows a dangling phrase: it
belongs to the nearest `if`.
-/
namespace PrefixScript

namespace Kind

/-- The builtins with one operand. -/
def unaries : List Kind := [sqrt, random, reverse, len]

def comparisons : List Kind := [equal, notEqual]

def maths : List Kind := [plus, minus, times, divide]

/-- The words that print a value. -/
def prints : List Kind := [printWord, sayWord]

@[simp, grind =] theorem mem_unaries {kind : Kind} :
    kind ∈ unaries ↔ kind = sqrt ∨ kind = random ∨ kind = reverse ∨ kind = len := by
  simp [unaries]

@[simp, grind =] theorem mem_comparisons {kind : Kind} :
    kind ∈ comparisons ↔ kind = equal ∨ kind = notEqual := by
  simp [comparisons]

@[simp, grind =] theorem mem_maths {kind : Kind} :
    kind ∈ maths ↔ kind = plus ∨ kind = minus ∨ kind = times ∨ kind = divide := by
  simp [maths]

@[simp, grind =] theorem mem_prints {kind : Kind} :
    kind ∈ prints ↔ kind = printWord ∨ kind = sayWord := by
  simp [prints]

/-- The kinds of the tokens that start an expression. -/
def opensExpression (kind : Kind) : Bool :=
  kind ∈ unaries ++ comparisons ++ maths ++ [identifier, number, string, read, pause, wipe]

/-- The words that only start a statement. -/
def opensOther (kind : Kind) : Bool :=
  kind ∈ prints ++ [letWord, ifWord, whileWord, forWord, functionWord, returnWord]

theorem opensExpression_cases {kind : Kind} (h : kind.opensExpression = true) :
    kind ∈ unaries ∨ kind ∈ comparisons ∨ kind ∈ maths ∨ kind = identifier ∨ kind = number ∨
      kind = string ∨ kind = read ∨ kind = pause ∨ kind = wipe := by
  simpa only [opensExpression, decide_eq_true_eq, List.mem_append, List.mem_cons,
    List.not_mem_nil, or_false, or_assoc] using h

theorem opensOther_cases {kind : Kind} (h : kind.opensOther = true) :
    kind ∈ prints ∨ kind = letWord ∨ kind = ifWord ∨ kind = whileWord ∨ kind = forWord ∨
      kind = functionWord ∨ kind = returnWord := by
  simpa only [opensOther, decide_eq_true_eq, List.mem_append, List.mem_cons,
    List.not_mem_nil, or_false, or_assoc] using h

/-- No word that starts an expression starts another statement. -/
theorem not_opensOther {kind : Kind} (h : kind.opensExpression = true) :
    kind.opensOther = false := by
  cases kind with
  | _ => first | rfl | cases h

end Kind

/-- Pauses and wipes may stand alone as statements. -/
def Node.isAction : Node → Bool
  | pause _ | wipe => true
  | _ => false

/-- The phrases of the language, with the trees that they stand for. Statements and bodies also say
whether they are dangling. -/
inductive Phrase where
  | expression (node : Node)
  | expressions (nodes : List Node)
  | statement (dangling : Bool) (node : Node)
  | statements (nodes : List Node)
  | block (nodes : List Node)
  | body (dangling : Bool) (nodes : List Node)
  | parameters (names : List String)

/-- A token sequence is written as the grammar says. -/
inductive Derives (arities : Arities) : Phrase → List Token → Prop
  | unary {token operand used} (hk : token.kind ∈ Kind.unaries)
    (h : Derives arities (.expression operand) used) :
    Derives arities (.expression (.unary token.lexeme operand)) (token :: used)
  | comparison {token left right first second} (hk : token.kind ∈ Kind.comparisons)
    (hl : Derives arities (.expression left) first)
    (hr : Derives arities (.expression right) second) :
    Derives arities (.expression (.comparison token.lexeme left right)) (token :: (first ++ second))
  | math {token left right first second} (hk : token.kind ∈ Kind.maths)
    (hl : Derives arities (.expression left) first)
    (hr : Derives arities (.expression right) second) :
    Derives arities (.expression (.math token.lexeme left right)) (token :: (first ++ second))
  | call {token args used} (hk : token.kind = .identifier)
    (ha : arities.find? token.lexeme = some args.length)
    (h : Derives arities (.expressions args) used) :
    Derives arities (.expression (.call token.lexeme args)) (token :: used)
  | lookup {token} (hk : token.kind = .identifier) (ha : arities.find? token.lexeme = none) :
    Derives arities (.expression (.lookup token.lexeme)) [token]
  | number {token value} (hk : token.kind = .number)
    (hv : Decimal.writtenValue? token.lexeme.toList = some value) :
    Derives arities (.expression (.literal (.number value))) [token]
  | string {token} (hk : token.kind = .string) :
    Derives arities (.expression (.literal (.text (Parse.literalText token.lexeme)))) [token]
  | read {token} (hk : token.kind = .read) : Derives arities (.expression .read) [token]
  | pause {token delay used} (hk : token.kind = .pause)
    (h : Derives arities (.expression delay) used) :
    Derives arities (.expression (.pause delay)) (token :: used)
  | wipe {token} (hk : token.kind = .wipe) : Derives arities (.expression .wipe) [token]
  | noExpression : Derives arities (.expressions []) []
  | moreExpressions {node nodes first more} (h : Derives arities (.expression node) first)
    (hm : Derives arities (.expressions nodes) more) :
    Derives arities (.expressions (node :: nodes)) (first ++ more)
  | bind {word name sign value used} (hw : word.kind = .letWord) (hn : name.kind = .identifier)
    (hs : sign.kind = .assign) (h : Derives arities (.expression value) used) :
    Derives arities (.statement false (.bind name.lexeme value)) (word :: name :: sign :: used)
  | print {word value used} (hw : word.kind ∈ Kind.prints)
    (h : Derives arities (.expression value) used) :
    Derives arities (.statement false (.print value word.lexeme)) (word :: used)
  | ifThen {word cond body dangling first second} (hw : word.kind = .ifWord)
    (hc : Derives arities (.expression cond) first)
    (hb : Derives arities (.body dangling body) second) :
    Derives arities (.statement true (.ifThen cond body)) (word :: (first ++ second))
  | ifElse {word cond body mark other dangling first second third} (hw : word.kind = .ifWord)
    (hc : Derives arities (.expression cond) first)
    (hb : Derives arities (.body false body) second) (hm : mark.kind = .elseWord)
    (ho : Derives arities (.body dangling other) third) :
    Derives arities (.statement dangling (.ifElse cond body other))
      (word :: (first ++ (second ++ mark :: third)))
  | whileLoop {word cond body dangling first second} (hw : word.kind = .whileWord)
    (hc : Derives arities (.expression cond) first)
    (hb : Derives arities (.body dangling body) second) :
    Derives arities (.statement dangling (.whileLoop cond body)) (word :: (first ++ second))
  | forLoop {word name sign start stop body dangling first second third}
    (hw : word.kind = .forWord) (hn : name.kind = .identifier) (hs : sign.kind = .assign)
    (hl : Derives arities (.expression start) first)
    (hr : Derives arities (.expression stop) second)
    (hb : Derives arities (.body dangling body) third) :
    Derives arities (.statement dangling (.forLoop name.lexeme start stop body))
      (word :: name :: sign :: (first ++ (second ++ third)))
  | function {word name left params right body first second} (hw : word.kind = .functionWord)
    (hn : name.kind = .identifier) (hl : left.kind = .leftParen)
    (hp : Derives arities (.parameters params) first) (hr : right.kind = .rightParen)
    (hb : Derives arities (.block body) second) :
    Derives arities (.statement false (.function name.lexeme params body))
      (word :: name :: left :: (first ++ right :: second))
  | ret {word value used} (hw : word.kind = .returnWord)
    (h : Derives arities (.expression value) used) :
    Derives arities (.statement false (.ret value)) (word :: used)
  | action {node used} (h : Derives arities (.expression node) used) (ha : node.isAction = true) :
    Derives arities (.statement false node) used
  | implicit {node used} (h : Derives arities (.expression node) used)
    (ha : node.isAction = false) :
    Derives arities (.statement false (.print node "implicit")) used
  | noStatement : Derives arities (.statements []) []
  | moreStatements {node nodes dangling first more}
    (h : Derives arities (.statement dangling node) first)
    (hm : Derives arities (.statements nodes) more) :
    Derives arities (.statements (node :: nodes)) (first ++ more)
  | block {left nodes right used} (hl : left.kind = .leftBrace)
    (h : Derives arities (.statements nodes) used) (hr : right.kind = .rightBrace) :
    Derives arities (.block nodes) (left :: (used ++ [right]))
  | braces {nodes used} (h : Derives arities (.block nodes) used) :
    Derives arities (.body false nodes) used
  | single {node dangling used} (h : Derives arities (.statement dangling node) used) :
    Derives arities (.body dangling [node]) used
  | noParameter : Derives arities (.parameters []) []
  | parameter {name names used} (hn : name.kind = .identifier)
    (h : Derives arities (.parameters names) used) :
    Derives arities (.parameters (name.lexeme :: names)) (name :: used)
  | parameterComma {name comma names used} (hn : name.kind = .identifier)
    (hc : comma.kind = .comma) (h : Derives arities (.parameters names) used) :
    Derives arities (.parameters (name.lexeme :: names)) (name :: comma :: used)

section
variable {arities : Arities} {phrase : Phrase} {used : List Token}

/-- How the tokens of a phrase begin, where the phrase has a first token. -/
def Phrase.Opens : Phrase → List Token → Prop
  | .expression _, used => ∃ token rest, used = token :: rest ∧ token.kind.opensExpression
  | .statement _ _, used =>
    ∃ token rest, used = token :: rest ∧ (token.kind.opensExpression ∨ token.kind.opensOther)
  | .block _, used => ∃ token rest, used = token :: rest ∧ token.kind = .leftBrace
  | _, _ => True

theorem Derives.opens (h : Derives arities phrase used) : phrase.Opens used := by
  induction h with
  | unary hk | comparison hk | math hk =>
    refine ⟨_, _, rfl, ?_⟩
    simp only [Kind.opensExpression, List.mem_append, decide_eq_true_eq]
    simp [hk]
  | call hk | lookup hk | number hk | string hk | read hk | pause hk | wipe hk =>
    refine ⟨_, _, rfl, ?_⟩
    rw [hk]
    rfl
  | print hw =>
    refine ⟨_, _, rfl, .inr ?_⟩
    simp only [Kind.opensOther, List.mem_append, decide_eq_true_eq]
    exact .inl hw
  | bind hw | ifThen hw | ifElse hw | whileLoop hw | forLoop hw | function hw | ret hw =>
    refine ⟨_, _, rfl, .inr ?_⟩
    rw [hw]
    rfl
  | action h ha ih | implicit h ha ih =>
    obtain ⟨token, rest, he, hk⟩ := ih
    exact ⟨token, rest, he, .inl hk⟩
  | block hl => exact ⟨_, _, rfl, hl⟩
  | _ => trivial

/-- Which expressions may stand alone is known from the first token. -/
theorem Derives.isAction_eq {node : Node} {token : Token}
    (h : Derives arities (.expression node) (token :: used)) :
    node.isAction = decide (token.kind = .pause ∨ token.kind = .wipe) := by
  cases h with
  | unary hk | math hk =>
    simp only [Kind.mem_unaries, Kind.mem_maths] at hk
    rcases hk with hk | hk | hk | hk <;> simp [Node.isAction, hk]
  | comparison hk =>
    rcases Kind.mem_comparisons.1 hk with hk | hk <;> simp [Node.isAction, hk]
  | call hk | lookup hk | number hk | string hk | read hk | pause hk | wipe hk =>
    simp [Node.isAction, hk]

end

end PrefixScript
