import PrefixScript.Proofs.GrammarSoundness
import PrefixScript.Proofs.Subnodes

/-!
# The search for arities and the parser agree

The arities are found by a search through the tokens that knows nothing of the grammar. On the
tokens of a phrase the search comes back to where it started and has entered exactly the functions
that the tree declares, in textual order. So the arities of an accepted program are those of its
declarations, and its calls and look-ups fit them.
-/
namespace PrefixScript

namespace Node

theorem declarations_append (first second : List Node) :
    declarations (first ++ second) = declarations first ++ declarations second := by
  simp [declarations]

/-- What a node declares itself, and then what its children declare. -/
theorem declarations_singleton (node : Node) :
    declarations [node] =
      node.declaration?.toList ++ declarations (node.operands ++ node.steps) := by
  rw [declarations, subnodesOf, subnodesOf, List.append_nil, subnodes_eq]
  cases h : node.declaration? <;> simp [h, declarations]

end Node

namespace Arities

/-- Enters the arities of some functions, the later ones over the earlier ones. -/
def declare (table : Arities) (found : List (String × Declaration)) : Arities :=
  found.foldl (fun table entry => table.insert entry.1 entry.2.params.length) table

theorem declare_append (table : Arities) (first second : List (String × Declaration)) :
    declare table (first ++ second) = declare (declare table first) second := by
  simp only [declare, List.foldl_append]

/-- Of several functions of one name the last one counts. -/
theorem find?_declare (table : Arities) (found : List (String × Declaration)) (name : String) :
    (declare table found).find? name =
      ((found.reverse.find? (·.1 = name)).map (·.2.params.length)).or (table.find? name) := by
  induction found generalizing table with
  | nil => simp [declare]
  | cons entry rest ih =>
    change (declare (table.insert entry.1 entry.2.params.length) rest).find? name = _
    rw [ih, Table.find?_insert, List.reverse_cons, List.find?_append]
    cases rest.reverse.find? (·.1 = name) with
    | some later => simp
    | none =>
      by_cases h : name = entry.1
      · simp [h]
      · have h' : ¬ entry.1 = name := fun he => h he.symm
        simp [h, h']

/-- Away from declarations the search only waits for the word that starts one. -/
theorem step_idle {token : Token} (table : Arities) (hk : token.kind ≠ .functionWord) :
    step (.idle, table) token = (.idle, table) := by
  simp [step, hk]

end Arities

/-- The trees of a phrase. -/
def Phrase.nodes : Phrase → List Node
  | .expression node => [node]
  | .expressions nodes => nodes
  | .statement _ node => [node]
  | .statements nodes => nodes
  | .block nodes => nodes
  | .body _ nodes => nodes
  | .parameters _ => []

namespace Arities
variable {used first second : List Token} {nodes before after : List Node} {token : Token}

/-- The search comes through some tokens and enters what some trees declare. -/
def Finds (used : List Token) (nodes : List Node) : Prop :=
  ∀ table : Arities,
    used.foldl step (.idle, table) = (.idle, table.declare (Node.declarations nodes))

theorem Finds.nil : Finds [] [] := fun _ => rfl

theorem Finds.cons (hk : token.kind ≠ .functionWord) (h : Finds used nodes) :
    Finds (token :: used) nodes := by
  intro table
  rw [List.foldl_cons, step_idle table hk, h]

theorem Finds.append (h : Finds first before) (k : Finds second after) :
    Finds (first ++ second) (before ++ after) := by
  intro table
  rw [List.foldl_append, h, k, Node.declarations_append, declare_append]

/-- A node that declares nothing itself adds nothing to what its children declare. -/
theorem Finds.node {node : Node} (hd : node.declaration? = none)
    (hn : node.operands ++ node.steps = nodes) (h : Finds used nodes) : Finds used [node] := by
  intro table
  rw [h, Node.declarations_singleton, hd, hn]
  rfl

/-- The search counts some tokens as parameters. -/
def Counts (used : List Token) (names : List String) : Prop :=
  ∀ name count table, used.foldl step (.counting name count, table) =
    (.counting name (count + names.length), table)

theorem step_counting_identifier (name : String) (count : Nat) (table : Arities)
    (hk : token.kind = .identifier) :
    step (.counting name count, table) token = (.counting name (count + 1), table) := by
  simp [step, hk]

theorem step_counting_comma (name : String) (count : Nat) (table : Arities)
    (hk : token.kind = .comma) :
    step (.counting name count, table) token = (.counting name count, table) := by
  simp [step, hk]

theorem Counts.parameter {names : List String} {lexeme : String} (hk : token.kind = .identifier)
    (h : Counts used names) : Counts (token :: used) (lexeme :: names) := by
  intro name count table
  rw [List.foldl_cons, step_counting_identifier name count table hk, h, List.length_cons]
  simp only [Prod.mk.injEq, Progress.counting.injEq, and_true, true_and]
  omega

theorem Counts.comma {names : List String} (hk : token.kind = .comma) {name : Token}
    (h : Counts (name :: used) names) (hn : name.kind = .identifier) :
    Counts (name :: token :: used) names := by
  intro name count table
  have hs := h name count table
  rw [List.foldl_cons, step_counting_identifier _ _ _ hn] at hs
  rw [List.foldl_cons, step_counting_identifier _ _ _ hn, List.foldl_cons,
    step_counting_comma _ _ _ hk, hs]

/-- A heading enters the function that it names, before those that its block declares. -/
theorem Finds.function {word name left right : Token} {params : List String}
    (hw : word.kind = .functionWord) (hn : name.kind = .identifier) (hl : left.kind = .leftParen)
    (hp : Counts first params) (hr : right.kind = .rightParen) (hb : Finds second nodes) :
    Finds (word :: name :: left :: (first ++ right :: second))
      [.function name.lexeme params nodes] := by
  intro table
  have hword : step (.idle, table) word = (.started, table) := by simp [step, hw]
  have hname : step (.started, table) name = (.named name.lexeme, table) := by simp [step, hn]
  have hleft : step (.named name.lexeme, table) left = (.counting name.lexeme 0, table) := by
    simp [step, hl]
  have hright : step (.counting name.lexeme params.length, table) right =
      (.idle, table.insert name.lexeme params.length) := by
    simp [step, hr]
  rw [List.foldl_cons, hword, List.foldl_cons, hname, List.foldl_cons, hleft, List.foldl_append,
    hp, Nat.zero_add, List.foldl_cons, hright, hb, Node.declarations_singleton, declare_append]
  rfl

end Arities

/-- What the search makes of the tokens of a phrase. Parameters are counted; all other phrases are
searched for declarations. -/
def Phrase.Searched : Phrase → List Token → Prop
  | .parameters names, used => Arities.Counts used names
  | phrase, used => Arities.Finds used phrase.nodes

/-- The induction follows the derivation: the tokens between the parts of a phrase leave the search
where it is, and only the heading of a function makes it enter something. -/
theorem Derives.searched {arities : Arities} {phrase : Phrase} {used : List Token}
    (h : Derives arities phrase used) : phrase.Searched used := by
  induction h with
  | unary hk _ ih => exact .node rfl rfl (.cons (by grind) ih)
  | comparison hk _ _ ihl ihr | math hk _ _ ihl ihr =>
    exact .node rfl rfl (.cons (by grind) (ihl.append ihr))
  | call hk _ _ ih => exact .node rfl (List.append_nil _) (.cons (by simp [hk]) ih)
  | lookup hk _ | number hk _ | string hk | read hk | wipe hk =>
    exact .node rfl rfl (.cons (by simp [hk]) .nil)
  | pause hk _ ih => exact .node rfl rfl (.cons (by simp [hk]) ih)
  | noExpression | noStatement => exact .nil
  | moreExpressions _ _ ih ihm | moreStatements _ _ ih ihm => exact ih.append ihm
  | bind hw hn hs _ ih =>
    exact .node rfl rfl (.cons (by simp [hw]) (.cons (by simp [hn]) (.cons (by simp [hs]) ih)))
  | print hw _ ih => exact .node rfl rfl (.cons (by grind) ih)
  | ifThen hw _ _ ihc ihb | whileLoop hw _ _ ihc ihb =>
    exact .node rfl rfl (.cons (by simp [hw]) (ihc.append ihb))
  | ifElse hw _ _ hm _ ihc ihb iho =>
    exact .node rfl rfl (.cons (by simp [hw]) (ihc.append (ihb.append (.cons (by simp [hm]) iho))))
  | forLoop hw hn hs _ _ _ ihl ihr ihb =>
    refine .node rfl rfl (.cons (by simp [hw]) (.cons (by simp [hn]) (.cons (by simp [hs]) ?_)))
    exact ihl.append (ihr.append ihb)
  | function hw hn hl _ hr _ ihp ihb => exact .function hw hn hl ihp hr ihb
  | ret hw _ ih => exact .node rfl rfl (.cons (by simp [hw]) ih)
  | action _ _ ih => exact ih
  | implicit _ _ ih => exact .node rfl rfl ih
  | @block left nodes right used hl _ hr ih =>
    have hlast : Arities.Finds [right] [] := .cons (by simp [hr]) .nil
    have hall : Arities.Finds (used ++ [right]) (nodes ++ []) := ih.append hlast
    rw [List.append_nil] at hall
    exact .cons (by simp [hl]) hall
  | braces _ ih | single _ ih => exact ih
  | noParameter => exact fun _ _ _ => rfl
  | parameter hn _ ih => exact ih.parameter hn
  | parameterComma hn hc _ ih => exact (ih.parameter hn).comma hc hn

namespace Node

/-- A call has as many arguments as its function has parameters, and a look-up names no function. -/
def Fits (arities : Arities) : Node → Prop
  | call name args => arities.find? name = some args.length
  | lookup name => arities.find? name = none
  | _ => True

/-- All nodes of some trees fit. -/
def AllFit (arities : Arities) (nodes : List Node) : Prop :=
  ∀ inner ∈ subnodesOf nodes, inner.Fits arities

variable {arities : Arities}

theorem AllFit.nil : AllFit arities [] := by simp [AllFit, subnodesOf]

theorem AllFit.append {first second : List Node} (h : AllFit arities first)
    (k : AllFit arities second) : AllFit arities (first ++ second) := by
  intro inner hi
  rw [subnodesOf_append, List.mem_append] at hi
  exact hi.elim (h inner) (k inner)

theorem AllFit.node {node : Node} {nodes : List Node} (hf : node.Fits arities)
    (hn : node.operands ++ node.steps = nodes) (h : AllFit arities nodes) :
    AllFit arities [node] := by
  intro inner hi
  rw [subnodesOf, subnodesOf, List.append_nil, subnodes_eq, hn, List.mem_cons] at hi
  rcases hi with rfl | hi
  · exact hf
  · exact h inner hi

/-- The last declaration of a name is missing only where there is none at all. -/
theorem lastDeclared?_eq_none {nodes : List Node} {name : String} :
    lastDeclared? nodes name = none ↔
      ∀ params body, function name params body ∉ subnodesOf nodes := by
  have hmem : lastDeclared? nodes name = none ↔ ∀ found, (name, found) ∉ declarations nodes := by
    simp only [lastDeclared?, Option.map_eq_none_iff, List.find?_eq_none, List.mem_reverse,
      decide_eq_true_eq, Prod.forall]
    constructor
    · intro h found hm
      exact h name found hm rfl
    · rintro h _ found hm rfl
      exact h found hm
  rw [hmem]
  constructor
  · intro h params body hf
    exact h ⟨params, body⟩ (mem_declarations.2 hf)
  · intro h found hm
    exact h found.params found.body (mem_declarations.1 hm)

end Node

/-- Calls and look-ups are told apart by the arities, so in a derived phrase they fit. -/
theorem Derives.allFit {arities : Arities} {phrase : Phrase} {used : List Token}
    (h : Derives arities phrase used) : Node.AllFit arities phrase.nodes := by
  induction h with
  | unary _ _ ih | pause _ _ ih | bind _ _ _ _ ih | print _ _ ih | ret _ _ ih | implicit _ _ ih =>
    exact .node trivial rfl ih
  | comparison _ _ _ ihl ihr | math _ _ _ ihl ihr => exact .node trivial rfl (ihl.append ihr)
  | call _ ha _ ih => exact .node ha (List.append_nil _) ih
  | lookup _ ha => exact .node ha rfl .nil
  | number | string | read | wipe => exact .node trivial rfl .nil
  | noExpression | noStatement | noParameter | parameter | parameterComma => exact .nil
  | moreExpressions _ _ ih ihm | moreStatements _ _ ih ihm => exact ih.append ihm
  | ifThen _ _ _ ihc ihb | whileLoop _ _ _ ihc ihb => exact .node trivial rfl (ihc.append ihb)
  | ifElse _ _ _ _ _ ihc ihb iho => exact .node trivial rfl (ihc.append (ihb.append iho))
  | forLoop _ _ _ _ _ _ ihl ihr ihb => exact .node trivial rfl (ihl.append (ihr.append ihb))
  | function _ _ _ _ _ _ _ ihb => exact .node trivial rfl ihb
  | action _ _ ih | block _ _ _ ih | braces _ ih | single _ ih => exact ih

section Accepted
variable {arities : Arities} {front : List Token} {last : Token} {program : List Node}

/-- The arities of a derived program are those of the last declarations of their names. -/
theorem Derives.find?_ofTokens (h : Derives arities (.statements program) front)
    (hl : last.kind = .ending) (name : String) :
    (Arities.ofTokens (front ++ [last])).find? name =
      (Node.lastDeclared? program name).map (·.params.length) := by
  have hs : Arities.Finds front program := h.searched
  have hlast (table : Arities) : Arities.step (.idle, table) last = (.idle, table) :=
    Arities.step_idle table (by simp [hl])
  rw [Arities.ofTokens, List.foldl_append, hs, List.foldl_cons, hlast, List.foldl_nil]
  change (Arities.declare .empty (Node.declarations program)).find? name = _
  rw [Arities.find?_declare, Table.find?_empty, Option.or_none, Node.lastDeclared?, Option.map_map]
  rfl

/-- A call has as many arguments as the last function of its name has parameters. -/
theorem Derives.exists_lastDeclared {name : String} {args : List Node}
    (h : Derives (.ofTokens (front ++ [last])) (.statements program) front)
    (hl : last.kind = .ending) (hc : Node.call name args ∈ Node.subnodesOf program) :
    ∃ found, Node.lastDeclared? program name = some found ∧ args.length = found.params.length := by
  have hfit : (Arities.ofTokens (front ++ [last])).find? name = some args.length := h.allFit _ hc
  rw [h.find?_ofTokens hl, Option.map_eq_some_iff] at hfit
  obtain ⟨found, hfound, hlen⟩ := hfit
  exact ⟨found, hfound, hlen.symm⟩

/-- An accepted list has the arities of the functions that its program declares: those of the last
declaration of each name, wherever it stands. Every call has as many arguments as that declaration
has parameters, and no look-up names a declared function. -/
theorem arities_agree {depth : Nat} {rest : List Token}
    (hf : ∀ token ∈ front, token.kind ≠ .ending) (hl : last.kind = .ending)
    (h : Parse.tokens depth (front ++ [last]) = .ok program rest) :
    (∀ name, ((Arities.ofTokens (front ++ [last])).find? name).isSome ↔
      ∃ params body, Node.function name params body ∈ Node.subnodesOf program) ∧
    (∀ name, (Arities.ofTokens (front ++ [last])).find? name =
      (Node.lastDeclared? program name).map (·.params.length)) ∧
    (∀ name args, Node.call name args ∈ Node.subnodesOf program →
      ∃ found, Node.lastDeclared? program name = some found ∧
        args.length = found.params.length) ∧
    ∀ name, Node.lookup name ∈ Node.subnodesOf program →
      ∀ params body, Node.function name params body ∉ Node.subnodesOf program := by
  obtain ⟨hd, -⟩ := Parse.derives_of_tokens_ok hf hl h
  have harities := fun name => hd.find?_ofTokens hl name
  refine ⟨fun name => ?_, harities, fun name args hc => hd.exists_lastDeclared hl hc,
    fun name hn => ?_⟩
  · rw [harities, Option.isSome_map]
    constructor
    · intro hs
      refine Classical.byContradiction fun hnone => ?_
      have hmissing : Node.lastDeclared? program name = none :=
        Node.lastDeclared?_eq_none.2 fun params body hm => hnone ⟨params, body, hm⟩
      rw [hmissing] at hs
      cases hs
    · rintro ⟨params, body, hm⟩
      cases hfound : Node.lastDeclared? program name with
      | none => exact absurd hm (Node.lastDeclared?_eq_none.1 hfound params body)
      | some found => rfl
  · have hfit : (Arities.ofTokens (front ++ [last])).find? name = none := hd.allFit _ hn
    rw [harities, Option.map_eq_none_iff] at hfit
    exact Node.lastDeclared?_eq_none.1 hfit

/-- The inner declaration of `f` is the last one, so the call of `f` takes one argument. -/
theorem arities_agree_redeclared :
    (Arities.ofTokens
      [⟨.functionWord, "function"⟩, ⟨.identifier, "f"⟩, ⟨.leftParen, "("⟩, ⟨.identifier, "a"⟩,
        ⟨.comma, ","⟩, ⟨.identifier, "b"⟩, ⟨.rightParen, ")"⟩, ⟨.leftBrace, "\x7b"⟩,
        ⟨.functionWord, "function"⟩, ⟨.identifier, "f"⟩, ⟨.leftParen, "("⟩, ⟨.identifier, "c"⟩,
        ⟨.rightParen, ")"⟩, ⟨.leftBrace, "\x7b"⟩, ⟨.rightBrace, "\x7d"⟩, ⟨.rightBrace, "\x7d"⟩,
        ⟨.identifier, "f"⟩, ⟨.identifier, "x"⟩, .ending]).find? "f" = some 1 := by
  have h : Parse.tokens 8
      ([⟨.functionWord, "function"⟩, ⟨.identifier, "f"⟩, ⟨.leftParen, "("⟩, ⟨.identifier, "a"⟩,
        ⟨.comma, ","⟩, ⟨.identifier, "b"⟩, ⟨.rightParen, ")"⟩, ⟨.leftBrace, "\x7b"⟩,
        ⟨.functionWord, "function"⟩, ⟨.identifier, "f"⟩, ⟨.leftParen, "("⟩, ⟨.identifier, "c"⟩,
        ⟨.rightParen, ")"⟩, ⟨.leftBrace, "\x7b"⟩, ⟨.rightBrace, "\x7d"⟩, ⟨.rightBrace, "\x7d"⟩,
        ⟨.identifier, "f"⟩, ⟨.identifier, "x"⟩] ++ [.ending]) =
      .ok [.function "f" ["a", "b"] [.function "f" ["c"] []],
        .print (.call "f" [.lookup "x"]) "implicit"] [.ending] := by
    rfl
  exact (arities_agree (by decide) rfl h).2.1 "f"

end Accepted

end PrefixScript
