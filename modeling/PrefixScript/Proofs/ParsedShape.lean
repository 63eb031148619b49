import PrefixScript.Proofs.ArityAgreement
import PrefixScript.Proofs.Observation
import PrefixScript.Proofs.ScannedTokens

/-!
# The shape of parsed programs

A tree can hold any node anywhere, but the parser puts expressions where values are needed and
statements into bodies. Operators are taken over from the text of their tokens, and a scanned token
of an operator is spelled as the operator. So every operator of a parsed program can be computed.
-/
namespace PrefixScript

/-- How the tokens of the operators are spelled. -/
def Kind.operator? : Kind → Option String
  | equal => some "=="
  | notEqual => some "!="
  | minus => some "-"
  | plus => some "+"
  | times => some "*"
  | divide => some "/"
  | sqrt => some "SQRT"
  | random => some "RANDOM"
  | reverse => some "REVERSE"
  | len => some "LEN"
  | _ => none

def Label.operator? : Label → Option String
  | token kind => kind.operator?
  | _ => none

section Spelling
variable {text spelling : List Char}

theorem Pattern.take_symbol (h : Pattern.symbol spelling text ≠ 0) :
    text.take (Pattern.symbol spelling text) = spelling := by
  unfold Pattern.symbol at h ⊢
  split at h
  · rename_i hp
    rw [if_pos hp]
    exact (List.prefix_iff_eq_take.1 (List.isPrefixOf_iff_prefix.1 hp)).symm
  · exact absurd rfl h

theorem Pattern.take_word (h : Pattern.word spelling text ≠ 0) :
    text.take (Pattern.word spelling text) = spelling := by
  unfold Pattern.word at h ⊢
  split at h
  · rename_i hp
    rw [if_pos hp]
    have hp := (Bool.and_eq_true _ _ ▸ hp).1
    exact (List.prefix_iff_eq_take.1 (List.isPrefixOf_iff_prefix.1 hp)).symm
  · exact absurd rfl h

/-- The rule of an operator looks for its spelling. -/
theorem Rule.pattern_of_operator : ∀ rule ∈ Rule.all, ∀ spelling,
    rule.label.operator? = some spelling →
      rule.pattern = Pattern.symbol spelling.toList ∨
        rule.pattern = Pattern.word spelling.toList := by
  simp only [Rule.all, Rule.symbol, Rule.word, List.forall_mem_cons]
  simp [Label.operator?, Kind.operator?]

/-- A scanned token of an operator is spelled as the operator. -/
theorem Token.Scanned.lexeme_eq {token : Token} (h : token.Scanned) {spelling : String}
    (hk : token.kind.operator? = some spelling) : token.lexeme = spelling := by
  obtain ⟨text, length, hf, hl⟩ := h
  have hpos := Rule.ne_zero_of_first? hf
  obtain ⟨rule, hm, hlabel, hlength⟩ := Rule.exists_of_first? hf
  have hrule := Rule.pattern_of_operator rule hm spelling (by rw [hlabel]; exact hk)
  have htake : text.take length = spelling.toList := by
    rcases hrule with hr | hr
    · rw [hr] at hlength
      rw [← hlength] at hpos ⊢
      exact Pattern.take_symbol hpos
    · rw [hr] at hlength
      rw [← hlength] at hpos ⊢
      exact Pattern.take_word hpos
  rw [hl, htake, String.ofList_toList]

end Spelling

namespace Node

/-- Whether the operator of a node can be computed, if it has one. -/
def hasKnownOperator : Node → Bool
  | math op _ _ => op ∈ mathOperators
  | comparison op _ _ => op ∈ comparisonOperators
  | unary op _ => op ∈ unaryOperators
  | _ => true

/-- Whether a node may stand in a body: statements, and pauses and wipes. -/
def isExecutable (node : Node) : Bool := node.isStatement || node.isAction

/-- The operator can be computed, and the children are of the kinds that are needed in their
places. -/
structure Proper (node : Node) : Prop where
  operator : node.hasKnownOperator
  operands : ∀ operand ∈ node.operands, operand.isExpression
  steps : ∀ step ∈ node.steps, step.isExecutable

theorem isExpression_of_isAction {node : Node} (h : node.isAction) : node.isExpression := by
  cases node with
  | pause | wipe => rfl
  | _ => cases h

end Node

/-- The trees of a phrase are of the kind that the phrase promises. -/
def Phrase.Shaped : Phrase → Prop
  | .expression node => node.isExpression
  | .expressions nodes => ∀ node ∈ nodes, node.isExpression
  | .statement _ node => node.isExecutable
  | .statements nodes | .block nodes | .body _ nodes => ∀ node ∈ nodes, node.isExecutable
  | .parameters _ => True

theorem Derives.shaped {arities : Arities} {phrase : Phrase} {used : List Token}
    (h : Derives arities phrase used) : phrase.Shaped := by
  induction h with
  | action _ ha _ => simp [Phrase.Shaped, Node.isExecutable, ha]
  | noExpression | noStatement => exact fun node hn => by cases hn
  | moreExpressions _ _ ih ihm | moreStatements _ _ ih ihm => exact List.forall_mem_cons.2 ⟨ih, ihm⟩
  | block _ _ _ ih | braces _ ih => exact ih
  | single _ ih => exact List.forall_mem_singleton.2 ih
  | noParameter | parameter | parameterComma => trivial
  | _ => rfl

theorem Derives.single_operand {arities : Arities} {used : List Token} {node : Node}
    (h : Derives arities (.expression node) used) : ∀ operand ∈ [node], operand.isExpression :=
  List.forall_mem_singleton.2 h.shaped

theorem Derives.two_operands {arities : Arities} {first second : List Token} {left right : Node}
    (hl : Derives arities (.expression left) first)
    (hr : Derives arities (.expression right) second) :
    ∀ operand ∈ [left, right], operand.isExpression :=
  List.forall_mem_cons.2 ⟨hl.shaped, hr.single_operand⟩

section Operators
variable {token : Token}

theorem Token.Scanned.lexeme_mem_maths (h : token.Scanned) (hk : token.kind ∈ Kind.maths) :
    token.lexeme ∈ Node.mathOperators := by
  rcases Kind.mem_maths.1 hk with hk | hk | hk | hk <;>
    simp [h.lexeme_eq (by rw [hk]; rfl), Node.mathOperators]

theorem Token.Scanned.lexeme_mem_comparisons (h : token.Scanned)
    (hk : token.kind ∈ Kind.comparisons) : token.lexeme ∈ Node.comparisonOperators := by
  rcases Kind.mem_comparisons.1 hk with hk | hk <;>
    simp [h.lexeme_eq (by rw [hk]; rfl), Node.comparisonOperators]

theorem Token.Scanned.lexeme_mem_unaries (h : token.Scanned) (hk : token.kind ∈ Kind.unaries) :
    token.lexeme ∈ Node.unaryOperators := by
  rcases Kind.mem_unaries.1 hk with hk | hk | hk | hk <;>
    simp [h.lexeme_eq (by rw [hk]; rfl), Node.unaryOperators]

end Operators

/-- The induction follows the derivation. A node is proper because its parts are derived as phrases
of the right kind, and its operator because its token was scanned. -/
theorem Derives.proper {arities : Arities} {phrase : Phrase} {used : List Token}
    (h : Derives arities phrase used) (hs : ∀ token ∈ used, token.Scanned) :
    Node.Throughout Node.Proper phrase.nodes := by
  induction h with
  | unary hk hd ih =>
    obtain ⟨htoken, hused⟩ := List.forall_mem_cons.1 hs
    have hop := htoken.lexeme_mem_unaries hk
    exact .node ⟨decide_eq_true hop, hd.single_operand, by simp [Node.steps]⟩ rfl (ih hused)
  | comparison hk hl hr ihl ihr =>
    simp only [List.forall_mem_cons, List.forall_mem_append] at hs
    obtain ⟨htoken, hfirst, hsecond⟩ := hs
    have hop := htoken.lexeme_mem_comparisons hk
    exact .node ⟨decide_eq_true hop, hl.two_operands hr, by simp [Node.steps]⟩ rfl
      ((ihl hfirst).append (ihr hsecond))
  | math hk hl hr ihl ihr =>
    simp only [List.forall_mem_cons, List.forall_mem_append] at hs
    obtain ⟨htoken, hfirst, hsecond⟩ := hs
    have hop := htoken.lexeme_mem_maths hk
    exact .node ⟨decide_eq_true hop, hl.two_operands hr, by simp [Node.steps]⟩ rfl
      ((ihl hfirst).append (ihr hsecond))
  | call _ _ hd ih =>
    obtain ⟨-, hused⟩ := List.forall_mem_cons.1 hs
    exact .node ⟨rfl, hd.shaped, by simp [Node.steps]⟩ (List.append_nil _) (ih hused)
  | lookup | number | string | read | wipe =>
    exact .node ⟨rfl, by simp [Node.operands], by simp [Node.steps]⟩ rfl .nil
  | pause _ hd ih | print _ hd ih | ret _ hd ih =>
    obtain ⟨-, hused⟩ := List.forall_mem_cons.1 hs
    exact .node ⟨rfl, hd.single_operand, by simp [Node.steps]⟩ rfl (ih hused)
  | bind _ _ _ hd ih =>
    simp only [List.forall_mem_cons] at hs
    obtain ⟨-, -, -, hused⟩ := hs
    exact .node ⟨rfl, hd.single_operand, by simp [Node.steps]⟩ rfl (ih hused)
  | implicit hd _ ih =>
    exact .node ⟨rfl, hd.single_operand, by simp [Node.steps]⟩ rfl (ih hs)
  | ifThen _ hc hb ihc ihb | whileLoop _ hc hb ihc ihb =>
    simp only [List.forall_mem_cons, List.forall_mem_append] at hs
    obtain ⟨-, hfirst, hsecond⟩ := hs
    exact .node ⟨rfl, hc.single_operand, hb.shaped⟩ rfl ((ihc hfirst).append (ihb hsecond))
  | ifElse _ hc hb _ ho ihc ihb iho =>
    simp only [List.forall_mem_cons, List.forall_mem_append] at hs
    obtain ⟨-, hfirst, hsecond, -, hthird⟩ := hs
    have hsteps := List.forall_mem_append.2 ⟨hb.shaped, ho.shaped⟩
    exact .node ⟨rfl, hc.single_operand, hsteps⟩ rfl
      ((ihc hfirst).append ((ihb hsecond).append (iho hthird)))
  | forLoop _ _ _ hl hr hb ihl ihr ihb =>
    simp only [List.forall_mem_cons, List.forall_mem_append] at hs
    obtain ⟨-, -, -, hfirst, hsecond, hthird⟩ := hs
    exact .node ⟨rfl, hl.two_operands hr, hb.shaped⟩ rfl
      ((ihl hfirst).append ((ihr hsecond).append (ihb hthird)))
  | function _ _ _ _ _ hb _ ihb =>
    simp only [List.forall_mem_cons, List.forall_mem_append] at hs
    obtain ⟨-, -, -, -, -, hsecond⟩ := hs
    exact .node ⟨rfl, by simp [Node.operands], hb.shaped⟩ rfl (ihb hsecond)
  | noExpression | noStatement | noParameter | parameter | parameterComma => exact .nil
  | moreExpressions _ _ ih ihm | moreStatements _ _ ih ihm =>
    obtain ⟨hfirst, hmore⟩ := List.forall_mem_append.1 hs
    exact (ih hfirst).append (ihm hmore)
  | action _ _ ih | braces _ ih | single _ ih => exact ih hs
  | block _ _ _ ih =>
    simp only [List.forall_mem_cons, List.forall_mem_append] at hs
    exact ih hs.2.1

/-- The expressions and the statements of proper trees. -/
def Fragment.proper : Fragment where
  expression node := node.isExpression ∧ Node.Throughout Node.Proper [node]
  statement node := node.isExecutable ∧ Node.Throughout Node.Proper [node]
  expression_operand hn ho :=
    ⟨hn.2.self.operands _ ho, hn.2.children.of_mem (List.mem_append_left _ ho)⟩
  statement_operand hn ho :=
    ⟨hn.2.self.operands _ ho, hn.2.children.of_mem (List.mem_append_left _ ho)⟩
  statement_step hn hs :=
    ⟨hn.2.self.steps _ hs, hn.2.children.of_mem (List.mem_append_right _ hs)⟩
  statement_bare {node} hn hb := by
    have ha : node.isAction := by simpa [Node.isExecutable, hb] using hn.1
    exact ⟨Node.isExpression_of_isAction ha, hn.2⟩

/-- A node of a proper tree raises no fault that has to do with its kind or operator. -/
theorem Fragment.Blames.category_ne_malformed {functions : Table Declaration} {fault : Fault}
    (h : Fragment.proper.Blames functions (.fault fault)) :
    fault.diagnostic.category ≠ .malformed := by
  obtain ⟨node, ⟨⟨he, hp⟩, hr⟩ | ⟨-, text, rfl⟩⟩ := h fault rfl
  · have ho := hp.self.operator
    cases hr with
    | unknownOperator hn | unknownComparison hn | unknownBuiltin hn =>
      exact absurd (of_decide_eq_true ho) hn
    | unknownExpression hn =>
      rw [hn] at he
      cases he
    | _ => exact fun hc => by cases hc
  · exact fun hc => by cases hc

end PrefixScript
