import PrefixScript.Machine

/-!
# The nodes of a tree

A node has operands, which are evaluated, and steps, which are executed. All nodes of a tree are
listed in the order in which they start in the text, so the declarations of a program are met in
their textual order, however deeply they are nested.
-/
namespace PrefixScript

namespace Node

/-- The nodes that a node evaluates, in order. -/
def operands : Node → List Node
  | math _ left right => [left, right]
  | unary _ operand => [operand]
  | comparison _ left right => [left, right]
  | call _ args => args
  | pause delay => [delay]
  | bind _ value => [value]
  | print value _ => [value]
  | ifThen cond _ => [cond]
  | ifElse cond _ _ => [cond]
  | whileLoop cond _ => [cond]
  | forLoop _ start stop _ => [start, stop]
  | ret value => [value]
  | literal _ | lookup _ | read | wipe | function _ _ _ | program _ | unknown _ => []

/-- The nodes that a node executes, or hands over to be executed, in textual order. -/
def steps : Node → List Node
  | ifThen _ body => body
  | ifElse _ body other => body ++ other
  | whileLoop _ body => body
  | forLoop _ _ _ body => body
  | function _ _ body => body
  | program body => body
  | _ => []

mutual

/-- A node and all nodes below it, in the order in which they start. -/
def subnodes : Node → List Node
  | literal value => [literal value]
  | lookup name => [lookup name]
  | math op left right => math op left right :: (subnodes left ++ subnodes right)
  | unary op operand => unary op operand :: subnodes operand
  | comparison op left right => comparison op left right :: (subnodes left ++ subnodes right)
  | call name args => call name args :: subnodesOf args
  | read => [read]
  | pause delay => pause delay :: subnodes delay
  | wipe => [wipe]
  | bind name value => bind name value :: subnodes value
  | print value variant => print value variant :: subnodes value
  | ifThen cond body => ifThen cond body :: (subnodes cond ++ subnodesOf body)
  | ifElse cond body other =>
    ifElse cond body other :: (subnodes cond ++ (subnodesOf body ++ subnodesOf other))
  | whileLoop cond body => whileLoop cond body :: (subnodes cond ++ subnodesOf body)
  | forLoop counter start stop body =>
    forLoop counter start stop body :: (subnodes start ++ (subnodes stop ++ subnodesOf body))
  | function name params body => function name params body :: subnodesOf body
  | ret value => ret value :: subnodes value
  | program body => program body :: subnodesOf body
  | unknown kind => [unknown kind]

/-- The nodes of several trees, one tree after the other. -/
def subnodesOf : List Node → List Node
  | [] => []
  | node :: rest => subnodes node ++ subnodesOf rest

end

@[simp] theorem subnodesOf_append (first second : List Node) :
    subnodesOf (first ++ second) = subnodesOf first ++ subnodesOf second := by
  induction first with
  | nil => rfl
  | cons node rest ih => simp only [List.cons_append, subnodesOf, ih, List.append_assoc]

/-- One equation for all nodes: first the node, then its operands, then its steps. -/
theorem subnodes_eq (node : Node) :
    node.subnodes = node :: subnodesOf (node.operands ++ node.steps) := by
  cases node <;> simp [subnodes, subnodesOf, operands, steps]

theorem self_mem_subnodes (node : Node) : node ∈ node.subnodes := by
  rw [subnodes_eq]
  exact List.mem_cons_self

theorem mem_subnodesOf {nodes : List Node} {inner : Node} :
    inner ∈ subnodesOf nodes ↔ ∃ node ∈ nodes, inner ∈ node.subnodes := by
  induction nodes with
  | nil => simp [subnodesOf]
  | cons node rest ih => simp [subnodesOf, ih]

theorem sizeOf_lt_of_child {node child : Node} (h : child ∈ node.operands ++ node.steps) :
    sizeOf child < sizeOf node := by
  have hlist (nodes : List Node) (hc : child ∈ nodes) : sizeOf child < sizeOf nodes :=
    List.sizeOf_lt_of_mem hc
  cases node <;> simp only [operands, steps, List.append_nil, List.nil_append, List.mem_append,
    List.mem_cons, List.not_mem_nil, or_false] at h
  all_goals simp only [math.sizeOf_spec, unary.sizeOf_spec, comparison.sizeOf_spec,
    call.sizeOf_spec, pause.sizeOf_spec, bind.sizeOf_spec, print.sizeOf_spec, ifThen.sizeOf_spec,
    ifElse.sizeOf_spec, whileLoop.sizeOf_spec, forLoop.sizeOf_spec, function.sizeOf_spec,
    ret.sizeOf_spec, program.sizeOf_spec]
  all_goals grind

/-- Induction over a tree: what passes from the children to a node holds of every node. -/
theorem inductionOnChildren {P : Node → Prop}
    (step : ∀ node, (∀ child ∈ node.operands ++ node.steps, P child) → P node) (node : Node) :
    P node :=
  step node fun child _ => inductionOnChildren step child
termination_by sizeOf node
decreasing_by exact sizeOf_lt_of_child ‹_›

/-- The nodes below a node of a tree belong to the tree. -/
theorem subnodes_trans {node middle inner : Node} (hm : middle ∈ node.subnodes)
    (hi : inner ∈ middle.subnodes) : inner ∈ node.subnodes := by
  induction node using inductionOnChildren with
  | step node ih =>
    rw [subnodes_eq] at hm ⊢
    rcases List.mem_cons.1 hm with rfl | hm
    · rwa [subnodes_eq] at hi
    · obtain ⟨child, hc, hmc⟩ := mem_subnodesOf.1 hm
      exact List.mem_cons_of_mem _ (mem_subnodesOf.2 ⟨child, hc, ih child hc hmc⟩)

theorem subnodesOf_trans {nodes : List Node} {middle inner : Node} (hm : middle ∈ subnodesOf nodes)
    (hi : inner ∈ middle.subnodes) : inner ∈ subnodesOf nodes := by
  obtain ⟨node, hn, hmn⟩ := mem_subnodesOf.1 hm
  exact mem_subnodesOf.2 ⟨node, hn, subnodes_trans hmn hi⟩

theorem child_mem_subnodes {node child : Node} (h : child ∈ node.operands ++ node.steps) :
    child ∈ node.subnodes := by
  rw [subnodes_eq]
  exact List.mem_cons_of_mem _ (mem_subnodesOf.2 ⟨child, h, self_mem_subnodes child⟩)

theorem operand_mem_subnodesOf {trees : List Node} {node operand : Node}
    (hn : node ∈ subnodesOf trees) (ho : operand ∈ node.operands) : operand ∈ subnodesOf trees :=
  subnodesOf_trans hn (child_mem_subnodes (List.mem_append_left _ ho))

theorem step_mem_subnodesOf {trees : List Node} {node step : Node}
    (hn : node ∈ subnodesOf trees) (hs : step ∈ node.steps) : step ∈ subnodesOf trees :=
  subnodesOf_trans hn (child_mem_subnodes (List.mem_append_right _ hs))

/-- Something holds of all nodes of some trees. -/
def Throughout (P : Node → Prop) (nodes : List Node) : Prop := ∀ inner ∈ subnodesOf nodes, P inner

section Throughout
variable {P : Node → Prop} {top : Node} {nodes first second : List Node}

theorem Throughout.nil : Throughout P [] := by simp [Throughout, subnodesOf]

theorem Throughout.append (h : Throughout P first) (k : Throughout P second) :
    Throughout P (first ++ second) := by
  intro inner hi
  rw [subnodesOf_append, List.mem_append] at hi
  exact hi.elim (h inner) (k inner)

/-- It holds of a tree if it holds of the node at the top and of the trees below. -/
theorem Throughout.node (hp : P top) (hn : top.operands ++ top.steps = nodes)
    (h : Throughout P nodes) : Throughout P [top] := by
  intro inner hi
  rw [subnodesOf, subnodesOf, List.append_nil, subnodes_eq, hn, List.mem_cons] at hi
  rcases hi with rfl | hi
  · exact hp
  · exact h inner hi

theorem Throughout.of_subset (h : Throughout P nodes) (hs : first ⊆ nodes) :
    Throughout P first := by
  intro inner hi
  obtain ⟨node, hn, hi⟩ := mem_subnodesOf.1 hi
  exact h inner (mem_subnodesOf.2 ⟨node, hs hn, hi⟩)

theorem Throughout.of_mem (h : Throughout P nodes) (hn : top ∈ nodes) : Throughout P [top] :=
  h.of_subset (List.cons_subset.2 ⟨hn, List.nil_subset _⟩)

theorem Throughout.self (h : Throughout P [top]) : P top :=
  h top (mem_subnodesOf.2 ⟨top, List.mem_cons_self, top.self_mem_subnodes⟩)

theorem Throughout.children (h : Throughout P [top]) :
    Throughout P (top.operands ++ top.steps) := by
  intro inner hi
  refine h inner ?_
  rw [subnodesOf, subnodesOf, List.append_nil, subnodes_eq]
  exact List.mem_cons_of_mem _ hi

theorem Throughout.operands (h : Throughout P [top]) (hs : nodes ⊆ top.operands) :
    Throughout P nodes :=
  h.children.of_subset fun _ hm => List.mem_append_left _ (hs hm)

theorem Throughout.steps (h : Throughout P [top]) (hs : nodes ⊆ top.steps) :
    Throughout P nodes :=
  h.children.of_subset fun _ hm => List.mem_append_right _ (hs hm)

end Throughout

/-- The function that a node declares itself, with its name. -/
def declaration? : Node → Option (String × Declaration)
  | function name params body => some (name, ⟨params, body⟩)
  | _ => none

/-- All functions that some trees declare, in textual order. -/
def declarations (nodes : List Node) : List (String × Declaration) :=
  (subnodesOf nodes).filterMap declaration?

/-- The textually last function of a name that some trees declare. -/
def lastDeclared? (nodes : List Node) (name : String) : Option Declaration :=
  ((declarations nodes).reverse.find? (·.1 = name)).map (·.2)

theorem mem_declarations {nodes : List Node} {name : String} {found : Declaration} :
    (name, found) ∈ declarations nodes ↔
      function name found.params found.body ∈ subnodesOf nodes := by
  simp only [declarations, List.mem_filterMap]
  constructor
  · rintro ⟨node, hn, hd⟩
    cases node <;> simp_all [declaration?]
    obtain ⟨rfl, rfl⟩ := hd
    exact hn
  · intro hn
    exact ⟨_, hn, rfl⟩

theorem mem_of_lastDeclared? {nodes : List Node} {name : String} {found : Declaration}
    (h : lastDeclared? nodes name = some found) : (name, found) ∈ declarations nodes := by
  rw [lastDeclared?, Option.map_eq_some_iff] at h
  obtain ⟨⟨key, last⟩, hl, rfl⟩ := h
  have hk : key = name := by simpa using List.find?_some hl
  subst hk
  exact List.mem_reverse.1 (List.mem_of_find?_eq_some hl)

end Node

end PrefixScript
