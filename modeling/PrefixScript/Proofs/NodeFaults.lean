import PrefixScript.Evaluation
import PrefixScript.Proofs.Outcome

/-!
# The faults of a node

Whatever goes wrong in an evaluation goes wrong at one node, which the fault names as its site.
`Raises` lists the faults of a node, given the functions that can be called. What a node does by
itself changes only the world, and fails only with one of its own faults.
-/
namespace PrefixScript

namespace Node

/-- The operators of each kind that can be computed. -/
def mathOperators : List String := ["+", "-", "*", "/"]

def comparisonOperators : List String := ["==", "!="]

def unaryOperators : List String := ["SQRT", "RANDOM", "REVERSE", "LEN"]

/-- Whether a node is executed as a statement. Any other node is evaluated. -/
def isStatement : Node → Bool
  | bind .. | print .. | ifThen .. | ifElse .. | whileLoop .. | forLoop .. | function .. | ret .. =>
    true
  | _ => false

/-- Whether a node needs numbers of its operands. -/
def isNumeric : Node → Bool
  | math .. | unary .. | pause .. | forLoop .. => true
  | _ => false

/-- Whether a node has a value, as far as its kind goes. -/
def isExpression : Node → Bool
  | literal .. | lookup .. | math .. | unary .. | comparison .. | call .. | read | pause ..
  | wipe =>
    true
  | _ => false

/-- The faults that a node can raise itself when the given functions can be called. -/
inductive Raises (functions : Table Declaration) : Node → Fault → Prop
  | undefinedVariable (name : String) :
    Raises functions (lookup name) (.undefinedVariable name (some (lookup name)))
  | undefinedFunction {name : String} {args : List Node} (h : functions.find? name = none) :
    Raises functions (call name args) (.undefinedFunction name (call name args))
  | arityMismatch {name : String} {args : List Node} {found : Declaration}
    (h : functions.find? name = some found) (hn : args.length ≠ found.params.length) :
    Raises functions (call name args)
      (.arityMismatch name found.params.length args.length (call name args))
  | textOperand {op : String} {left right : Node} (h : op ≠ "+") :
    Raises functions (math op left right) (.textOperand op (math op left right))
  | notNumeric {node : Node} (text : String) (h : node.isNumeric) :
    Raises functions node (.notNumeric text (some node))
  | divisionByZero (x y : Float) {left right : Node} :
    Raises functions (math "/" left right) (.divisionByZero x y (math "/" left right))
  | unknownOperator {op : String} {left right : Node} (h : op ∉ mathOperators) :
    Raises functions (math op left right) (.unknownOperator op (math op left right))
  | unknownComparison {op : String} {left right : Node} (h : op ∉ comparisonOperators) :
    Raises functions (comparison op left right) (.unknownComparison op (comparison op left right))
  | unknownBuiltin {op : String} {operand : Node} (h : op ∉ unaryOperators) :
    Raises functions (unary op operand) (.unknownBuiltin op (unary op operand))
  | negativeRoot (x : Float) {operand : Node} :
    Raises functions (unary "SQRT" operand) (.negativeRoot x (unary "SQRT" operand))
  | endlessPause (x : Float) {delay : Node} :
    Raises functions (pause delay) (.endlessPause x (pause delay))
  | unknownExpression {node : Node} (h : node.isExpression = false) :
    Raises functions node (.unknownExpression node)

end Node

/-- What a node does by itself: the frames and the functions stay, and a failure is one of the
node's own faults. -/
def ownLaw (site : Node) : Law Failure Machine where
  kept before after := after.frames = before.frames ∧ after.functions = before.functions
  failed failure before after :=
    (after.frames = before.frames ∧ after.functions = before.functions) ∧
      ∃ fault, failure = .fault fault ∧ site.Raises before.functions fault
  refl _ := ⟨rfl, rfl⟩
  trans h k := ⟨k.1.trans h.1, k.2.trans h.2⟩
  failed_of_kept h k := ⟨⟨k.1.1.trans h.1, k.1.2.trans h.2⟩, h.2 ▸ k.2⟩

section Primitives
variable {site : Node} {α : Type}

theorem ownLaw_fail {fault : Fault} (h : ∀ functions, site.Raises functions fault) :
    (ownLaw site).Obeyed (Machine.fail fault : RunM α) :=
  .throw fun s => ⟨⟨rfl, rfl⟩, fault, rfl, h s.functions⟩

theorem ownLaw_world (f : Machine → World) :
    (ownLaw site).Obeyed (modify fun m => { m with world := f m } : RunM PUnit) :=
  .modify fun _ => ⟨rfl, rfl⟩

theorem ownLaw_lookup (name : String) :
    (ownLaw (.lookup name)).Obeyed (Machine.lookup name (some (.lookup name))) := by
  intro s
  simp only [Machine.lookup, ends_bind, ends_get]
  split
  · exact ⟨rfl, rfl⟩
  · exact ownLaw_fail (fun _ => .undefinedVariable name) s

theorem ownLaw_number (value : Value) (h : site.isNumeric) :
    (ownLaw site).Obeyed (Machine.number value site) := by
  unfold Machine.number
  split
  · exact .pure _
  · exact ownLaw_fail fun _ => .notNumeric _ h

theorem ownLaw_readLine : (ownLaw site).Obeyed Machine.readLine := by
  intro s
  simp only [Machine.readLine, ends_bind, ends_get, ends_set]
  split <;> exact ⟨rfl, rfl⟩

theorem ownLaw_draw : (ownLaw site).Obeyed Machine.draw := fun _ => ⟨rfl, rfl⟩

theorem ownLaw_math (op : String) (left right : Node) (x y : Value) :
    (ownLaw (.math op left right)).Obeyed (Operator.math op x y (.math op left right)) := by
  unfold Operator.math
  split
  · split
    · exact .pure _
    · exact ownLaw_fail fun _ => .textOperand ‹_›
  · refine .bind (ownLaw_number x rfl) fun a => .bind (ownLaw_number y rfl) fun b => ?_
    split
    · exact .pure _
    split
    · exact .pure _
    split
    · exact .pure _
    split
    · rename_i hop
      subst hop
      exact .ite (ownLaw_fail fun _ => .divisionByZero a b) (.pure _)
    · refine ownLaw_fail fun _ => .unknownOperator ?_
      simp only [Node.mathOperators, List.mem_cons, List.not_mem_nil, or_false, not_or]
      exact ⟨‹_›, ‹_›, ‹_›, ‹_›⟩

theorem ownLaw_comparison (op : String) (left right : Node) (x y : Value) :
    (ownLaw (.comparison op left right)).Obeyed
      (Operator.comparison op x y (.comparison op left right)) := by
  unfold Operator.comparison
  split
  · exact .pure _
  split
  · exact .pure _
  · refine ownLaw_fail fun _ => .unknownComparison ?_
    simp only [Node.comparisonOperators, List.mem_cons, List.not_mem_nil, or_false, not_or]
    exact ⟨‹_›, ‹_›⟩

theorem ownLaw_unary (op : String) (operand : Node) (x : Value) :
    (ownLaw (.unary op operand)).Obeyed (Operator.unary op x (.unary op operand)) := by
  unfold Operator.unary
  split
  · rename_i hop
    subst hop
    exact .bind (ownLaw_number x rfl) fun a =>
      .ite (ownLaw_fail fun _ => .negativeRoot a) (.pure _)
  split
  · exact .bind ownLaw_draw fun _ => .bind (ownLaw_number x rfl) fun _ => .pure _
  split
  · exact .pure _
  split
  · exact .pure _
  · refine ownLaw_fail fun _ => .unknownBuiltin ?_
    simp only [Node.unaryOperators, List.mem_cons, List.not_mem_nil, or_false, not_or]
    exact ⟨‹_›, ‹_›, ‹_›, ‹_›⟩

theorem ownLaw_pause (delay : Node) (x : Value) :
    (ownLaw (.pause delay)).Obeyed (Operator.pause x (.pause delay)) := by
  unfold Operator.pause
  refine .bind (ownLaw_number x rfl) fun a => ?_
  exact .ite (.bind (ownLaw_world _) fun _ => .pure _) (ownLaw_fail fun _ => .endlessPause a)

/-- The function that a call finds is registered under its name, with as many parameters as the
call has arguments. -/
theorem ends_callee (name : String) (args : List Node) (s : Machine) :
    Ends (Machine.callee name args.length (.call name args)) s
      (fun found t => t = s ∧ s.functions.find? name = some found ∧
        args.length = found.params.length)
      (fun failure t => (ownLaw (.call name args)).failed failure s t) := by
  simp only [Machine.callee, ends_bind, ends_get]
  split
  · exact ⟨⟨rfl, rfl⟩, _, rfl, .undefinedFunction ‹_›⟩
  · rename_i found hf
    split
    · exact ⟨rfl, hf, ‹_›⟩
    · exact ⟨⟨rfl, rfl⟩, _, rfl, .arityMismatch hf ‹_›⟩

end Primitives

end PrefixScript
