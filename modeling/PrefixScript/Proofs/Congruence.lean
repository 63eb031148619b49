import PrefixScript.Evaluation

/-!
# Congruences of evaluation

Evaluation is put together from the activities of a machine by sequencing. A relation between
activities is a congruence if each of those is related to itself and sequencing keeps the relation.
Evaluations with some budgets are then related to those with larger ones, if whatever may happen
where a budget is used up is related to what happens there with the larger one.
-/
namespace PrefixScript

/-- The activities that evaluation is put together from. -/
inductive Machine.Primitive : {α : Type} → RunM α → Prop
  | pure {α : Type} (a : α) : Primitive (pure a : RunM α)
  | fail {α : Type} (fault : Fault) : Primitive (fail fault : RunM α)
  | tooDeep {α : Type} : Primitive (throw .tooDeep : RunM α)
  | unfinished {α : Type} : Primitive (throw .unfinished : RunM α)
  | lookup (name : String) (site : Option Node) : Primitive (lookup name site)
  | callee (name : String) (given : Nat) (site : Node) : Primitive (callee name given site)
  | bind (name : String) (value : Value) : Primitive (bind name value)
  | push (frame : Table Value) : Primitive (push frame)
  | pop : Primitive pop
  | register (name : String) (params : List String) (body : List Node) :
    Primitive (register name params body)
  | write (text : String) : Primitive (write text)
  | pause (delay : Float) : Primitive (pause delay)
  | readLine : Primitive readLine
  | draw : Primitive draw

/-- A relation between activities that sequencing keeps. -/
structure Congruence where
  rel : {α : Type} → RunM α → RunM α → Prop
  own : ∀ {α : Type} {activity : RunM α}, Machine.Primitive activity → rel activity activity
  bind : ∀ {α β : Type} {first second : RunM α} {next other : α → RunM β}, rel first second →
    (∀ a, rel (next a) (other a)) → rel (first >>= next) (second >>= other)

namespace Congruence
variable (c : Congruence) {α β : Type}

theorem pure (a : α) : c.rel (Pure.pure a : RunM α) (Pure.pure a) := c.own (.pure a)

theorem fail (fault : Fault) : c.rel (Machine.fail fault : RunM α) (Machine.fail fault) :=
  c.own (.fail fault)

theorem after {activity : RunM α} {next other : α → RunM β} (h : Machine.Primitive activity)
    (hn : ∀ a, c.rel (next a) (other a)) : c.rel (activity >>= next) (activity >>= other) :=
  c.bind (c.own h) hn

theorem ite {p : Prop} [Decidable p] {first second first' second' : RunM α}
    (h : c.rel first second) (h' : c.rel first' second') :
    c.rel (if p then first else first') (if p then second else second') := by
  split
  · exact h
  · exact h'

/-! ## Operations on values -/

theorem number (value : Value) (site : Node) :
    c.rel (Machine.number value site) (Machine.number value site) := by
  unfold Machine.number
  cases value.toNumber with
  | ok x => exact c.pure x
  | error text => exact c.fail _

theorem math (op : String) (left right : Value) (site : Node) :
    c.rel (Operator.math op left right site) (Operator.math op left right site) := by
  unfold Operator.math
  refine c.ite (c.ite (c.pure _) (c.fail _)) ?_
  refine c.bind (c.number left site) fun x => c.bind (c.number right site) fun y => ?_
  exact c.ite (c.pure _) (c.ite (c.pure _) (c.ite (c.pure _)
    (c.ite (c.ite (c.fail _) (c.pure _)) (c.fail _))))

theorem comparison (op : String) (left right : Value) (site : Node) :
    c.rel (Operator.comparison op left right site) (Operator.comparison op left right site) :=
  c.ite (c.pure _) (c.ite (c.pure _) (c.fail _))

theorem unary (op : String) (value : Value) (site : Node) :
    c.rel (Operator.unary op value site) (Operator.unary op value site) := by
  unfold Operator.unary
  refine c.ite ?_ (c.ite ?_ (c.ite (c.pure _) (c.ite (c.pure _) (c.fail _))))
  · exact c.bind (c.number value site) fun x => c.ite (c.fail _) (c.pure _)
  · exact c.after .draw fun part => c.bind (c.number value site) fun x => c.pure _

theorem pause (value : Value) (site : Node) :
    c.rel (Operator.pause value site) (Operator.pause value site) := by
  refine c.bind (c.number value site) fun delay => c.ite ?_ (c.fail _)
  exact c.after (.pause delay) fun _ => c.pure _

/-! ## Lists and loops -/

theorem values {eval other : Node → RunM Value} (h : ∀ node, c.rel (eval node) (other node))
    (nodes : List Node) (before : List Value) :
    c.rel (Evaluation.values eval nodes before) (Evaluation.values other nodes before) := by
  induction nodes generalizing before with
  | nil => exact c.pure _
  | cons node rest ih => exact c.bind (h node) fun value => ih (value :: before)

theorem sequence {exec other : Node → RunM Completion}
    (h : ∀ node, c.rel (exec node) (other node)) (body : List Node) :
    c.rel (Evaluation.sequence exec body) (Evaluation.sequence other body) := by
  induction body with
  | nil => exact c.pure _
  | cons node rest ih =>
    refine c.bind (h node) fun completion => ?_
    cases completion with
    | normal => exact ih
    | returning value => exact c.pure _

theorem topLevel {exec other : Node → RunM Completion}
    (h : ∀ node, c.rel (exec node) (other node)) (program : List Node) :
    c.rel (Evaluation.topLevel exec program) (Evaluation.topLevel other program) := by
  induction program with
  | nil => exact c.pure _
  | cons node rest ih => exact c.bind (h node) fun _ => ih

variable {cond cond' : RunM Value} {body body' : RunM Completion} {more : Nat}

/-- The rounds of a loop are related one by one, and so is what is left where the first loop has no
more rounds. -/
theorem whileRounds (rounds : Nat)
    (hz : c.rel (throw .unfinished) (Evaluation.whileRounds cond' body' more))
    (hc : c.rel cond cond') (hb : c.rel body body') :
    c.rel (Evaluation.whileRounds cond body rounds)
      (Evaluation.whileRounds cond' body' (rounds + more)) := by
  induction rounds with
  | zero => rwa [Nat.zero_add]
  | succ rounds ih =>
    rw [Nat.succ_add]
    refine c.bind hc fun value => c.ite (c.bind hb fun completion => ?_) (c.pure _)
    cases completion with
    | normal => exact ih
    | returning value => exact c.pure _

theorem forRounds (counter : String) (last : Float) (rounds : Nat)
    (hz : ∀ current, c.rel (throw .unfinished)
      (Evaluation.forRounds counter last body' more current)) (hb : c.rel body body')
    (current : Float) :
    c.rel (Evaluation.forRounds counter last body rounds current)
      (Evaluation.forRounds counter last body' (rounds + more) current) := by
  induction rounds generalizing current with
  | zero =>
    rw [Nat.zero_add]
    exact hz current
  | succ rounds ih =>
    rw [Nat.succ_add]
    refine c.ite (c.after (.bind counter _) fun _ => c.bind hb fun completion => ?_) (c.pure _)
    cases completion with
    | normal => exact ih (current + 1)
    | returning value => exact c.pure _

/-! ## Evaluation -/

/-- Where a budget is used up, what happens is related to whatever happens there if evaluations may
be nested deeper by `extra` and loops may take `more` rounds. -/
structure Covers (rounds more extra : Nat) : Prop where
  eval : ∀ node, c.rel (throw .tooDeep) (Evaluation.eval (rounds + more) extra node)
  exec : ∀ node, c.rel (throw .tooDeep) (Evaluation.exec (rounds + more) extra node)
  whileRounds : ∀ {cond cond' : RunM Value} {body body' : RunM Completion}, c.rel cond cond' →
    c.rel body body' → c.rel (throw .unfinished) (Evaluation.whileRounds cond' body' more)
  forRounds : ∀ (counter : String) (last : Float) {body body' : RunM Completion},
    c.rel body body' → ∀ current,
      c.rel (throw .unfinished) (Evaluation.forRounds counter last body' more current)

section Nodes
variable {c} {rounds more extra : Nat}

/-- Evaluations at a depth are related to those with the larger budgets. -/
def RelatedAt (c : Congruence) (rounds more extra depth : Nat) : Prop :=
  (∀ node, c.rel (Evaluation.eval rounds depth node)
    (Evaluation.eval (rounds + more) (depth + extra) node)) ∧
  ∀ node, c.rel (Evaluation.exec rounds depth node)
    (Evaluation.exec (rounds + more) (depth + extra) node)

/-- One level of evaluation, a case for each kind of node. -/
theorem eval_succ {depth : Nat} (h : c.RelatedAt rounds more extra depth) (node : Node) :
    c.rel (Evaluation.eval rounds (depth + 1) node)
      (Evaluation.eval (rounds + more) (depth + extra + 1) node) := by
  obtain ⟨heval, hexec⟩ := h
  cases node with
  | literal value =>
    simp only [Evaluation.eval]
    exact c.pure value
  | lookup name =>
    simp only [Evaluation.eval]
    exact c.own (.lookup name _)
  | math op left right =>
    simp only [Evaluation.eval]
    exact c.bind (heval left) fun first => c.bind (heval right) fun second => c.math op _ _ _
  | unary op operand =>
    simp only [Evaluation.eval]
    exact c.bind (heval operand) fun value => c.unary op value _
  | comparison op left right =>
    simp only [Evaluation.eval]
    exact c.bind (heval left) fun first => c.bind (heval right) fun second =>
      c.comparison op _ _ _
  | call name args =>
    simp only [Evaluation.eval]
    refine c.after (.callee name _ _) fun declaration =>
      c.bind (c.values heval args []) fun arguments => c.after (.push _) fun _ => ?_
    exact c.bind (c.sequence hexec declaration.body) fun completion => c.after .pop fun _ =>
      c.pure _
  | read =>
    simp only [Evaluation.eval]
    exact c.own .readLine
  | pause delay =>
    simp only [Evaluation.eval]
    exact c.bind (heval delay) fun value => c.pause value _
  | wipe =>
    simp only [Evaluation.eval]
    exact c.after (.write _) fun _ => c.pure _
  | _ =>
    simp only [Evaluation.eval]
    exact c.fail _

/-- One level of execution. -/
theorem exec_succ (hz : c.Covers rounds more extra) {depth : Nat}
    (h : c.RelatedAt rounds more extra depth) (node : Node) :
    c.rel (Evaluation.exec rounds (depth + 1) node)
      (Evaluation.exec (rounds + more) (depth + extra + 1) node) := by
  obtain ⟨heval, hexec⟩ := h
  have hbody (body : List Node) := c.sequence hexec body
  cases node with
  | bind name value =>
    simp only [Evaluation.exec]
    exact c.bind (heval value) fun result => c.after (.bind name result) fun _ => c.pure _
  | print value variant =>
    simp only [Evaluation.exec]
    refine c.bind (heval value) fun result => ?_
    split
    · exact c.pure _
    · exact c.after (.write _) fun _ => c.pure _
  | ifThen cond body =>
    simp only [Evaluation.exec]
    exact c.bind (heval cond) fun value => c.ite (hbody body) (c.pure _)
  | ifElse cond body other =>
    simp only [Evaluation.exec]
    exact c.bind (heval cond) fun value => c.ite (hbody body) (hbody other)
  | whileLoop cond body =>
    simp only [Evaluation.exec]
    exact c.whileRounds rounds (hz.whileRounds (heval cond) (hbody body)) (heval cond) (hbody body)
  | forLoop counter start stop body =>
    simp only [Evaluation.exec]
    refine c.bind (heval start) fun low => c.bind (c.number low _) fun first =>
      c.bind (heval stop) fun high => c.bind (c.number high _) fun last => ?_
    exact c.forRounds counter last rounds (hz.forRounds counter last (hbody body)) (hbody body)
      first
  | function name params body =>
    simp only [Evaluation.exec]
    exact c.after (.register name params body) fun _ => c.pure _
  | ret value =>
    simp only [Evaluation.exec]
    exact c.bind (heval value) fun result => c.pure _
  | _ =>
    simp only [Evaluation.exec]
    exact c.bind (heval _) fun _ => c.pure _

/-- The induction is on the depth, for both activities at once. -/
theorem relatedAt (hz : c.Covers rounds more extra) (depth : Nat) :
    c.RelatedAt rounds more extra depth := by
  induction depth with
  | zero =>
    constructor
    · intro node
      rw [Nat.zero_add, Evaluation.eval]
      exact hz.eval node
    · intro node
      rw [Nat.zero_add, Evaluation.exec]
      exact hz.exec node
  | succ depth ih =>
    unfold RelatedAt
    rw [Nat.succ_add]
    exact ⟨eval_succ ih, exec_succ hz ih⟩

theorem hoist (c : Congruence) (program : List Node) :
    c.rel (Evaluation.hoist program) (Evaluation.hoist program) := by
  induction program with
  | nil => exact c.pure _
  | cons node rest ih =>
    cases node with
    | function name params body => exact c.after (.register name params body) fun _ => ih
    | _ => exact ih

/-- A whole run: the functions at the top are registered first, then the statements follow. -/
theorem run (hz : c.Covers rounds more extra) (depth : Nat) (program : List Node) :
    c.rel (Evaluation.run rounds depth program)
      (Evaluation.run (rounds + more) (depth + extra) program) :=
  c.bind (c.hoist program) fun _ => c.topLevel (relatedAt hz depth).2 program

/-- Budgets cover themselves. -/
theorem covers_same (c : Congruence) (rounds : Nat) : c.Covers rounds 0 0 where
  eval node := by
    rw [Evaluation.eval]
    exact c.own .tooDeep
  exec node := by
    rw [Evaluation.exec]
    exact c.own .tooDeep
  whileRounds _ _ := c.own .unfinished
  forRounds _ _ _ _ _ _ := c.own .unfinished

end Nodes

end Congruence

end PrefixScript
