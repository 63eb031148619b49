import PrefixScript.Proofs.NodeFaults
import PrefixScript.Proofs.Subnodes

/-!
# Disciplines of evaluation

A discipline says which nodes may be evaluated and executed, which functions may be registered, and
which laws the two activities obey. Its fields are local facts: about a node and its children, and
about one step of a machine. From these every evaluation obeys the discipline, whatever it calls,
repeats or redeclares. This is the only induction over evaluations that such facts need.
-/
namespace PrefixScript

namespace Law
variable {ε σ α : Type}

/-- The law for states with an invariant, which is kept too. -/
def guarded (law : Law ε σ) (inv : σ → Prop) : Law ε σ where
  kept s t := inv s → inv t ∧ law.kept s t
  failed e s t := inv s → inv t ∧ law.failed e s t
  refl s hs := ⟨hs, law.refl s⟩
  trans h k hs := ⟨(k (h hs).1).1, law.trans (h hs).2 (k (h hs).1).2⟩
  failed_of_kept h k hs := ⟨(k (h hs).1).1, law.failed_of_kept (h hs).2 (k (h hs).1).2⟩

theorem obeyed_guarded {law : Law ε σ} {inv : σ → Prop} {activity : EStateM ε σ α}
    (h : ∀ s, inv s → Ends activity s (fun _ t => inv t ∧ law.kept s t)
      (fun e t => inv t ∧ law.failed e s t)) : (law.guarded inv).Obeyed activity := by
  intro s
  by_cases hs : inv s
  · exact (h s hs).mono (fun _ _ ht _ => ht) (fun _ _ ht _ => ht)
  · unfold Ends
    split <;> exact fun hs' => absurd hs' hs

theorem Obeyed.ends {law : Law ε σ} {inv : σ → Prop} {activity : EStateM ε σ α}
    (h : (law.guarded inv).Obeyed activity) {s : σ} (hs : inv s) :
    Ends activity s (fun _ t => inv t ∧ law.kept s t) (fun e t => inv t ∧ law.failed e s t) :=
  (h s).mono (fun _ _ ht => ht hs) (fun _ _ ht => ht hs)

end Law

namespace Evaluation
variable {law : Law Failure Machine}

theorem values_obeyed {eval : Node → RunM Value} (nodes : List Node) (before : List Value)
    (h : ∀ node ∈ nodes, law.Obeyed (eval node)) : law.Obeyed (values eval nodes before) := by
  induction nodes generalizing before with
  | nil => exact .pure _
  | cons node rest ih =>
    exact .bind (h node List.mem_cons_self) fun value =>
      ih (value :: before) fun other ho => h other (List.mem_cons_of_mem _ ho)

theorem sequence_obeyed {exec : Node → RunM Completion} (body : List Node)
    (h : ∀ node ∈ body, law.Obeyed (exec node)) : law.Obeyed (sequence exec body) := by
  induction body with
  | nil => exact .pure _
  | cons node rest ih =>
    refine .bind (h node List.mem_cons_self) fun completion => ?_
    cases completion with
    | normal => exact ih fun other ho => h other (List.mem_cons_of_mem _ ho)
    | returning value => exact .pure _

/-- The rounds of a loop are used up one by one; each is a condition and a body. -/
theorem whileRounds_obeyed {cond : RunM Value} {body : RunM Completion} (rounds : Nat)
    (hu : ∀ s, law.failed .unfinished s s) (hc : law.Obeyed cond) (hb : law.Obeyed body) :
    law.Obeyed (whileRounds cond body rounds) := by
  induction rounds with
  | zero => exact .throw hu
  | succ rounds ih =>
    refine .bind hc fun value => .ite (.bind hb fun completion => ?_) (.pure _)
    cases completion with
    | normal => exact ih
    | returning value => exact .pure _

theorem forRounds_obeyed {counter : String} {last : Float} {body : RunM Completion} (rounds : Nat)
    (current : Float) (hu : ∀ s, law.failed .unfinished s s)
    (hc : ∀ value, law.Obeyed (Machine.bind counter value)) (hb : law.Obeyed body) :
    law.Obeyed (forRounds counter last body rounds current) := by
  induction rounds generalizing current with
  | zero => exact .throw hu
  | succ rounds ih =>
    refine .ite (.bind (hc _) fun _ => .bind hb fun completion => ?_) (.pure _)
    cases completion with
    | normal => exact ih (current + 1)
    | returning value => exact .pure _

theorem topLevel_obeyed {exec : Node → RunM Completion} (program : List Node)
    (h : ∀ node ∈ program, law.Obeyed (exec node)) : law.Obeyed (topLevel exec program) := by
  induction program with
  | nil => exact .pure _
  | cons node rest ih =>
    exact .bind (h node List.mem_cons_self) fun _ =>
      ih fun other ho => h other (List.mem_cons_of_mem _ ho)

end Evaluation

/-- What may be evaluated, executed and registered, and the laws of evaluating and executing. -/
structure Discipline where
  expression : Node → Prop
  statement : Node → Prop
  registered : String → Declaration → Prop
  evaluating : Law Failure Machine
  executing : Law Failure Machine
  expression_operand : ∀ {node operand}, expression node → operand ∈ node.operands →
    expression operand
  statement_operand : ∀ {node operand}, statement node → operand ∈ node.operands →
    expression operand
  statement_step : ∀ {node step}, statement node → step ∈ node.steps → statement step
  statement_bare : ∀ {node}, statement node → node.isStatement = false → expression node
  statement_function : ∀ {name params body}, statement (.function name params body) →
    registered name ⟨params, body⟩
  registered_body : ∀ {name found step}, registered name found → step ∈ found.body →
    statement step
  executing_kept : ∀ {s t}, evaluating.kept s t → executing.kept s t
  executing_failed : ∀ {e s t}, evaluating.failed e s t → executing.failed e s t
  world_kept : ∀ {s t}, t.frames = s.frames → t.functions = s.functions → evaluating.kept s t
  raises_failed : ∀ {node s fault}, expression node ∨ statement node →
    (∀ name found, s.functions.find? name = some found → registered name found) →
    node.Raises s.functions fault → evaluating.failed (.fault fault) s s
  tooDeep_failed : ∀ s, evaluating.failed .tooDeep s s
  unfinished_failed : ∀ s, executing.failed .unfinished s s
  bind_kept : ∀ s name value, executing.kept s { s with frames := s.frames.bind name value }
  register_kept : ∀ {name params body} s, statement (.function name params body) →
    executing.kept s { s with functions := s.functions.insert name ⟨params, body⟩ }
  call_kept : ∀ {s t frame}, executing.kept { s with frames := s.frames.push frame } t →
    evaluating.kept s { t with frames := t.frames.pop }
  call_failed : ∀ {e s t frame}, executing.failed e { s with frames := s.frames.push frame } t →
    evaluating.failed e s t

namespace Discipline
variable (d : Discipline)

/-- Only functions that may be registered can be called. -/
def Registry (machine : Machine) : Prop :=
  ∀ name found, machine.functions.find? name = some found → d.registered name found

/-- The law of evaluating while the registry is as it should be. -/
def evalLaw : Law Failure Machine := d.evaluating.guarded d.Registry

def execLaw : Law Failure Machine := d.executing.guarded d.Registry

variable {d} {α : Type}

theorem registry_congr {s t : Machine} (h : t.functions = s.functions) (hs : d.Registry s) :
    d.Registry t := by
  unfold Registry at *
  rwa [h]

theorem execLaw_of_evalLaw {activity : RunM α} (h : d.evalLaw.Obeyed activity) :
    d.execLaw.Obeyed activity := fun s =>
  (h s).mono (fun _ _ ht hs => ⟨(ht hs).1, d.executing_kept (ht hs).2⟩)
    (fun _ _ ht hs => ⟨(ht hs).1, d.executing_failed (ht hs).2⟩)

theorem evalLaw_failed_of_own {site : Node} (h : d.expression site ∨ d.statement site)
    {failure : Failure} {s t : Machine} (hf : (ownLaw site).failed failure s t) :
    d.evalLaw.failed failure s t := by
  intro hs
  obtain ⟨⟨hframes, hfunctions⟩, fault, rfl, hr⟩ := hf
  have ht : d.Registry t := registry_congr hfunctions hs
  refine ⟨ht, d.evaluating.failed_of_kept (d.world_kept hframes hfunctions) ?_⟩
  exact d.raises_failed h ht (hfunctions ▸ hr)

/-- What a node does by itself is allowed. -/
theorem evalLaw_of_own {site : Node} (h : d.expression site ∨ d.statement site)
    {activity : RunM α} (ha : (ownLaw site).Obeyed activity) : d.evalLaw.Obeyed activity :=
  fun s => (ha s).mono
    (fun _ _ ht hs => ⟨registry_congr ht.2 hs, d.world_kept ht.1 ht.2⟩)
    (fun _ _ ht => evalLaw_failed_of_own h ht)

theorem execLaw_bind (name : String) (value : Value) :
    d.execLaw.Obeyed (Machine.bind name value) :=
  .modify fun s hs => ⟨registry_congr rfl hs, d.bind_kept s name value⟩

theorem execLaw_register {name : String} {params : List String} {body : List Node}
    (h : d.statement (.function name params body)) :
    d.execLaw.Obeyed (Machine.register name params body) := by
  refine .modify fun s hs => ⟨?_, d.register_kept s h⟩
  have hregistered : s.functions.Holds d.registered := hs
  exact hregistered.insert (d.statement_function h)

/-- A call pushes a frame, executes a body and drops the frame again. -/
theorem evalLaw_call {body : RunM Completion} (frame : Table Value)
    (h : d.execLaw.Obeyed body) :
    d.evalLaw.Obeyed (do
      Machine.push frame
      let completion ← body
      Machine.pop
      return completion.value) := by
  refine Law.obeyed_guarded fun s hs => ?_
  have hp : d.Registry { s with frames := s.frames.push frame } := registry_congr rfl hs
  simp only [Machine.push, Machine.pop, ends_bind, ends_modify, ends_pure]
  refine (Law.Obeyed.ends h hp).mono ?_ ?_
  · exact fun _ t ht => ⟨registry_congr rfl ht.1, d.call_kept ht.2⟩
  · exact fun e t ht => ⟨ht.1, d.call_failed ht.2⟩

/-- All evaluations at a depth obey the laws. -/
def ObeyedAt (d : Discipline) (rounds depth : Nat) : Prop :=
  (∀ node, d.expression node → d.evalLaw.Obeyed (Evaluation.eval rounds depth node)) ∧
    ∀ node, d.statement node → d.execLaw.Obeyed (Evaluation.exec rounds depth node)

/-- The case of a call: the registry says that the body of the function that is found may be
executed. -/
theorem eval_call_obeyed {rounds depth : Nat} (h : d.ObeyedAt rounds depth) {name : String}
    {args : List Node} (hn : d.expression (.call name args)) :
    d.evalLaw.Obeyed (Evaluation.eval rounds (depth + 1) (.call name args)) := by
  simp only [Evaluation.eval]
  refine Law.obeyed_guarded fun s hs => ?_
  rw [ends_bind]
  refine (ends_callee name args s).mono ?_ ?_
  · rintro found t ⟨rfl, hf, -⟩
    have hargs := Evaluation.values_obeyed args []
      fun arg ha => h.1 arg (d.expression_operand hn ha)
    have hbody := Evaluation.sequence_obeyed found.body
      fun step hstep => h.2 step (d.registered_body (hs name found hf) hstep)
    exact Law.Obeyed.ends (.bind hargs fun arguments => evalLaw_call _ hbody) hs
  · exact fun failure t ht => evalLaw_failed_of_own (.inl hn) ht hs

/-- One level of evaluation, a case for each kind of node. -/
theorem eval_obeyed_succ {rounds depth : Nat} (h : d.ObeyedAt rounds depth) {node : Node}
    (hn : d.expression node) : d.evalLaw.Obeyed (Evaluation.eval rounds (depth + 1) node) := by
  have hop (operand) (ho : operand ∈ node.operands) :
      d.evalLaw.Obeyed (Evaluation.eval rounds depth operand) :=
    h.1 operand (d.expression_operand hn ho)
  cases node with
  | call name args => exact eval_call_obeyed h hn
  | literal value =>
    simp only [Evaluation.eval]
    exact .pure value
  | lookup name =>
    simp only [Evaluation.eval]
    exact evalLaw_of_own (.inl hn) (ownLaw_lookup name)
  | math op left right =>
    simp only [Evaluation.eval]
    exact .bind (hop left (by simp [Node.operands])) fun x =>
      .bind (hop right (by simp [Node.operands])) fun y =>
        evalLaw_of_own (.inl hn) (ownLaw_math op left right x y)
  | unary op operand =>
    simp only [Evaluation.eval]
    exact .bind (hop operand (by simp [Node.operands])) fun x =>
      evalLaw_of_own (.inl hn) (ownLaw_unary op operand x)
  | comparison op left right =>
    simp only [Evaluation.eval]
    exact .bind (hop left (by simp [Node.operands])) fun x =>
      .bind (hop right (by simp [Node.operands])) fun y =>
        evalLaw_of_own (.inl hn) (ownLaw_comparison op left right x y)
  | read =>
    simp only [Evaluation.eval]
    exact evalLaw_of_own (.inl hn) ownLaw_readLine
  | pause delay =>
    simp only [Evaluation.eval]
    exact .bind (hop delay (by simp [Node.operands])) fun x =>
      evalLaw_of_own (.inl hn) (ownLaw_pause delay x)
  | wipe =>
    simp only [Evaluation.eval]
    exact .bind (evalLaw_of_own (.inl hn) (ownLaw_world _)) fun _ => .pure _
  | _ =>
    simp only [Evaluation.eval]
    exact evalLaw_of_own (.inl hn) (ownLaw_fail fun _ => .unknownExpression rfl)

/-- One level of execution. Bodies are executed at the depth below, loops round by round. -/
theorem exec_obeyed_succ {rounds depth : Nat} (h : d.ObeyedAt rounds depth) {node : Node}
    (hn : d.statement node) : d.execLaw.Obeyed (Evaluation.exec rounds (depth + 1) node) := by
  have hop (operand) (ho : operand ∈ node.operands) :
      d.execLaw.Obeyed (Evaluation.eval rounds depth operand) :=
    execLaw_of_evalLaw (h.1 operand (d.statement_operand hn ho))
  have hbody (body : List Node) (hb : ∀ step ∈ body, step ∈ node.steps) :
      d.execLaw.Obeyed (Evaluation.sequence (Evaluation.exec rounds depth) body) :=
    Evaluation.sequence_obeyed body fun step hs => h.2 step (d.statement_step hn (hb step hs))
  have hu (s : Machine) : d.execLaw.failed .unfinished s s := fun hs => ⟨hs, d.unfinished_failed s⟩
  cases node with
  | bind name value =>
    simp only [Evaluation.exec]
    exact .bind (hop value (by simp [Node.operands])) fun result =>
      .bind (execLaw_bind name result) fun _ => .pure _
  | print value variant =>
    simp only [Evaluation.exec]
    refine .bind (hop value (by simp [Node.operands])) fun result => ?_
    split
    · exact .pure _
    · exact .bind (execLaw_of_evalLaw (evalLaw_of_own (.inr hn) (ownLaw_world _))) fun _ => .pure _
  | ifThen cond body =>
    simp only [Evaluation.exec]
    exact .bind (hop cond (by simp [Node.operands])) fun _ =>
      .ite (hbody body (by simp [Node.steps])) (.pure _)
  | ifElse cond body other =>
    simp only [Evaluation.exec]
    exact .bind (hop cond (by simp [Node.operands])) fun _ =>
      .ite (hbody body (by simp +contextual [Node.steps]))
        (hbody other (by simp +contextual [Node.steps]))
  | whileLoop cond body =>
    simp only [Evaluation.exec]
    exact Evaluation.whileRounds_obeyed rounds hu (hop cond (by simp [Node.operands]))
      (hbody body (by simp [Node.steps]))
  | forLoop counter start stop body =>
    simp only [Evaluation.exec]
    have hnum (x) := execLaw_of_evalLaw (evalLaw_of_own (.inr hn) (ownLaw_number x rfl))
    exact .bind (hop start (by simp [Node.operands])) fun low => .bind (hnum low) fun first =>
      .bind (hop stop (by simp [Node.operands])) fun high => .bind (hnum high) fun last =>
        Evaluation.forRounds_obeyed rounds first hu (execLaw_bind counter)
          (hbody body (by simp [Node.steps]))
  | function name params body =>
    simp only [Evaluation.exec]
    exact .bind (execLaw_register hn) fun _ => .pure _
  | ret value =>
    simp only [Evaluation.exec]
    exact .bind (hop value (by simp [Node.operands])) fun _ => .pure _
  | _ =>
    simp only [Evaluation.exec]
    exact .bind (execLaw_of_evalLaw (h.1 _ (d.statement_bare hn rfl))) fun _ => .pure _

/-- The induction is on the depth, for both activities at once. -/
theorem obeyedAt (d : Discipline) (rounds depth : Nat) : d.ObeyedAt rounds depth := by
  induction depth with
  | zero =>
    have ht (s : Machine) : d.evalLaw.failed .tooDeep s s := fun hs => ⟨hs, d.tooDeep_failed s⟩
    constructor
    · intro node _
      simp only [Evaluation.eval]
      exact .throw ht
    · intro node _
      simp only [Evaluation.exec]
      exact execLaw_of_evalLaw (.throw ht)
  | succ depth ih =>
    exact ⟨fun node hn => eval_obeyed_succ ih hn, fun node hn => exec_obeyed_succ ih hn⟩

theorem body_obeyed (d : Discipline) (rounds depth : Nat) (body : List Node)
    (h : ∀ node ∈ body, d.statement node) :
    d.execLaw.Obeyed (Evaluation.sequence (Evaluation.exec rounds depth) body) :=
  Evaluation.sequence_obeyed body fun node hn => (d.obeyedAt rounds depth).2 node (h node hn)

theorem hoist_obeyed (d : Discipline) {program : List Node}
    (h : ∀ node ∈ program, d.statement node) : d.execLaw.Obeyed (Evaluation.hoist program) := by
  induction program with
  | nil => exact .pure _
  | cons node rest ih =>
    have hr := ih fun other ho => h other (List.mem_cons_of_mem _ ho)
    cases node with
    | function name params body =>
      exact .bind (execLaw_register (h _ List.mem_cons_self)) fun _ => hr
    | _ => exact hr

/-- A whole run: the functions at the top are registered first, then the statements follow. -/
theorem run_obeyed (d : Discipline) (rounds depth : Nat) (program : List Node)
    (h : ∀ node ∈ program, d.statement node) :
    d.execLaw.Obeyed (Evaluation.run rounds depth program) :=
  .bind (d.hoist_obeyed h) fun _ =>
    Evaluation.topLevel_obeyed program fun node hn => (d.obeyedAt rounds depth).2 node (h node hn)

end Discipline

end PrefixScript
