import PrefixScript.Proofs.Moments
import PrefixScript.Proofs.NodeFaults

/-!
# What is observed in a run

A fragment of the language says which nodes may be evaluated and which may be executed. A run that
starts in a fragment stays in it: all its moments belong to the fragment, and a fault is one of a
node of the fragment. At every moment the functions that can be called are those from the start, and
over them those that were declared at the moments before.
-/
namespace PrefixScript

/-- A part of the language: the nodes that may be evaluated and those that may be executed, along
with everything that they go on to evaluate and to execute. -/
structure Fragment where
  expression : Node → Prop
  statement : Node → Prop
  expression_operand : ∀ {node operand}, expression node → operand ∈ node.operands →
    expression operand
  statement_operand : ∀ {node operand}, statement node → operand ∈ node.operands →
    expression operand
  statement_step : ∀ {node step}, statement node → step ∈ node.steps → statement step
  statement_bare : ∀ {node}, statement node → node.isStatement = false → expression node

namespace Fragment

/-- The nodes of some trees, wherever they stand. -/
def ofTrees (trees : List Node) : Fragment where
  expression node := node ∈ Node.subnodesOf trees
  statement node := node ∈ Node.subnodesOf trees
  expression_operand := @Node.operand_mem_subnodesOf trees
  statement_operand := @Node.operand_mem_subnodesOf trees
  statement_step := @Node.step_mem_subnodesOf trees
  statement_bare hn _ := hn

/-- The whole language. -/
def whole : Fragment where
  expression _ := True
  statement _ := True
  expression_operand _ _ := trivial
  statement_operand _ _ := trivial
  statement_step _ _ := trivial
  statement_bare _ _ := trivial

variable (fragment : Fragment)

/-- The bodies of the functions that can be called are in the fragment. -/
def Registry (functions : Table Declaration) : Prop :=
  ∀ name found, functions.find? name = some found → ∀ step ∈ found.body, fragment.statement step

/-- A task is about a node of the fragment, in its role. -/
def Within : Task → Prop
  | .evaluating node => fragment.expression node
  | .executing node => fragment.statement node

/-- A fault comes from a node of the fragment: from an expression, or from the bounds of a counting
loop, which have to be numbers. -/
def Blames (functions : Table Declaration) (failure : Failure) : Prop :=
  ∀ fault, failure = .fault fault →
    ∃ node, (fragment.expression node ∧ node.Raises functions fault) ∨
      (fragment.statement node ∧ ∃ text, fault = .notNumeric text (some node))

variable {fragment}

theorem Registry.insert {functions : Table Declaration} (h : fragment.Registry functions)
    {name : String} {found : Declaration} (hf : ∀ step ∈ found.body, fragment.statement step) :
    fragment.Registry (functions.insert name found) := by
  have hregistry : functions.Holds fun _ found => ∀ step ∈ found.body, fragment.statement step := h
  exact hregistry.insert hf

end Fragment

/-- The function that can be called by a name after some moments: the one that was declared last,
or else the one from the start. -/
def callable? (base : Table Declaration) (past : List Moment) (name : String) :
    Option Declaration :=
  (lastExecuted? past name).or (base.find? name)

namespace Watched

/-- The moments are in the fragment, and the functions that could be called at each of them, and can
be called now, are those from the start with those declared since. -/
structure Sound (fragment : Fragment) (base : Table Declaration) (watched : Watched) : Prop where
  registry : fragment.Registry watched.machine.functions
  current : ∀ name, watched.machine.functions.find? name = callable? base watched.past name
  moments : ∀ later moment earlier, watched.past = later ++ moment :: earlier →
    fragment.Within moment.task ∧
      ∀ name, moment.machine.functions.find? name = callable? base earlier name

section Sound
variable {fragment : Fragment} {base : Table Declaration} {watched : Watched}

theorem Sound.start {machine : Machine} (h : fragment.Registry machine.functions) :
    (Watched.start machine).Sound fragment machine.functions where
  registry := h
  current _ := rfl
  moments later moment earlier he := by simp [Watched.start] at he

/-- What changes the frames and the world only is not observed. -/
theorem Sound.of_functions_eq (h : watched.Sound fragment base) {machine : Machine}
    (he : machine.functions = watched.machine.functions) :
    Sound fragment base { watched with machine } where
  registry := he ▸ h.registry
  current := he ▸ h.current
  moments := h.moments

/-- One more moment: what could be called then is what can be called now. -/
theorem Sound.moments_noted (h : watched.Sound fragment base) {task : Task}
    (ht : fragment.Within task) (later : List Moment) (moment : Moment) (earlier : List Moment)
    (he : (watched.noted task).past = later ++ moment :: earlier) :
    fragment.Within moment.task ∧
      ∀ name, moment.machine.functions.find? name = callable? base earlier name := by
  cases later with
  | nil =>
    obtain ⟨rfl, rfl⟩ := List.cons.inj he
    exact ⟨ht, h.current⟩
  | cons latest later => exact h.moments later moment earlier (List.cons.inj he).2

theorem Sound.noted (h : watched.Sound fragment base) {task : Task} (ht : fragment.Within task)
    (hd : task.declaration? = none) : (watched.noted task).Sound fragment base where
  registry := h.registry
  current name := by
    have hl : lastExecuted? (⟨task, watched.machine⟩ :: watched.past) name =
        lastExecuted? watched.past name := lastExecuted?_cons_of_none hd watched.past name
    simp only [Watched.noted, callable?, hl]
    exact h.current name
  moments := h.moments_noted ht

/-- Executing a declaration makes its function the one that can be called by its name. -/
theorem Sound.declared (h : watched.Sound fragment base) {name : String} {params : List String}
    {body : List Node} (hs : fragment.statement (.function name params body)) :
    Sound fragment base
      { watched.noted (.executing (.function name params body)) with
        machine := { watched.machine with
          functions := watched.machine.functions.insert name ⟨params, body⟩ } } where
  registry := h.registry.insert fun step hstep => fragment.statement_step hs hstep
  current key := by
    have hl : lastExecuted? (⟨.executing (.function name params body), watched.machine⟩ ::
        watched.past) key = if key = name then some ⟨params, body⟩ else
          lastExecuted? watched.past key := lastExecuted?_cons_of_some rfl watched.past key
    simp only [Watched.noted, callable?, hl, Table.find?_insert]
    by_cases hk : key = name
    · simp [hk]
    · simpa [hk, callable?] using h.current key
  moments := h.moments_noted hs

end Sound

/-- A watched machine is this machine, and what was observed is sound. -/
def Follows (fragment : Fragment) (base : Table Declaration) (watched : Watched)
    (machine : Machine) : Prop :=
  watched.machine = machine ∧ watched.Sound fragment base

/-- The same after a failure, which is to be blamed on a node of the fragment. -/
def Fails (fragment : Fragment) (base : Table Declaration) (failure : Failure) (watched : Watched)
    (machine : Machine) : Prop :=
  watched.Follows fragment base machine ∧ fragment.Blames machine.functions failure

section Simulation
variable {fragment : Fragment} {base : Table Declaration} {α : Type}

/-- Watching simulates evaluation. -/
abbrev Traces (fragment : Fragment) (base : Table Declaration) (watching : WatchM α)
    (activity : RunM α) : Prop :=
  Simulates (Follows fragment base) (Fails fragment base) watching activity

theorem ends_quietly {activity : RunM α} {watched : Watched} {ok : α → Watched → Prop}
    {bad : Failure → Watched → Prop} :
    Ends (quietly activity) watched ok bad ↔
      Ends activity watched.machine (fun a machine => ok a { watched with machine })
        (fun e machine => bad e { watched with machine }) := by
  unfold Ends quietly
  cases activity watched.machine <;> rfl

/-- An activity that leaves the functions alone is traced. -/
theorem traces_quietly {activity : RunM α}
    (h : ∀ machine, Ends activity machine (fun _ after => after.functions = machine.functions)
      (fun failure after => after.functions = machine.functions ∧
        fragment.Blames after.functions failure)) :
    Traces fragment base (quietly activity) activity := by
  rintro watched _ ⟨rfl, hs⟩
  have hm := h watched.machine
  rw [EndAlike, ends_quietly]
  unfold Ends at hm ⊢
  cases he : activity watched.machine with
  | ok a after =>
    simp only [he] at hm
    exact ⟨after, rfl, rfl, hs.of_functions_eq hm⟩
  | error failure after =>
    simp only [he] at hm
    exact ⟨after, rfl, ⟨rfl, hs.of_functions_eq hm.1⟩, hm.2⟩

/-- What an expression does by itself is traced. -/
theorem traces_own {site : Node} (hn : fragment.expression site) {activity : RunM α}
    (h : (ownLaw site).Obeyed activity) : Traces fragment base (quietly activity) activity := by
  refine traces_quietly fun machine => (h machine).mono (fun _ _ hk => hk.2) ?_
  rintro failure after ⟨⟨-, hf⟩, fault, rfl, hr⟩
  refine ⟨hf, ?_⟩
  rintro _ ⟨⟩
  exact ⟨site, .inl ⟨hn, hf ▸ hr⟩⟩

theorem traces_modify {f : Machine → Machine}
    (h : ∀ machine, (f machine).functions = machine.functions) :
    Traces fragment base (quietly (modify f)) (modify f) :=
  traces_quietly fun machine => h machine

/-- The bounds of a counting loop are the only operands of a statement that have to be numbers. -/
theorem traces_bound {site : Node} (hs : fragment.statement site) (value : Value) :
    Traces fragment base (quietly (Machine.number value site)) (Machine.number value site) := by
  refine traces_quietly fun machine => ?_
  unfold Machine.number
  split
  · exact rfl
  · rename_i text _
    refine ⟨rfl, ?_⟩
    rintro _ ⟨⟩
    exact ⟨site, .inr ⟨hs, text, rfl⟩⟩

/-- The activity starts with a moment, at which nothing is declared. -/
theorem traces_note (task : Task) (ht : fragment.Within task) (hd : task.declaration? = none)
    {watching : WatchM α} {activity : RunM α} (h : Traces fragment base watching activity) :
    Traces fragment base (note task >>= fun _ => watching) activity := by
  rintro watched machine ⟨rfl, hs⟩
  rw [EndAlike, note, ends_bind, ends_modify]
  exact h (watched.noted task) watched.machine ⟨rfl, hs.noted ht hd⟩

theorem traces_evaluating {node : Node} (hn : fragment.expression node) {watching : WatchM α}
    {activity : RunM α} (h : Traces fragment base watching activity) :
    Traces fragment base (note (.evaluating node) >>= fun _ => watching) activity :=
  traces_note (.evaluating node) hn rfl h

theorem traces_executing {node : Node} (hn : fragment.statement node)
    (hd : node.declaration? = none) {watching : WatchM α} {activity : RunM α}
    (h : Traces fragment base watching activity) :
    Traces fragment base (note (.executing node) >>= fun _ => watching) activity :=
  traces_note (.executing node) hn hd h

/-- A failure that is no fault cannot be blamed on a node. -/
theorem fails_of_follows {failure : Failure} (h : ∀ fault, failure ≠ .fault fault)
    (watched : Watched) (machine : Machine) (hf : watched.Follows fragment base machine) :
    watched.Fails fragment base failure machine :=
  ⟨hf, fun fault he => absurd he (h fault)⟩

theorem traces_callee {name : String} {args : List Node}
    (hn : fragment.expression (.call name args)) :
    Traces fragment base (quietly (Machine.callee name args.length (.call name args)))
      (Machine.callee name args.length (.call name args)) := by
  refine traces_own hn fun machine => (ends_callee name args machine).mono ?_ fun _ _ h => h
  rintro found _ ⟨rfl, -, -⟩
  exact ⟨rfl, rfl⟩

/-- All evaluations at a depth are traced. -/
def TracedAt (fragment : Fragment) (base : Table Declaration) (rounds depth : Nat) : Prop :=
  (∀ node, fragment.expression node →
    Traces fragment base (Watched.eval rounds depth node) (Evaluation.eval rounds depth node)) ∧
  ∀ node, fragment.statement node →
    Traces fragment base (Watched.exec rounds depth node) (Evaluation.exec rounds depth node)

variable {rounds depth : Nat}

theorem eval_call_traced (h : TracedAt fragment base rounds depth) {name : String}
    {args : List Node} (hn : fragment.expression (.call name args)) :
    Traces fragment base (Watched.eval rounds (depth + 1) (.call name args))
      (Evaluation.eval rounds (depth + 1) (.call name args)) := by
  simp only [Watched.eval, Evaluation.eval, Loop.values_machine, Loop.sequence_machine]
  have hfound : ∀ watched machine, Follows fragment base watched machine →
      Ends (quietly (Machine.callee name args.length (.call name args))) watched
        (fun found _ => ∀ step ∈ found.body, fragment.statement step) (fun _ _ => True) := by
    rintro watched _ ⟨rfl, hs⟩
    rw [ends_quietly]
    refine (ends_callee name args watched.machine).mono ?_ fun _ _ _ => trivial
    rintro found _ ⟨-, hf, -⟩
    exact hs.registry name found hf
  apply traces_evaluating hn
  refine .bind_of (traces_callee hn) hfound fun found hbody => ?_
  refine .bind (Loop.values_simulates args [] fun arg ha => ?_) fun arguments => ?_
  · exact h.1 arg (fragment.expression_operand hn ha)
  refine .bind (traces_modify fun _ => rfl) fun _ => ?_
  refine .bind (Loop.sequence_simulates found.body fun step hstep => ?_) fun completion => ?_
  · exact h.2 step (hbody step hstep)
  · exact .bind (traces_modify fun _ => rfl) fun _ => .pure _

/-- One level of evaluation, a case for each kind of node. -/
theorem eval_traced_succ (h : TracedAt fragment base rounds depth) {node : Node}
    (hn : fragment.expression node) :
    Traces fragment base (Watched.eval rounds (depth + 1) node)
      (Evaluation.eval rounds (depth + 1) node) := by
  have hop (operand) (ho : operand ∈ node.operands) :
      Traces fragment base (Watched.eval rounds depth operand)
        (Evaluation.eval rounds depth operand) :=
    h.1 operand (fragment.expression_operand hn ho)
  cases node with
  | call name args => exact eval_call_traced h hn
  | literal value =>
    simp only [Watched.eval, Evaluation.eval]
    exact traces_evaluating hn (.pure value)
  | lookup name =>
    simp only [Watched.eval, Evaluation.eval]
    exact traces_evaluating hn (traces_own hn (ownLaw_lookup name))
  | math op left right =>
    simp only [Watched.eval, Evaluation.eval]
    exact traces_evaluating hn <| .bind (hop left (by simp [Node.operands])) fun x =>
      .bind (hop right (by simp [Node.operands])) fun y =>
        traces_own hn (ownLaw_math op left right x y)
  | unary op operand =>
    simp only [Watched.eval, Evaluation.eval]
    exact traces_evaluating hn <| .bind (hop operand (by simp [Node.operands])) fun x =>
      traces_own hn (ownLaw_unary op operand x)
  | comparison op left right =>
    simp only [Watched.eval, Evaluation.eval]
    exact traces_evaluating hn <| .bind (hop left (by simp [Node.operands])) fun x =>
      .bind (hop right (by simp [Node.operands])) fun y =>
        traces_own hn (ownLaw_comparison op left right x y)
  | read =>
    simp only [Watched.eval, Evaluation.eval]
    exact traces_evaluating hn (traces_own hn ownLaw_readLine)
  | pause delay =>
    simp only [Watched.eval, Evaluation.eval]
    exact traces_evaluating hn <| .bind (hop delay (by simp [Node.operands])) fun x =>
      traces_own hn (ownLaw_pause delay x)
  | wipe =>
    simp only [Watched.eval, Evaluation.eval]
    exact traces_evaluating hn <| .bind (traces_modify fun _ => rfl) fun _ => .pure _
  | _ =>
    simp only [Watched.eval, Evaluation.eval]
    exact traces_evaluating hn (traces_own hn (ownLaw_fail fun _ => .unknownExpression rfl))

/-- One level of execution. A declaration changes what can be called, right at its moment. -/
theorem exec_traced_succ (h : TracedAt fragment base rounds depth) {node : Node}
    (hn : fragment.statement node) :
    Traces fragment base (Watched.exec rounds (depth + 1) node)
      (Evaluation.exec rounds (depth + 1) node) := by
  have hop (operand) (ho : operand ∈ node.operands) :
      Traces fragment base (Watched.eval rounds depth operand)
        (Evaluation.eval rounds depth operand) :=
    h.1 operand (fragment.statement_operand hn ho)
  have hbody (body : List Node) (hb : ∀ step ∈ body, step ∈ node.steps) :
      Traces fragment base (Loop.sequence (Watched.exec rounds depth) body)
        (Loop.sequence (Evaluation.exec rounds depth) body) :=
    Loop.sequence_simulates body fun step hs => h.2 step (fragment.statement_step hn (hb step hs))
  have hu (watched machine) (hf : Follows fragment base watched machine) :
      watched.Fails fragment base .unfinished machine :=
    fails_of_follows (fun _ he => by cases he) watched machine hf
  cases node with
  | bind name value =>
    simp only [Watched.exec, Evaluation.exec]
    exact traces_executing hn rfl <| .bind (hop value (by simp [Node.operands])) fun result =>
      .bind (traces_modify fun _ => rfl) fun _ => .pure _
  | print value variant =>
    simp only [Watched.exec, Evaluation.exec]
    refine traces_executing hn rfl <| .bind (hop value (by simp [Node.operands])) fun result => ?_
    cases result with
    | none => exact .pure _
    | _ => exact .bind (traces_modify fun _ => rfl) fun _ => .pure _
  | ifThen cond body =>
    simp only [Watched.exec, Evaluation.exec, Loop.sequence_machine]
    exact traces_executing hn rfl <| .bind (hop cond (by simp [Node.operands])) fun _ =>
      .ite (hbody body (by simp [Node.steps])) (.pure _)
  | ifElse cond body other =>
    simp only [Watched.exec, Evaluation.exec, Loop.sequence_machine]
    exact traces_executing hn rfl <| .bind (hop cond (by simp [Node.operands])) fun _ =>
      .ite (hbody body (by simp +contextual [Node.steps]))
        (hbody other (by simp +contextual [Node.steps]))
  | whileLoop cond body =>
    simp only [Watched.exec, Evaluation.exec, Loop.sequence_machine, Loop.whileRounds_machine]
    exact traces_executing hn rfl <| Loop.whileRounds_simulates rounds hu
      (hop cond (by simp [Node.operands])) (hbody body (by simp [Node.steps]))
  | forLoop counter start stop body =>
    simp only [Watched.exec, Evaluation.exec, Loop.sequence_machine, Loop.forRounds_machine]
    refine traces_executing hn rfl <| .bind (hop start (by simp [Node.operands])) fun low =>
      .bind (traces_bound hn low) fun first =>
        .bind (hop stop (by simp [Node.operands])) fun high =>
          .bind (traces_bound hn high) fun last => ?_
    exact Loop.forRounds_simulates rounds first hu (fun x => traces_modify fun _ => rfl)
      (hbody body (by simp [Node.steps]))
  | function name params body =>
    simp only [Watched.exec, Evaluation.exec]
    rintro watched _ ⟨rfl, hs⟩
    exact ⟨_, rfl, rfl, hs.declared hn⟩
  | ret value =>
    simp only [Watched.exec, Evaluation.exec]
    exact traces_executing hn rfl <| .bind (hop value (by simp [Node.operands])) fun _ => .pure _
  | _ =>
    simp only [Watched.exec, Evaluation.exec]
    exact traces_executing hn rfl <| .bind (h.1 _ (fragment.statement_bare hn rfl)) fun _ => .pure _

/-- The induction is on the depth, for both activities at once. -/
theorem tracedAt (fragment : Fragment) (base : Table Declaration) (rounds depth : Nat) :
    TracedAt fragment base rounds depth := by
  induction depth with
  | zero =>
    have hd (watched machine) (hf : Follows fragment base watched machine) :
        watched.Fails fragment base .tooDeep machine :=
      fails_of_follows (fun _ he => by cases he) watched machine hf
    constructor
    · intro node _
      simp only [Watched.eval, Evaluation.eval]
      exact .throw hd
    · intro node _
      simp only [Watched.exec, Evaluation.exec]
      exact .throw hd
  | succ depth ih =>
    exact ⟨fun node hn => eval_traced_succ ih hn, fun node hn => exec_traced_succ ih hn⟩

end Simulation

end Watched

/-- The functions that can be called once those at the top of a program are registered. -/
def hoisted (functions : Table Declaration) (program : List Node) : Table Declaration :=
  (program.filterMap Node.declaration?).foldl (fun table entry => table.insert entry.1 entry.2)
    functions

theorem hoist_eq (program : List Node) (machine : Machine) :
    Evaluation.hoist program machine =
      .ok () { machine with functions := hoisted machine.functions program } := by
  induction program generalizing machine with
  | nil => rfl
  | cons node rest ih =>
    cases node with
    | function name params body =>
      exact ih { machine with functions := machine.functions.insert name ⟨params, body⟩ }
    | _ => exact ih machine

theorem Fragment.Registry.hoisted {fragment : Fragment} {functions : Table Declaration}
    (h : fragment.Registry functions) {program : List Node}
    (hp : ∀ node ∈ program, fragment.statement node) :
    fragment.Registry (hoisted functions program) := by
  induction program generalizing functions with
  | nil => exact h
  | cons node rest ih =>
    have hrest : ∀ next ∈ rest, fragment.statement next :=
      fun next hn => hp next (List.mem_cons_of_mem _ hn)
    cases node with
    | function name params body =>
      have hbody : ∀ step ∈ body, fragment.statement step :=
        fun step hs => fragment.statement_step (hp _ List.mem_cons_self) hs
      exact ih (h.insert hbody) hrest
    | _ => exact ih h hrest

/-- A whole run: what is watched is the run, all its moments are in the fragment, and the functions
that can be called are accounted for at each of them. A fault comes from the fragment. -/
theorem Watched.run_traced {fragment : Fragment} {machine : Machine} {program : List Node}
    (hr : fragment.Registry machine.functions) (hp : ∀ node ∈ program, fragment.statement node)
    (rounds depth : Nat) :
    Ends (Watched.run rounds depth program) (.start machine)
      (fun _ final => Evaluation.run rounds depth program machine = .ok () final.machine ∧
        final.Sound fragment (hoisted machine.functions program))
      (fun failure final => Evaluation.run rounds depth program machine =
          .error failure final.machine ∧
        final.Sound fragment (hoisted machine.functions program) ∧
        fragment.Blames final.machine.functions failure) := by
  have hhoist := hoist_eq program machine
  generalize hm : { machine with functions := hoisted machine.functions program } = ready at hhoist
  have hready : ready.functions = hoisted machine.functions program := by rw [← hm]
  have hstart : (Watched.start ready).Sound fragment ready.functions :=
    .start (hready ▸ hr.hoisted hp)
  have htop := Loop.topLevel_simulates program fun node hn =>
    (Watched.tracedAt fragment ready.functions rounds depth).2 node (hp node hn)
  have hrun : Evaluation.run rounds depth program machine =
      Loop.topLevel (Evaluation.exec rounds depth) program ready := by
    rw [Evaluation.run, bind_of_ok hhoist, Loop.topLevel_machine]
  have hquiet : Watched.quietly (Evaluation.hoist program) (.start machine) =
      .ok () (.start ready) := by
    simp only [Watched.quietly, Watched.start, hhoist]
  rw [Watched.run, ends_bind_of_ok hquiet, hrun, ← hready]
  refine Ends.mono (htop (.start ready) ready ⟨rfl, hstart⟩) ?_ ?_
  · rintro _ final ⟨_, he, rfl, hs⟩
    exact ⟨he, hs⟩
  · rintro failure final ⟨_, he, ⟨rfl, hs⟩, hb⟩
    exact ⟨he, hs, hb⟩

end PrefixScript
