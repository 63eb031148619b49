import PrefixScript.Proofs.Observation

/-!
# Returns as exceptions

A second semantics has no completions. A return throws its value, the call around it catches it, and
outside of calls the top-level statement does. All other constructs know nothing of returns: a body
is a plain sequence and a loop a plain loop. The two semantics do the same from every machine.
-/
namespace PrefixScript

/-- Why an activity was left: a return, or a failure. -/
inductive Exit where
  | returned (value : Value)
  | failed (failure : Failure)

/-- Computations of a machine that returns and failures leave alike. -/
abbrev UnwindM := EStateM Exit Machine

namespace Unwinding

/-- What a machine does without returns. -/
def lift {α : Type} (activity : RunM α) : UnwindM α := fun machine =>
  match activity machine with
  | .ok result after => .ok result after
  | .error failure after => .error (.failed failure) after

/-- The value that an activity returns, or none if it does not return. -/
def catchReturn (activity : UnwindM Unit) : UnwindM Value :=
  tryCatch (do activity; return .none) fun
    | .returned value => return value
    | .failed failure => throw (.failed failure)

def whileLoop (cond : UnwindM Value) (body : UnwindM Unit) : (rounds : Nat) → UnwindM Unit
  | 0 => throw (.failed .unfinished)
  | rounds + 1 => do
    let value ← cond
    if value.isTrue then
      body
      whileLoop cond body rounds
    else return ()

def forLoop (counter : String) (last : Float) (body : UnwindM Unit) :
    (rounds : Nat) → (current : Float) → UnwindM Unit
  | 0, _ => throw (.failed .unfinished)
  | rounds + 1, current =>
    if current ≤ last then do
      lift (Machine.bind counter (.number current))
      body
      forLoop counter last body rounds (current + 1)
    else return ()

mutual

/-- The value of an expression. A call catches the return of its body. -/
def eval (rounds : Nat) : (depth : Nat) → Node → UnwindM Value
  | 0, _ => throw (.failed .tooDeep)
  | depth + 1, node =>
    match node with
    | .literal value => return value
    | .lookup name => lift (Machine.lookup name (some node))
    | .math op left right => do
      let first ← eval rounds depth left
      let second ← eval rounds depth right
      lift (Operator.math op first second node)
    | .unary op operand => do
      let value ← eval rounds depth operand
      lift (Operator.unary op value node)
    | .comparison op left right => do
      let first ← eval rounds depth left
      let second ← eval rounds depth right
      lift (Operator.comparison op first second node)
    | .call name args => do
      let declaration ← lift (Machine.callee name args.length node)
      let arguments ← args.mapM (eval rounds depth)
      lift (Machine.push (.ofList (declaration.params.zip arguments)))
      let value ← catchReturn (forM declaration.body (exec rounds depth))
      lift Machine.pop
      return value
    | .read => lift Machine.readLine
    | .pause delay => do
      let value ← eval rounds depth delay
      lift (Operator.pause value node)
    | .wipe => do
      lift (Machine.write Operator.clearScreen)
      return .none
    | _ => lift (Machine.fail (.unknownExpression node))

/-- Executes a statement. Only a return does not go on to what follows. -/
def exec (rounds : Nat) : (depth : Nat) → Node → UnwindM Unit
  | 0, _ => throw (.failed .tooDeep)
  | depth + 1, node =>
    match node with
    | .bind name value => do
      let result ← eval rounds depth value
      lift (Machine.bind name result)
    | .print value _ => do
      let result ← eval rounds depth value
      match result with
      | .none => return ()
      | result => lift (Machine.write (result.render ++ "\n"))
    | .ifThen cond body => do
      let value ← eval rounds depth cond
      if value.isTrue then forM body (exec rounds depth) else return ()
    | .ifElse cond body other => do
      let value ← eval rounds depth cond
      if value.isTrue then forM body (exec rounds depth) else forM other (exec rounds depth)
    | .whileLoop cond body =>
      whileLoop (eval rounds depth cond) (forM body (exec rounds depth)) rounds
    | .forLoop counter start stop body => do
      let low ← eval rounds depth start
      let first ← lift (Machine.number low node)
      let high ← eval rounds depth stop
      let last ← lift (Machine.number high node)
      forLoop counter last (forM body (exec rounds depth)) rounds first
    | .function name params body => lift (Machine.register name params body)
    | .ret value => do
      let result ← eval rounds depth value
      throw (.returned result)
    | _ => do
      let _ ← eval rounds depth node
      return ()

end

/-- Runs the statements of a program. Each of them catches a return of its own. -/
def run (rounds depth : Nat) (program : List Node) : UnwindM Unit := do
  lift (Evaluation.hoist program)
  forM program fun node => do
    let _ ← catchReturn (exec rounds depth node)

/-! Completions are turned into exceptions, and each construct commutes with that. -/

/-- What a statement does in one semantics, in terms of the other one. -/
def raising (activity : RunM Completion) : UnwindM Unit := do
  match ← lift activity with
  | .normal => return ()
  | .returning value => throw (.returned value)

section Laws
variable {α β : Type}

@[simp] theorem lift_pure (a : α) : lift (pure a) = pure a := rfl

@[simp] theorem lift_throw (failure : Failure) :
    lift (throw failure : RunM α) = throw (.failed failure) := rfl

@[simp] theorem lift_bind (activity : RunM α) (next : α → RunM β) :
    lift (activity >>= next) = lift activity >>= fun a => lift (next a) := by
  funext machine
  simp only [lift, bind, EStateM.bind]
  cases activity machine <;> rfl

@[simp] theorem raising_normal : raising (pure .normal) = pure () := rfl

@[simp] theorem raising_returning (value : Value) :
    raising (pure (.returning value)) = throw (.returned value) := rfl

@[simp] theorem raising_throw (failure : Failure) :
    raising (throw failure) = throw (.failed failure) := rfl

@[simp] theorem raising_bind (activity : RunM α) (next : α → RunM Completion) :
    raising (activity >>= next) = lift activity >>= fun a => raising (next a) := by
  simp only [raising, lift_bind, bind_assoc]

/-- A call takes the value of a completion, and so does the one who catches a return. -/
theorem catchReturn_raising (activity : RunM Completion) :
    catchReturn (raising activity) = lift (do return (← activity).value) := by
  funext machine
  -- Both sides depend on the activity only through how it ends from this machine.
  show catchReturn (raising fun _ => activity machine) machine =
    lift (do return (← fun _ => activity machine).value) machine
  generalize activity machine = outcome
  cases outcome with
  | error failure after => rfl
  | ok completion after => cases completion <;> rfl

/-- What follows a statement only if that ends normally just follows it. -/
theorem raising_then {body rest : RunM Completion} {next : Completion → RunM Completion}
    (hnormal : next .normal = rest) (hreturning : ∀ value, next (.returning value) =
      pure (.returning value)) :
    raising (body >>= next) = raising body >>= fun _ => raising rest := by
  rw [raising_bind]
  simp only [raising, bind_assoc]
  congr 1
  funext completion
  cases completion with
  | normal => simp only [hnormal, pure_bind]
  | returning value =>
    simp only [hreturning]
    rfl

theorem lift_values (eval : Node → RunM Value) (nodes : List Node) (before : List Value) :
    lift (Evaluation.values eval nodes before) =
      (before.reverse ++ ·) <$> nodes.mapM fun node => lift (eval node) := by
  induction nodes generalizing before with
  | nil => simp [Evaluation.values]
  | cons node rest ih => simp [Evaluation.values, ih]

theorem raising_sequence (exec : Node → RunM Completion) (body : List Node) :
    raising (Evaluation.sequence exec body) = forM body fun node => raising (exec node) := by
  induction body with
  | nil => rfl
  | cons node rest ih =>
    rw [Evaluation.sequence, List.forM_cons, ← ih]
    exact raising_then rfl fun _ => rfl

theorem raising_whileRounds (cond : RunM Value) (body : RunM Completion) (rounds : Nat) :
    raising (Evaluation.whileRounds cond body rounds) =
      whileLoop (lift cond) (raising body) rounds := by
  induction rounds with
  | zero => rfl
  | succ rounds ih =>
    rw [Evaluation.whileRounds, raising_bind, whileLoop, ← ih]
    congr 1
    funext value
    by_cases h : value.isTrue
    · simp only [if_pos h]
      exact raising_then rfl fun _ => rfl
    · simp only [if_neg h, raising_normal]

theorem raising_forRounds (counter : String) (last : Float) (body : RunM Completion) (rounds : Nat)
    (current : Float) :
    raising (Evaluation.forRounds counter last body rounds current) =
      forLoop counter last (raising body) rounds current := by
  induction rounds generalizing current with
  | zero => rfl
  | succ rounds ih =>
    rw [Evaluation.forRounds, forLoop, ← ih]
    by_cases h : current ≤ last
    · rw [if_pos h, if_pos h, raising_bind]
      congr 1
      funext _
      exact raising_then rfl fun _ => rfl
    · simp only [if_neg h, raising_normal]

end Laws

/-- At a depth the two semantics evaluate and execute alike. -/
def UnwindAt (rounds depth : Nat) : Prop :=
  (∀ node, eval rounds depth node = lift (Evaluation.eval rounds depth node)) ∧
  ∀ node, exec rounds depth node = raising (Evaluation.exec rounds depth node)

section Levels
variable {rounds depth : Nat}

theorem UnwindAt.arguments (h : UnwindAt rounds depth) (args : List Node) :
    args.mapM (eval rounds depth) =
      lift (Evaluation.values (Evaluation.eval rounds depth) args []) := by
  rw [lift_values, funext h.1]
  simp

theorem UnwindAt.body (h : UnwindAt rounds depth) (body : List Node) :
    forM body (exec rounds depth) =
      raising (Evaluation.sequence (Evaluation.exec rounds depth) body) := by
  rw [raising_sequence, funext h.2]

/-- One level of evaluation. A call drops its frame after its body, and the value passes by. -/
theorem eval_unwinds_succ (h : UnwindAt rounds depth) (node : Node) :
    eval rounds (depth + 1) node = lift (Evaluation.eval rounds (depth + 1) node) := by
  cases node with
  | call name args =>
    simp only [eval, Evaluation.eval, lift_bind, h.arguments, h.body, catchReturn_raising,
      bind_assoc, lift_pure, pure_bind]
  | _ => simp only [eval, Evaluation.eval, lift_bind, h.1, lift_pure]

theorem exec_unwinds_succ (h : UnwindAt rounds depth) (node : Node) :
    exec rounds (depth + 1) node = raising (Evaluation.exec rounds (depth + 1) node) := by
  cases node with
  | bind name value =>
    simp only [exec, Evaluation.exec, raising_bind, raising_normal, h.1, bind_pure_unit]
  | print value variant =>
    simp only [exec, Evaluation.exec, raising_bind, h.1]
    congr 1
    funext result
    cases result <;> simp only [raising_bind, raising_normal, bind_pure_unit]
  | ifThen cond body =>
    simp only [exec, Evaluation.exec, raising_bind, raising_normal, apply_ite raising, h.1, h.body]
  | ifElse cond body other =>
    simp only [exec, Evaluation.exec, raising_bind, apply_ite raising, h.1, h.body]
  | whileLoop cond body =>
    simp only [exec, Evaluation.exec, raising_whileRounds, h.1, h.body]
  | forLoop counter start stop body =>
    simp only [exec, Evaluation.exec, raising_bind, raising_forRounds, h.1, h.body]
  | function name params body =>
    simp only [exec, Evaluation.exec, raising_bind, raising_normal, bind_pure_unit]
  | ret value => simp only [exec, Evaluation.exec, raising_bind, raising_returning, h.1]
  | _ => simp only [exec, Evaluation.exec, raising_bind, raising_normal, h.1]

/-- The induction is on the depth, for both activities at once. -/
theorem unwindAt (rounds depth : Nat) : UnwindAt rounds depth := by
  induction depth with
  | zero =>
    constructor
    · intro node
      simp only [eval, Evaluation.eval, lift_throw]
    · intro node
      simp only [exec, Evaluation.exec, raising_throw]
  | succ depth ih => exact ⟨eval_unwinds_succ ih, exec_unwinds_succ ih⟩

theorem run_unwinds (rounds depth : Nat) (program : List Node) :
    run rounds depth program = lift (Evaluation.run rounds depth program) := by
  have htop (nodes : List Node) : (forM nodes fun node => do
      let _ ← catchReturn (exec rounds depth node) : UnwindM Unit) =
        lift (Evaluation.topLevel (Evaluation.exec rounds depth) nodes) := by
    induction nodes with
    | nil => rfl
    | cons node rest ih =>
      rw [List.forM_cons, ih, (unwindAt rounds depth).2, catchReturn_raising]
      simp only [Evaluation.topLevel, lift_bind, lift_pure, bind_assoc, pure_bind]
  rw [run, htop, Evaluation.run, lift_bind]

end Levels

end Unwinding

section Returns
variable {σ α : Type} {P : Value → σ → Prop}

/-- Whenever the activity ends with a return, the value and the state are as in `P`. -/
def Returns (P : Value → σ → Prop) (activity : EStateM Failure σ Completion) : Prop :=
  ∀ s, Ends activity s (fun completion t => ∀ value, completion = .returning value → P value t)
    (fun _ _ => True)

theorem Returns.normal : Returns P (pure .normal : EStateM Failure σ Completion) := by
  intro s value h
  cases h

theorem Returns.bind {activity : EStateM Failure σ α}
    {next : α → EStateM Failure σ Completion} (h : ∀ a, Returns P (next a)) :
    Returns P (activity >>= next) :=
  fun _ => ends_bind_of_forall h fun _ _ => trivial

theorem Returns.ite {p : Prop} [Decidable p] {first second : EStateM Failure σ Completion}
    (h : Returns P first) (h' : Returns P second) : Returns P (if p then first else second) := by
  by_cases hp : p
  · simpa only [if_pos hp] using h
  · simpa only [if_neg hp] using h'

/-- A return of the first activity is the end of both. -/
theorem Returns.andThen {body rest : EStateM Failure σ Completion}
    {next : Completion → EStateM Failure σ Completion} (hb : Returns P body) (hr : Returns P rest)
    (hnormal : next .normal = rest)
    (hreturning : ∀ value, next (.returning value) = pure (.returning value)) :
    Returns P (body >>= next) := by
  intro s
  rw [ends_bind]
  refine (hb s).mono (fun completion t h => ?_) fun _ _ h => h
  cases completion with
  | normal => exact hnormal ▸ hr t
  | returning value =>
    rw [hreturning, ends_pure]
    exact h

theorem Returns.sequence {exec : Node → EStateM Failure σ Completion} {body : List Node}
    (h : ∀ node ∈ body, Returns P (exec node)) : Returns P (Loop.sequence exec body) := by
  induction body with
  | nil => exact .normal
  | cons node rest ih =>
    have hrest := ih fun next hn => h next (List.mem_cons_of_mem _ hn)
    exact .andThen (h node List.mem_cons_self) hrest rfl fun _ => rfl

theorem Returns.whileRounds {cond : EStateM Failure σ Value} {body : EStateM Failure σ Completion}
    (h : Returns P body) (rounds : Nat) : Returns P (Loop.whileRounds cond body rounds) := by
  induction rounds with
  | zero => exact fun _ => trivial
  | succ rounds ih =>
    exact .bind fun value => .ite (.andThen h ih rfl fun _ => rfl) .normal

theorem Returns.forRounds {assign : Float → EStateM Failure σ Unit} {last : Float}
    {body : EStateM Failure σ Completion} (h : Returns P body) (rounds : Nat) (current : Float) :
    Returns P (Loop.forRounds assign last body rounds current) := by
  induction rounds generalizing current with
  | zero => exact fun _ => trivial
  | succ rounds ih =>
    exact .ite (.bind fun _ => .andThen h (ih (current + 1)) rfl fun _ => rfl) .normal

end Returns

/-- A return that stands in some trees has just ended with a value, in this very state, with all its
moments: nothing was done since. -/
def Watched.JustReturned (rounds : Nat) (nodes : List Node) (value : Value) (watched : Watched) :
    Prop :=
  ∃ operand depth earlier, .ret operand ∈ Node.subnodesOf nodes ∧
    Watched.exec rounds depth (.ret operand) earlier = .ok (.returning value) watched

/-- A statement hands on the return of one of its steps as soon as the step is over. -/
theorem Watched.exec_returns (rounds depth : Nat) {trees : List Node} {node : Node}
    (hn : node ∈ Node.subnodesOf trees) :
    Returns (fun value watched => watched.JustReturned rounds trees value)
      (Watched.exec rounds depth node) := by
  induction depth generalizing node with
  | zero =>
    simp only [Watched.exec]
    exact fun _ => trivial
  | succ depth ih =>
    have hbody (body : List Node) (hb : ∀ step ∈ body, step ∈ node.steps) :
        Returns (fun value watched => watched.JustReturned rounds trees value)
          (Loop.sequence (Watched.exec rounds depth) body) :=
      .sequence fun step hs => ih (Node.step_mem_subnodesOf hn (hb step hs))
    cases node with
    | ret value =>
      intro earlier
      unfold Ends
      cases he : Watched.exec rounds (depth + 1) (.ret value) earlier with
      | error failure after => trivial
      | ok completion after =>
        rintro result rfl
        exact ⟨value, depth + 1, earlier, hn, he⟩
    | ifThen cond body =>
      simp only [Watched.exec]
      exact .bind fun _ => .bind fun _ => .ite (hbody body (by simp [Node.steps])) .normal
    | ifElse cond body other =>
      simp only [Watched.exec]
      exact .bind fun _ => .bind fun _ => .ite (hbody body (by simp +contextual [Node.steps]))
        (hbody other (by simp +contextual [Node.steps]))
    | whileLoop cond body =>
      simp only [Watched.exec]
      exact .bind fun _ => .whileRounds (hbody body (by simp [Node.steps])) rounds
    | forLoop counter start stop body =>
      simp only [Watched.exec]
      exact .bind fun _ => .bind fun _ => .bind fun _ => .bind fun _ => .bind fun _ =>
        .forRounds (hbody body (by simp [Node.steps])) rounds _
    | print value variant =>
      simp only [Watched.exec]
      refine .bind fun _ => .bind fun result => ?_
      cases result with
      | none => exact .normal
      | _ => exact .bind fun _ => .normal
    | bind name value =>
      simp only [Watched.exec]
      exact .bind fun _ => .bind fun _ => .bind fun _ => .normal
    | _ =>
      simp only [Watched.exec]
      exact .bind fun _ => .bind fun _ => .normal

/-- When a body ends with a return, the return is the last that was done. -/
theorem Watched.body_returns {rounds depth : Nat} {body : List Node} {machine after : Machine}
    {value : Value} (h : Evaluation.sequence (Evaluation.exec rounds depth) body machine =
      .ok (.returning value) after) :
    ∃ watched : Watched, Loop.sequence (Watched.exec rounds depth) body (.start machine) =
        .ok (.returning value) watched ∧
      watched.machine = after ∧ watched.JustReturned rounds body value := by
  have hstart : (Watched.start machine).Follows Fragment.whole machine.functions machine :=
    ⟨rfl, .start fun _ _ _ _ _ => trivial⟩
  have hsame := Loop.sequence_simulates body (fun node _ =>
    (Watched.tracedAt Fragment.whole machine.functions rounds depth).2 node trivial) _ _ hstart
  have hlast : Returns (fun value watched => watched.JustReturned rounds body value)
      (Loop.sequence (Watched.exec rounds depth) body) := by
    refine .sequence fun node hn => Watched.exec_returns rounds depth ?_
    exact Node.mem_subnodesOf.2 ⟨node, hn, node.self_mem_subnodes⟩
  have hlast := hlast (.start machine)
  rw [EndAlike, ← Loop.sequence_machine, h] at hsame
  unfold Ends at hsame hlast
  cases hw : Loop.sequence (Watched.exec rounds depth) body (.start machine) with
  | error failure watched =>
    simp only [hw] at hsame
    obtain ⟨_, he, -⟩ := hsame
    cases he
  | ok completion watched =>
    simp only [hw] at hsame hlast
    obtain ⟨_, he, hm, -⟩ := hsame
    cases he
    exact ⟨watched, rfl, hm, hlast value rfl⟩

/-- A call takes the value of its body, if there is one, and drops its frame. -/
theorem Evaluation.eval_call_of_ok {rounds depth : Nat} {name : String} {args : List Node}
    {machine ready after : Machine} {found : Declaration} {arguments : List Value}
    {completion : Completion} (hf : machine.functions.find? name = some found)
    (hl : args.length = found.params.length)
    (ha : values (eval rounds depth) args [] machine = .ok arguments ready)
    (hb : sequence (exec rounds depth) found.body
      { ready with frames := ready.frames.push (.ofList (found.params.zip arguments)) } =
        .ok completion after) :
    eval rounds (depth + 1) (.call name args) machine =
      .ok completion.value { after with frames := after.frames.pop } := by
  have hc : Machine.callee name args.length (.call name args) machine = .ok found machine := by
    rw [Machine.callee, bind_of_ok (by rfl)]
    simp only [hf, if_pos hl]
    rfl
  simp only [eval]
  rw [bind_of_ok hc, bind_of_ok ha, bind_of_ok (by rfl), bind_of_ok hb]
  rfl

/-- Evaluation passes completions on from statement to statement, and it does what exceptions do.
From every machine the evaluation of an expression, the execution of a statement and of a body, and
the run of a program end alike in both semantics, on the same machine. When a body ends with a
return, nothing was evaluated or executed after the return; and a call without a return has no
value. -/
theorem returns_unwind (rounds depth : Nat) :
    (∀ node, Unwinding.eval rounds depth node =
      Unwinding.lift (Evaluation.eval rounds depth node)) ∧
    (∀ node, Unwinding.exec rounds depth node =
      Unwinding.raising (Evaluation.exec rounds depth node)) ∧
    (∀ body, forM body (Unwinding.exec rounds depth) =
      Unwinding.raising (Evaluation.sequence (Evaluation.exec rounds depth) body)) ∧
    (∀ program, Unwinding.run rounds depth program =
      Unwinding.lift (Evaluation.run rounds depth program)) ∧
    (∀ body machine value after,
      Evaluation.sequence (Evaluation.exec rounds depth) body machine =
        .ok (.returning value) after →
      ∃ watched : Watched,
        Loop.sequence (Watched.exec rounds depth) body (.start machine) =
          .ok (.returning value) watched ∧
        watched.machine = after ∧ watched.JustReturned rounds body value) ∧
    ∀ name args machine found arguments ready after,
      machine.functions.find? name = some found → args.length = found.params.length →
      Evaluation.values (Evaluation.eval rounds depth) args [] machine = .ok arguments ready →
      Evaluation.sequence (Evaluation.exec rounds depth) found.body
        { ready with frames := ready.frames.push (.ofList (found.params.zip arguments)) } =
          .ok .normal after →
      Evaluation.eval rounds (depth + 1) (.call name args) machine =
        .ok .none { after with frames := after.frames.pop } := by
  have hat := Unwinding.unwindAt rounds depth
  refine ⟨hat.1, hat.2, hat.body, Unwinding.run_unwinds rounds depth, ?_, ?_⟩
  · exact fun body machine value after h => Watched.body_returns h
  · exact fun name args machine found arguments ready after hf hl ha hb =>
      Evaluation.eval_call_of_ok hf hl ha hb

/-- A return inside of a condition and a loop ends the body, so nothing is wiped. There is nothing
to read, so the function does not come to that body and yields no value. -/
theorem returns_unwind_nested :
    let body : List Node := [.whileLoop (.literal (.text "on"))
      [.ifThen (.literal (.text "yes")) [.ret (.literal (.text "out"))], .wipe], .wipe]
    let machine : Machine := ⟨.initial, Table.empty.insert "f" ⟨[], [.ifThen .read body]⟩,
      ⟨.empty, [], fun _ => 0, 0, [], "/"⟩⟩
    Evaluation.sequence (Evaluation.exec 9 9) body machine =
      .ok (.returning (.text "out")) machine ∧
    (∃ watched : Watched, watched.machine = machine ∧
      watched.JustReturned 9 body (.text "out")) ∧
    Evaluation.eval 9 10 (.call "f" []) machine = .ok .none machine := by
  intro body machine
  have hbody : Evaluation.sequence (Evaluation.exec 9 9) body machine =
      .ok (.returning (.text "out")) machine := rfl
  have hunwind := (returns_unwind 9 9).2.2.2.2
  obtain ⟨watched, -, hm, hlast⟩ := hunwind.1 body machine _ _ hbody
  refine ⟨hbody, ⟨watched, hm, hlast⟩, ?_⟩
  exact hunwind.2 "f" [] machine ⟨[], [.ifThen .read body]⟩ [] machine
    { machine with frames := machine.frames.push .empty } rfl rfl rfl rfl

end PrefixScript
