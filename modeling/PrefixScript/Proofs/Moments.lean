import PrefixScript.Proofs.Simulation
import PrefixScript.Proofs.Subnodes

/-!
# The moments of a run

A run is watched: each time the machine sets out to evaluate or to execute a node, the node and the
machine as it is then are noted. The notes of a run, the latest first, are its moments. Watching
evaluates as evaluation does, and does nothing else but to take the notes.
-/
namespace PrefixScript

/-- What a machine can set out to do. -/
inductive Task where
  | evaluating (node : Node)
  | executing (node : Node)

/-- A machine that sets out to do something. -/
structure Moment where
  task : Task
  machine : Machine

/-- A machine, and the moments up to now, the latest first. -/
structure Watched where
  machine : Machine
  past : List Moment

abbrev WatchM := EStateM Failure Watched

namespace Watched

/-- A machine of which nothing is noted yet. -/
def start (machine : Machine) : Watched := ⟨machine, []⟩

/-- The machine sets out to do something now. -/
def noted (watched : Watched) (task : Task) : Watched :=
  { watched with past := ⟨task, watched.machine⟩ :: watched.past }

def note (task : Task) : WatchM Unit := modify (·.noted task)

/-- An activity of the machine in which it evaluates and executes nothing. -/
def quietly {α : Type} (activity : RunM α) : WatchM α := fun watched =>
  match activity watched.machine with
  | .ok result machine => .ok result { watched with machine }
  | .error failure machine => .error failure { watched with machine }

mutual

/-- The value of an expression, with its moments. -/
def eval (rounds : Nat) : (depth : Nat) → Node → WatchM Value
  | 0, _ => throw .tooDeep
  | depth + 1, node => do
    note (.evaluating node)
    match node with
    | .literal value => return value
    | .lookup name => quietly (Machine.lookup name (some node))
    | .math op left right => do
      let first ← eval rounds depth left
      let second ← eval rounds depth right
      quietly (Operator.math op first second node)
    | .unary op operand => do
      let value ← eval rounds depth operand
      quietly (Operator.unary op value node)
    | .comparison op left right => do
      let first ← eval rounds depth left
      let second ← eval rounds depth right
      quietly (Operator.comparison op first second node)
    | .call name args => do
      let declaration ← quietly (Machine.callee name args.length node)
      let arguments ← Loop.values (eval rounds depth) args []
      quietly (Machine.push (.ofList (declaration.params.zip arguments)))
      let completion ← Loop.sequence (exec rounds depth) declaration.body
      quietly Machine.pop
      return completion.value
    | .read => quietly Machine.readLine
    | .pause delay => do
      let value ← eval rounds depth delay
      quietly (Operator.pause value node)
    | .wipe => do
      quietly (Machine.write Operator.clearScreen)
      return .none
    | _ => quietly (Machine.fail (.unknownExpression node))

/-- Executes a statement, with its moments. -/
def exec (rounds : Nat) : (depth : Nat) → Node → WatchM Completion
  | 0, _ => throw .tooDeep
  | depth + 1, node => do
    note (.executing node)
    match node with
    | .bind name value => do
      let result ← eval rounds depth value
      quietly (Machine.bind name result)
      return .normal
    | .print value _ => do
      let result ← eval rounds depth value
      match result with
      | .none => return .normal
      | result =>
        quietly (Machine.write (result.render ++ "\n"))
        return .normal
    | .ifThen cond body => do
      let value ← eval rounds depth cond
      if value.isTrue then Loop.sequence (exec rounds depth) body else return .normal
    | .ifElse cond body other => do
      let value ← eval rounds depth cond
      if value.isTrue then Loop.sequence (exec rounds depth) body
      else Loop.sequence (exec rounds depth) other
    | .whileLoop cond body =>
      Loop.whileRounds (eval rounds depth cond) (Loop.sequence (exec rounds depth) body) rounds
    | .forLoop counter start stop body => do
      let low ← eval rounds depth start
      let first ← quietly (Machine.number low node)
      let high ← eval rounds depth stop
      let last ← quietly (Machine.number high node)
      Loop.forRounds (fun x => quietly (Machine.bind counter (.number x))) last
        (Loop.sequence (exec rounds depth) body) rounds first
    | .function name params body => do
      quietly (Machine.register name params body)
      return .normal
    | .ret value => do
      let result ← eval rounds depth value
      return .returning result
    | _ => do
      let _ ← eval rounds depth node
      return .normal

end

/-- Runs the statements of a program, with their moments. -/
def run (rounds depth : Nat) (program : List Node) : WatchM Unit := do
  quietly (Evaluation.hoist program)
  Loop.topLevel (exec rounds depth) program

end Watched

/-- The function that is declared by a task, if it is to execute a declaration. -/
def Task.declaration? : Task → Option (String × Declaration)
  | .executing node => node.declaration?
  | .evaluating _ => none

/-- The function of a name that was declared last at some moments (latest first). -/
def lastExecuted? (past : List Moment) (name : String) : Option Declaration :=
  ((past.filterMap (·.task.declaration?)).find? (·.1 = name)).map (·.2)

theorem lastExecuted?_cons_of_none {moment : Moment} (h : moment.task.declaration? = none)
    (past : List Moment) (name : String) :
    lastExecuted? (moment :: past) name = lastExecuted? past name := by
  simp [lastExecuted?, h]

theorem lastExecuted?_cons_of_some {moment : Moment} {key : String} {found : Declaration}
    (h : moment.task.declaration? = some (key, found)) (past : List Moment) (name : String) :
    lastExecuted? (moment :: past) name =
      if name = key then some found else lastExecuted? past name := by
  by_cases hk : name = key
  · simp [lastExecuted?, h, hk]
  · have hk' : ¬ key = name := fun he => hk he.symm
    simp [lastExecuted?, h, hk, hk']

end PrefixScript
