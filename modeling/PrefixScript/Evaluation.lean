import PrefixScript.Machine

/-!
# Evaluation

Expressions are evaluated to values, and statements are executed to a completion. A return ends the
statements around it one by one, up to the call, which takes its value. Two budgets keep evaluation
total: how deeply evaluations may be nested, and how many rounds a loop may take.
-/

namespace PrefixScript

namespace Operator

/-- Arithmetic on two values. Text can only be joined, with the text of the other value. -/
def math (op : String) (left right : Value) (site : Node) : RunM Value :=
  if left.isText || right.isText then
    if op = "+" then return .text (left.render ++ right.render)
    else Machine.fail (.textOperand op site)
  else do
    let x ← Machine.number left site
    let y ← Machine.number right site
    if op = "+" then return .number (x + y)
    else if op = "-" then return .number (x - y)
    else if op = "*" then return .number (x * y)
    else if op = "/" then
      if y == 0 then Machine.fail (.divisionByZero x y site) else return .number (x / y)
    else Machine.fail (.unknownOperator op site)

/-- Comparison of two values. -/
def comparison (op : String) (left right : Value) (site : Node) : RunM Value :=
  if op = "==" then return .bool (left.same right)
  else if op = "!=" then return .bool (!left.same right)
  else Machine.fail (.unknownComparison op site)

/-- The builtin operations on one value. -/
def unary (op : String) (value : Value) (site : Node) : RunM Value :=
  if op = "SQRT" then do
    let x ← Machine.number value site
    if x < 0 then Machine.fail (.negativeRoot x site) else return .number x.sqrt
  else if op = "RANDOM" then do
    let part ← Machine.draw
    let x ← Machine.number value site
    return .number (part * x)
  else if op = "REVERSE" then return .text (String.ofList value.render.toList.reverse)
  else if op = "LEN" then return .number (Float.ofNat value.render.length)
  else Machine.fail (.unknownBuiltin op site)

/-- A pause of a number of milliseconds, which has to be finite. -/
def pause (value : Value) (site : Node) : RunM Value := do
  let delay ← Machine.number value site
  if Decimal.rankOf delay < Decimal.infinityRank then
    Machine.pause delay
    return .none
  else Machine.fail (.endlessPause delay site)

/-- The control sequence that clears the screen. -/
def clearScreen : String := "\x1b[2J\x1b[H"

end Operator

namespace Evaluation

/-- The values of some nodes in order, after those found before (last first). -/
def values (eval : Node → RunM Value) : List Node → (before : List Value) → RunM (List Value)
  | [], before => return before.reverse
  | node :: rest, before => do
    let value ← eval node
    values eval rest (value :: before)

/-- Executes statements in order up to the first return. -/
def sequence (exec : Node → RunM Completion) : List Node → RunM Completion
  | [] => return .normal
  | node :: rest => do
    match ← exec node with
    | .returning value => return .returning value
    | .normal => sequence exec rest

/-- Executes a body as long as a condition is true and there is no return. -/
def whileRounds (cond : RunM Value) (body : RunM Completion) : (rounds : Nat) → RunM Completion
  | 0 => throw .unfinished
  | rounds + 1 => do
    let value ← cond
    if value.isTrue then
      match ← body with
      | .returning value => return .returning value
      | .normal => whileRounds cond body rounds
    else return .normal

/-- Executes a body with a counter that goes up by one, as long as it is not beyond the last value
and there is no return. -/
def forRounds (counter : String) (last : Float) (body : RunM Completion) :
    (rounds : Nat) → (current : Float) → RunM Completion
  | 0, _ => throw .unfinished
  | rounds + 1, current =>
    if current ≤ last then do
      Machine.bind counter (.number current)
      match ← body with
      | .returning value => return .returning value
      | .normal => forRounds counter last body rounds (current + 1)
    else return .normal

mutual

/-- The value of an expression. -/
def eval (rounds : Nat) : (depth : Nat) → Node → RunM Value
  | 0, _ => throw .tooDeep
  | depth + 1, node =>
    match node with
    | .literal value => return value
    | .lookup name => Machine.lookup name (some node)
    | .math op left right => do
      let first ← eval rounds depth left
      let second ← eval rounds depth right
      Operator.math op first second node
    | .unary op operand => do
      let value ← eval rounds depth operand
      Operator.unary op value node
    | .comparison op left right => do
      let first ← eval rounds depth left
      let second ← eval rounds depth right
      Operator.comparison op first second node
    | .call name args => do
      let declaration ← Machine.callee name args.length node
      let arguments ← values (eval rounds depth) args []
      Machine.push (.ofList (declaration.params.zip arguments))
      let completion ← sequence (exec rounds depth) declaration.body
      Machine.pop
      return completion.value
    | .read => Machine.readLine
    | .pause delay => do
      let value ← eval rounds depth delay
      Operator.pause value node
    | .wipe => do
      Machine.write Operator.clearScreen
      return .none
    | _ => Machine.fail (.unknownExpression node)

/-- Executes a statement. The value of an expression is dropped. -/
def exec (rounds : Nat) : (depth : Nat) → Node → RunM Completion
  | 0, _ => throw .tooDeep
  | depth + 1, node =>
    match node with
    | .bind name value => do
      let result ← eval rounds depth value
      Machine.bind name result
      return .normal
    | .print value _ => do
      let result ← eval rounds depth value
      match result with
      | .none => return .normal
      | result =>
        Machine.write (result.render ++ "\n")
        return .normal
    | .ifThen cond body => do
      let value ← eval rounds depth cond
      if value.isTrue then sequence (exec rounds depth) body else return .normal
    | .ifElse cond body other => do
      let value ← eval rounds depth cond
      if value.isTrue then sequence (exec rounds depth) body
      else sequence (exec rounds depth) other
    | .whileLoop cond body =>
      whileRounds (eval rounds depth cond) (sequence (exec rounds depth) body) rounds
    | .forLoop counter start stop body => do
      let low ← eval rounds depth start
      let first ← Machine.number low node
      let high ← eval rounds depth stop
      let last ← Machine.number high node
      forRounds counter last (sequence (exec rounds depth) body) rounds first
    | .function name params body => do
      Machine.register name params body
      return .normal
    | .ret value => do
      let result ← eval rounds depth value
      return .returning result
    | _ => do
      let _ ← eval rounds depth node
      return .normal

end

/-- Makes the functions callable that are declared by some statements themselves. -/
def hoist : List Node → RunM Unit
  | [] => return ()
  | .function name params body :: rest => do
    Machine.register name params body
    hoist rest
  | _ :: rest => hoist rest

/-- Executes top-level statements in order. A return ends only the statement it is in. -/
def topLevel (exec : Node → RunM Completion) : List Node → RunM Unit
  | [] => return ()
  | node :: rest => do
    let _ ← exec node
    topLevel exec rest

/-- Runs the statements of a program. -/
def run (rounds depth : Nat) (program : List Node) : RunM Unit := do
  hoist program
  topLevel (exec rounds depth) program

end Evaluation

end PrefixScript
