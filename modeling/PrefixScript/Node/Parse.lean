import PrefixScript.Arities
import PrefixScript.Decimal.Written
import PrefixScript.Fault
import PrefixScript.Text.Escape

/-!
# Parsing

Programs are written in prefix form, so each construct is known by its first token and no
parentheses are needed. The parser's state is the list of tokens that are left.

Parsing is nested as deeply as its parts stand in each other, and no deeper than a given limit.
Every part spends one unit of what is left of the limit on the parts in it: expressions, the
arguments of a call, statements, what follows the first word of a statement, bodies, and blocks.
Looking at tokens and moving past them is not counted, so a limit says how deeply parts may be
nested, but not to the last step where a machine gives up.
-/

namespace PrefixScript

abbrev ParseM := EStateM Failure (List Token)

namespace Parse

/-- The next token, which stays. -/
def peek : ParseM Token := do
  match ← get with
  | [] => throw (.defect .tokensExhausted)
  | token :: _ => return token

/-- Moves past the next token. -/
def advance : ParseM Unit := modify List.tail

/-- Moves past the next token, which has to be of the given kind. -/
def consume (expected : Kind) : ParseM Token := do
  let token ← peek
  if token.kind = expected then
    advance
    return token
  else throw (.fault (.expectedToken expected token))

/-- A number of items, after those found before (last first). -/
def repeated {α : Type} (item : ParseM α) : (count : Nat) → (before : List α) → ParseM (List α)
  | 0, before => return before.reverse
  | count + 1, before => do
    let next ← item
    repeated item count (next :: before)

/-- Items up to a token of the given kind, which stays, after those found before (last first). Every
item moves past a token, so as many rounds as there are tokens are enough: once they are used up, no
token is left. -/
def upTo {α : Type} (stop : Kind) (item : ParseM α) :
    (rounds : Nat) → (before : List α) → ParseM (List α)
  | 0, _ => throw (.defect .tokensExhausted)
  | rounds + 1, before => do
    let token ← peek
    if token.kind = stop then return before.reverse
    else
      let next ← item
      upTo stop item rounds (next :: before)

/-- The text between the quotes of a literal, escapes resolved. -/
def literalText (lexeme : String) : String :=
  String.ofList (Text.unescape lexeme.toList.tail.dropLast)

mutual

/-- An expression. A name with an arity is a call, which takes that many expressions. -/
def expression (arities : Arities) : (depth : Nat) → ParseM Node
  | 0 => throw .tooDeep
  | depth + 1 => do
    let token ← peek
    match token.kind with
    | .sqrt | .random | .reverse | .len =>
      advance
      let operand ← expression arities depth
      return .unary token.lexeme operand
    | .equal | .notEqual =>
      advance
      let left ← expression arities depth
      let right ← expression arities depth
      return .comparison token.lexeme left right
    | .plus | .minus | .times | .divide =>
      advance
      let left ← expression arities depth
      let right ← expression arities depth
      return .math token.lexeme left right
    | .identifier =>
      advance
      match arities.find? token.lexeme with
      | some count =>
        let args ← arguments arities depth count
        return .call token.lexeme args
      | none => return .lookup token.lexeme
    | .number =>
      advance
      match Decimal.writtenValue? token.lexeme.toList with
      | some value => return .literal (.number value)
      | none => throw (.defect (.noNumber token.lexeme))
    | .string =>
      advance
      return .literal (.text (literalText token.lexeme))
    | .read =>
      advance
      return .read
    | .pause =>
      advance
      let delay ← expression arities depth
      return .pause delay
    | .wipe =>
      advance
      return .wipe
    | _ => throw (.fault (.unexpectedToken token))

/-- The arguments of a call. -/
def arguments (arities : Arities) : (depth : Nat) → (count : Nat) → ParseM (List Node)
  | 0, _ => throw .tooDeep
  | depth + 1, count => repeated (expression arities depth) count []

end

/-- A parameter, and a comma after it if there is one. -/
def parameter : ParseM String := do
  let token ← consume .identifier
  let next ← peek
  if next.kind = .comma then advance
  return token.lexeme

def binding (arities : Arities) : (depth : Nat) → ParseM Node
  | 0 => throw .tooDeep
  | depth + 1 => do
    let _ ← consume .letWord
    let name ← consume .identifier
    let _ ← consume .assign
    let value ← expression arities depth
    return .bind name.lexeme value

/-- One of the words that print, and what it prints. -/
def printing (arities : Arities) : (depth : Nat) → ParseM Node
  | 0 => throw .tooDeep
  | depth + 1 => do
    let word ← peek
    advance
    let value ← expression arities depth
    return .print value word.lexeme

mutual

/-- A statement, given the rounds for the lists in it. An expression that stands alone is printed, a
pause or a wipe apart. -/
def statement (arities : Arities) (rounds : Nat) : (depth : Nat) → ParseM Node
  | 0 => throw .tooDeep
  | depth + 1 => do
    let token ← peek
    match token.kind with
    | .letWord => binding arities depth
    | .printWord | .sayWord => printing arities depth
    | .ifWord => conditional arities rounds depth
    | .whileWord => whileLoop arities rounds depth
    | .forWord => forLoop arities rounds depth
    | .functionWord => declaration arities rounds depth
    | .returnWord =>
      advance
      let value ← expression arities depth
      return .ret value
    | .pause | .wipe => expression arities depth
    | _ =>
      let value ← expression arities depth
      return .print value "implicit"

def conditional (arities : Arities) (rounds : Nat) : (depth : Nat) → ParseM Node
  | 0 => throw .tooDeep
  | depth + 1 => do
    let _ ← consume .ifWord
    let cond ← expression arities depth
    let first ← body arities rounds depth
    let next ← peek
    if next.kind = .elseWord then
      advance
      let second ← body arities rounds depth
      return .ifElse cond first second
    else return .ifThen cond first

def whileLoop (arities : Arities) (rounds : Nat) : (depth : Nat) → ParseM Node
  | 0 => throw .tooDeep
  | depth + 1 => do
    let _ ← consume .whileWord
    let cond ← expression arities depth
    let inner ← body arities rounds depth
    return .whileLoop cond inner

def forLoop (arities : Arities) (rounds : Nat) : (depth : Nat) → ParseM Node
  | 0 => throw .tooDeep
  | depth + 1 => do
    let _ ← consume .forWord
    let counter ← consume .identifier
    let _ ← consume .assign
    let start ← expression arities depth
    let stop ← expression arities depth
    let inner ← body arities rounds depth
    return .forLoop counter.lexeme start stop inner

def declaration (arities : Arities) (rounds : Nat) : (depth : Nat) → ParseM Node
  | 0 => throw .tooDeep
  | depth + 1 => do
    let _ ← consume .functionWord
    let name ← consume .identifier
    let _ ← consume .leftParen
    let params ← upTo .rightParen parameter rounds []
    let _ ← consume .rightParen
    let inner ← block arities rounds depth
    return .function name.lexeme params inner

/-- Statements in braces, or one statement. -/
def body (arities : Arities) (rounds : Nat) : (depth : Nat) → ParseM (List Node)
  | 0 => throw .tooDeep
  | depth + 1 => do
    let token ← peek
    if token.kind = .leftBrace then block arities rounds depth
    else
      let only ← statement arities rounds depth
      return [only]

/-- Statements in braces. -/
def block (arities : Arities) (rounds : Nat) : (depth : Nat) → ParseM (List Node)
  | 0 => throw .tooDeep
  | depth + 1 => do
    let _ ← consume .leftBrace
    let inner ← upTo .rightBrace (statement arities rounds depth) rounds []
    let _ ← consume .rightBrace
    return inner

end

/-- The statements of a program, up to the ending token. -/
def program (arities : Arities) (rounds depth : Nat) : ParseM (List Node) :=
  upTo .ending (statement arities rounds depth) rounds []

/-- Parses a token list, given how deeply parts may be nested. -/
def tokens (depth : Nat) (list : List Token) : EStateM.Result Failure (List Token) (List Node) :=
  program (.ofTokens list) list.length depth list

end Parse

end PrefixScript
