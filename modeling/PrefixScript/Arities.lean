import PrefixScript.Table
import PrefixScript.Token

/-!
# Arities

A call has no brackets: how many expressions belong to it is known from the declaration of the
function. The token list is therefore searched for declarations before it is parsed. The search
looks for the word, a name and a parenthesis, and counts the names up to the closing one.
-/

namespace PrefixScript

/-- The number of parameters of each function that is declared somewhere. -/
abbrev Arities := Table Nat

namespace Arities

/-- How far the search has come in a declaration. -/
inductive Progress where
  | idle
  | started
  | named (name : String)
  | counting (name : String) (count : Nat)

/-- The search goes on by one token. A name that no parenthesis follows ends the declaration, along
with the token found instead. -/
def step (search : Progress × Arities) (token : Token) : Progress × Arities :=
  let (progress, arities) := search
  match progress with
  | .idle => (if token.kind = .functionWord then .started else .idle, arities)
  | .started =>
    if token.kind = .identifier then (.named token.lexeme, arities)
    else (if token.kind = .functionWord then .started else .idle, arities)
  | .named name => (if token.kind = .leftParen then .counting name 0 else .idle, arities)
  | .counting name count =>
    if token.kind = .rightParen then (.idle, arities.insert name count)
    else (.counting name (if token.kind = .identifier then count + 1 else count), arities)

/-- What is known when the tokens are used up: a list that never closes counts as it is. -/
def finish : Progress × Arities → Arities
  | (.counting name count, arities) => arities.insert name count
  | (_, arities) => arities

/-- The arities of the functions that a token list declares. -/
def ofTokens (tokens : List Token) : Arities := finish (tokens.foldl step (.idle, .empty))

end Arities

end PrefixScript
