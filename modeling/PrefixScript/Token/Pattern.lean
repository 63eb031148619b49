import PrefixScript.Decimal.Numeral
import PrefixScript.Text.Blank

/-!
# Patterns

A pattern measures how many characters at the start of a text belong to it. Zero means that the
text does not start with the pattern.
-/

namespace PrefixScript

abbrev Pattern := List Char → Nat

namespace Pattern

/-- The characters of words: ASCII letters, digits and the underscore. -/
def isWordChar (c : Char) : Bool := c.isAlphanum || c == '_'

/-- The characters that a word may start with. -/
def isWordStart (c : Char) : Bool := c.isAlpha || c == '_'

/-- A text as it stands. -/
def symbol (spelling : List Char) : Pattern := fun text =>
  if spelling.isPrefixOf text then spelling.length else 0

/-- A text as it stands that no word character follows. -/
def word (spelling : List Char) : Pattern := fun text =>
  if spelling.isPrefixOf text && !((text.drop spelling.length).head?.any isWordChar) then
    spelling.length
  else 0

/-- A letter or underscore and the word characters after it. -/
def identifier : Pattern
  | [] => 0
  | c :: rest => if isWordStart c then (rest.takeWhile isWordChar).length + 1 else 0

/-- A run of blanks. -/
def blank : Pattern := fun text => (text.takeWhile Text.isBlank).length

/-- Two slashes, the rest of the line, and its end. -/
def comment : Pattern
  | '/' :: '/' :: rest =>
    let line := (rest.takeWhile (· != '\n')).length
    if line < rest.length then line + 3 else line + 2
  | _ => 0

/-- The length of a literal through its closing quote, given the length before. A backslash takes
the character after it along, which cannot be a line feed. -/
def closing (quote : Char) (before : Nat) : List Char → Nat
  | [] => 0
  | '\\' :: c :: rest => if c = '\n' then 0 else closing quote (before + 2) rest
  | c :: rest =>
    if c = quote then before + 1
    else if c = '\\' then 0
    else closing quote (before + 1) rest

/-- A text literal in double or single quotes. -/
def literal : Pattern
  | '"' :: rest => closing '"' 1 rest
  | '\'' :: rest => closing '\'' 1 rest
  | _ => 0

/-- The word that starts an import directive. -/
def importWord : List Char := ['I', 'M', 'P']

/-- An import directive: its word, blanks, and a name in double quotes, which is not empty. -/
def directive : Pattern := fun text =>
  if importWord.isPrefixOf text then
    let blanks := ((text.drop 3).takeWhile Text.isBlank).length
    match text.drop (3 + blanks) with
    | '"' :: rest =>
      let name := (rest.takeWhile (· != '"')).length
      if 0 < blanks ∧ 0 < name ∧ name < rest.length then blanks + name + 5 else 0
    | _ => 0
  else 0

/-- The name in an import directive. -/
def directiveName (directive : List Char) : List Char :=
  ((directive.dropWhile (· != '"')).drop 1).dropLast

end Pattern

end PrefixScript
