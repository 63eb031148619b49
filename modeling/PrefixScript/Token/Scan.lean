import PrefixScript.Token
import PrefixScript.Token.Pattern

/-!
# Scanning

A source text is cut into pieces: tokens, comments, import directives and blanks. At each place the
first rule that matches decides, so the order of the rules is their precedence. Scanning ends at the
end of the text or at the first character where no rule matches.
-/

namespace PrefixScript

/-- What a rule recognises. -/
inductive Label where
  | comment
  | directive
  | blank
  | token (kind : Kind)

structure Rule where
  label : Label
  pattern : Pattern

/-- A piece of a source text. -/
inductive Piece where
  | token (token : Token)
  | comment (text : String)
  | directive (text name : String)
  | blank (text : String)

namespace Rule

/-- The rule of a token kind that is spelled in one way. -/
def symbol (kind : Kind) (spelling : String) : Rule := ⟨.token kind, .symbol spelling.toList⟩

/-- The rule of a token kind that is one word. -/
def word (kind : Kind) (spelling : String) : Rule := ⟨.token kind, .word spelling.toList⟩

/-- The rules in order of precedence. -/
def all : List Rule :=
  [⟨.comment, .comment⟩,
   symbol .equal "==",
   symbol .notEqual "!=",
   ⟨.directive, .directive⟩,
   word .letWord "let",
   word .printWord "print",
   word .sayWord "say",
   word .ifWord "if",
   word .elseWord "else",
   word .whileWord "while",
   word .forWord "for",
   word .functionWord "function",
   word .returnWord "return",
   symbol .minus "-",
   symbol .plus "+",
   symbol .times "*",
   symbol .divide "/",
   symbol .assign "=",
   symbol .leftBrace "\x7b",
   symbol .rightBrace "\x7d",
   symbol .leftParen "(",
   symbol .rightParen ")",
   symbol .colon ":",
   symbol .comma ",",
   ⟨.token .number, Decimal.numeralLength⟩,
   ⟨.token .string, .literal⟩,
   word .sqrt "SQRT",
   word .random "RANDOM",
   word .reverse "REVERSE",
   word .len "LEN",
   word .read "read",
   word .pause "pause",
   word .wipe "wipe",
   ⟨.token .identifier, .identifier⟩,
   ⟨.blank, .blank⟩]

/-- The label of the first rule that matches at the start of a text, and the length of the match. -/
def first? (text : List Char) : List Rule → Option (Label × Nat)
  | [] => none
  | rule :: rest =>
    match rule.pattern text with
    | 0 => first? text rest
    | length + 1 => some (rule.label, length + 1)

end Rule

/-- The piece that a match makes. -/
def Label.piece (label : Label) (text : List Char) : Piece :=
  match label with
  | .comment => .comment (String.ofList text)
  | .directive => .directive (String.ofList text) (String.ofList (Pattern.directiveName text))
  | .blank => .blank (String.ofList text)
  | .token kind => .token ⟨kind, String.ofList text⟩

/-- The characters of a piece. -/
def Piece.text : Piece → String
  | .token found => found.lexeme
  | .comment text => text
  | .directive text _ => text
  | .blank text => text

/-- The pieces of a source text, and what is left of it where no rule matches. -/
structure Scan where
  pieces : List Piece
  rest : List Char

namespace Scan

/-- Scans a text, of which `skip` more characters belong to the piece before. The pieces found so
far stand last first. -/
def resume (pieces : List Piece) (skip : Nat) : List Char → Scan
  | [] => ⟨pieces.reverse, []⟩
  | c :: rest =>
    match skip with
    | skip + 1 => resume pieces skip rest
    | 0 =>
      match Rule.first? (c :: rest) Rule.all with
      | none => ⟨pieces.reverse, c :: rest⟩
      | some (label, length) =>
        resume (label.piece ((c :: rest).take length) :: pieces) (length - 1) rest

/-- Scans a source text. -/
def ofText (text : List Char) : Scan := resume [] 0 text

end Scan

end PrefixScript
