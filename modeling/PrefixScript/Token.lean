/-!
# Tokens

A token is a kind together with the text it was taken from.
-/

namespace PrefixScript

/-- The kinds of tokens. A list of tokens from elsewhere may hold kinds that no source yields. -/
inductive Kind where
  | equal | notEqual
  | letWord | printWord | sayWord | ifWord | elseWord | whileWord | forWord | functionWord
  | returnWord
  | minus | plus | times | divide
  | assign | leftBrace | rightBrace | leftParen | rightParen | colon | comma
  | number | string
  | sqrt | random | reverse | len
  | read | pause | wipe
  | identifier
  | ending
  | other (name : String)
deriving DecidableEq, Repr

namespace Kind

/-- The name of a kind in messages. -/
def name : Kind → String
  | equal => "EQUAL"
  | notEqual => "NOT_EQUAL"
  | letWord => "LET"
  | printWord => "PRINT"
  | sayWord => "SAY"
  | ifWord => "IF"
  | elseWord => "ELSE"
  | whileWord => "WHILE"
  | forWord => "FOR"
  | functionWord => "FUNCTION"
  | returnWord => "RETURN"
  | minus => "MINUS"
  | plus => "PLUS"
  | times => "MULTIPLY"
  | divide => "DIVIDE"
  | assign => "ASSIGN"
  | leftBrace => "LBRACE"
  | rightBrace => "RBRACE"
  | leftParen => "LPAREN"
  | rightParen => "RPAREN"
  | colon => "COLON"
  | comma => "COMMA"
  | number => "NUMBER"
  | string => "STRING"
  | sqrt => "SQRT"
  | random => "RANDOM"
  | reverse => "REVERSE"
  | len => "LEN"
  | read => "READ"
  | pause => "PAUSE"
  | wipe => "WIPE"
  | identifier => "IDENTIFIER"
  | ending => "EOF"
  | other name => name

/-- The kinds that have a name of their own. -/
def known : List Kind :=
  [equal, notEqual, letWord, printWord, sayWord, ifWord, elseWord, whileWord, forWord, functionWord,
   returnWord, minus, plus, times, divide, assign, leftBrace, rightBrace, leftParen, rightParen,
   colon, comma, number, string, sqrt, random, reverse, len, read, pause, wipe, identifier, ending]

/-- The kind of a name. -/
def ofName (name : String) : Kind := (known.find? (·.name == name)).getD (other name)

theorem ofName_name {kind : Kind} (h : kind ∈ known) : ofName kind.name = kind := by
  simp only [known, List.mem_cons, List.not_mem_nil, or_false] at h
  rcases h with rfl | rfl | rfl | rfl | rfl | rfl | rfl | rfl | rfl | rfl | rfl | rfl | rfl | rfl |
    rfl | rfl | rfl | rfl | rfl | rfl | rfl | rfl | rfl | rfl | rfl | rfl | rfl | rfl | rfl | rfl |
    rfl | rfl | rfl <;> rfl

end Kind

structure Token where
  kind : Kind
  lexeme : String
deriving DecidableEq, Repr

/-- The token that closes every token list. -/
def Token.ending : Token := ⟨.ending, ""⟩

end PrefixScript
