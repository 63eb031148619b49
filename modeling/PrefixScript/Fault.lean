import PrefixScript.Diagnostic
import PrefixScript.Text.Quoted

/-!
# Faults

Everything that can go wrong in a program, by its cause, and the diagnostic that tells of it.
-/

namespace PrefixScript

inductive Fault where
  /-- No token starts at a character of a line. -/
  | unexpectedCharacter (line : String) (column : Nat) (char : Char) (lineNumber : Nat)
  | unreadableImport (name path : String)
  | expectedToken (expected : Kind) (found : Token)
  | unexpectedToken (found : Token)
  | undefinedVariable (name : String) (site : Option Node)
  | undefinedFunction (name : String) (site : Node)
  | arityMismatch (name : String) (expected given : Nat) (site : Node)
  | textOperand (op : String) (site : Node)
  | notNumeric (text : String) (site : Option Node)
  | divisionByZero (left right : Float) (site : Node)
  | negativeRoot (operand : Float) (site : Node)
  | endlessPause (delay : Float) (site : Node)
  | unknownExpression (site : Node)
  | unknownOperator (op : String) (site : Node)
  | unknownComparison (op : String) (site : Node)
  | unknownBuiltin (op : String) (site : Node)
  | reservedPath (path : String)
  | unreadableSource (path : String)
  /-- An error made up outside the language. -/
  | custom (diagnostic : Diagnostic)

namespace Fault

/-- A message with one bold word, which is also the text at fault. -/
def told (category : Category) (before subject after : String) (context : Context) : Diagnostic :=
  .basic category (.plain before ++ .bold subject ++ .plain after) subject context

/-- The context of an optional node. -/
def siteContext : Option Node → Context
  | some node => .node node
  | none => .none

def diagnostic : Fault → Diagnostic
  | unexpectedCharacter line column char lineNumber =>
    let message := .plain "'" ++ .bold line ++ .plain "' has unexpected character '" ++
      .bold char.toString ++ .plain ("' on line " ++ lineNumber.repr)
    { Diagnostic.basic .lexical message line (.text char.toString) with
      start := column, stop := column + 1 }
  | unreadableImport name path =>
    { told .importing "imported file '" name "' not found or not readable" (.text path) with
      excerpt := false }
  | expectedToken expected found =>
    .basic .syntactic
      (.plain "expected " ++ .bold expected.name ++ .plain " but got " ++ .bold found.kind.name)
      expected.name (.token found)
  | unexpectedToken found => told .syntactic "unexpected token " found.kind.name "" (.token found)
  | undefinedVariable name site =>
    told .undefinedVariable "undefined variable '" name "'" (siteContext site)
  | undefinedFunction name site =>
    told .undefinedFunction "undefined function '" name "'" (.node site)
  | arityMismatch name expected given site =>
    .basic .arity
      (.plain "function '" ++ .bold name ++ .plain "' expects " ++ .bold expected.repr ++
        .plain " args, got " ++ .bold given.repr)
      name (.node site)
  | textOperand op site => told .operand "operator '" op "' not supported for text" (.node site)
  | notNumeric text site =>
    told .operand "cannot use text '" text "' as a number" (siteContext site)
  | divisionByZero left right site =>
    told .division "division by zero in '" ("/ " ++ Decimal.text left ++ " " ++ Decimal.text right)
      "'" (.node site)
  | negativeRoot operand site =>
    told .domain "cannot take SQRT of negative number '" (Decimal.text operand) "'" (.node site)
  | endlessPause delay site =>
    told .domain "cannot pause for '" (Decimal.text delay) "' milliseconds" (.node site)
  | unknownExpression site =>
    told .malformed "unknown expression kind '" site.kindName "'" (.node site)
  | unknownOperator op site => told .malformed "unknown operator '" op "'" (.node site)
  | unknownComparison op site => told .malformed "unknown comparison '" op "'" (.node site)
  | unknownBuiltin op site => told .malformed "unknown builtin '" op "'" (.node site)
  | reservedPath path =>
    { told .general "'" path "' is a reserved filename" .none with excerpt := false }
  | unreadableSource path =>
    { told .general "'" path "' could not be opened" .none with excerpt := false }
  | custom diagnostic => diagnostic

end Fault

/-- A failure that is no fault of the program, by the name and the text that reports show. -/
structure Defect where
  name : String
  text : String
deriving DecidableEq

/-- Why an activity ended without a result. -/
inductive Failure where
  | fault (fault : Fault)
  /-- Something was nested too deeply. -/
  | tooDeep
  /-- The rounds of a loop were used up. -/
  | unfinished
  | interrupted
  | exit (code : Option Int)
  | defect (defect : Defect)

/-- A path with a null character was to be opened. -/
def Defect.nullInPath : Defect := ⟨"ValueError", "embedded null byte"⟩

/-- A token that is given as a number does not write one. -/
def Defect.noNumber (lexeme : String) : Defect :=
  ⟨"ValueError", "could not convert string to float: " ++ Text.quoted lexeme⟩

/-- A token was needed past the end of a token list. -/
def Defect.tokensExhausted : Defect := ⟨"IndexError", "list index out of range"⟩

end PrefixScript
