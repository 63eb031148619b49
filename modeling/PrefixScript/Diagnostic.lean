import PrefixScript.Node
import PrefixScript.Styled
import PrefixScript.Text.Slice
import PrefixScript.Token

/-!
# Diagnostics

A diagnostic is what an error or a warning tells its reader: a message in which the words at fault
are bold, the text at fault with the part to point at, and what the error arose on.
-/

namespace PrefixScript

/-- The categories of diagnostics. -/
inductive Category where
  | general
  | lexical
  | importing
  | syntactic
  | running
  | undefinedVariable
  | undefinedFunction
  | arity
  | operand
  | division
  | domain
  | malformed
deriving DecidableEq, Repr

namespace Category

/-- Whether diagnostics of a category show an excerpt of the text at fault, unless told
otherwise. -/
def showsExcerpt : Category → Bool
  | general | lexical | importing => true
  | _ => false

/-- Whether diagnostics of a category are marked as internal, unless told otherwise. -/
def isInternal : Category → Bool
  | malformed => true
  | _ => false

end Category

/-- What a diagnostic arose on. -/
inductive Context where
  | none
  | token (token : Token)
  | node (node : Node)
  | text (text : String)

structure Diagnostic where
  category : Category
  message : Styled
  /-- The text at fault, of which the characters from `start` to `stop` are pointed at. -/
  subject : String
  start : Int
  stop : Int
  excerpt : Bool
  internal : Bool
  context : Context

namespace Diagnostic

/-- A diagnostic with the defaults of its category, which points at the whole text at fault. -/
def basic (category : Category) (message : Styled) (subject : String) (context : Context) :
    Diagnostic :=
  { category, message, subject, start := 0, stop := subject.length,
    excerpt := category.showsExcerpt, internal := category.isInternal, context }

/-- The text at fault with its part highlighted, and a second line that points at that part. At
least one character is pointed at. -/
def highlight (d : Diagnostic) (ink : Ink) : Styled :=
  let text := d.subject.toList
  let stop := max d.stop (d.start + 1)
  let marks := '^' :: List.replicate (stop - d.start - 1).toNat '~'
  .plain ("  " ++ String.ofList (Text.upTo text d.start)) ++
    .inked ink (String.ofList (Text.slice text d.start stop)) ++
    .plain (String.ofList (Text.onward text stop) ++ "\n") ++
    .plain ("  " ++ String.ofList (List.replicate d.start.toNat ' ')) ++
    .inked ink (String.ofList marks)

/-- Whether a report of this diagnostic shows the text at fault. -/
def isHighlighted (d : Diagnostic) : Bool := !d.internal && d.subject != "" && d.excerpt

end Diagnostic

end PrefixScript
