import PrefixScript.Text.Quoted

/-!
# Styled text

Reports set some words in bold, and some of those in colour. A styled text keeps the marking apart
from the characters, and a terminal without colours gets the characters alone. A word that is fitted
into its place is marked first, so there the marks count as characters.
-/

namespace PrefixScript

/-- The colours in use. -/
inductive Ink where
  | red
  | magenta

/-- Where a word stands in its room. -/
inductive Align where
  | left
  | right
  | centre
deriving DecidableEq, Repr

/-- How a word is fitted into its place: whether it is put in quotes, how many characters are kept
then, and the room for them, which is filled up. -/
structure Fit where
  quoted : Bool
  kept : Option Nat
  fill : Char
  align : Align
  room : Nat
deriving DecidableEq, Repr

def Fit.apply (fit : Fit) (text : String) : String :=
  let whole := (if fit.quoted then Text.quoted text else text).toList
  let chars :=
    match fit.kept with
    | none => whole
    | some count => whole.take count
  let missing := fit.room - chars.length
  let before :=
    match fit.align with
    | .left => 0
    | .right => missing
    | .centre => missing / 2
  String.ofList (List.replicate before fit.fill ++ chars ++
    List.replicate (missing - before) fit.fill)

/-- A run of characters of one style. -/
inductive Span where
  | plain (text : String)
  | bold (ink : Option Ink) (text : String)
  /-- A bold word that is fitted into its place together with its marks. -/
  | fitted (fit : Fit) (text : String)

/-- A text made of spans. -/
abbrev Styled := List Span

/-- The control sequence that switches to a colour. -/
def Ink.code : Ink → String
  | .red => "\x1b[31m"
  | .magenta => "\x1b[35m"

namespace Span

/-- The characters of a span. -/
def content : Span → String
  | plain text => text
  | bold _ text => text
  | fitted fit text => fit.apply text

/-- A bold word, as a terminal with colours is sent it. -/
def marked (ink : Option Ink) (text : String) : String :=
  "\x1b[1m" ++ (ink.map Ink.code).getD "" ++ text ++ "\x1b[0m"

/-- What a terminal is sent for a span. -/
def render (colour : Bool) : Span → String
  | plain text => text
  | bold ink text => if colour then marked ink text else text
  | fitted fit text => fit.apply (if colour then marked none text else text)

/-- Without colours a span is its characters. -/
@[simp] theorem render_false (span : Span) : span.render false = span.content := by
  cases span <;> simp [render, content]

end Span

namespace Styled

def plain (text : String) : Styled := [.plain text]

def bold (text : String) : Styled := [.bold none text]

def inked (ink : Ink) (text : String) : Styled := [.bold (some ink) text]

/-- The characters of a styled text. -/
def content (styled : Styled) : String := String.join (styled.map Span.content)

/-- What a terminal is sent for a styled text. -/
def render (colour : Bool) (styled : Styled) : String :=
  String.join (styled.map (Span.render colour))

/-- Without colours a styled text is its characters. -/
@[simp] theorem render_false (styled : Styled) : styled.render false = styled.content := by
  simp only [render, content, funext Span.render_false]

end Styled

end PrefixScript
