import PrefixScript.Fault

/-!
# Message templates

A message can be given as a template. In it, `{}` takes the next word, and a slot with a number
takes the word at that place; a template has slots of one of these kinds only. Doubled braces stand
for themselves. A slot may also say how its word is fitted: `!r` puts the word in quotes, and after
a colon stand the character to fill up with, the alignment, the room, and after a point how many
characters are kept. The words are set bold.

Left out are templates with names in their slots, with slots that look into a word, or with other
ways to quote it, and texts that cannot be read as templates.
-/

namespace PrefixScript

/-- The words for the slots of a template: none at all, or a first word, which is the text at fault,
and others. -/
inductive Words where
  | absent
  | given (first : String) (rest : List String)
deriving DecidableEq

namespace Template

/-- A part of a template. -/
inductive Part where
  | text (content : String)
  /-- A slot, with the place of its word and how the word is fitted, if it says so. -/
  | slot (place : Option Nat) (fit : Option Fit)
deriving DecidableEq, Repr

/-! ## Reading templates -/

/-- The number at the front of a text, if it has no more than 18 digits, and what comes after it. -/
def readNumber (text : List Char) : Option Nat × List Char :=
  let digits := text.takeWhile Char.isDigit
  if digits.isEmpty || 18 < digits.length then (none, text)
  else (some (Nat.ofDigitChars 10 digits 0), text.dropWhile Char.isDigit)

def alignOf? : Char → Option Align
  | '<' => some .left
  | '>' => some .right
  | '^' => some .centre
  | _ => none

/-- What to fill up with and the alignment at the front of a text, if they are there, and what
comes after them. -/
def readAlign : List Char → Option Char × Option Align × List Char
  | [] => (none, none, [])
  | first :: rest =>
    match rest.head?.bind alignOf?, alignOf? first with
    | some align, _ => (some first, some align, rest.tail)
    | none, some align => (none, some align, rest)
    | none, none => (none, none, first :: rest)

/-- How a word is fitted, by the text after the colon. If nothing else is given, a room with a zero
in front is filled up with zeros. -/
def readFit (quoted : Bool) (text : List Char) : Option Fit :=
  let (fill, align, rest) := readAlign text
  let blank := if rest.head? = some '0' then '0' else ' '
  let (room, rest) := readNumber rest
  let (kept, rest) :=
    match rest with
    | '.' :: more =>
      match readNumber more with
      | (none, _) => (none, rest)
      | found => found
    | _ => (none, rest)
  if rest = [] ∨ rest = ['s'] then
    some ⟨quoted, kept, fill.getD blank, align.getD .left, room.getD 0⟩
  else none

/-- A slot, by the text between its braces. -/
def readSlot (field : List Char) : Option Part :=
  let (place, rest) := readNumber field
  let fitted (quoted : Bool) (text : List Char) : Option Part :=
    (readFit quoted text).map fun fit => .slot place (some fit)
  match rest with
  | [] => some (.slot place none)
  | ':' :: text => fitted false text
  | ['!', 's'] => fitted false []
  | '!' :: 's' :: ':' :: text => fitted false text
  | ['!', 'r'] => fitted true []
  | '!' :: 'r' :: ':' :: text => fitted true text
  | _ => none

/-- Reads a template, given the characters of the slot that is open (last first), if one is, and the
plain characters before (last first). -/
def readFrom (text : List Char) (slot : Option (List Char)) (plain : List Char) :
    Option (List Part) :=
  match text, slot with
  | [], none => some [.text (String.ofList plain.reverse)]
  | [], some _ => none
  | '\x7b' :: '\x7b' :: rest, none => readFrom rest none ('\x7b' :: plain)
  | '\x7d' :: '\x7d' :: rest, none => readFrom rest none ('\x7d' :: plain)
  | '\x7b' :: rest, none =>
    (readFrom rest (some []) []).map (.text (String.ofList plain.reverse) :: ·)
  | '\x7d' :: _, none => none
  | c :: rest, none => readFrom rest none (c :: plain)
  | '\x7b' :: _, some _ => none
  | '\x7d' :: rest, some field => do
    let part ← readSlot field.reverse
    let parts ← readFrom rest none []
    return part :: parts
  | c :: rest, some field => readFrom rest (some (c :: field)) plain

/-- The parts of a template. -/
def read (template : String) : Option (List Part) := readFrom template.toList none []

/-! ## Filling templates -/

/-- How slots have been numbered so far. -/
inductive Numbering where
  | undecided
  /-- In order, up to the next place. -/
  | counted (next : Nat)
  | written

/-- The place of a slot's word, and the numbering after it. -/
def Numbering.place : Numbering → Option Nat → Except Defect (Nat × Numbering)
  | counted _, some _ => .error ⟨"ValueError",
      "cannot switch from automatic field numbering to manual field specification"⟩
  | _, some place => .ok (place, written)
  | written, none => .error ⟨"ValueError",
      "cannot switch from manual field specification to automatic field numbering"⟩
  | counted next, none => .ok (next, counted (next + 1))
  | undecided, none => .ok (0, counted 1)

/-- The word at a place. -/
def wordAt (words : List String) (place : Nat) : Except Defect String :=
  match words[place]? with
  | some word => .ok word
  | none => .error ⟨"IndexError",
      "Replacement index " ++ place.repr ++ " out of range for positional args tuple"⟩

/-- A word in a slot. -/
def setWord (word : String) : Option Fit → Styled
  | none => .bold word
  | some fit => [.fitted fit word]

/-- The message of some parts, given how the slots before were numbered. -/
def fillFrom (words : List String) : Numbering → List Part → Except Defect Styled
  | _, [] => .ok []
  | numbering, .text content :: rest => do
    let message ← fillFrom words numbering rest
    return .plain content ++ message
  | numbering, .slot place fit :: rest => do
    let (place, numbering) ← numbering.place place
    let word ← wordAt words place
    let message ← fillFrom words numbering rest
    return setWord word fit ++ message

end Template

/-- A template with the words for it. Without words it need not be read. -/
structure Wording where
  template : String
  words : Words
  isRead : words = .absent ∨ (Template.read template).isSome

namespace Wording

/-- The message of a wording. Without words the template stands as it is, braces included. -/
def message (wording : Wording) : Except Defect Styled :=
  match wording.words with
  | .absent => .ok (.plain wording.template)
  | .given first rest =>
    Template.fillFrom (first :: rest) .undecided ((Template.read wording.template).getD [])

/-- The text at fault. -/
def subject (wording : Wording) : String :=
  match wording.words with
  | .absent => ""
  | .given first _ => first

end Wording

/-- What may be said about a diagnostic beyond its message; the category decides what is left
out. -/
structure Details where
  start : Option Int
  stop : Option Int
  excerpt : Option Bool
  internal : Option Bool

namespace Diagnostic

/-- A diagnostic with a wording. A stop of `-1` means the end of the text at fault. -/
def worded (category : Category) (wording : Wording) (details : Details) :
    Except Defect Diagnostic := do
  let whole := basic category (← wording.message) wording.subject .none
  return { whole with
    start := details.start.getD whole.start
    stop := if details.stop.getD (-1) = -1 then whole.stop else details.stop.getD whole.stop
    excerpt := details.excerpt.getD whole.excerpt
    internal := details.internal.getD whole.internal }

/-- A diagnostic from a template that can be read and has its words. -/
def ofTemplate (category : Category) (template : String) (words : Words) (details : Details) :
    Diagnostic :=
  let unread := basic category (.plain template) "" .none
  if h : words = .absent ∨ (Template.read template).isSome then
    match worded category ⟨template, words, h⟩ details with
    | .ok diagnostic => diagnostic
    | .error _ => unread
  else unread

end Diagnostic

end PrefixScript
