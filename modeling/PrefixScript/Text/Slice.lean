/-!
# Slices

A slice of a text runs from one position to another. A negative position counts from the end, and
positions outside the text stand for its ends.
-/

namespace PrefixScript.Text

/-- The place that a position names in a text of the given length. -/
def clamp (length : Nat) (position : Int) : Nat :=
  if position < 0 then (length + position).toNat else min length position.toNat

/-- The characters from one position up to another. -/
def slice (text : List Char) (start stop : Int) : List Char :=
  (text.take (clamp text.length stop)).drop (clamp text.length start)

/-- The characters up to a position. -/
def upTo (text : List Char) (stop : Int) : List Char := text.take (clamp text.length stop)

/-- The characters from a position on. -/
def onward (text : List Char) (start : Int) : List Char := text.drop (clamp text.length start)

end PrefixScript.Text
