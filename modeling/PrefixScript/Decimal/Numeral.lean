import PrefixScript.Decimal.Nearest

/-!
# Numerals

A numeral is a run of ASCII digits, optionally followed by a point and a second run. It stands for
the double nearest to its value. A signed numeral may have a minus in front.
-/

namespace PrefixScript.Decimal

/-- The ten ASCII digits. -/
def isDigit (c : Char) : Bool := decide ('0' ≤ c) && decide (c ≤ '9')

/-- The length of the numeral at the start of a text, `0` if there is none. -/
def numeralLength (text : List Char) : Nat :=
  let whole := (text.takeWhile isDigit).length
  if whole = 0 then 0
  else
    match text.drop whole with
    | '.' :: rest =>
      let places := (rest.takeWhile isDigit).length
      if places = 0 then whole else whole + 1 + places
    | _ => whole

/-- Whether a text is one numeral. -/
def isNumeral (text : List Char) : Bool :=
  numeralLength text == text.length && !text.isEmpty

/-- The rank of the double that a numeral stands for. -/
def numeralRank (numeral : List Char) : Nat :=
  let whole := numeral.takeWhile isDigit
  let places := (numeral.drop whole.length).filter isDigit
  nearestRank (Nat.ofDigitChars 10 (whole ++ places) 0) (Nat.pow 10 places.length)

/-- The value of a numeral. -/
def numeralValue (numeral : List Char) : Float := ofRank false (numeralRank numeral)

/-- The value of a signed numeral, if the text is one. -/
def signedValue? : List Char → Option Float
  | '-' :: numeral => if isNumeral numeral then some (ofRank true (numeralRank numeral)) else none
  | numeral => if isNumeral numeral then some (numeralValue numeral) else none

end PrefixScript.Decimal
