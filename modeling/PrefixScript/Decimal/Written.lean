import PrefixScript.Decimal.Numeral
import PrefixScript.Decimal.Shortest
import PrefixScript.Text.Blank
import PrefixScript.Text.Digit

/-!
# Written numbers

A token that is given as a number need not be a numeral. A number may also be written with blanks
around it, a sign, digits of any script, single underscores between digits, a point with digits on
only one of its sides, and an exponent. Infinity and the number that is none are written as words,
in any case of letters.
-/

namespace PrefixScript.Decimal

/-- The rank of the double that is no number. -/
def nanRank : Nat := 0x7FF8000000000000

/-- The rank of the double nearest to a decimal. From `10 ^ 310` on it is that of infinity and below
`10 ^ (-330)` that of zero, so no power of ten far out of range is ever computed. -/
def Scaled.rank (d : Scaled) : Nat :=
  let magnitude := (Nat.toDigits 10 d.coefficient).length + d.exponent
  if d.coefficient = 0 ∨ magnitude < -330 then 0
  else if 310 < magnitude then infinityRank
  else nearestRank d.num d.den

/-- Whether a character may stand around a number: the blanks, separators of records apart. -/
def isMargin (c : Char) : Bool := Text.isBlank c && !(0x1C ≤ c.toNat && c.toNat ≤ 0x1F)

/-- A text without its margins. -/
def dropMargins (text : List Char) : List Char :=
  ((text.dropWhile isMargin).reverse.dropWhile isMargin).reverse

/-- The ASCII digit for a digit of any script. Other characters stay. -/
def asciiDigit (c : Char) : Char :=
  match Text.digitValue? c with
  | some value => Nat.digitChar value
  | none => c

/-- A text without its underscores, if each of them stands between two digits, given the character
before it. -/
def closeGaps? (before : Char) : List Char → Option (List Char)
  | [] => some []
  | '_' :: after :: rest =>
    if isDigit before && isDigit after then (closeGaps? after rest).map (after :: ·) else none
  | ['_'] => none
  | c :: rest => (closeGaps? c rest).map (c :: ·)

/-- Whether a text starts with a minus, and the text after its sign. -/
def splitSign : List Char → Bool × List Char
  | '-' :: rest => (true, rest)
  | '+' :: rest => (false, rest)
  | text => (false, text)

/-- The exponent that follows the digits of a number, zero if nothing follows. -/
def exponent? : List Char → Option Int
  | [] => some 0
  | mark :: rest =>
    let (negative, digits) := splitSign rest
    if mark.toLower = 'e' ∧ !digits.isEmpty ∧ digits.all isDigit then
      let size : Int := Nat.ofDigitChars 10 digits 0
      some (if negative then -size else size)
    else none

/-- The decimal that a text without a sign writes: digits on at least one side of the point, and an
exponent. -/
def scaled? (text : List Char) : Option Scaled :=
  let whole := text.takeWhile isDigit
  let (places, rest) :=
    match text.drop whole.length with
    | '.' :: fraction => (fraction.takeWhile isDigit, fraction.dropWhile isDigit)
    | rest => ([], rest)
  if whole.isEmpty && places.isEmpty then none
  else
    (exponent? rest).map fun exponent =>
      ⟨Nat.ofDigitChars 10 (whole ++ places) 0, exponent - places.length⟩

/-- The rank of a number without a sign, in words or in digits. -/
def unsignedRank? (text : List Char) : Option Nat :=
  let word := String.ofList (text.map Char.toLower)
  if word = "inf" ∨ word = "infinity" then some infinityRank
  else if word = "nan" then some nanRank
  else (scaled? text).map Scaled.rank

/-- The value of a written number, if the text is one. Numerals are written numbers. -/
def writtenValue? (text : List Char) : Option Float :=
  if isNumeral text then some (numeralValue text)
  else do
    let closed ← closeGaps? ' ' ((dropMargins text).map asciiDigit)
    let (negative, unsigned) := splitSign closed
    let rank ← unsignedRank? unsigned
    return ofRank negative rank

end PrefixScript.Decimal
