import PrefixScript.Decimal.Shortest

/-!
# Numbers as text

Whole numbers below `10 ^ 16` are written as integers, and zero has no sign. Other finite numbers
have their shortest digits, with a point if the leading digit stands at most four places behind the
point and at most sixteen before it, and else with an exponent of at least two digits and its sign.
-/

namespace PrefixScript.Decimal

/-- The whole numbers below this one are written without a point. -/
def integerLimit : Nat := Nat.pow 10 16

/-- Whether a number is written with a point, by the exponent of its leading digit. -/
def isPositional (exponent : Int) : Bool := decide (-4 ≤ exponent) && decide (exponent < 16)

/-- Digits with the point after the first `point` of them, filled up with zeros. -/
def positional (digits : List Char) (point : Int) : List Char :=
  if point ≤ 0 then
    '0' :: '.' :: List.replicate (-point).toNat '0' ++ digits
  else if point < digits.length then
    digits.take point.toNat ++ '.' :: digits.drop point.toNat
  else
    digits ++ List.replicate (point.toNat - digits.length) '0' ++ ['.', '0']

/-- Digits with the point after the first of them, if there are more, and an exponent. -/
def exponential (digits : List Char) (exponent : Int) : List Char :=
  let lead :=
    match digits with
    | first :: second :: rest => first :: '.' :: second :: rest
    | _ => digits
  let places := Nat.toDigits 10 exponent.natAbs
  let sign := if exponent < 0 then '-' else '+'
  lead ++ 'e' :: sign :: List.replicate (2 - places.length) '0' ++ places

/-- Digits without the zeros at their end. -/
def dropZeros (digits : List Char) : List Char :=
  (digits.reverse.dropWhile (· == '0')).reverse

/-- A positive decimal as text. -/
def Scaled.text (d : Scaled) : List Char :=
  let digits := Nat.toDigits 10 d.coefficient
  let point := digits.length + d.exponent
  if isPositional (point - 1) then positional (dropZeros digits) point
  else exponential (dropZeros digits) (point - 1)

/-- Whether the double of a rank is a whole number below the limit for integers. -/
def isShortInteger (rank : Nat) : Bool :=
  units rank % one == 0 && decide (units rank < integerLimit * one)

/-- The text of a finite double of the given rank, without a sign. -/
def finiteText (rank : Nat) : List Char :=
  if isShortInteger rank then Nat.toDigits 10 (units rank / one) else (shortest rank).text

/-- The text of a number. -/
def text (x : Float) : String :=
  let rank := rankOf x
  if infinityRank < rank then "nan"
  else
    let digits := if rank = infinityRank then ['i', 'n', 'f'] else finiteText rank
    String.ofList (if isNegative x && rank != 0 then '-' :: digits else digits)

end PrefixScript.Decimal
