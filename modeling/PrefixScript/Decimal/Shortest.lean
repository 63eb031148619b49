import PrefixScript.Decimal.Nearest

/-!
# The shortest decimal of a double

Of the decimals that round to a given double, the one with the fewest digits is taken, and of those
the nearest, or the even one if two are equally near. For each number of digits only the two
neighbours of the exact value can qualify.
-/

namespace PrefixScript.Decimal

/-- The decimal `coefficient * 10 ^ exponent`. -/
structure Scaled where
  coefficient : Nat
  exponent : Int
deriving DecidableEq, Repr

/-- The numerator of a decimal as a fraction. -/
def Scaled.num (d : Scaled) : Nat := d.coefficient * Nat.pow 10 d.exponent.toNat

/-- The denominator of a decimal as a fraction, a power of ten. -/
def Scaled.den (d : Scaled) : Nat := Nat.pow 10 (-d.exponent).toNat

/-- Whether a decimal rounds to the double of the given rank. -/
def Scaled.readsAs (d : Scaled) (rank : Nat) : Bool := roundsTo d.num d.den rank

/-- The number of digits before the point of the value of a rank, negative if zeros follow the
point: the least `k` with a value below `10 ^ k`. -/
def magnitude (rank : Nat) : Int :=
  (Nat.toDigits 10 (units rank * Nat.pow 10 400 / one)).length - 400

/-- Whether `num / den` is nearer to the whole number above it than to the one below, or in the
middle while the one below is odd. -/
def prefersAbove (num den : Nat) : Bool :=
  decide (den < 2 * (num % den)) || (2 * (num % den) == den && num / den % 2 == 1)

/-- Of two decimals the one that fits, and if both do, the second if it is preferred. -/
def Scaled.choose? (fits : Scaled → Bool) (below above : Scaled) (isAboveBetter : Bool) :
    Option Scaled :=
  match fits below, fits above with
  | true, true => some (if isAboveBetter then above else below)
  | true, false => some below
  | false, true => some above
  | false, false => none

/-- The decimal of `count` digits that reads as the given rank and is nearest to its value, which
has the given magnitude. -/
def ofLength? (rank : Nat) (magnitude : Int) (count : Nat) : Option Scaled :=
  let exponent := magnitude - count
  let num := units rank * Nat.pow 10 (-exponent).toNat
  let den := one * Nat.pow 10 exponent.toNat
  Scaled.choose? (·.readsAs rank) ⟨num / den, exponent⟩ ⟨num / den + 1, exponent⟩
    (prefersAbove num den)

/-- The exact value of a rank as a decimal. -/
def exact (rank : Nat) : Scaled := ⟨units rank * Nat.pow 5 1074, -1074⟩

/-- The shortest decimal that reads as the given rank. Seventeen digits are always enough. -/
def shortest (rank : Nat) : Scaled :=
  ((List.range' 1 17).findSome? (ofLength? rank (magnitude rank))).getD (exact rank)

end PrefixScript.Decimal
