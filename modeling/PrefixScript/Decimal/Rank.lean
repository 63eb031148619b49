/-!
# Ranks of doubles

The non-negative doubles in ascending order are numbered from zero: zero has rank `0`, the least
positive double rank `1`, and infinity comes right after the largest finite one. The rank of a
double is its bit pattern without the sign. Every finite double is a whole number of units of
`2 ^ (-1074)`, so questions of rounding are settled by comparing natural numbers.
-/

namespace PrefixScript.Decimal

/-- The rank of infinity. -/
def infinityRank : Nat := 0x7FF0000000000000

/-- The number of units in one. -/
def one : Nat := Nat.pow 2 1074

/-- The number of doubles from a power of two to the next, and of those below the first one. -/
def binade : Nat := Nat.pow 2 52

/-- The bit of a double that holds its sign. -/
def signBit : Nat := Nat.pow 2 63

/-- The value of the double of a rank, in units. At the rank of infinity this is the power of two
that overflows. -/
def units (rank : Nat) : Nat :=
  if rank < binade then rank else (binade + rank % binade) <<< (rank / binade - 1)

/-- The rank of a double, whatever its sign. -/
def rankOf (x : Float) : Nat := x.toBits.toNat % signBit

/-- Whether the sign bit of a double is set. -/
def isNegative (x : Float) : Bool := signBit ≤ x.toBits.toNat

/-- The double of a sign and a rank. -/
def ofRank (negative : Bool) (rank : Nat) : Float :=
  Float.ofBits (UInt64.ofNat (if negative then signBit + rank else rank))

end PrefixScript.Decimal
