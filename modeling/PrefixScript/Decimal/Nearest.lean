import PrefixScript.Decimal.Rank

/-!
# The nearest double

A fraction is rounded to the nearest double, and half way between two doubles to the one of even
rank. Whatever lies beyond the largest finite double by half a step or more is infinite.
-/

namespace PrefixScript.Decimal

/-- Whether a value of `halves / den` half units rounds to a double above the given rank: it lies
beyond the midpoint between that double and the next, or on the midpoint while the rank is odd. -/
def isBeyond (halves den rank : Nat) : Bool :=
  let middle := (units rank + units (rank + 1)) * den
  decide (middle < halves) || (middle == halves && rank % 2 == 1)

/-- Whether `num / den` rounds to a double above the given rank. -/
def roundsAbove (num den rank : Nat) : Bool := isBeyond (2 * num * one) den rank

/-- Halves the interval from `low` to `high` until it holds the least rank that is not too low. -/
def bisect (isTooLow : Nat → Bool) : (steps low high : Nat) → Nat
  | 0, low, _ => low
  | steps + 1, low, high =>
    if low < high then
      let middle := (low + high) / 2
      if isTooLow middle then bisect isTooLow steps (middle + 1) high
      else bisect isTooLow steps low middle
    else low

/-- The rank of the double nearest to `num / den`. -/
def nearestRank (num den : Nat) : Nat :=
  let halves := 2 * num * one
  bisect (isBeyond halves den) 63 0 infinityRank

/-- Whether `num / den` rounds to the double of the given rank. -/
def roundsTo (num den rank : Nat) : Bool :=
  !roundsAbove num den rank && (rank == 0 || roundsAbove num den (rank - 1))

end PrefixScript.Decimal
