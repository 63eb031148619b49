import PrefixScript.Text.CaseFold.Runs

/-!
# Case folding

Two texts that differ only in letter case have the same folded text. Folding works character by
character; some characters, such as the sharp s, fold to several.
-/

namespace PrefixScript.Text

/-- The code point that a run folds `code` to, if the run holds it. -/
def FoldRun.fold? (run : FoldRun) (code : Nat) : Option Nat :=
  if run.first ≤ code ∧ code ≤ run.last ∧ (code - run.first) % run.step = 0 then
    some (run.target + (code - run.first))
  else none

/-- The folded form of one character. -/
def foldChar (c : Char) : List Char :=
  match foldRuns.findSome? (·.fold? c.toNat) with
  | some code => [Char.ofNat code]
  | none =>
    match foldExpansions.lookup c.toNat with
    | some codes => codes.map Char.ofNat
    | none => [c]

/-- The folded form of a text. -/
def foldCase (text : String) : String := String.ofList (text.toList.flatMap foldChar)

end PrefixScript.Text
