import PrefixScript.Decimal.Layout
import PrefixScript.Decimal.Numeral
import PrefixScript.Text.Blank

/-!
# Values

A program computes with numbers, texts and truth values. The absence of a value is a value of its
own: it is what a call without a return yields.
-/

namespace PrefixScript

inductive Value where
  | none
  | bool (truth : Bool)
  | text (content : String)
  | number (x : Float)

namespace Value

instance : Inhabited Value := ⟨none⟩

/-- The text of a value, as it is printed, joined and compared. -/
def render : Value → String
  | none => ""
  | bool true => "True"
  | bool false => "False"
  | text content => content
  | number x => Decimal.text x

/-- Numbers no larger than this are false. -/
def falseLimit : Float := 1e-12

/-- Whether a value counts as true in a condition. -/
def isTrue : Value → Bool
  | none => false
  | bool truth => truth
  | text content => content != ""
  | number x => falseLimit < x.abs

def isNumber : Value → Bool
  | number _ => true
  | _ => false

def isText : Value → Bool
  | text _ => true
  | _ => false

/-- A value as a number. Text has to be a signed numeral, blanks around it apart; other text is
returned as the reason of failure, without those blanks. -/
def toNumber : Value → Except String Float
  | none => .ok 0
  | bool truth => .ok (if truth then 1 else 0)
  | number x => .ok x
  | text content =>
    let trimmed := Text.trim content.toList
    match Decimal.signedValue? trimmed with
    | some x => .ok x
    | Option.none => .error (String.ofList trimmed)

/-- Equality of values: of two numbers as numbers, else of the texts. -/
def same : Value → Value → Bool
  | number x, number y => x == y
  | left, right => left.render == right.render

end Value

end PrefixScript
