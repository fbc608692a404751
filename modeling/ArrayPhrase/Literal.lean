import ArrayPhrase.Fault

/-! Numeric literals: ASCII digits, with a leading underscore for a negative value. Recognising a
literal never fails; its value is refused when it has more digits than the limit. -/

namespace ArrayPhrase.Literal

def isDigit (c : Char) : Bool :=
  '0' ≤ c && c ≤ '9'

/-- A sign and digits; none when the text is not a literal. -/
def split? : List Char → Option (Bool × List Char)
  | '_' :: digits => if digits ≠ [] ∧ digits.all isDigit then some (true, digits) else none
  | digits => if digits ≠ [] ∧ digits.all isDigit then some (false, digits) else none

def isLiteral (text : String) : Bool :=
  (split? text.toList).isSome

/-- The value of digits written in base ten, most significant first. -/
def digitsValue (digits : List Char) : Nat :=
  digits.foldl (fun value c => 10 * value + (c.toNat - '0'.toNat)) 0

def parse (text : String) : Except Fault Int :=
  match split? text.toList with
  | none => .error (.invalidLiteral text)
  | some (negative, digits) =>
    if digits.length > digitLimit then .error (.literalTooLong digits.length)
    else .ok (if negative then -(digitsValue digits : Int) else digitsValue digits)

/-- The literal of an integer, without leading zeros. -/
def write (n : Int) : String :=
  if n < 0 then "_" ++ toString n.natAbs else toString n.natAbs

end ArrayPhrase.Literal
