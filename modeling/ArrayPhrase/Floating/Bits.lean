import ArrayPhrase.Floating.Basic

/-! The interchange encoding of a format: a sign, a biased exponent and the digits after the first
one, as one number. -/

namespace ArrayPhrase

namespace Format

variable (f : Format)

/-- The width of the digits after the first one. -/
def fractionWidth : Nat :=
  f.precision - 1

def exponentWidth : Nat :=
  (2 * f.maxExponent.toNat).log2

/-- The exponent field of infinities and NaN. -/
def specialField : Nat :=
  (1 <<< f.exponentWidth) - 1

end Format

namespace Floating

variable {f : Format}

def ofBits (bits : Nat) : Floating f :=
  let first := 1 <<< f.fractionWidth
  let fraction := bits % first
  let field := (bits >>> f.fractionWidth) % (1 <<< f.exponentWidth)
  let negative := bits.testBit (f.fractionWidth + f.exponentWidth)
  if field = f.specialField then if fraction = 0 then .infinity negative else .nan
  else if field = 0 ∧ fraction = 0 then .zero negative
  else
    let digits := if field = 0 then fraction else first + fraction
    let magnitude := (digits : Rat) * (2 : Rat) ^ (f.minExponent + ((field - 1 : Nat) : Int))
    ofRat (if negative then -magnitude else magnitude)

/-- The first digit of a normal number carries into the exponent field and is not stored. -/
def toBits (x : Floating f) : Nat :=
  let magnitude := match x with
    | nan => (f.specialField <<< f.fractionWidth) + (1 <<< (f.fractionWidth - 1))
    | infinity _ => f.specialField <<< f.fractionWidth
    | zero _ => 0
    | finite value _ =>
      let digits := (value / (2 : Rat) ^ f.unit value).num.natAbs
      ((f.unit value - f.minExponent).toNat <<< f.fractionWidth) + digits
  if x.isNegative then (1 <<< (f.fractionWidth + f.exponentWidth)) + magnitude else magnitude

end Floating
end ArrayPhrase
