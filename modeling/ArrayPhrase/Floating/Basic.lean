import ArrayPhrase.Floating.Format

/-! Floating-point data: the numbers of a format with their exact values, two zeros, two infinities
and one NaN. Data with the same value are equal, apart from the zeros. -/

namespace ArrayPhrase

inductive Floating (f : Format) where
  | nan
  | infinity (negative : Bool)
  | zero (negative : Bool)
  | finite (value : Rat) (fits : f.Fits value)
deriving DecidableEq

abbrev Binary64 : Type := Floating Format.binary64

/-- Whether leaf verbs compute in 32 or in 64 bits. -/
inductive Precision where
  | single | double
deriving DecidableEq, Repr

namespace Floating

variable {f : Format}

/-- The datum nearest a rational. Too large a magnitude gives an infinity, too small a one a zero,
both of the sign of `q`. -/
def ofRat (q : Rat) : Floating f :=
  let value := f.round q
  if value = 0 then .zero (q < 0)
  else if fits : f.Fits value then .finite value fits
  else .infinity (q < 0)

/-- The datum nearest a rational when no subnormal numbers are kept: a magnitude that is below
the normal numbers after rounding to the digits of the format gives a zero of the sign of `q`. -/
def ofRatNormal (q : Rat) : Floating f :=
  let value := f.roundUnbounded q
  if f.Subnormal value then .zero (q < 0)
  else if fits : f.Fits value then .finite value fits
  else .infinity (q < 0)

/-- The exact value of zeros and finite data. -/
def value? : Floating f → Option Rat
  | nan | infinity _ => none
  | zero _ => some 0
  | finite value _ => some value

def isNegative : Floating f → Bool
  | nan => false
  | infinity negative | zero negative => negative
  | finite value _ => value < 0

/-- The nearest datum of another format. -/
def convert {g : Format} : Floating f → Floating g
  | nan => .nan
  | infinity negative => .infinity negative
  | zero negative => .zero negative
  | finite value _ => ofRat value

/-- Subnormal numbers count as zeros of their sign. -/
def flush : Floating f → Floating f
  | finite value fits => if f.Subnormal value then .zero (value < 0) else .finite value fits
  | x => x

end Floating

namespace Precision

/-- The format that leaf verbs compute in. -/
def format : Precision → Format
  | single => .binary32
  | double => .binary64

def narrow : (p : Precision) → Binary64 → Floating p.format
  | single, x => x.convert
  | double, x => x

def widen : (p : Precision) → Floating p.format → Binary64
  | single, x => x.convert
  | double, x => x

end Precision
end ArrayPhrase
