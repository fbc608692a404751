/-! Binary floating-point formats and the rounding of rationals to them. The numbers of a format
are whole multiples of a unit, a power of two that grows with the magnitude; rounding takes the
nearest multiple of the unit, and of two equally near ones the even multiple. -/

namespace ArrayPhrase

/-- Numbers have `precision` binary digits, are whole multiples of `2 ^ minExponent` and are less
than `2 ^ maxExponent` in magnitude. -/
structure Format where
  precision : Nat
  minExponent : Int
  maxExponent : Int
deriving DecidableEq, Repr

/-- The greatest exponent whose power of two is at most the magnitude of `q`, for `q ≠ 0`. -/
def binaryExponent (q : Rat) : Int :=
  let estimate : Int := (q.num.natAbs.log2 : Int) - (q.den.log2 : Int)
  if (2 : Rat) ^ estimate ≤ q.abs then estimate else estimate - 1

/-- The nearest integer, a half going to the even neighbour. -/
def nearestInt (q : Rat) : Int :=
  let low := q.floor
  let rest := q - low
  if rest < 1 / 2 then low
  else if 1 / 2 < rest then low + 1
  else if low % 2 = 0 then low else low + 1

/-- The nearest whole multiple of `2 ^ e`. -/
def roundToMultiple (e : Int) (q : Rat) : Rat :=
  (nearestInt (q / (2 : Rat) ^ e) : Rat) * (2 : Rat) ^ e

namespace Format

def binary64 : Format := ⟨53, -1074, 1024⟩

def binary32 : Format := ⟨24, -149, 128⟩

variable (f : Format)

/-- The exponent of the unit at `q` if exponents had no lower bound. -/
def unboundedUnit (q : Rat) : Int :=
  binaryExponent q - ((f.precision : Int) - 1)

/-- The exponent of the unit at `q`. -/
def unit (q : Rat) : Int :=
  max (f.unboundedUnit q) f.minExponent

/-- Powers of two from this exponent on have all `precision` digits below them. -/
def minNormalExponent : Int :=
  f.minExponent + ((f.precision : Int) - 1)

def round (q : Rat) : Rat :=
  roundToMultiple (f.unit q) q

def roundUnbounded (q : Rat) : Rat :=
  roundToMultiple (f.unboundedUnit q) q

/-- Whether the magnitude of `q` is too small for all digits of the format. -/
def Subnormal (q : Rat) : Prop :=
  q.abs < (2 : Rat) ^ f.minNormalExponent

instance (q : Rat) : Decidable (f.Subnormal q) :=
  inferInstanceAs (Decidable (_ < _))

/-- The numbers of the format other than zero. -/
def Fits (q : Rat) : Prop :=
  q ≠ 0 ∧ (q / (2 : Rat) ^ f.unit q).den = 1 ∧ q.abs < (2 : Rat) ^ f.maxExponent

instance (q : Rat) : Decidable (f.Fits q) :=
  inferInstanceAs (Decidable (_ ∧ _ ∧ _))

end Format
end ArrayPhrase
