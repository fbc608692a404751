import ArrayPhrase.Floating.Basic

/-! Powers of e. The exponent is split into a multiple of ln 2 and a rest of at most half of it;
the power of the rest is summed from its series in units of `2 ^ -160`, far below the last digit
of any format in use. -/

namespace ArrayPhrase.Exponential

/-- One in the units of the sums. -/
def one : Int :=
  ((1 <<< 160 : Nat) : Int)

/-- ln 2 as the sum of `1 / (k * 2 ^ k)`. -/
def logTwo : Int :=
  (List.range 160).foldl (fun sum k => sum + one / (((k + 1) <<< (k + 1) : Nat) : Int)) 0

/-- The series of the power of `rest`, from its last term inwards. -/
def series (rest : Int) : Int :=
  (List.range 40).foldr (fun k sum => one + rest * sum / (((k + 1 : Nat) : Int) * one)) one

/-- A rational close to the power of e to `q`. -/
def approximate (q : Rat) : Rat :=
  let scaled := (q * one).floor
  let twos := nearestInt ((scaled : Rat) / (logTwo : Rat))
  (series (scaled - twos * logTwo) : Rat) / (one : Rat) * (2 : Rat) ^ twos

end Exponential

namespace Floating

variable {f : Format}

/-- The power of e. Beyond the exponents of the format it is infinite or zero, since e is more
than two. -/
def exp : Floating f → Floating f
  | nan => .nan
  | infinity negative => if negative then .zero false else .infinity false
  | zero _ => ofRatNormal 1
  | finite value _ =>
    if (f.maxExponent : Rat) ≤ value then .infinity false
    else if value ≤ (f.minExponent : Rat) then .zero false
    else ofRatNormal (Exponential.approximate value)

end Floating
end ArrayPhrase
