import Mathlib.Data.Sign.Basic
import ArrayPhrase.Proofs.Shapes
import ArrayPhrase.Proofs.TypedFaults
import ArrayPhrase.Proofs.WholeValues

/-! Eight verbs are exact on integers and rounded on reals. On either side they compute the same
function of numbers: an integer gives its exact result or an overflow, a real the result rounded
once. So the two sides agree wherever argument and result are integers that a real can be. -/

namespace ArrayPhrase

open Outcome Floating

namespace Scalar

variable {s : Scalar} {g : ℚ → ℚ} {f : Format} {u : Floating f} {x : Binary64} {q : ℚ} {n r : ℤ}

/-- The function of numbers that a verb stands for, for the verbs that are exact on integers. -/
def function? : Scalar → Option (ℚ → ℚ)
  | ceiling => some fun q => ⌈q⌉
  | floor => some fun q => ⌊q⌋
  | complement => some fun q => 1 - q
  | decrement => some fun q => q - 1
  | increment => some fun q => q + 1
  | double => some fun q => 2 * q
  | square => some fun q => q ^ 2
  | sign => some fun q => SignType.sign q
  | halve | exponential | reciprocal => none

/-! ### Integers -/

theorem sign_intCast (n : ℤ) : ((SignType.sign (n : ℚ) : SignType) : ℚ) = n.sign := by
  rcases lt_trichotomy n 0 with hn | rfl | hn
  · rw [sign_neg (Int.cast_lt_zero.2 hn), Int.sign_eq_neg_one_of_neg hn]
    rfl
  · simp
  · rw [sign_pos (Int.cast_pos.2 hn), Int.sign_eq_one_of_pos hn]
    rfl

/-- The result on an integer is the value of the function there. -/
theorem exists_onInt?_eq (hs : s.function? = some g) (n : ℤ) :
    ∃ r : ℤ, s.onInt? n = some r ∧ g n = r := by
  cases s with
  | halve | exponential | reciprocal => cases hs
  | sign =>
    obtain rfl := Option.some.inj hs
    exact ⟨n.sign, rfl, sign_intCast n⟩
  | ceiling =>
    obtain rfl := Option.some.inj hs
    exact ⟨n, rfl, congrArg Int.cast (Int.ceil_intCast n)⟩
  | floor =>
    obtain rfl := Option.some.inj hs
    exact ⟨n, rfl, congrArg Int.cast (Int.floor_intCast n)⟩
  | _ =>
    obtain rfl := Option.some.inj hs
    refine ⟨_, rfl, ?_⟩
    push_cast
    ring

/-! ### Reals -/

/-- On numbers the verbs that are not about whole numbers round the value of the function. -/
theorem value?_onFloating (hs : s.function? = some g) (hr : ¬ s.Rounds) (hu : u.value? = some q) :
    (s.onFloating u).value? = (ofRatNormal (g q) : Floating f).value? := by
  have hzero : (ofRatNormal 0 : Floating f).value? = some 0 :=
    value?_ofRatNormal (Format.represents_iff.2 (.inl rfl)) fun _ => rfl
  cases s with
  | ceiling | floor | sign => exact absurd trivial hr
  | halve | exponential | reciprocal => cases hs
  | double | square =>
    obtain rfl := Option.some.inj hs
    cases u with
    | nan | infinity negative => cases hu
    | zero negative =>
      obtain rfl := Option.some.inj hu
      simp only [mul_zero, sq, hzero]
      rfl
    | finite v fits =>
      obtain rfl := Option.some.inj hu
      simp [onFloating, Rat.mul_comm, sq]
  | complement | decrement | increment =>
    obtain rfl := Option.some.inj hs
    cases u with
    | nan | infinity negative => cases hu
    | zero negative =>
      obtain rfl := Option.some.inj hu
      simp [onFloating]
    | finite v fits =>
      obtain rfl := Option.some.inj hu
      rfl

theorem value?_flush_intCast (hx : x.value? = some (n : ℚ)) : x.flush.value? = some (n : ℚ) := by
  rw [value?_eq_some_iff] at hx ⊢
  rw [extended_flush, hx, flushed_intCast]

theorem onReal_of_not_rounds (hr : ¬ s.Rounds) (x : Binary64) :
    s.onReal .double x = .real (s.onFloating x.flush) := by
  cases s with
  | ceiling | floor | sign => exact absurd trivial hr
  | _ => rfl

/-- A real that is an integer gives the result on the integer, if a real can be that. -/
theorem extended_onReal_intCast (hs : s.function? = some g) (hx : x.value? = some (n : ℚ))
    (hr : s.onInt? n = some r) (hresult : Format.binary64.Represents (g n)) (hgr : g n = r) :
    (s.onReal .double x).extended = .finite r := by
  have hflush := value?_flush_intCast hx
  by_cases hrounds : s.Rounds
  · have hwhole : s.wholeOf n = r := Option.some.inj ((onInt?_of_rounds hrounds n).symm.trans hr)
    rw [extended_onReal hrounds, value?_eq_some_iff.1 hflush, onValue, hwhole]
  · -- The one rounding changes nothing, since the exact result is a number of the format.
    rw [onReal_of_not_rounds hrounds, Atom.extended, ← value?_eq_some_iff,
      value?_onFloating hs hrounds hflush]
    rw [hgr] at hresult ⊢
    refine value?_ofRatNormal hresult fun hsub => ?_
    rw [Format.eq_zero_of_subnormal_intCast (by decide) hsub, Int.cast_zero]

end Scalar

theorem Atom.exists_toReal_of_represents {n : ℤ} (h : Format.binary64.Represents n) :
    ∃ x, (Atom.int n).toReal = .ok x ∧ x.value? = some (n : ℚ) := by
  have hvalue := value?_ofRat h
  refine ⟨ofRat n, ?_, hvalue⟩
  rw [toReal]
  split
  next negative hinfinite =>
    rw [hinfinite] at hvalue
    cases hvalue
  next => rfl

/-- An integer has the exact result or, if that is out of range, an overflow that tells it. The
real that equals the integer has a result that equals the exact one, in range or not. Both the
integer and its result have to be values of reals. -/
theorem exact_verbs_agree_on_integers {s : Scalar} {g : ℚ → ℚ} {n : ℤ}
    (hs : s.function? = some g) (hn : InRange n) (hargument : Format.binary64.Represents n)
    (hresult : Format.binary64.Represents (g n)) :
    ∃ r : ℤ, g n = r ∧
      (InRange r → Scalar.onAtomByRep .double s.rep (.int n) = .ok (.int r)) ∧
      (¬ InRange r → ∃ fault, Scalar.onAtomByRep .double s.rep (.int n) = .error fault ∧
        fault.kind = .evaluation ∧ fault.message = "integer overflow in " ++ s.rep ++ ": " ++
          toString r ++ " is outside the int64 range") ∧
      (∃ x, (Atom.int n).toReal = .ok x ∧ x.value? = some (n : ℚ)) ∧
      ∀ x : Binary64, x.value? = some (n : ℚ) →
        ∃ b, Scalar.onAtomByRep .double s.rep (.real x) = .ok b ∧ b.extended = .finite r := by
  obtain ⟨r, honInt, hgr⟩ := Scalar.exists_onInt?_eq hs n
  simp only [Scalar.onAtomByRep_rep]
  refine ⟨r, hgr, fun hrange => ?_, fun hout => ?_, Atom.exists_toReal_of_represents hargument,
    fun x hx => ?_⟩
  · exact (Scalar.onAtom_int_eq_ok_iff honInt).2 ⟨hrange, rfl⟩
  · have hwritable := isWritable_of_natAbs_le (Scalar.natAbs_onInt?_le hn honInt)
    exact ⟨_, (Scalar.onAtom_int_eq_error_iff honInt).2 ⟨hout, rfl⟩,
      Fault.kind_integerOverflow hwritable, Fault.message_integerOverflow hwritable⟩
  · exact ⟨_, rfl, Scalar.extended_onReal_intCast hs hx honInt hresult hgr⟩

theorem exact_verbs_agree_on_integers_least_squared :
    ∃ x, (Atom.int (-9223372036854775808)).toReal = .ok x ∧
      (∃ fault, Scalar.onAtomByRep .double "*:" (.int (-9223372036854775808)) = .error fault ∧
        fault.kind = .evaluation ∧ fault.message = "integer overflow in *:: " ++
          "85070591730234615865843651857942052864 is outside the int64 range") ∧
      ∃ b, Scalar.onAtomByRep .double "*:" (.real x) = .ok b ∧
        b.extended = .finite 85070591730234615865843651857942052864 := by
  obtain ⟨r, hr, -, hout, ⟨x, hx, hvalue⟩, hreal⟩ :=
    exact_verbs_agree_on_integers (s := .square) (n := -9223372036854775808) rfl (by decide)
      (Format.represents_iff.2 (.inr (by decide +kernel)))
      (Format.represents_iff.2 (.inr (by decide +kernel)))
  obtain rfl : (85070591730234615865843651857942052864 : ℤ) = r := by
    norm_num at hr
    exact_mod_cast hr
  exact ⟨x, hx, hout (by decide), hreal x hvalue⟩

end ArrayPhrase
