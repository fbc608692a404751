import ArrayPhrase.Proofs.Grading

/-! The numbers of a format. Rounding leaves them as they are, with subnormal numbers and without,
and a wider format has them too, so that a datum can be widened and narrowed again. -/

namespace ArrayPhrase

variable {f g : Format} {q : ℚ} {d e : ℤ}

/-! ### Whole multiples -/

theorem nearestInt_intCast (n : ℤ) : nearestInt n = n :=
  nearestInt_eq_of_isNearest (.inl (by simp))

/-- A whole multiple of a power of two is one of every lower power. -/
theorem den_div_zpow_of_le (hde : d ≤ e) (h : (q / (2 : ℚ) ^ e).den = 1) :
    (q / (2 : ℚ) ^ d).den = 1 := by
  obtain ⟨k, hk⟩ := Format.exists_zpow_eq_mul hde
  have hnum := (Rat.den_eq_one_iff _).1 h
  refine Format.den_div_zpow_eq_one (n := (q / (2 : ℚ) ^ e).num * k) ?_
  rw [Int.cast_mul, hnum, mul_assoc, ← hk, div_mul_cancel₀ _ (by positivity)]

theorem roundToMultiple_of_den (h : (q / (2 : ℚ) ^ e).den = 1) : roundToMultiple e q = q := by
  have hnum := (Rat.den_eq_one_iff _).1 h
  rw [roundToMultiple, ← hnum, nearestInt_intCast, hnum, div_mul_cancel₀ _ (by positivity)]

/-! ### Formats -/

namespace Format

/-- Some datum of the format has the number as its exact value. -/
def Represents (f : Format) (q : ℚ) : Prop :=
  ∃ x : Floating f, x.value? = some q

theorem represents_iff : f.Represents q ↔ q = 0 ∨ f.Fits q := by
  constructor
  · rintro ⟨x, hx⟩
    cases x with
    | nan | infinity _ => cases hx
    | zero _ => exact .inl (Option.some.inj hx).symm
    | finite r fits => exact .inr (Option.some.inj hx ▸ fits)
  · rintro (rfl | fits)
    · exact ⟨.zero false, rfl⟩
    · exact ⟨.finite q fits, rfl⟩

theorem subnormal_zero (f : Format) : f.Subnormal 0 := by
  rw [Floating.subnormal_iff, abs_zero]
  positivity

/-- Integers other than zero have all digits of the format. -/
theorem eq_zero_of_subnormal_intCast (hexponent : f.minNormalExponent ≤ 0) {n : ℤ}
    (h : f.Subnormal n) : n = 0 := by
  rw [Floating.subnormal_iff] at h
  have hlt : |(n : ℚ)| < 1 := h.trans_le (zpow_le_one_of_nonpos₀ one_le_two hexponent)
  rw [← Int.abs_lt_one_iff]
  exact_mod_cast hlt

namespace Fits

theorem round_eq (h : f.Fits q) : f.round q = q :=
  roundToMultiple_of_den h.2.1

theorem roundUnbounded_eq (h : f.Fits q) : f.roundUnbounded q = q :=
  roundToMultiple_of_den (den_div_zpow_of_le (le_max_left _ _) h.2.1)

/-- A number fits into every format that has more digits and exponents. -/
theorem widen (hprecision : f.precision ≤ g.precision) (hmin : g.minExponent ≤ f.minExponent)
    (hmax : f.maxExponent ≤ g.maxExponent) (h : f.Fits q) : g.Fits q := by
  have hunit : g.unit q ≤ f.unit q := by
    unfold unit unboundedUnit
    omega
  exact ⟨h.1, den_div_zpow_of_le hunit h.2.1,
    h.2.2.trans_le (zpow_le_zpow_right₀ one_le_two hmax)⟩

end Fits
end Format

/-! ### Data -/

namespace Floating

theorem ofRat_of_fits (h : f.Fits q) : (ofRat q : Floating f) = .finite q h := by
  unfold ofRat
  simp only [h.round_eq, h.1, h, if_false, dif_pos]

theorem value?_ofRat (h : f.Represents q) : (ofRat q : Floating f).value? = some q := by
  rcases Format.represents_iff.1 h with rfl | fits
  · unfold ofRat
    simp only [f.round_zero, if_true, value?]
  · rw [ofRat_of_fits fits, value?]

/-- A number of the format that is no subnormal one is the value of the datum nearest to it. -/
theorem value?_ofRatNormal (h : f.Represents q) (hnormal : f.Subnormal q → q = 0) :
    (ofRatNormal q : Floating f).value? = some q := by
  have hround : f.roundUnbounded q = q := by
    rcases Format.represents_iff.1 h with rfl | fits
    · exact roundToMultiple_of_den (by rw [zero_div]; rfl)
    · exact fits.roundUnbounded_eq
  unfold ofRatNormal
  simp only [hround]
  split_ifs with hsub fits
  · rw [hnormal hsub]
    rfl
  · rfl
  · rcases Format.represents_iff.1 h with rfl | hfits
    · exact absurd f.subnormal_zero hsub
    · exact absurd hfits fits

theorem flush_flush (x : Floating f) : x.flush.flush = x.flush := by
  cases x with
  | finite q fits =>
    by_cases hsub : f.Subnormal q
    · simp only [flush, hsub, if_true]
    · simp only [flush, hsub, if_false]
  | _ => rfl

theorem convert_convert_of_le (hprecision : f.precision ≤ g.precision)
    (hmin : g.minExponent ≤ f.minExponent) (hmax : f.maxExponent ≤ g.maxExponent)
    (x : Floating f) : ((x.convert : Floating g).convert : Floating f) = x := by
  cases x with
  | finite q fits =>
    have hwide : g.Fits q := fits.widen hprecision hmin hmax
    simp only [convert, ofRat_of_fits hwide, ofRat_of_fits fits]
  | _ => rfl

theorem extended_convert_of_le (hprecision : f.precision ≤ g.precision)
    (hmin : g.minExponent ≤ f.minExponent) (hmax : f.maxExponent ≤ g.maxExponent)
    (x : Floating f) : (x.convert : Floating g).extended = x.extended := by
  cases x with
  | finite q fits =>
    rw [convert, ofRat_of_fits (fits.widen hprecision hmin hmax), extended, extended]
  | _ => rfl

end Floating

namespace Precision

theorem narrow_widen (p : Precision) (x : Floating p.format) : p.narrow (p.widen x) = x := by
  cases p with
  | single => exact Floating.convert_convert_of_le (by decide) (by decide) (by decide) x
  | double => rfl

theorem extended_widen (p : Precision) (x : Floating p.format) :
    (p.widen x).extended = x.extended := by
  cases p with
  | single => exact Floating.extended_convert_of_le (by decide) (by decide) (by decide) x
  | double => rfl

end Precision
end ArrayPhrase
