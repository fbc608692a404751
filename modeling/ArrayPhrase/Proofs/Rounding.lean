import Mathlib.Algebra.Order.Field.Power
import Mathlib.Data.Rat.Floor
import Mathlib.Tactic.Linarith
import Mathlib.Tactic.NormNum
import Mathlib.Tactic.Positivity
import Mathlib.Tactic.Ring
import ArrayPhrase.Atom

/-! Rounding in the order of the rationals. The nearest integer is less than a half away, or a half
and even. What a number is rounded to is a number of the format, unless its magnitude is too large;
and that it is from the middle on between the greatest number of the format and the power of two
behind it. -/

namespace ArrayPhrase

variable {f : Format} {q t : ℚ}

theorem rat_abs_eq (q : ℚ) : q.abs = |q| := by
  rcases le_total 0 q with h | h
  · rw [abs_of_nonneg h, Rat.abs_of_nonneg h]
  · rw [abs_of_nonpos h, Rat.abs_of_nonpos h]

/-! ### The exponent of a number -/

theorem abs_eq_natAbs_div (q : ℚ) : |q| = (q.num.natAbs : ℚ) / (q.den : ℚ) := by
  rw [Rat.abs_def, Rat.divInt_eq_div, Int.cast_natCast, Int.cast_natCast]

theorem two_zpow_log2_le {n : ℕ} (hn : n ≠ 0) : (2 : ℚ) ^ (n.log2 : ℤ) ≤ n := by
  rw [zpow_natCast]
  exact_mod_cast Nat.log2_self_le hn

theorem lt_two_zpow_log2 (n : ℕ) : (n : ℚ) < (2 : ℚ) ^ (n.log2 + 1 : ℤ) := by
  exact_mod_cast (Nat.lt_log2_self : n < 2 ^ (n.log2 + 1))

/-- The magnitude of a number lies between the power of two of its exponent and the next one. -/
theorem binaryExponent_spec (hq : q ≠ 0) :
    (2 : ℚ) ^ binaryExponent q ≤ |q| ∧ |q| < (2 : ℚ) ^ (binaryExponent q + 1) := by
  have hnum : q.num.natAbs ≠ 0 := by simpa using hq
  have hden : (0 : ℚ) < q.den := by exact_mod_cast q.den_pos
  have hlow := two_zpow_log2_le hnum
  have hhigh := lt_two_zpow_log2 q.num.natAbs
  have hdenlow := two_zpow_log2_le q.den_nz
  have hdenhigh := lt_two_zpow_log2 q.den
  unfold binaryExponent
  rw [rat_abs_eq]
  dsimp only
  set a : ℤ := (q.num.natAbs.log2 : ℤ)
  set b : ℤ := (q.den.log2 : ℤ)
  have hupper : |q| < (2 : ℚ) ^ (a - b + 1) := by
    rw [abs_eq_natAbs_div, div_lt_iff₀ hden]
    calc (q.num.natAbs : ℚ) < 2 ^ (a + 1) := hhigh
      _ = 2 ^ (a - b + 1) * 2 ^ b := by rw [← zpow_add₀ two_ne_zero]; congr 1; ring
      _ ≤ 2 ^ (a - b + 1) * q.den := by gcongr
  split_ifs with h
  · exact ⟨h, hupper⟩
  · refine ⟨?_, by rw [sub_add_cancel]; exact not_le.1 h⟩
    rw [abs_eq_natAbs_div, le_div_iff₀ hden]
    calc (2 : ℚ) ^ (a - b - 1) * q.den ≤ 2 ^ (a - b - 1) * 2 ^ (b + 1) := by gcongr
      _ = 2 ^ a := by rw [← zpow_add₀ two_ne_zero]; congr 1; ring
      _ ≤ q.num.natAbs := hlow

theorem binaryExponent_neg (q : ℚ) : binaryExponent (-q) = binaryExponent q := by
  simp [binaryExponent, rat_abs_eq]

/-! ### The nearest integer -/

/-- Less than a half away, or a half and even. -/
def IsNearest (t : ℚ) (n : ℤ) : Prop :=
  |t - n| < 1 / 2 ∨ |t - n| = 1 / 2 ∧ Even n

theorem IsNearest.abs_sub_le {n : ℤ} (h : IsNearest t n) : |t - n| ≤ 1 / 2 :=
  h.elim le_of_lt fun h => h.1.le

theorem IsNearest.even {n : ℤ} (h : IsNearest t n) (hhalf : |t - n| = 1 / 2) : Even n :=
  (h.resolve_left fun hlt => hlt.ne hhalf).2

theorem isNearest_nearestInt (t : ℚ) : IsNearest t (nearestInt t) := by
  have hlow := Int.floor_le t
  have hhigh := Int.lt_floor_add_one t
  have hdef : nearestInt t = if t - ⌊t⌋ < 1 / 2 then ⌊t⌋
      else if 1 / 2 < t - ⌊t⌋ then ⌊t⌋ + 1
      else if ⌊t⌋ % 2 = 0 then ⌊t⌋ else ⌊t⌋ + 1 := rfl
  have hbelow : |t - ⌊t⌋| = t - ⌊t⌋ := abs_of_nonneg (by linarith)
  have habove : |t - (⌊t⌋ + 1 : ℤ)| = 1 - (t - ⌊t⌋) := by
    rw [abs_sub_comm, Int.cast_add, Int.cast_one, abs_of_nonneg (by linarith)]
    ring
  rw [hdef]
  split_ifs with hless hmore heven
  · exact .inl (by rwa [hbelow])
  · exact .inl (by rw [habove]; linarith)
  · exact .inr ⟨by rw [hbelow]; linarith, Int.even_iff.2 heven⟩
  · exact .inr ⟨by rw [habove]; linarith, Int.even_add_one.2 (Int.even_iff.not.2 heven)⟩

theorem IsNearest.not_lt {m n : ℤ} (hm : IsNearest t m) (hn : IsNearest t n) : ¬ m < n := by
  intro hlt
  have hm' := abs_le.1 hm.abs_sub_le
  have hn' := abs_le.1 hn.abs_sub_le
  obtain rfl : n = m + 1 := by
    have hle : ((n - m : ℤ) : ℚ) ≤ (1 : ℤ) := by push_cast; linarith
    have hle := Int.cast_le.1 hle
    omega
  -- Neighbours are both at most a half away only when they are a half away, and one is odd.
  push_cast at hn'
  have hmid : t = m + 1 / 2 := by linarith
  have heven : Even m := hm.even (by rw [hmid]; norm_num)
  have heven' : Even (m + 1) := hn.even (by rw [hmid]; push_cast; norm_num)
  exact Int.even_add_one.1 heven' heven

theorem nearestInt_eq_of_isNearest {n : ℤ} (h : IsNearest t n) : nearestInt t = n :=
  le_antisymm (not_lt.1 (h.not_lt (isNearest_nearestInt t)))
    (not_lt.1 ((isNearest_nearestInt t).not_lt h))

theorem nearestInt_neg (t : ℚ) : nearestInt (-t) = -nearestInt t := by
  apply nearestInt_eq_of_isNearest
  rw [IsNearest, Int.cast_neg, neg_sub_neg, abs_sub_comm, even_neg]
  exact isNearest_nearestInt t

theorem le_nearestInt_of_le {n : ℤ} (h : (n : ℚ) ≤ t) : n ≤ nearestInt t := by
  by_contra hlt
  have hstep : (nearestInt t : ℚ) + 1 ≤ n := by exact_mod_cast not_le.1 hlt
  have := (abs_le.1 (isNearest_nearestInt t).abs_sub_le).2
  linarith

theorem nearestInt_le_of_le {n : ℤ} (h : t ≤ n) : nearestInt t ≤ n := by
  have hneg : ((-n : ℤ) : ℚ) ≤ -t := by
    rw [Int.cast_neg]
    exact neg_le_neg h
  have := le_nearestInt_of_le hneg
  rw [nearestInt_neg] at this
  omega

/-- An even integer is reached from a half below it. -/
theorem le_nearestInt_iff_of_even {n : ℤ} (hn : Even n) :
    n ≤ nearestInt t ↔ (n : ℚ) - 1 / 2 ≤ t := by
  constructor
  · intro h
    have hcast : (n : ℚ) ≤ nearestInt t := by exact_mod_cast h
    have := (abs_le.1 (isNearest_nearestInt t).abs_sub_le).1
    linarith
  · intro h
    rcases le_total (n : ℚ) t with hle | hle
    · exact le_nearestInt_of_le hle
    · have habs : |t - n| ≤ 1 / 2 := by
        rw [abs_sub_comm, abs_of_nonneg (by linarith)]
        linarith
      exact (nearestInt_eq_of_isNearest (habs.lt_or_eq.imp_right fun heq => ⟨heq, hn⟩)).ge

/-! ### Rounding to a format -/

namespace Format

theorem unit_neg (f : Format) (q : ℚ) : f.unit (-q) = f.unit q := by
  unfold unit unboundedUnit
  rw [binaryExponent_neg]

theorem round_neg (f : Format) (q : ℚ) : f.round (-q) = -f.round q := by
  unfold round roundToMultiple
  rw [unit_neg, neg_div, nearestInt_neg, Int.cast_neg, neg_mul]

theorem round_zero (f : Format) : f.round 0 = 0 := by
  have h := f.round_neg 0
  rw [neg_zero] at h
  exact self_eq_neg.1 h

/-- A multiple of the unit that is at most a number is at most what the number is rounded to. -/
theorem le_round {n : ℤ} (h : n * (2 : ℚ) ^ f.unit q ≤ q) : n * (2 : ℚ) ^ f.unit q ≤ f.round q := by
  have hunit : (0 : ℚ) < 2 ^ f.unit q := by positivity
  have hn := le_nearestInt_of_le ((le_div_iff₀ hunit).2 h)
  unfold round roundToMultiple
  gcongr

theorem round_le {n : ℤ} (h : q ≤ n * (2 : ℚ) ^ f.unit q) : f.round q ≤ n * (2 : ℚ) ^ f.unit q := by
  have hunit : (0 : ℚ) < 2 ^ f.unit q := by positivity
  have hn := nearestInt_le_of_le ((div_le_iff₀ hunit).2 h)
  unfold round roundToMultiple
  gcongr

theorem abs_round (f : Format) (q : ℚ) : |f.round q| = f.round |q| := by
  have hnonneg : ∀ {r : ℚ}, 0 ≤ r → 0 ≤ f.round r := by
    intro r hr
    have h := @le_round f r 0 (by simpa using hr)
    simpa using h
  rcases le_total 0 q with h | h
  · rw [abs_of_nonneg h, abs_of_nonneg (hnonneg h)]
  · rw [abs_of_nonpos h, f.round_neg, abs_of_nonpos]
    have := hnonneg (neg_nonneg.2 h)
    rw [round_neg] at this
    linarith

theorem unit_abs (f : Format) (q : ℚ) : f.unit |q| = f.unit q := by
  rcases abs_choice q with h | h
  · rw [h]
  · rw [h, unit_neg]

theorem exists_zpow_eq_mul {d e : ℤ} (h : d ≤ e) : ∃ n : ℤ, (2 : ℚ) ^ e = n * (2 : ℚ) ^ d := by
  refine ⟨2 ^ (e - d).toNat, ?_⟩
  push_cast
  rw [← zpow_natCast, ← zpow_add₀ two_ne_zero, Int.toNat_of_nonneg (by omega)]
  congr 1
  ring

theorem abs_round_le {e : ℤ} (he : f.unit q ≤ e) (h : |q| ≤ (2 : ℚ) ^ e) :
    |f.round q| ≤ (2 : ℚ) ^ e := by
  rw [← unit_abs] at he
  obtain ⟨n, hn⟩ := exists_zpow_eq_mul he
  rw [abs_round, hn]
  exact round_le (hn ▸ h)

theorem le_abs_round {e : ℤ} (he : f.unit q ≤ e) (h : (2 : ℚ) ^ e ≤ |q|) :
    (2 : ℚ) ^ e ≤ |f.round q| := by
  rw [← unit_abs] at he
  obtain ⟨n, hn⟩ := exists_zpow_eq_mul he
  rw [abs_round, hn]
  exact le_round (hn ▸ h)

theorem den_div_zpow_eq_one {r : ℚ} {n e : ℤ} (h : r = n * (2 : ℚ) ^ e) :
    (r / (2 : ℚ) ^ e).den = 1 := by
  rw [h, mul_div_cancel_right₀ _ (by positivity)]
  exact Rat.den_intCast n

/-- What a number is rounded to is a number of the format, unless it is zero or too large. -/
theorem fits_round (hp : 1 ≤ f.precision) (hne : f.round q ≠ 0)
    (hlt : |f.round q| < (2 : ℚ) ^ f.maxExponent) : f.Fits (f.round q) := by
  refine ⟨hne, ?_, by rwa [rat_abs_eq]⟩
  have hq : q ≠ 0 := fun h => hne (by rw [h, round_zero])
  obtain ⟨-, hhigh⟩ := binaryExponent_spec hq
  obtain ⟨hlow', hhigh'⟩ := binaryExponent_spec hne
  by_cases hunit : f.unit (f.round q) ≤ f.unit q
  · obtain ⟨n, hn⟩ := exists_zpow_eq_mul hunit
    refine den_div_zpow_eq_one (n := nearestInt (q / (2 : ℚ) ^ f.unit q) * n) ?_
    push_cast
    rw [mul_assoc, ← hn]
    rfl
  · -- Only rounding up to the next power of two makes the unit greater.
    have hle : |f.round q| ≤ (2 : ℚ) ^ max (f.unit q) (binaryExponent q + 1) := by
      refine abs_round_le (le_max_left _ _) (hhigh.le.trans ?_)
      exact zpow_le_zpow_right₀ one_le_two (le_max_right _ _)
    have hexp := (zpow_le_zpow_iff_right₀ one_lt_two).1 (hlow'.trans hle)
    have hunit' : f.unit (f.round q) ≤ binaryExponent (f.round q) ∧
        max (f.unit q) (binaryExponent q + 1) = binaryExponent (f.round q) := by
      simp only [unit, unboundedUnit] at *
      omega
    have habs : |f.round q| = (2 : ℚ) ^ binaryExponent (f.round q) :=
      le_antisymm (hunit'.2 ▸ hle) hlow'
    obtain ⟨n, hn⟩ := exists_zpow_eq_mul hunit'.1
    rw [hn] at habs
    rcases abs_choice (f.round q) with h | h
    · exact den_div_zpow_eq_one (h.symm.trans habs)
    · refine den_div_zpow_eq_one (n := -n) ?_
      rw [Int.cast_neg, neg_mul, ← habs, h, neg_neg]

/-- The least magnitude that is rounded to one too large for the format. -/
def overflow (f : Format) : ℚ :=
  (2 : ℚ) ^ f.maxExponent - (2 : ℚ) ^ (f.maxExponent - 1 - f.precision)

theorem overflow_eq (f : Format) :
    f.overflow = ((2 : ℚ) ^ f.precision - 1 / 2) * (2 : ℚ) ^ (f.maxExponent - f.precision) := by
  have h1 : (2 : ℚ) ^ f.precision * (2 : ℚ) ^ (f.maxExponent - f.precision) =
      (2 : ℚ) ^ f.maxExponent := by
    rw [← zpow_natCast, ← zpow_add₀ two_ne_zero]
    congr 1
    ring
  have h2 : (2 : ℚ) ^ (f.maxExponent - f.precision) =
      2 * (2 : ℚ) ^ (f.maxExponent - 1 - f.precision) := by
    rw [← zpow_one_add₀ two_ne_zero]
    congr 1
    ring
  rw [sub_mul, h1, h2, overflow]
  ring

theorem overflow_le_zpow (f : Format) : f.overflow ≤ (2 : ℚ) ^ f.maxExponent :=
  sub_le_self _ (by positivity)

theorem zpow_le_overflow (f : Format) : (2 : ℚ) ^ (f.maxExponent - 1) ≤ f.overflow := by
  have h : (2 : ℚ) ^ f.maxExponent = 2 * (2 : ℚ) ^ (f.maxExponent - 1) := by
    rw [← zpow_one_add₀ two_ne_zero]
    congr 1
    ring
  have hle : (2 : ℚ) ^ (f.maxExponent - 1 - f.precision) ≤ (2 : ℚ) ^ (f.maxExponent - 1) :=
    zpow_le_zpow_right₀ one_le_two (by omega)
  rw [overflow, h]
  linarith

/-- Magnitudes with the greatest exponent of the format overflow from half a unit below the power
of two behind them. -/
theorem le_abs_round_iff_of_exponent (hp : 1 ≤ f.precision)
    (hunit : f.unit q = f.maxExponent - f.precision) :
    (2 : ℚ) ^ f.maxExponent ≤ |f.round q| ↔ f.overflow ≤ |q| := by
  have hpos : (0 : ℚ) < 2 ^ (f.maxExponent - f.precision) := by positivity
  have hpow : (2 : ℚ) ^ f.maxExponent =
      ((2 ^ f.precision : ℤ) : ℚ) * (2 : ℚ) ^ (f.maxExponent - f.precision) := by
    push_cast
    rw [← zpow_natCast, ← zpow_add₀ two_ne_zero]
    congr 1
    ring
  have heven : Even (2 ^ f.precision : ℤ) := (even_two.pow_of_ne_zero (by omega))
  rw [abs_round, round, roundToMultiple, unit_abs, hunit, hpow, mul_le_mul_iff_left₀ hpos,
    Int.cast_le, le_nearestInt_iff_of_even heven, le_div_iff₀ hpos, overflow_eq]
  push_cast
  rfl

/-- A number is rounded to a magnitude too large for the format from the overflow on. -/
theorem le_abs_round_iff (hp : 1 ≤ f.precision)
    (hmax : f.minExponent + f.precision ≤ f.maxExponent) :
    (2 : ℚ) ^ f.maxExponent ≤ |f.round q| ↔ f.overflow ≤ |q| := by
  rcases eq_or_ne q 0 with rfl | hq
  · have hpos : (0 : ℚ) < 2 ^ (f.maxExponent - 1) := by positivity
    have hoverflow := hpos.trans_le f.zpow_le_overflow
    rw [round_zero, abs_zero]
    exact iff_of_false (not_le.2 (by positivity)) (not_le.2 hoverflow)
  obtain ⟨hlow, hhigh⟩ := binaryExponent_spec hq
  have hunit : f.unit q = max (binaryExponent q - (f.precision - 1)) f.minExponent := rfl
  rcases lt_trichotomy (binaryExponent q) (f.maxExponent - 1) with hlt | heq | hgt
  · -- The magnitude stays at most half of the power of two it would have to reach.
    have hless : |q| < (2 : ℚ) ^ (f.maxExponent - 1) :=
      hhigh.trans_le (zpow_le_zpow_right₀ one_le_two (by omega))
    have hround := abs_round_le (f := f) (by omega) hless.le
    have hstep : (2 : ℚ) ^ (f.maxExponent - 1) < (2 : ℚ) ^ f.maxExponent :=
      zpow_lt_zpow_right₀ one_lt_two (by omega)
    exact iff_of_false (not_le.2 (hround.trans_lt hstep))
      (not_le.2 (hless.trans_le f.zpow_le_overflow))
  · exact le_abs_round_iff_of_exponent hp (by omega)
  · have hle : (2 : ℚ) ^ f.maxExponent ≤ (2 : ℚ) ^ binaryExponent q :=
      zpow_le_zpow_right₀ one_le_two (by omega)
    have hround := le_abs_round (f := f) (by omega) hlow
    exact iff_of_true (hle.trans hround) (f.overflow_le_zpow.trans (hle.trans hlow))

end Format

theorem Floating.ofRat_eq_infinity_iff (hp : 1 ≤ f.precision)
    (hmax : f.minExponent + f.precision ≤ f.maxExponent) :
    (∃ negative, (ofRat q : Floating f) = .infinity negative) ↔ f.overflow ≤ |q| := by
  rw [← Format.le_abs_round_iff hp hmax]
  unfold ofRat
  dsimp only
  split_ifs with hzero hfits
  · rw [hzero, abs_zero]
    refine iff_of_false nofun (not_le.2 (by positivity))
  · have hlt := hfits.2.2
    rw [rat_abs_eq] at hlt
    exact iff_of_false nofun (not_le.2 hlt)
  · refine iff_of_true ⟨_, rfl⟩ (not_lt.1 fun hlt => hfits ?_)
    exact Format.fits_round hp hzero hlt

/-! ### Numbers without a nearest real -/

theorem Format.overflow_binary64 :
    Format.binary64.overflow = ((2 ^ 1024 - 2 ^ 970 : ℕ) : ℚ) := by
  have hle : 2 ^ 970 ≤ 2 ^ 1024 := pow_le_pow_right₀ one_le_two (by decide)
  rw [Nat.cast_sub hle, Nat.cast_pow, Nat.cast_pow, Nat.cast_ofNat]
  rfl

theorem ofRat_eq_infinity_iff_binary64 :
    (∃ negative, (Floating.ofRat q : Binary64) = .infinity negative) ↔
      ((2 ^ 1024 - 2 ^ 970 : ℕ) : ℚ) ≤ |q| := by
  rw [Floating.ofRat_eq_infinity_iff (by decide) (by decide), Format.overflow_binary64]

/-- An integer has a nearest real unless it is as far from zero as the middle between the greatest
real and the power of two behind it. -/
theorem Atom.toReal_int_eq_error_iff {n : ℤ} {fault : Fault} :
    (Atom.int n).toReal = .error fault ↔
      fault = .integerTooLarge ∧ 2 ^ 1024 - 2 ^ 970 ≤ n.natAbs := by
  have hinfinite : (∃ negative, (Floating.ofRat n : Binary64) = .infinity negative) ↔
      2 ^ 1024 - 2 ^ 970 ≤ n.natAbs := by
    rw [ofRat_eq_infinity_iff_binary64, ← Int.cast_abs, Int.abs_eq_natAbs, Int.cast_natCast,
      Nat.cast_le]
  rw [← hinfinite, Atom.toReal]
  split
  next negative h => simp [h, eq_comm]
  next h =>
    refine iff_of_false nofun ?_
    rintro ⟨-, negative, hinf⟩
    exact h negative hinf

end ArrayPhrase
