import ArrayPhrase.Proofs.Canonical
import ArrayPhrase.Proofs.Representable

/-! Ceiling, floor and sign in double precision, as functions of values. They keep the order of
values once subnormal numbers count as zero, and they give each value in one form only: as an
integer if it is one in range, else as a real. -/

namespace ArrayPhrase

open Outcome Floating

/-! ### Rationals -/

namespace Scalar

variable {s : Scalar} {q r : ℚ} {n : ℤ}

/-- The verbs that give whole numbers. -/
def Rounds : Scalar → Prop
  | ceiling | floor | sign => True
  | _ => False

/-- The whole number that one of these verbs makes of a rational. -/
def wholeOf : Scalar → ℚ → ℤ
  | ceiling, q => q.ceil
  | floor, q => q.floor
  | _, q => q.num.sign

theorem sign_mem_Icc (n : ℤ) : -1 ≤ n.sign ∧ n.sign ≤ 1 := by
  have := Int.sign_trichotomy n
  omega

theorem num_sign_le_num_sign (h : q ≤ r) : q.num.sign ≤ r.num.sign := by
  rcases lt_trichotomy q 0 with hq | rfl | hq
  · rw [Int.sign_eq_neg_one_of_neg (Rat.num_neg.2 hq)]
    exact (sign_mem_Icc _).1
  · exact Int.sign_nonneg_iff.2 (Rat.num_nonneg.2 h)
  · rw [Int.sign_eq_one_of_pos (Rat.num_pos.2 (hq.trans_le h))]
    exact (sign_mem_Icc _).2

theorem wholeOf_mono (s : Scalar) (h : q ≤ r) : s.wholeOf q ≤ s.wholeOf r := by
  cases s with
  | ceiling => exact Rat.ceil_le_iff.2 (h.trans (Rat.ceil_le_iff.1 le_rfl))
  | floor => exact Rat.le_floor_iff.2 ((Rat.le_floor_iff.1 le_rfl).trans h)
  | _ => exact num_sign_le_num_sign h

theorem wholeOf_intCast (s : Scalar) (n : ℤ) : s.wholeOf n = n ∨ s.wholeOf n = n.sign := by
  cases s with
  | ceiling => exact .inl (Rat.ceil_intCast n)
  | floor => exact .inl (Rat.floor_intCast n)
  | _ => exact .inr (congrArg Int.sign (Rat.num_intCast n))

theorem inRange_wholeOf_intCast (s : Scalar) (hn : InRange n) : InRange (s.wholeOf n) := by
  rcases s.wholeOf_intCast n with h | h
  · rwa [h]
  · have := sign_mem_Icc n
    rw [h]
    exact ⟨by omega, by omega⟩

/-- Only numbers too large for digits behind the point come to whole numbers out of range. -/
theorem abs_le_of_not_inRange (h : ¬ InRange (s.wholeOf q)) : (2 : ℚ) ^ (52 : ℤ) ≤ |q| := by
  by_contra hlt
  obtain ⟨hlow, hhigh⟩ := abs_lt.1 (not_le.1 hlt)
  have hlow : ((-2 ^ 52 : ℤ) : ℚ) ≤ q := by push_cast; exact_mod_cast hlow.le
  have hhigh : q ≤ ((2 ^ 52 : ℤ) : ℚ) := by push_cast; exact_mod_cast hhigh.le
  have hlow' := (inRange_wholeOf_intCast s (n := -2 ^ 52) (by decide)).1.trans (s.wholeOf_mono hlow)
  have hhigh' := (s.wholeOf_mono hhigh).trans
    (inRange_wholeOf_intCast s (n := 2 ^ 52) (by decide)).2
  exact h ⟨hlow', hhigh'⟩

end Scalar

/-- Numbers of a format are whole from the power of two on that has all its digits. -/
theorem Format.Fits.exists_eq_intCast {f : Format} {q : ℚ} (hq : f.Fits q)
    (hlarge : (2 : ℚ) ^ ((f.precision : ℤ) - 1) ≤ |q|) : ∃ n : ℤ, q = n := by
  obtain ⟨-, hhigh⟩ := binaryExponent_spec hq.1
  have hexp := (zpow_lt_zpow_iff_right₀ one_lt_two).1 (hlarge.trans_lt hhigh)
  have hunit : 0 ≤ f.unit q := by
    unfold unit unboundedUnit
    omega
  obtain ⟨k, hk⟩ := exists_zpow_eq_mul hunit
  rw [zpow_zero, mul_one] at hk
  have hnum := (Rat.den_eq_one_iff _).1 hq.2.1
  refine ⟨(q / (2 : ℚ) ^ f.unit q).num * k, ?_⟩
  rw [Int.cast_mul, hnum, ← hk, div_mul_cancel₀ _ (by positivity)]

/-! ### Values -/

/-- The value that one of these verbs makes of a value. -/
def Scalar.onValue (s : Scalar) : Extended → Extended
  | .finite q => .finite (s.wholeOf q)
  | .minusInfinity => if s = .sign then .finite (-1) else .minusInfinity
  | .plusInfinity => if s = .sign then .finite 1 else .plusInfinity
  | .notANumber => .notANumber

namespace Extended

variable {u v : Extended}

theorem le_of_sort_lt (h : u.sort < v.sort) : u ≤ v :=
  (lt_iff.2 (.inl h)).le

/-- A map of values keeps their order when it keeps that of finite ones and that of neighbouring
sorts. -/
theorem monotone_of {g : Extended → Extended}
    (hfinite : ∀ q r, q ≤ r → g (finite q) ≤ g (finite r))
    (hlow : ∀ q, g minusInfinity ≤ g (finite q)) (hhigh : ∀ q, g (finite q) ≤ g plusInfinity)
    (hlast : g plusInfinity ≤ g notANumber) : Monotone g := by
  intro u v h
  rcases h.eq_or_lt with rfl | hlt
  · exact le_rfl
  · have hsort := lt_iff.1 hlt
    cases u <;> cases v <;> simp [sort] at hsort
    case finite.finite q r => exact hfinite q r (finite_le_finite.1 h)
    case minusInfinity.finite q => exact hlow q
    case minusInfinity.plusInfinity => exact (hlow 0).trans (hhigh 0)
    case minusInfinity.notANumber => exact ((hlow 0).trans (hhigh 0)).trans hlast
    case finite.plusInfinity q => exact hhigh q
    case finite.notANumber q => exact (hhigh q).trans hlast
    case plusInfinity.notANumber => exact hlast

end Extended

theorem Scalar.onValue_mono (s : Scalar) : Monotone s.onValue := by
  have hsign : ∀ q, -1 ≤ Scalar.sign.wholeOf q ∧ Scalar.sign.wholeOf q ≤ 1 := fun q =>
    sign_mem_Icc q.num
  refine Extended.monotone_of (fun q r h => ?_) (fun q => ?_) (fun q => ?_) ?_
  · exact Extended.finite_le_finite.2 (Int.cast_le.2 (s.wholeOf_mono h))
  · simp only [onValue]
    split_ifs with hs
    · exact Extended.finite_le_finite.2 (by exact_mod_cast hs ▸ (hsign q).1)
    · exact Extended.le_of_sort_lt Nat.zero_lt_one
  · simp only [onValue]
    split_ifs with hs
    · exact Extended.finite_le_finite.2 (by exact_mod_cast hs ▸ (hsign q).2)
    · exact Extended.le_of_sort_lt Nat.one_lt_two
  · simp only [onValue]
    split_ifs with hs
    · exact Extended.le_of_sort_lt (by decide)
    · exact Extended.le_of_sort_lt (by decide)

theorem Floating.flushed_mono (f : Format) : Monotone (flushed f) := by
  refine Extended.monotone_of (fun q r h => ?_) (fun q => ?_) (fun q => ?_) ?_
  · exact flushed_finite_le_iff.2 (.inl (Extended.finite_le_finite.2 h))
  · exact Extended.le_of_sort_lt Nat.zero_lt_one
  · exact Extended.le_of_sort_lt Nat.one_lt_two
  · exact Extended.le_of_sort_lt (Nat.lt_succ_self 2)

/-! ### Reals -/

namespace Floating

variable {f : Format} {q : ℚ} {x y : Floating f}

theorem value?_eq_some_iff : x.value? = some q ↔ x.extended = .finite q := by
  cases x with
  | infinity negative => cases negative <;> simp [value?, extended]
  | _ => simp [value?, extended]

/-- Only the zeros share their value. -/
theorem eq_of_extended_eq (hne : x.extended ≠ .finite 0) (h : x.extended = y.extended) : x = y := by
  cases x with
  | zero negative => exact absurd rfl hne
  | infinity negative => cases negative <;> cases y <;> grind [extended]
  | _ => cases y <;> grind [extended]

end Floating

namespace Scalar

variable {s : Scalar} {q : ℚ} {n : ℤ} {f : Format} {u : Floating f}

theorem onFloating_of_rounds (hs : s.Rounds) (u : Floating f) : s.onFloating u = u := by
  cases s with
  | ceiling | floor | sign => rfl
  | _ => exact hs.elim

theorem whole?_of_finite (hs : s.Rounds) (hu : u.extended = .finite q) :
    s.whole? u = if InRange (s.wholeOf q) then some (s.wholeOf q) else none := by
  have hvalue := value?_eq_some_iff.2 hu
  have hdef : s.whole? u = (some (s.wholeOf q)).filter fun n => InRange n := by
    cases s with
    | ceiling => simp only [whole?, hvalue, Option.map_some, wholeOf]
    | floor => simp only [whole?, hvalue, Option.map_some, wholeOf]
    | sign =>
      cases u with
      | infinity negative => cases hvalue
      | _ => simp only [whole?, hvalue, Option.map_some, wholeOf]
    | _ => exact hs.elim
  rw [hdef, Option.filter_some]
  simp only [decide_eq_true_eq]

theorem onReal_of_rounds (hs : s.Rounds) (p : Precision) (x : Binary64) :
    s.onReal p x = (s.whole? (p.narrow x).flush).elim (.real (p.widen (p.narrow x).flush)) .int := by
  have hresult : s.onReal p x = (s.whole? (p.narrow x).flush).elim
      (.real (p.widen (s.onFloating (p.narrow x).flush))) .int := by
    unfold onReal
    dsimp only
    split
    next n hn => exact (congrArg (Option.elim · _ Atom.int) hn).symm
    next hn => exact (congrArg (Option.elim · _ Atom.int) hn).symm
  rw [hresult, onFloating_of_rounds hs]

theorem onReal_double (hs : s.Rounds) (x : Binary64) :
    s.onReal .double x = (s.whole? x.flush).elim (.real x.flush) .int :=
  onReal_of_rounds hs .double x

/-- A real whose whole number is out of range is whole. -/
theorem wholeOf_eq_self (hprecision : f.precision ≤ 53) (hu : u.extended = .finite q)
    (hout : ¬ InRange (s.wholeOf q)) : (s.wholeOf q : ℚ) = q := by
  have hlarge : (2 : ℚ) ^ ((f.precision : ℤ) - 1) ≤ |q| :=
    (zpow_le_zpow_right₀ one_le_two (by omega)).trans (abs_le_of_not_inRange hout)
  have hwhole : ∃ n : ℤ, q = n := by
    cases u with
    | finite r fits =>
      cases hu
      exact fits.exists_eq_intCast hlarge
    | zero negative =>
      cases hu
      exact ⟨0, rfl⟩
    | infinity negative => cases negative <;> cases hu
    | nan => cases hu
  obtain ⟨n, rfl⟩ := hwhole
  rcases s.wholeOf_intCast n with h | h
  · rw [h]
  · have := sign_mem_Icc n
    rw [h] at hout
    exact absurd ⟨by omega, by omega⟩ hout

end Scalar

/-! ### Atoms -/

namespace Atom

variable {a b : Atom}

/-- An integer in range, or a real whose value is no integer in range. -/
def Settled : Atom → Prop
  | int n => InRange n
  | real x => ∀ n : ℤ, InRange n → x.extended ≠ .finite n

/-- A value stands for one such atom at most. -/
theorem Settled.eq_of_extended_eq (ha : a.Settled) (hb : b.Settled)
    (h : a.extended = b.extended) : a = b := by
  cases a with
  | int m =>
    cases b with
    | int n => exact congrArg int (Int.cast_injective (Extended.finite.inj h))
    | real y => exact absurd h.symm (hb m ha)
  | real x =>
    cases b with
    | int n => exact absurd h (ha n hb)
    | real y =>
      have hzero : x.extended ≠ .finite 0 := by exact_mod_cast ha 0 (by decide)
      rw [Floating.eq_of_extended_eq hzero h]

end Atom

namespace Scalar

variable {s : Scalar} {a : Atom}

/-- What one of these verbs gives for an atom that is no integer out of range. -/
def rounded (s : Scalar) : Atom → Atom
  | .int n => .int (s.wholeOf n)
  | .real x => s.onReal .double x

theorem onInt?_of_rounds (hs : s.Rounds) (n : ℤ) : s.onInt? n = some (s.wholeOf n) := by
  cases s with
  | ceiling => exact congrArg some (Rat.ceil_intCast n).symm
  | floor => exact congrArg some (Rat.floor_intCast n).symm
  | sign => rfl
  | _ => exact hs.elim

theorem onAtom_double (hs : s.Rounds) (ha : a.Canonical) :
    s.onAtom .double a = .ok (s.rounded a) := by
  cases a with
  | int n =>
    have hrange := inRange_wholeOf_intCast s (ha n rfl)
    rw [onAtom, onInt?_of_rounds hs]
    exact map_eq_ok.2 ⟨_, checkRange_eq_ok.2 ⟨hrange, rfl⟩, rfl⟩
  | real x => rfl

theorem extended_onReal (hs : s.Rounds) (x : Binary64) :
    (s.onReal .double x).extended = s.onValue x.flush.extended := by
  have hfinite : ∀ {u : Binary64} {q : ℚ}, u.extended = .finite q →
      ((s.whole? u).elim (Atom.real u) .int).extended = s.onValue u.extended := by
    intro u q hu
    rw [whole?_of_finite hs hu, hu, onValue]
    split_ifs with hrange
    · rfl
    · rw [wholeOf_eq_self le_rfl hu hrange]
      exact hu
  rw [onReal_double hs]
  cases x.flush with
  | finite q fits => exact hfinite rfl
  | zero negative => exact hfinite rfl
  | infinity negative =>
    cases s with
    | ceiling | floor | sign => cases negative <;> rfl
    | _ => exact hs.elim
  | nan =>
    cases s with
    | ceiling | floor | sign => rfl
    | _ => exact hs.elim

theorem flushed_intCast (n : ℤ) : flushed .binary64 (.finite n) = .finite n := by
  rw [flushed]
  split_ifs with h
  · rw [Format.eq_zero_of_subnormal_intCast (by decide) h, Int.cast_zero]
  · rfl

theorem flushed_onValue (s : Scalar) (u : Extended) :
    flushed .binary64 (s.onValue u) = s.onValue u := by
  cases u with
  | finite q => exact flushed_intCast _
  | notANumber => rfl
  | minusInfinity =>
    rw [onValue]
    split_ifs
    · exact_mod_cast flushed_intCast (-1)
    · rfl
  | plusInfinity =>
    rw [onValue]
    split_ifs
    · exact_mod_cast flushed_intCast 1
    · rfl

theorem extended_rounded (hs : s.Rounds) (a : Atom) :
    (s.rounded a).extended = s.onValue (flushed .binary64 a.extended) := by
  cases a with
  | int n =>
    rw [Atom.extended, flushed_intCast]
    rfl
  | real x =>
    rw [Atom.extended, ← extended_flush]
    exact extended_onReal hs x

theorem settled_rounded (hs : s.Rounds) (ha : a.Canonical) : (s.rounded a).Settled := by
  cases a with
  | int n => exact inRange_wholeOf_intCast s (ha n rfl)
  | real x =>
    rw [rounded, onReal_double hs]
    cases hwhole : s.whole? x.flush with
    | some n =>
      refine inRange_of_onReal (p := .double) (s := s) (r := x) ?_
      rw [onReal_double hs, hwhole]
      rfl
    | none =>
      -- A value that is an integer in range would have had one as its whole number.
      intro n hn hvalue
      rw [whole?_of_finite hs hvalue, if_pos (inRange_wholeOf_intCast s hn)] at hwhole
      cases hwhole

end Scalar
end ArrayPhrase
