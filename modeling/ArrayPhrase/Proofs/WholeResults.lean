import ArrayPhrase.Proofs.Integral
import ArrayPhrase.Proofs.Shapes
import ArrayPhrase.Proofs.WholeValues

/-! What ceiling, floor and sign make of nouns. In either precision they have a result for every
noun, in which the numbers in range are integers and nothing else is, and which they leave as it
is. In double precision the integers are the mathematical ones, except next to zero, where
subnormal numbers count as zero. -/

namespace ArrayPhrase

open Outcome Floating

/-! ### Atoms by their values -/

namespace Atom

/-- The atom is an integer if its value is a number in the 64-bit range, and else a real. -/
def Reduced (a : Atom) : Prop :=
  a.IsInt ↔ ∃ q : ℚ, a.extended = .finite q ∧
    -9223372036854775808 ≤ q ∧ q ≤ 9223372036854775807

theorem reduced_int {n : ℤ} (hn : InRange n) : (int n).Reduced :=
  iff_of_true ⟨n, rfl⟩ ⟨n, rfl, by exact_mod_cast hn.1, by exact_mod_cast hn.2⟩

theorem reduced_real {x : Binary64} (h : ∀ q : ℚ, x.extended = .finite q →
    ¬ (-9223372036854775808 ≤ q ∧ q ≤ 9223372036854775807)) : (real x).Reduced := by
  refine iff_of_false ?_ fun ⟨q, hq, hrange⟩ => h q hq hrange
  rintro ⟨n, hn⟩
  cases hn

end Atom

/-! ### Twice -/

theorem Precision.precision_format_le (p : Precision) : p.format.precision ≤ 53 := by
  cases p <;> decide

namespace Scalar

variable {p : Precision} {s : Scalar} {a : Atom} {f : Format} {u : Floating f} {q : ℚ} {n : ℤ}

theorem wholeOf_wholeOf (s : Scalar) (q : ℚ) : s.wholeOf (s.wholeOf q) = s.wholeOf q := by
  cases s with
  | ceiling => exact Rat.ceil_intCast _
  | floor => exact Rat.floor_intCast _
  | _ => exact (congrArg Int.sign (Rat.num_intCast _)).trans Int.sign_sign

/-- All integer results are whole numbers of rationals, those for infinities too. -/
theorem exists_wholeOf_of_whole? (hs : s.Rounds) (h : s.whole? u = some n) :
    ∃ q, s.wholeOf q = n := by
  have hfinite : ∀ {q}, u.extended = .finite q → ∃ q, s.wholeOf q = n := by
    intro q hu
    rw [whole?_of_finite hs hu] at h
    split_ifs at h
    exact ⟨q, Option.some.inj h⟩
  cases u with
  | zero negative => exact hfinite rfl
  | finite q fits => exact hfinite rfl
  | nan =>
    cases s with
    | ceiling | floor | sign => cases h
    | _ => exact hs.elim
  | infinity negative =>
    obtain ⟨hsign, -⟩ := Option.filter_eq_some_iff.1 h
    cases s with
    | ceiling | floor => cases hsign
    | sign =>
      -- Infinities have the signs of one and minus one.
      cases negative with
      | true =>
        cases hsign
        exact ⟨-1, by decide⟩
      | false =>
        cases hsign
        exact ⟨1, by decide⟩
    | _ => exact hs.elim

/-- An integer that is a whole number stays. -/
theorem onAtom_wholeOf (hs : s.Rounds) (hrange : InRange (s.wholeOf q)) :
    s.onAtom p (.int (s.wholeOf q)) = .ok (.int (s.wholeOf q)) := by
  refine (onAtom_int_eq_ok_iff (onInt?_of_rounds hs _)).2 ⟨?_, ?_⟩
  · rwa [wholeOf_wholeOf]
  · rw [wholeOf_wholeOf]

/-- A flushed real without a whole number in range stays. It is in the format already and is
rounded and flushed no further. -/
theorem onReal_widen (hs : s.Rounds) {u : Floating p.format} (hflush : u.flush = u)
    (hnone : s.whole? u = none) : s.onReal p (p.widen u) = .real (p.widen u) := by
  rw [onReal_of_rounds hs, Precision.narrow_widen, hflush, hnone]
  rfl

theorem reduced_widen (hs : s.Rounds) {u : Floating p.format} (hnone : s.whole? u = none) :
    (Atom.real (p.widen u)).Reduced := by
  refine Atom.reduced_real fun q hq hrange => ?_
  rw [Precision.extended_widen] at hq
  rw [whole?_of_finite hs hq] at hnone
  have hout : ¬ InRange (s.wholeOf q) := fun hin => by
    rw [if_pos hin] at hnone
    cases hnone
  -- So large a real is its own whole number.
  have hwhole := wholeOf_eq_self p.precision_format_le hq hout
  rw [← hwhole] at hrange
  exact hout ⟨by exact_mod_cast hrange.1, by exact_mod_cast hrange.2⟩

/-- Every atom in range has a result, which is reduced and stays. -/
theorem exists_onAtom_eq (hs : s.Rounds) (ha : a.Canonical) :
    ∃ b, s.onAtom p a = .ok b ∧ b.Reduced ∧ s.onAtom p b = .ok b := by
  cases a with
  | int n =>
    have hrange := inRange_wholeOf_intCast s (ha n rfl)
    exact ⟨_, (onAtom_int_eq_ok_iff (onInt?_of_rounds hs n)).2 ⟨hrange, rfl⟩,
      Atom.reduced_int hrange, onAtom_wholeOf hs hrange⟩
  | real x =>
    refine ⟨s.onReal p x, rfl, ?_⟩
    rw [onReal_of_rounds hs]
    cases hwhole : s.whole? (p.narrow x).flush with
    | some n =>
      have hrange : InRange n := of_decide_eq_true (Option.filter_eq_some_iff.1 hwhole).2
      obtain ⟨q, rfl⟩ := exists_wholeOf_of_whole? hs hwhole
      exact ⟨Atom.reduced_int hrange, onAtom_wholeOf hs hrange⟩
    | none =>
      exact ⟨reduced_widen hs hwhole,
        congrArg Except.ok (onReal_widen hs (flush_flush _) hwhole)⟩

end Scalar

/-! ### Mathematical whole numbers -/

namespace Scalar

variable {s : Scalar} {q : ℚ} {u : Binary64}

/-- The integer is the ceiling, the floor or the sign of the rational. -/
def Means : Scalar → ℚ → ℤ → Prop
  | ceiling, q, n => n - 1 < q ∧ q ≤ n
  | floor, q, n => n ≤ q ∧ q < n + 1
  | sign, q, n => q < 0 ∧ n = -1 ∨ q = 0 ∧ n = 0 ∨ 0 < q ∧ n = 1
  | _, _, _ => False

/-- The side of zero on which the ceiling, the floor or the sign of a rational is another one than
that of zero, however small it is. -/
def Jumps : Scalar → ℚ → Prop
  | ceiling, q => 0 < q
  | floor, q => q < 0
  | sign, q => q ≠ 0
  | _, _ => False

theorem means_wholeOf (hs : s.Rounds) (q : ℚ) : s.Means q (s.wholeOf q) := by
  cases s with
  | ceiling => exact ⟨sub_lt_iff_lt_add.2 Rat.ceil_lt, Rat.ceil_le_iff.1 le_rfl⟩
  | floor => exact ⟨Rat.le_floor_iff.1 le_rfl, sub_lt_iff_lt_add.1 Rat.lt_floor⟩
  | sign =>
    rcases lt_trichotomy q 0 with hq | rfl | hq
    · exact .inl ⟨hq, Int.sign_eq_neg_one_of_neg (Rat.num_neg.2 hq)⟩
    · exact .inr (.inl ⟨rfl, rfl⟩)
    · exact .inr (.inr ⟨hq, Int.sign_eq_one_of_pos (Rat.num_pos.2 hq)⟩)
  | _ => exact hs.elim

theorem means_zero_iff (hs : s.Rounds) (hq : |q| < 1) : s.Means q 0 ↔ ¬ s.Jumps q := by
  obtain ⟨hlow, hhigh⟩ := abs_lt.1 hq
  cases s with
  | ceiling => simp [Means, Jumps, hlow]
  | floor => simp [Means, Jumps, hhigh]
  | sign => simp [Means, Jumps]
  | _ => exact hs.elim

theorem wholeOf_zero (s : Scalar) : s.wholeOf 0 = 0 := by
  cases s <;> decide

/-- A real between the ends of the integers has the whole number of its value, where a subnormal
one counts as zero. -/
theorem onReal_double_of_value? (hs : s.Rounds) (hu : u.value? = some q)
    (hlow : -9223372036854775808 ≤ q) (hhigh : q < 9223372036854775808) :
    s.onReal .double u =
      .int (s.wholeOf (if Format.binary64.Subnormal q then 0 else q)) := by
  rw [value?_eq_some_iff] at hu
  have hflush := extended_flush u
  rw [hu, flushed] at hflush
  rw [onReal_double hs, whole?_of_finite hs hflush, if_pos, Option.elim_some]
  -- Below the upper end there may be a ceiling out of range, but no real that has it.
  split_ifs with hsub
  · rw [wholeOf_zero]
    decide
  · by_contra hout
    have hwhole := wholeOf_eq_self le_rfl hu hout
    rw [← hwhole] at hlow hhigh
    refine hout ⟨by exact_mod_cast hlow, Int.le_of_lt_add_one ?_⟩
    exact_mod_cast hhigh

theorem means_onReal_iff (hs : s.Rounds) (hu : u.value? = some q)
    (hlow : -9223372036854775808 ≤ q) (hhigh : q < 9223372036854775808) :
    ∃ n, s.onReal .double u = .int n ∧
      (s.Means q n ↔ ¬ (Format.binary64.Subnormal q ∧ s.Jumps q)) ∧
      (Format.binary64.Subnormal q → n = 0) := by
  refine ⟨_, onReal_double_of_value? hs hu hlow hhigh, ?_⟩
  split_ifs with hsub
  · have hsmall : |q| < 1 :=
      (subnormal_iff.1 hsub).trans (zpow_lt_one_of_neg₀ one_lt_two (by decide))
    rw [wholeOf_zero, means_zero_iff hs hsmall]
    simp [hsub]
  · simp [hsub, means_wholeOf hs]

end Scalar

/-! ### Commands -/

variable {p : Precision} {s : Scalar} {given : Datum} {x : Noun}

theorem exists_maps_of_rounds (hs : s.Rounds) (hx : x.Canonical) :
    ∃ y, x.Maps (s.onAtom p) y ∧ ∀ b ∈ y.leaves, b.Reduced ∧ s.onAtom p b = .ok b := by
  have hatoms : ∀ a ∈ x.leaves, ∃ b, s.onAtom p a = .ok b ∧ b.Reduced ∧ s.onAtom p b = .ok b :=
    fun a ha => Scalar.exists_onAtom_eq hs (Noun.canonical_iff_all.1 hx a ha)
  obtain ⟨y, hy⟩ := Noun.exists_mapLeaves_eq_ok fun a ha => (hatoms a ha).imp fun b hb => hb.1
  refine ⟨y, hy, fun b hb => ?_⟩
  obtain ⟨a, ha, hab⟩ := exists_of_mem_mapM (mapM_eq_ok.2 (Noun.Maps.leaves hy)) hb
  obtain ⟨c, hac, hc⟩ := hatoms a ha
  obtain rfl : c = b := Except.ok.inj (hac.symm.trans hab)
  exact hc

/-- Ceiling, floor and sign have a result for every noun, of its shape and with reduced atoms only,
and leave that as it is. -/
theorem whole_numbers_settle (hs : s.Rounds) (haccepted : given.toNoun nounRoot = .ok x) :
    ∃ y, evaluate p s.rep given = .ok y ∧ x.SameShape y ∧ (∀ b ∈ y.leaves, b.Reduced) ∧
      evaluate p s.rep y.toDatum = .ok y := by
  obtain ⟨y, hy, hresults⟩ :=
    exists_maps_of_rounds (p := p) hs (Datum.canonical_of_toNoun haccepted)
  have heval : evaluate p s.rep given = .ok y := (evaluate_scalar_eq_mapLeaves haccepted).trans hy
  have hagain : y.toDatum.toNoun nounRoot = .ok y :=
    (Noun.toNoun_toDatum_iff nounRoot).2 (canonical_of_evaluateTexts heval)
  refine ⟨y, heval, hy.sameShape, fun b hb => (hresults b hb).1, ?_⟩
  rw [evaluate_scalar_eq_mapLeaves hagain, Noun.mapLeaves_eq_ok_iff, List.forall₂_same]
  exact ⟨.refl y, fun b hb => (hresults b hb).2⟩

theorem whole_numbers_settle_mixed_atoms :
    let x : Noun :=
      .list [.atom (.real .nan), .list [.atom (.real (.ofBits 0x47efffffffffffff)),
        .atom (.real (.ofBits 1))], .atom (.real (.zero true)),
        .atom (.int (-9223372036854775808)), .atom (.real (.ofBits 0x43e0000000000000)),
        .atom (.real (.ofBits 0xc004000000000000))]
    let y : Noun :=
      .list [.atom (.real .nan), .list [.atom (.real (.infinity false)), .atom (.int 0)],
        .atom (.int 0), .atom (.int (-9223372036854775808)),
        .atom (.real (.ofBits 0x43e0000000000000)), .atom (.int (-3))]
    evaluate .single "<." x.toDatum = .ok y ∧ evaluate .single "<." y.toDatum = .ok y := by
  intro x y
  have haccepted : x.toDatum.toNoun nounRoot = .ok x := by
    decide +kernel
  have heval : evaluate .single "<." x.toDatum = .ok y := by
    decide +kernel
  obtain ⟨z, hz, -, -, hagain⟩ :=
    whole_numbers_settle (p := .single) (s := .floor) trivial haccepted
  obtain rfl : z = y := Except.ok.inj (hz.symm.trans heval)
  exact ⟨heval, hagain⟩

/-- In double precision a real between the ends of the integers gives the integer that is its
ceiling, floor or sign, unless it is subnormal and on the side of zero on which that is not zero.
Subnormal reals give zero. -/
theorem whole_numbers_of_reals (hs : s.Rounds) (haccepted : given.toNoun nounRoot = .ok x) :
    ∃ y, evaluate .double s.rep given = .ok y ∧ x.SameShape y ∧
      List.Forall₂ (fun a b => ∀ (u : Binary64) (q : ℚ), a = .real u → u.value? = some q →
        -9223372036854775808 ≤ q → q < 9223372036854775808 → ∃ n, b = .int n ∧
          (s.Means q n ↔ ¬ (Format.binary64.Subnormal q ∧ s.Jumps q)) ∧
          (Format.binary64.Subnormal q → n = 0)) x.leaves y.leaves := by
  obtain ⟨y, hy, -⟩ :=
    exists_maps_of_rounds (p := .double) hs (Datum.canonical_of_toNoun haccepted)
  refine ⟨y, (evaluate_scalar_eq_mapLeaves haccepted).trans hy, hy.sameShape, hy.leaves.imp ?_⟩
  rintro _ b hab u q rfl hu hlow hhigh
  obtain rfl : s.onReal .double u = b := Except.ok.inj hab
  exact Scalar.means_onReal_iff hs hu hlow hhigh

theorem whole_numbers_of_reals_greatest_and_least :
    let x : Noun := .list [.atom (.real (.ofBits 0x43dfffffffffffff)), .atom (.real (.ofBits 1))]
    evaluate .double ">." x.toDatum =
        .ok (.list [.atom (.int 9223372036854774784), .atom (.int 0)]) ∧
      Scalar.ceiling.Means 9223372036854774784 9223372036854774784 ∧
      ¬ Scalar.ceiling.Means (2 ^ (-1074 : ℤ)) 0 := by
  intro x
  have haccepted : x.toDatum.toNoun nounRoot = .ok x := by
    decide +kernel
  have heval : evaluate .double ">." x.toDatum =
      .ok (.list [.atom (.int 9223372036854774784), .atom (.int 0)]) := by
    decide +kernel
  obtain ⟨y, hy, -, hleaves⟩ := whole_numbers_of_reals (s := .ceiling) trivial haccepted
  obtain rfl := Except.ok.inj (hy.symm.trans heval)
  simp only [x, Noun.leaves_list, Noun.leaves_atom, List.flatMap_cons, List.flatMap_nil,
    List.cons_append, List.nil_append, List.append_nil, List.forall₂_cons] at hleaves
  obtain ⟨hgreatest, hleast, -⟩ := hleaves
  have hnormal : ¬ Format.binary64.Subnormal 9223372036854774784 := by
    decide +kernel
  have hsubnormal : Format.binary64.Subnormal (2 ^ (-1074 : ℤ)) := by
    decide +kernel
  have hlow : (0 : ℚ) < 2 ^ (-1074 : ℤ) := by
    positivity
  have hhigh : (2 : ℚ) ^ (-1074 : ℤ) ≤ 1 := zpow_le_one_of_nonpos₀ one_le_two (by decide)
  obtain ⟨_, ⟨⟩, hm, -⟩ :=
    hgreatest _ 9223372036854774784 rfl (by decide +kernel) (by norm_num) (by norm_num)
  obtain ⟨_, ⟨⟩, hn, -⟩ :=
    hleast _ (2 ^ (-1074 : ℤ)) rfl (by decide +kernel) (by linarith) (by linarith)
  exact ⟨heval, hm.2 fun h => hnormal h.1, fun h => hn.1 h ⟨hsubnormal, hlow⟩⟩

/-- The least real above zero gives zero, although its ceiling is one. -/
theorem ceiling_of_least_real :
    evaluate .double ">." (.leaf (.real (.ofBits 1))) = .ok (.atom (.int 0)) ∧
      (.ofBits 1 : Binary64).value? = some (2 ^ (-1074 : ℤ)) ∧
      ¬ Scalar.ceiling.Means (2 ^ (-1074 : ℤ)) 0 ∧ Scalar.ceiling.Means (2 ^ (-1074 : ℤ)) 1 := by
  have hlow : (0 : ℚ) < 2 ^ (-1074 : ℤ) := by
    positivity
  have hhigh : (2 : ℚ) ^ (-1074 : ℤ) ≤ 1 := zpow_le_one_of_nonpos₀ one_le_two (by decide)
  refine ⟨by decide +kernel, by decide +kernel, ?_, ?_⟩
  · exact fun h => hlow.not_ge (by exact_mod_cast h.2)
  · exact ⟨by simp, by exact_mod_cast hhigh⟩

end ArrayPhrase
