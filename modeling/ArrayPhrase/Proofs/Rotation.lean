import Mathlib.Data.Int.ModEq
import Mathlib.Data.List.Rotate
import ArrayPhrase.Proofs.Portions

/-! Rotations. A count moves the items of a noun to the left by as many places, and those that come
to the front go round to the back. Only the remainder of the count by the number of items matters,
so that rotations by any two integers are one rotation by their sum, and the reversed items rotate
the other way. -/

namespace ArrayPhrase

namespace Noun

variable {xs : List Noun} {n : Int} {i k : Nat}

@[simp] theorem rotateItems_nil (n : Int) : rotateItems n [] = [] := by
  simp [rotateItems]

@[simp] theorem length_rotateItems (n : Int) (xs : List Noun) :
    (rotateItems n xs).length = xs.length := by
  simp only [rotateItems, List.length_append, List.length_drop, List.length_take]
  omega

/-- Every count with the same remainder rotates alike. -/
theorem rotateItems_eq_rotate (h : (k : Int) ≡ n [ZMOD xs.length]) :
    rotateItems n xs = xs.rotate k := by
  have hshift : (n.fmod xs.length).toNat = k % xs.length := by
    rw [Int.fmod_eq_emod_of_nonneg _ (by omega), ← h.eq, ← Int.natCast_emod, Int.toNat_natCast]
  simp only [rotateItems, hshift]
  exact List.rotate_eq_drop_append_take_mod.symm

/-- Where there are items, some count that is not negative has the same remainder. -/
theorem exists_rotateItems_eq_rotate (n : Int) (hxs : xs ≠ []) :
    ∃ k : Nat, (k : Int) ≡ n [ZMOD xs.length] ∧ rotateItems n xs = xs.rotate k := by
  have hlength : 0 < (xs.length : Int) := by
    have := List.length_pos_iff.2 hxs
    omega
  obtain ⟨k, -, hk⟩ := Int.existsUnique_equiv_nat n hlength
  exact ⟨k, hk, rotateItems_eq_rotate hk⟩

theorem getElem?_rotateItems (hi : i < xs.length) :
    (rotateItems n xs)[i]? = xs[((i + n) % xs.length).toNat]? := by
  have hxs : xs ≠ [] := List.ne_nil_of_length_pos (Nat.zero_lt_of_lt hi)
  obtain ⟨k, hk, hrotate⟩ := exists_rotateItems_eq_rotate n hxs
  have hplace : (((i + n) % xs.length : Int)).toNat = (i + k) % xs.length := by
    rw [← (hk.add_left i).eq, ← Int.natCast_add, ← Int.natCast_emod, Int.toNat_natCast]
  rw [hrotate, List.getElem?_rotate hi, hplace]

theorem rotateItems_rotateItems (n m : Int) (xs : List Noun) :
    rotateItems n (rotateItems m xs) = rotateItems (n + m) xs := by
  by_cases hxs : xs = []
  · simp [hxs]
  · obtain ⟨j, hj, hrotate⟩ := exists_rotateItems_eq_rotate m hxs
    obtain ⟨k, hk, -⟩ := exists_rotateItems_eq_rotate n hxs
    have hk' : (k : Int) ≡ n [ZMOD (xs.rotate j).length] := by rwa [List.length_rotate]
    have hsum : ((j + k : Nat) : Int) ≡ n + m [ZMOD xs.length] := by
      rw [Nat.cast_add, add_comm n m]
      exact hj.add hk
    rw [hrotate, rotateItems_eq_rotate hk', List.rotate_rotate, rotateItems_eq_rotate hsum]

theorem rotateItems_of_dvd (h : (xs.length : Int) ∣ n) : rotateItems n xs = xs := by
  have hzero : ((0 : Nat) : Int) ≡ n [ZMOD xs.length] := (Int.modEq_zero_iff_dvd.2 h).symm
  rw [rotateItems_eq_rotate hzero, List.rotate_zero]

theorem reverse_rotateItems_reverse (n : Int) (xs : List Noun) :
    (rotateItems n xs.reverse).reverse = rotateItems (-n) xs := by
  by_cases hxs : xs = []
  · simp [hxs]
  · obtain ⟨k, hk, hrotate⟩ := exists_rotateItems_eq_rotate n (List.reverse_ne_nil_iff.2 hxs)
    rw [List.length_reverse] at hk
    have hlt : k % xs.length < xs.length := Nat.mod_lt _ (List.length_pos_iff.2 hxs)
    -- Moving to the left by what is missing to the length is moving to the right.
    have hback : ((xs.length - k % xs.length : Nat) : Int) ≡ -n [ZMOD xs.length] := by
      rw [Nat.cast_sub hlt.le, Int.natCast_emod]
      calc (xs.length : Int) - k % xs.length
          ≡ 0 - k [ZMOD xs.length] := (Int.modEq_zero_iff_dvd.2 dvd_rfl).sub (Int.mod_modEq _ _)
        _ ≡ 0 - n [ZMOD xs.length] := hk.sub_left 0
        _ = -n := Int.zero_sub n
    rw [hrotate, List.rotate_reverse, List.reverse_reverse, rotateItems_eq_rotate hback]

end Noun

/-! ### Commands -/

variable {n : Int} {text : String} {p : Precision} {given : Datum} {x : Noun}

namespace Phrase

theorem complete_rotate (hwrites : Literal.Writes n text) : (application "|." [text]).Complete :=
  complete_of_literal (by decide) (by decide) hwrites.isLiteral

theorem apply_rotate (hwrites : Literal.Writes n text) (p : Precision) (x : Noun) :
    (application "|." [text]).apply p x = .ok (.list (Noun.rotateItems n x.items)) :=
  apply_of_writes .rotate (fun _ => rfl) hwrites p x

end Phrase

theorem evaluateTexts_rotate (hwrites : Literal.Writes n text)
    (haccepted : given.toNoun nounRoot = .ok x) :
    evaluateTexts p ["|.", text] given = .ok (.list (Noun.rotateItems n x.items)) := by
  rw [(Phrase.complete_rotate hwrites).evaluateTexts_of_accepted p haccepted,
    Phrase.apply_rotate hwrites]

/-- Rotating by an integer puts at each place the item that stands as many places further on, round
the end. Two rotations are one by the sum of their counts, multiples of the number of items are no
rotation, and between two reversals a rotation goes the other way. -/
theorem integers_act_by_rotation (haccepted : given.toNoun nounRoot = .ok x) :
    (∀ (n : Int) (text : String), Literal.Writes n text →
      ∃ ys, evaluateTexts p ["|.", text] given = .ok (.list ys) ∧ ys.length = x.items.length ∧
        (∀ i < x.items.length, ys[i]? = x.items[((i + n) % x.items.length).toNat]?) ∧
        ((x.items.length : Int) ∣ n → ys = x.items) ∧ (x.items = [] → ys = [])) ∧
    (∀ (n m : Int) (first second sum : String), Literal.Writes n first →
      Literal.Writes m second → Literal.Writes (n + m) sum →
      evaluateTexts p ["|.", first, "|.", second] given = evaluateTexts p ["|.", sum] given) ∧
    ∀ (n : Int) (text negated : String), Literal.Writes n text → Literal.Writes (-n) negated →
      evaluateTexts p ["|.", "|.", text, "|."] given = evaluateTexts p ["|.", negated] given := by
  refine ⟨fun n text htext => ?_, fun n m first second sum hfirst hsecond hsum => ?_,
    fun n text negated htext hnegated => ?_⟩
  · refine ⟨_, evaluateTexts_rotate htext haccepted, Noun.length_rotateItems n x.items,
      fun i hi => Noun.getElem?_rotateItems hi, Noun.rotateItems_of_dvd, fun hnil => ?_⟩
    rw [hnil, Noun.rotateItems_nil]
  · have htwice := (Phrase.complete_rotate hfirst).evaluateTexts_append
      (Phrase.complete_rotate hsecond) p haccepted
    rw [Phrase.apply_rotate hsecond] at htwice
    calc evaluateTexts p ["|.", first, "|.", second] given
        = (Phrase.application "|." [first]).apply p (.list (Noun.rotateItems m x.items)) := htwice
      _ = .ok (.list (Noun.rotateItems n (Noun.rotateItems m x.items))) :=
          Phrase.apply_rotate hfirst p _
      _ = .ok (.list (Noun.rotateItems (n + m) x.items)) := by rw [Noun.rotateItems_rotateItems]
      _ = evaluateTexts p ["|.", sum] given := (evaluateTexts_rotate hsum haccepted).symm
  · have hturned := (Phrase.complete_rotate htext).evaluateTexts_between_reversals p given
    rw [haccepted] at hturned
    calc evaluateTexts p ["|.", "|.", text, "|."] given
        = (fun y : Noun => .list y.items.reverse) <$>
            (Phrase.application "|." [text]).apply p (.list x.items.reverse) := hturned
      _ = .ok (.list (Noun.rotateItems n x.items.reverse).reverse) := by
          rw [Phrase.apply_rotate htext]
          rfl
      _ = .ok (.list (Noun.rotateItems (-n) x.items)) := by rw [Noun.reverse_rotateItems_reverse]
      _ = evaluateTexts p ["|.", negated] given := (evaluateTexts_rotate hnegated haccepted).symm

theorem integers_act_by_rotation_back_past_the_front :
    let given : Datum := .list [.leaf (.int 5), .list [.leaf (.int 6)], .leaf (.int 7)]
    let evaluated := fun texts => evaluateTexts .double texts given
    (∃ ys, evaluated ["|.", "_04"] = .ok (.list ys) ∧ ys[0]? = some (.atom (.int 7))) ∧
      evaluated ["|.", "_04", "|.", "7"] = evaluated ["|.", "3"] ∧
      evaluated ["|.", "|.", "_04", "|."] = evaluated ["|.", "4"] := by
  intro given evaluated
  have haccepted : given.toNoun nounRoot =
      .ok (.list [.atom (.int 5), .list [.atom (.int 6)], .atom (.int 7)]) := by
    decide +kernel
  have hback : Literal.Writes (-4) "_04" := by
    decide +kernel
  have hplain : Literal.Writes 7 "7" ∧ Literal.Writes 3 "3" ∧ Literal.Writes 4 "4" := by
    decide +kernel
  obtain ⟨hitems, hsum, hturned⟩ := integers_act_by_rotation (p := .double) haccepted
  obtain ⟨ys, hys, -, hplaces, -⟩ := hitems (-4) "_04" hback
  refine ⟨⟨ys, hys, hplaces 0 (by decide)⟩, ?_, ?_⟩
  · exact hsum (-4) 7 "_04" "7" "3" hback hplain.1 hplain.2.1
  · exact hturned (-4) "_04" "4" hback hplain.2.2

end ArrayPhrase
