import ArrayPhrase.Proofs.Filling

/-! Shapes filled from a noun that is itself a filled shape. The leaves of a filled shape, in their
order, are the supply it was filled from, cut off or gone round to the number of places. To fill
from them again is to fill from the first supply, as long as the new shape either uses no more than
those leaves or finds whole rounds of the first supply in them. -/

namespace ArrayPhrase

namespace Noun

variable {leaf leaf' : Nat → Atom} {dims : List Nat} {x y : Noun} {r k m : Nat}

/-! ### The leaves of a filled shape -/

/-- Rows of one length, one after the other, number their elements without a gap. -/
theorem flatMap_range'_range' (r dim n : Nat) :
    (List.range' r dim).flatMap (fun s => List.range' (s * n) n) =
      List.range' (r * n) (dim * n) := by
  induction dim generalizing r with
  | zero => simp
  | succ dim ih =>
    rw [List.range'_succ, List.flatMap_cons, ih, Nat.succ_mul, Nat.succ_mul, Nat.add_comm (dim * n),
      ← List.range'_append_1]

theorem leaves_fill (leaf : Nat → Atom) (dims : List Nat) (r : Nat) :
    (fill (fun s => atom (leaf s)) dims r).leaves =
      (List.range' (r * dims.prod) dims.prod).map leaf := by
  induction dims generalizing r with
  | nil => simp [fill]
  | cons dim dims ih =>
    rw [fill_cons, leaves_list, List.flatMap_map, List.prod_cons, ← Nat.mul_assoc,
      ← flatMap_range'_range', List.map_flatMap]
    exact List.flatMap_congr fun s _ => ih s

theorem getElem?_leaves_fill (h : k < dims.prod) :
    (fill (fun s => atom (leaf s)) dims 0).leaves[k]? = some (leaf k) := by
  rw [leaves_fill, Nat.zero_mul, ← List.range_eq_range', List.getElem?_map,
    List.getElem?_range h, Option.map_some]

theorem sameShape_fill (leaf leaf' : Nat → Atom) (dims : List Nat) (r : Nat) :
    SameShape (fill (fun s => atom (leaf s)) dims r) (fill (fun s => atom (leaf' s)) dims r) := by
  induction dims generalizing r with
  | nil => exact sameShape_atom _ _
  | cons dim dims ih =>
    rw [fill_cons, fill_cons, sameShape_lists_iff, List.forall₂_map_left_iff,
      List.forall₂_map_right_iff, List.forall₂_same]
    exact fun s _ => ih s

/-- A shape that has `n` places sees only the first `n` elements. -/
theorem fill_congr (h : ∀ k < dims.prod, leaf k = leaf' k) :
    fill (fun s => atom (leaf s)) dims 0 = fill (fun s => atom (leaf' s)) dims 0 := by
  refine (sameShape_fill leaf leaf' dims 0).eq_of_leaves ?_
  rw [leaves_fill, leaves_fill, Nat.zero_mul]
  refine List.map_congr_left fun k hk => h k ?_
  simpa using hk

/-! ### Reshaping twice -/

/-- The leaves of a noun, over and over. -/
theorem exists_cycle (h : x.leaves ≠ []) :
    ∃ leaf : Nat → Atom, ∀ k, x.leaves[k % x.leaves.length]? = some (leaf k) := by
  have hleaf : ∀ k, ∃ a, x.leaves[k % x.leaves.length]? = some a := fun k =>
    ⟨_, List.getElem?_eq_getElem (Nat.mod_lt k (List.length_pos_iff.2 h))⟩
  choose leaf hleaf using hleaf
  exact ⟨leaf, hleaf⟩

theorem reshape_eq_fill (h : ∀ k, x.leaves[k % x.leaves.length]? = some (leaf k))
    (dims : List Nat) :
    x.reshape (dims.map Nat.cast) = .ok (fill (fun s => atom (leaf s)) dims 0) := by
  have hleaves : x.leaves ≠ [] := by
    intro hnil
    simpa [hnil] using h 0
  obtain ⟨element, helement, hreshape⟩ := reshape_of_leaves hleaves dims
  have hatoms : element = fun s => atom (leaf s) := by
    funext s
    simpa [h s] using (helement s).symm
  rw [hreshape, hatoms]

/-- Going round the first `n` elements of a round of `m` is going round the `m`, until the `n` are
used up, and for ever if they are whole rounds. -/
theorem mod_mod_of_lt_or_dvd {n : Nat} (h : k < n ∨ m ∣ n) : k % n % m = k % m := by
  obtain hlt | hdvd := h
  · rw [Nat.mod_eq_of_lt hlt]
  · exact Nat.mod_mod_of_dvd k hdvd

theorem exists_reshape_reshape (h : x.leaves ≠ []) (dims : List Nat) :
    ∃ y, x.reshape (dims.map Nat.cast) = .ok y ∧ y.leaves.length = dims.prod ∧
      (∀ k < dims.prod, y.leaves[k]? = x.leaves[k % x.leaves.length]?) ∧
      ∀ dims' : List Nat, 0 < dims.prod → dims'.prod ≤ dims.prod ∨ x.leaves.length ∣ dims.prod →
        y.reshape (dims'.map Nat.cast) = x.reshape (dims'.map Nat.cast) := by
  obtain ⟨leaf, hleaf⟩ := exists_cycle h
  have hlength : (fill (fun s => atom (leaf s)) dims 0).leaves.length = dims.prod := by
    rw [leaves_fill, List.length_map, List.length_range']
  refine ⟨_, reshape_eq_fill hleaf dims, hlength, fun k hk => ?_, fun dims' hpos hfit => ?_⟩
  · rw [getElem?_leaves_fill hk, hleaf]
  · have hcycle : ∀ k, (fill (fun s => atom (leaf s)) dims 0).leaves[k %
        (fill (fun s => atom (leaf s)) dims 0).leaves.length]? = some (leaf (k % dims.prod)) := by
      intro k
      rw [hlength, getElem?_leaves_fill (Nat.mod_lt k hpos)]
    rw [reshape_eq_fill hcycle, reshape_eq_fill hleaf]
    refine congrArg Except.ok (fill_congr fun k hk => ?_)
    have hround : k % dims.prod % x.leaves.length = k % x.leaves.length :=
      mod_mod_of_lt_or_dvd (hfit.imp_left hk.trans_le)
    have hsame := hleaf (k % dims.prod)
    rw [hround, hleaf k] at hsame
    exact (Option.some.inj hsame).symm

end Noun

/-! ### Commands -/

/-- A reshaped noun has the leaves of the noun, gone round to the number of places. If there are
places, and the second shape has no more of them or they are whole rounds of the leaves, then
reshaping a second time is reshaping the noun itself. -/
theorem reshaping_twice {p : Precision} {given : Datum} {x : Noun} {dims dims' : List Nat}
    {texts texts' : List String} (haccepted : given.toNoun nounRoot = .ok x)
    (hleaves : x.leaves ≠ []) (hwrites : List.Forall₂ Literal.Writes (dims.map Nat.cast) texts)
    (hwrites' : List.Forall₂ Literal.Writes (dims'.map Nat.cast) texts') :
    (∃ y, evaluateTexts p ("$" :: texts) given = .ok y ∧ y.leaves.length = dims.prod ∧
      ∀ k < dims.prod, y.leaves[k]? = x.leaves[k % x.leaves.length]?) ∧
    (1 ≤ dims.prod → dims'.prod ≤ dims.prod ∨ x.leaves.length ∣ dims.prod →
      ∃ z, evaluateTexts p ("$" :: texts' ++ "$" :: texts) given = .ok z ∧
        evaluateTexts p ("$" :: texts') given = .ok z) := by
  have hfirst := Phrase.complete_of_integers (.inr rfl) hwrites
  have hsecond := Phrase.complete_of_integers (.inr rfl) hwrites'
  obtain ⟨y, hy, hlength, hplaces, htwice⟩ := Noun.exists_reshape_reshape hleaves dims
  obtain ⟨z, hz, -⟩ := Noun.exists_reshape_reshape hleaves dims'
  refine ⟨⟨y, ?_, hlength, hplaces⟩, fun hpos hfit => ⟨z, ?_, ?_⟩⟩
  · rw [evaluateTexts_reshape hwrites haccepted, hy]
  · rw [hsecond.evaluateTexts_append hfirst p haccepted, Phrase.apply_reshape hwrites, hy]
    exact (Phrase.apply_reshape hwrites' p y).trans ((htwice dims' hpos hfit).trans hz)
  · rw [evaluateTexts_reshape hwrites' haccepted, hz]

theorem reshaping_twice_past_two_rounds_of_three :
    let given : Datum := .list [.leaf (.int 5), .list [.leaf (.int 1), .list []], .leaf (.int 7)]
    (∃ y, evaluateTexts .double ["$", "2", "03"] given = .ok y ∧ y.leaves[4]? = some (.int 1)) ∧
      ∃ z, evaluateTexts .double ["$", "7", "$", "2", "03"] given = .ok z ∧
        evaluateTexts .double ["$", "7"] given = .ok z := by
  intro given
  have haccepted : given.toNoun nounRoot =
      .ok (.list [.atom (.int 5), .list [.atom (.int 1), .list []], .atom (.int 7)]) := by
    decide +kernel
  have hwrites : List.Forall₂ Literal.Writes ([2, 3].map (Nat.cast : Nat → Int)) ["2", "03"] := by
    decide +kernel
  have hwrites' : List.Forall₂ Literal.Writes ([7].map (Nat.cast : Nat → Int)) ["7"] := by
    decide +kernel
  obtain ⟨⟨y, hy, -, hplaces⟩, htwice⟩ :=
    reshaping_twice (p := .double) haccepted (by simp) hwrites hwrites'
  exact ⟨⟨y, hy, by simpa using hplaces 4 (by decide)⟩, htwice (by decide) (.inr (by simp))⟩

/-- A round that is cut off begins anew behind the cut. -/
example : let given : Datum := .list [.leaf (.int 1), .leaf (.int 2)]
    evaluateTexts .double ["$", "5", "$", "3"] given ≠ evaluateTexts .double ["$", "5"] given := by
  decide +kernel

end ArrayPhrase
