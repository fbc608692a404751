import ArrayPhrase.Proofs.Naturality
import ArrayPhrase.Proofs.WholeValues

/-! Sorting among the verbs that give whole numbers. Atoms are sorted by their values, subnormal
numbers counted as zero; those verbs keep that order, and what they give is settled by its value, so
they may change places with the sorting. -/

namespace ArrayPhrase

open Outcome Floating Noun

/-! ### Sorted atoms -/

/-- What an atom counts as in double precision where subnormal numbers count as zero. -/
def Atom.rank (a : Atom) : Extended :=
  flushed .binary64 a.extended

/-- The atoms in the order of the grade of their list. -/
def sortAtoms (as : List Atom) : List Atom :=
  (gradeUp .double (as.map .atom)).filterMap (as[·]?)

variable {as : List Atom}

theorem select_gradeUp_atoms (as : List Atom) :
    select (as.map .atom) (gradeUp .double (as.map .atom)) = (sortAtoms as).map .atom := by
  unfold select sortAtoms
  rw [List.map_filterMap]
  simp only [List.getElem?_toArray, List.getElem?_map]

theorem sortAtoms_perm (as : List Atom) : (sortAtoms as).Perm as := by
  rw [← List.map_perm_map_iff (f := Noun.atom) fun _ _ => Noun.atom.inj, ← select_gradeUp_atoms,
    ← List.map_perm_map_iff (Option.some_injective _), map_select fun i => lt_of_mem_gradeUp]
  have hperm := (gradeUp_perm .double (as.map .atom)).map ((as.map Noun.atom)[·]?)
  exact hperm.trans (.of_eq (List.ext_getElem (by simp) fun i _ _ => by simp))

theorem flush_atom (a : Atom) : ∃ b : Atom, flush (.atom a) = .atom b ∧ b.extended = a.rank := by
  cases a with
  | int n => exact ⟨.int n, rfl, (Scalar.flushed_intCast n).symm⟩
  | real x => exact ⟨.real x.flush, rfl, extended_flush x⟩

/-- What a grade compares as not greater has no greater rank. -/
theorem exists_graded_atoms (as : List Atom) :
    ∃ g : Atom → Noun, graded .double (as.map .atom) = as.map g ∧
      ∀ a b, (compare (g a) (g b)).isLE → a.rank ≤ b.rank := by
  unfold graded
  split_ifs
  · refine ⟨fun a => flush (.atom a), List.map_map, fun a b h => ?_⟩
    obtain ⟨a', ha, harank⟩ := flush_atom a
    obtain ⟨b', hb, hbrank⟩ := flush_atom b
    dsimp only at h
    rwa [ha, hb, compare_atoms_isLE_iff, harank, hbrank] at h
  · refine ⟨.atom, rfl, fun a b h => ?_⟩
    exact flushed_mono _ (compare_atoms_isLE_iff.1 h)

theorem pairwise_sortAtoms (as : List Atom) :
    (sortAtoms as).Pairwise fun a b => a.rank ≤ b.rank := by
  obtain ⟨g, hg, hrank⟩ := exists_graded_atoms as
  unfold sortAtoms
  rw [gradeUp_eq, hg, List.pairwise_filterMap, List.pairwise_iff_forall_sublist]
  intro i j hsub a ha b hb
  obtain ⟨hi, rfl⟩ := List.getElem?_eq_some_iff.1 ha
  obtain ⟨hj, rfl⟩ := List.getElem?_eq_some_iff.1 hb
  have hle := isLE_of_pair_sublist (by simpa using hi) (by simpa using hj) hsub
  rw [List.getElem_map, List.getElem_map] at hle
  exact hrank _ _ hle

/-! ### Sorting and whole numbers -/

theorem map_rounded_sortAtoms {s : Scalar} (hs : s.Rounds) (has : ∀ a ∈ as, a.Canonical) :
    (sortAtoms as).map s.rounded = sortAtoms (as.map s.rounded) := by
  have hrank : ∀ a, (s.rounded a).rank = (s.rounded a).extended := fun a => by
    rw [Atom.rank, Scalar.extended_rounded hs, Scalar.flushed_onValue]
  have hperm : ((sortAtoms as).map s.rounded).Perm (as.map s.rounded) :=
    (sortAtoms_perm as).map s.rounded
  refine List.Perm.eq_of_pairwise ?_ ?_ (pairwise_sortAtoms _)
    (hperm.trans (sortAtoms_perm _).symm)
  · intro b b' hb hb' hle hge
    obtain ⟨a, ha, rfl⟩ := List.mem_map.1 (hperm.subset hb)
    obtain ⟨a', ha', rfl⟩ := List.mem_map.1 ((sortAtoms_perm _).subset hb')
    rw [hrank, hrank] at hle hge
    have hsettled : ∀ a ∈ as, (s.rounded a).Settled := fun a ha =>
      Scalar.settled_rounded hs (has a ha)
    exact (hsettled a ha).eq_of_extended_eq (hsettled a' ha') (le_antisymm hle hge)
  · rw [List.pairwise_map]
    refine (pairwise_sortAtoms as).imp fun {a b} h => ?_
    rw [hrank, hrank, Scalar.extended_rounded hs, Scalar.extended_rounded hs]
    exact s.onValue_mono h

/-! ### Commands -/

namespace Phrase

theorem complete_sort : (application "~" ["/:"]).Complete := by
  decide

theorem apply_sort (as : List Atom) :
    (application "~" ["/:"]).apply .double (.list (as.map .atom)) =
      .ok (.list ((sortAtoms as).map .atom)) := by
  rw [← select_gradeUp_atoms]
  rfl

theorem apply_rounding {s : Scalar} (hs : s.Rounds) (has : ∀ a ∈ as, a.Canonical) :
    (application s.rep []).apply .double (.list (as.map .atom)) =
      .ok (.list ((as.map s.rounded).map .atom)) := by
  rw [apply_scalar]
  refine Noun.maps_list ?_
  rw [List.map_map, List.forall₂_map_left_iff, List.forall₂_map_right_iff, List.forall₂_same]
  exact fun a ha => Noun.maps_atom (Scalar.onAtom_double hs (has a ha))

end Phrase

/-- In double precision a list of numbers that is sorted and then rounded up, rounded down or
brought to its signs is the list that is brought there and then sorted. -/
theorem rounding_commutes_with_sorting {s : Scalar} (hs : s.Rounds) {given : Datum}
    (haccepted : given.toNoun nounRoot = .ok (.list (as.map .atom))) :
    ∃ bs : List Atom,
      evaluateTexts .double [s.rep, "~", "/:"] given = .ok (.list (bs.map .atom)) ∧
        evaluateTexts .double ["~", "/:", s.rep] given = .ok (.list (bs.map .atom)) := by
  have hscalar := Phrase.complete_scalar s
  have has : ∀ a ∈ as, a.Canonical := by
    have hall := Noun.canonical_iff_all.1 (Datum.canonical_of_toNoun haccepted)
    rw [Noun.all_list, List.forall_mem_map] at hall
    exact fun a ha => Noun.all_atom.1 (hall a ha)
  have hsorted : ∀ a ∈ sortAtoms as, a.Canonical := fun a ha =>
    has a ((sortAtoms_perm as).subset ha)
  have hfirst := hscalar.evaluateTexts_append Phrase.complete_sort .double haccepted
  have hlast := Phrase.complete_sort.evaluateTexts_append hscalar .double haccepted
  refine ⟨(sortAtoms as).map s.rounded, hfirst.trans ?_, hlast.trans ?_⟩
  · rw [Phrase.apply_sort]
    exact Phrase.apply_rounding hs hsorted
  · rw [Phrase.apply_rounding hs has, map_rounded_sortAtoms hs has]
    exact Phrase.apply_sort _

theorem rounding_commutes_with_sorting_large_and_subnormal :
    let given : Datum := .list [.leaf (.real .nan), .leaf (.int 2), .leaf (.real (.ofBits 1)),
      .leaf (.real (.ofRat (2 ^ 70))), .leaf (.real (.zero true)), .leaf (.real (.infinity true))]
    ∃ bs : List Atom,
      evaluateTexts .double [">.", "~", "/:"] given = .ok (.list (bs.map .atom)) ∧
        evaluateTexts .double ["~", "/:", ">."] given = .ok (.list (bs.map .atom)) := by
  intro given
  let as : List Atom := [.real .nan, .int 2, .real (.ofBits 1), .real (.ofRat (2 ^ 70)),
    .real (.zero true), .real (.infinity true)]
  have haccepted : given.toNoun nounRoot = .ok (.list (as.map .atom)) := rfl
  exact rounding_commutes_with_sorting (s := .ceiling) trivial haccepted

end ArrayPhrase
