import Mathlib.Data.Set.Card
import ArrayPhrase.Proofs.Integral
import ArrayPhrase.Proofs.Naturality

/-! Grades of what is made from a noun. Verbs that are strictly increasing on integers keep every
comparison, so a noun of integers has the same grade before and after them. A grade lists each
position once, so the grade of a grade is its inverse: it gives for each item the number of items
that stand before it in stable ascending order, and the grade of that is the first grade again. -/

namespace ArrayPhrase

open Outcome

/-! ### Commands -/

namespace Action

theorem counted_congr {x y : Noun} (h : x.items.length = y.items.length) (result : Noun) :
    counted x result = counted y result := by
  rw [counted, counted, h]

end Action

namespace Phrase

theorem complete_gradeUp : (application "/:" []).Complete := by
  decide

theorem complete_gradeDown : (application "\\:" []).Complete := by
  decide

theorem apply_gradeUp (p : Precision) (x : Noun) : (application "/:" []).apply p x =
    Action.counted x (Action.positions (Noun.gradeUp p x.items)) :=
  rfl

theorem apply_gradeDown (p : Precision) (x : Noun) : (application "\\:" []).apply p x =
    Action.counted x (Action.positions (Noun.gradeUp p x.items).reverse) :=
  rfl

end Phrase

/-! ### Increasing verbs -/

/-- On the atoms with the property the function keeps the order of values. -/
def Atom.KeepsOrder (P : Atom → Prop) (f : Atom → Except Fault Atom) : Prop :=
  ∀ {a b a' b'}, P a → P b → f a = .ok a' → f b = .ok b' →
    a'.extended.compare b'.extended = a.extended.compare b.extended

namespace Noun

variable {P : Atom → Prop} {f : Atom → Except Fault Atom} {x x' y y' : Noun}
  {xs xs' ys ys' : List Noun}

theorem compareLists_of_maps
    (hitems : ∀ x ∈ xs, ∀ x' y y', y ∈ ys → Maps f x x' → Maps f y y' →
      compare x' y' = compare x y)
    (hxs : List.Forall₂ (Maps f) xs xs') (hys : List.Forall₂ (Maps f) ys ys') :
    compareLists xs' ys' = compareLists xs ys := by
  induction hxs generalizing ys ys' with
  | nil => cases hys <;> simp only [compareLists]
  | cons hx _ ih =>
    cases hys with
    | nil => simp only [compareLists]
    | cons hy hys =>
      rw [List.forall_mem_cons] at hitems
      have hrest := ih (fun z hz z' w w' hw => hitems.2 z hz z' w w' (List.mem_cons_of_mem _ hw))
        hys
      rw [compareLists, compareLists, hitems.1 _ _ _ List.mem_cons_self hx hy, hrest]

/-- Nouns compare after such a function as they did before. -/
theorem compare_of_maps (hf : Atom.KeepsOrder P f) (hx : x.All P) (hy : y.All P)
    (hxx' : Maps f x x') (hyy' : Maps f y y') : compare x' y' = compare x y := by
  induction x generalizing x' y y' with
  | atom a =>
    obtain ⟨a', ha, rfl⟩ := maps_atom_iff.1 hxx'
    cases y with
    | atom b =>
      obtain ⟨b', hb, rfl⟩ := maps_atom_iff.1 hyy'
      rw [compare, compare]
      exact hf (all_atom.1 hx) (all_atom.1 hy) ha hb
    | list ys =>
      obtain ⟨ys', -, rfl⟩ := maps_list_iff.1 hyy'
      rw [compare, compare]
  | list xs ih =>
    obtain ⟨xs', hxs, rfl⟩ := maps_list_iff.1 hxx'
    cases y with
    | atom b =>
      obtain ⟨b', -, rfl⟩ := maps_atom_iff.1 hyy'
      rw [compare, compare]
    | list ys =>
      obtain ⟨ys', hys, rfl⟩ := maps_list_iff.1 hyy'
      rw [all_list] at hx hy
      rw [compare, compare]
      exact compareLists_of_maps
        (fun x hxmem x' y y' hymem => ih x hxmem (hx x hxmem) (hy y hymem)) hxs hys

theorem stableOrder_of_maps (hf : Atom.KeepsOrder P f) (hxs : ∀ x ∈ xs, x.All P)
    (hmaps : List.Forall₂ (Maps f) xs ys) : stableOrder compare ys = stableOrder compare xs := by
  rw [stableOrder_eq_iff hmaps.length_eq.symm]
  intro i j hij hj
  have hlen := hmaps.length_eq
  have hi : Maps f (xs.get ⟨i, by omega⟩) (ys.get ⟨i, by omega⟩) := hmaps.get _ _
  have hj : Maps f (xs.get ⟨j, by omega⟩) (ys.get ⟨j, by omega⟩) := hmaps.get _ _
  have hcompare := compare_of_maps hf (hxs _ (List.get_mem ..)) (hxs _ (List.get_mem ..)) hi hj
  exact iff_of_eq (congrArg (fun o : Ordering => o.isLE = true) hcompare)

end Noun

namespace Scalar

variable {s : Scalar}

/-- On integers the verb is a strictly increasing function. -/
def Increasing (s : Scalar) : Prop :=
  ∃ g : Int → Int, (∀ m n, m < n → g m < g n) ∧ ∀ n, s.onInt? n = some (g n)

theorem increasing (hs : s = .increment ∨ s = .decrement ∨ s = .double) : s.Increasing := by
  rcases hs with rfl | rfl | rfl
  · exact ⟨fun n => n + 1, fun _ _ h => Int.add_lt_add_right h 1, fun _ => rfl⟩
  · exact ⟨fun n => n - 1, fun _ _ h => Int.sub_lt_sub_right h 1, fun _ => rfl⟩
  · exact ⟨fun n => n * 2, fun _ _ h => Int.mul_lt_mul_of_pos_right h (by decide), fun _ => rfl⟩

theorem Increasing.exact (hs : s.Increasing) : s.Exact := by
  obtain ⟨g, -, hg⟩ := hs
  intro n
  rw [hg]
  rfl

theorem Increasing.keepsOrder (hs : s.Increasing) (p : Precision) :
    Atom.KeepsOrder Atom.IsInt (s.onAtom p) := by
  obtain ⟨g, hlt, hg⟩ := hs
  have hmono : StrictMono g := fun m n h => hlt m n h
  have hresult : ∀ {n c}, s.onAtom p (.int n) = .ok c → c = .int (g n) := by
    intro n c h
    rw [onAtom, hg] at h
    obtain ⟨m, hm, rfl⟩ := map_eq_ok.1 h
    rw [(checkRange_eq_ok.1 hm).2]
  rintro _ _ a' b' ⟨m, rfl⟩ ⟨n, rfl⟩ ha hb
  rw [hresult ha, hresult hb, Atom.compare_extended_int, Atom.compare_extended_int,
    ← cmp_eq_compare, ← cmp_eq_compare, hmono.cmp_map_eq]

end Scalar

/-- Where an increasing verb succeeds on a noun of integers, its result has the grade of the
noun. -/
theorem Noun.gradeUp_of_increasing {p : Precision} {s : Scalar} {x y : Noun} (hs : s.Increasing)
    (hx : x.Integral) (h : Maps (s.onAtom p) x y) : gradeUp p y.items = gradeUp p x.items := by
  have hy : y.Integral := hx.mapLeaves (fun _ _ => hs.exact.isInt) h
  rw [gradeUp_eq, gradeUp_eq, graded_of_integral p hx.items, graded_of_integral p hy.items]
  exact stableOrder_of_maps (hs.keepsOrder p) hx.items h.items

/-- Incrementing, decrementing and doubling the integers of a noun change neither its grade nor its
grade downwards. -/
theorem increasing_verbs_keep_grades {p : Precision} {s : Scalar}
    (hs : s = .increment ∨ s = .decrement ∨ s = .double) {given : Datum} {x y : Noun}
    (haccepted : given.toNoun nounRoot = .ok x) (hints : x.Integral)
    (hok : evaluateTexts p [s.rep] given = .ok y) :
    let order := Noun.gradeUp p x.items
    let answer := fun indices : List Nat => Action.counted x (Action.positions indices)
    evaluateTexts p ["/:"] given = answer order ∧
      evaluateTexts p ["/:", s.rep] given = answer order ∧
      evaluateTexts p ["\\:"] given = answer order.reverse ∧
      evaluateTexts p ["\\:", s.rep] given = answer order.reverse := by
  intro order answer
  have hscalar := Phrase.complete_scalar s
  have hmaps : Noun.Maps (s.onAtom p) x y := by
    rw [hscalar.evaluateTexts_eq_apply, haccepted] at hok
    rw [Noun.Maps, ← Phrase.apply_scalar]
    exact hok
  have hlength : y.items.length = x.items.length := hmaps.items.length_eq.symm
  have horder : Noun.gradeUp p y.items = order :=
    Noun.gradeUp_of_increasing (Scalar.increasing hs) hints hmaps
  have hcommands : ∀ {head : String}, (Phrase.application head []).Complete →
      evaluateTexts p [head] given = (Phrase.application head []).apply p x ∧
        evaluateTexts p [head, s.rep] given = (Phrase.application head []).apply p y := by
    intro head hhead
    refine ⟨?_, (hhead.evaluateTexts_append hscalar p haccepted).trans ?_⟩
    · rw [hhead.evaluateTexts_eq_apply, haccepted]
      rfl
    · rw [Phrase.apply_scalar, hmaps]
      rfl
  obtain ⟨hup, hup'⟩ := hcommands Phrase.complete_gradeUp
  obtain ⟨hdown, hdown'⟩ := hcommands Phrase.complete_gradeDown
  rw [Phrase.apply_gradeUp] at hup hup'
  rw [Phrase.apply_gradeDown] at hdown hdown'
  rw [horder, Action.counted_congr hlength] at hup' hdown'
  exact ⟨hup, hup', hdown, hdown'⟩

theorem increasing_verbs_keep_grades_double_nested :
    let given : Datum := .list [.list [.leaf (.int 3), .list []], .leaf (.int (-7)),
      .list [.leaf (.int 3)], .leaf (.int 4611686018427387903), .leaf (.int (-7)), .list []]
    let doubled : Noun := .list [.list [.atom (.int 6), .list []], .atom (.int (-14)),
      .list [.atom (.int 6)], .atom (.int 9223372036854775806), .atom (.int (-14)), .list []]
    evaluateTexts .double ["+:"] given = .ok doubled ∧
      evaluateTexts .double ["/:", "+:"] given = evaluateTexts .double ["/:"] given ∧
      evaluateTexts .double ["\\:", "+:"] given = evaluateTexts .double ["\\:"] given := by
  intro given doubled
  let x : Noun := .list [.list [.atom (.int 3), .list []], .atom (.int (-7)),
    .list [.atom (.int 3)], .atom (.int 4611686018427387903), .atom (.int (-7)), .list []]
  have haccepted : given.toNoun nounRoot = .ok x := by
    decide +kernel
  have hints : x.Integral := by
    simp [x, Noun.Integral, Noun.all_list, Atom.IsInt]
  have hok : evaluateTexts .double ["+:"] given = .ok doubled := by
    decide +kernel
  obtain ⟨hup, hup', hdown, hdown'⟩ :=
    increasing_verbs_keep_grades (s := .double) (.inr (.inr rfl)) haccepted hints hok
  exact ⟨hok, hup'.trans hup.symm, hdown'.trans hdown.symm⟩

/-! ### Inverse lists -/

section Inverse

variable {l r r' : List Nat}

/-- What one list has at a position is the position at which the other one has that. -/
def InverseLists (l r : List Nat) : Prop :=
  ∀ i j : Nat, l[i]? = some j ↔ r[j]? = some i

theorem InverseLists.symm (h : InverseLists l r) : InverseLists r l :=
  fun i j => (h j i).symm

theorem InverseLists.unique (h : InverseLists l r) (h' : InverseLists l r') : r = r' :=
  List.ext_getElem? fun j => Option.ext fun i => (h i j).symm.trans (h' i j)

/-- In the stable order of positions they stand in ascending order. -/
theorem map_stableOrder_positions (hl : l.Perm (List.range l.length)) :
    (Noun.stableOrder Ord.compare l).map (fun i => l.getD i 0) = List.range l.length := by
  have hentries : (List.range l.length).map (fun i => l.getD i 0) = l :=
    List.ext_getElem (by simp) fun i _ hi => by
      rw [List.getElem_map, List.getElem_range, List.getD_eq_getElem _ _ hi]
  have hperm := (Noun.stableOrder_perm Ord.compare l).map fun i => l.getD i 0
  rw [hentries] at hperm
  refine List.Perm.eq_of_pairwise (fun _ _ _ _ => Nat.le_antisymm) ?_ List.pairwise_le_range
    (hperm.trans hl)
  rw [List.pairwise_map, List.pairwise_iff_forall_sublist]
  intro i j hsub
  have hi : i < l.length := Noun.mem_stableOrder.1 (hsub.subset (by simp))
  have hj : j < l.length := Noun.mem_stableOrder.1 (hsub.subset (by simp))
  have hle := Noun.isLE_of_pair_sublist hi hj hsub
  rwa [List.getD_eq_getElem _ _ hi, List.getD_eq_getElem _ _ hj, ← Nat.isLE_compare]

/-- The stable order of positions is inverse to them. -/
theorem inverseLists_stableOrder (hl : l.Perm (List.range l.length)) :
    InverseLists l (Noun.stableOrder Ord.compare l) := by
  have hlength := Noun.length_stableOrder Ord.compare l
  have hforward : ∀ i j : Nat, (Noun.stableOrder Ord.compare l)[j]? = some i → l[i]? = some j := by
    intro i j h
    have hi : i < l.length := Noun.mem_stableOrder.1 (List.mem_of_getElem? h)
    have hj : j < l.length := hlength ▸ (List.getElem?_eq_some_iff.1 h).1
    have hentry := congrArg (·[j]?) (map_stableOrder_positions hl)
    rw [List.getElem?_map, h, List.getElem?_range hj, Option.map_some,
      List.getD_eq_getElem _ _ hi] at hentry
    rwa [List.getElem?_eq_getElem hi]
  refine fun i j => ⟨fun h => ?_, hforward i j⟩
  have hi : i < l.length := (List.getElem?_eq_some_iff.1 h).1
  have hj : j < l.length := List.mem_range.1 (hl.subset (List.mem_of_getElem? h))
  -- Some position stands at `j`, and no other one than `i` can.
  obtain ⟨i', hi'⟩ : ∃ i', (Noun.stableOrder Ord.compare l)[j]? = some i' :=
    ⟨_, List.getElem?_eq_getElem (hlength.symm ▸ hj)⟩
  have hnodup : l.Nodup := hl.nodup_iff.2 List.nodup_range
  obtain rfl : i = i' := (List.getElem?_inj hi hnodup).1 (h.trans (hforward i' j hi').symm)
  exact hi'

end Inverse

/-! ### Grades of grades -/

namespace Noun

variable {p : Precision} {xs : List Noun}

theorem gradeUp_positions (p : Precision) (indices : List Nat) :
    gradeUp p (indices.map fun i : Nat => atom (.int i)) = stableOrder Ord.compare indices := by
  have hints : (indices.map fun i : Nat => atom (.int i)) =
      (indices.map Nat.cast).map fun n : ℤ => atom (.int n) := by
    rw [List.map_map]
    rfl
  have hcompare : (fun i j : ℕ => Ord.compare (i : ℤ) (j : ℤ)) = Ord.compare := by
    funext i j
    rw [← cmp_eq_compare, ← cmp_eq_compare]
    exact Nat.strictMono_cast.cmp_map_eq i j
  rw [hints, gradeUp_eq, graded_ints, ← gradeInts_eq, gradeInts, stableOrder_map, hcompare]

/-- What a grade compares at a position. -/
def gradedAt (p : Precision) (xs : List Noun) (i : Fin xs.length) : Noun :=
  (graded p xs).get (i.cast (length_graded p xs).symm)

/-- The positions that come before the given one in stable ascending order. -/
def ahead (p : Precision) (xs : List Noun) (i : Fin xs.length) : Set (Fin xs.length) :=
  {j | Precedes (gradedAt p xs j) (gradedAt p xs i) ∨
    Equivalent (gradedAt p xs j) (gradedAt p xs i) ∧ j < i}

theorem mem_ahead_iff {i j : Fin xs.length} :
    j ∈ ahead p xs i ↔ [j.val, i.val].Sublist (gradeUp p xs) :=
  (before_gradeUp_iff p xs (j.cast (length_graded p xs).symm)
    (i.cast (length_graded p xs).symm)).symm

/-- A position has as many before it as its place in the grade says. -/
theorem ncard_ahead {i : Fin xs.length} {k : Nat} (h : (gradeUp p xs)[k]? = some i.val) :
    (ahead p xs i).ncard = k := by
  have hnodup : (gradeUp p xs).Nodup := (gradeUp_perm p xs).nodup_iff.2 List.nodup_range
  have himage : Fin.val '' ahead p xs i = (((gradeUp p xs).take k).toFinset : Set Nat) := by
    ext m
    rw [List.coe_toFinset, Set.mem_ofPred, ← pair_sublist_iff_mem_take hnodup h]
    constructor
    · rintro ⟨j, hj, rfl⟩
      exact mem_ahead_iff.1 hj
    · intro hm
      have hlt : m < xs.length := lt_of_mem_gradeUp (hm.subset (by simp))
      exact ⟨⟨m, hlt⟩, mem_ahead_iff.2 hm, rfl⟩
  have hk : k < (gradeUp p xs).length := (List.getElem?_eq_some_iff.1 h).1
  rw [← Set.ncard_image_of_injective _ Fin.val_injective, himage, Set.ncard_coe_finset,
    List.toFinset_card_of_nodup (hnodup.sublist (List.take_sublist _ _)), List.length_take,
    min_eq_left hk.le]

end Noun

/-- A counted list of positions graded. -/
theorem Phrase.bind_apply_gradeUp (p : Precision) {x : Noun} {indices : List Nat}
    (h : indices.length = x.items.length) :
    (Action.counted x (Action.positions indices) >>= (application "/:" []).apply p) =
      Action.counted x (Action.positions (Noun.stableOrder Ord.compare indices)) := by
  have hlength : (Action.positions indices).items.length = x.items.length := by
    rw [← h]
    exact List.length_map _
  have hgrade : (application "/:" []).apply p (Action.positions indices) =
      Action.counted x (Action.positions (Noun.stableOrder Ord.compare indices)) := by
    rw [apply_gradeUp, Action.counted_congr hlength, ← Noun.gradeUp_positions p]
    rfl
  unfold Action.counted at hgrade ⊢
  split_ifs with hsize
  · rw [if_pos hsize] at hgrade
    exact hgrade
  · rfl

/-- The grade of a grade is its inverse and tells how many items come before each item in stable
ascending order. The grade of that is the grade of the noun again. -/
theorem grading_twice_gives_ranks {p : Precision} {given : Datum} {x : Noun}
    (haccepted : given.toNoun nounRoot = .ok x) :
    ∃ order ranks : List Nat,
      evaluateTexts p ["/:"] given = Action.counted x (Action.positions order) ∧
      evaluateTexts p ["/:", "/:"] given = Action.counted x (Action.positions ranks) ∧
      evaluateTexts p ["/:", "/:", "/:"] given = Action.counted x (Action.positions order) ∧
      order.length = x.items.length ∧ ranks.length = x.items.length ∧
      (∀ i j : Nat, order[i]? = some j ↔ ranks[j]? = some i) ∧
      ∀ i : Fin x.items.length, ranks[i.val]? = some (Noun.ahead p x.items i).ncard := by
  have hlength := Noun.length_gradeUp p x.items
  have horder := Noun.gradeUp_perm p x.items
  set order := Noun.gradeUp p x.items
  set ranks := Noun.stableOrder Ord.compare order with hranks
  have hlength' : ranks.length = x.items.length := by
    rw [hranks, Noun.length_stableOrder, hlength]
  have hinverse : InverseLists order ranks := inverseLists_stableOrder (hlength ▸ horder)
  have hagain : InverseLists ranks (Noun.stableOrder Ord.compare ranks) := by
    refine inverseLists_stableOrder ?_
    rw [hlength', ← hlength]
    exact Noun.stableOrder_perm Ord.compare order
  have hgrade := Phrase.complete_gradeUp
  have hone : evaluateTexts p ["/:"] given = Action.counted x (Action.positions order) := by
    rw [hgrade.evaluateTexts_eq_apply, haccepted]
    exact Phrase.apply_gradeUp p x
  have htwo : evaluateTexts p ["/:", "/:"] given = Action.counted x (Action.positions ranks) := by
    have hcons := hgrade.evaluateTexts_cons (List.forall_mem_singleton.2 hgrade.whole) p given
    exact hcons.trans (hone ▸ Phrase.bind_apply_gradeUp p hlength)
  refine ⟨order, ranks, hone, htwo, ?_, hlength, hlength', hinverse, fun i => ?_⟩
  · have htwice : ∀ q ∈ [Phrase.application "/:" [], Phrase.application "/:" []], q.Whole :=
      List.forall_mem_cons.2 ⟨hgrade.whole, List.forall_mem_singleton.2 hgrade.whole⟩
    have hcons := hgrade.evaluateTexts_cons htwice p given
    have hthree := hcons.trans (htwo ▸ Phrase.bind_apply_gradeUp p hlength')
    rwa [hagain.unique hinverse.symm] at hthree
  · obtain ⟨k, hk⟩ : ∃ k, ranks[i.val]? = some k :=
      ⟨_, List.getElem?_eq_getElem (hlength'.symm ▸ i.isLt)⟩
    rw [hk, Noun.ncard_ahead ((hinverse k i).2 hk)]

theorem grading_twice_gives_ranks_ties_and_nan :
    let given : Datum :=
      .list [.leaf (.real .nan), .leaf (.real (.ofRat 2)), .leaf (.int 2), .list []]
    ∃ order ranks : List Nat, order.length = 4 ∧
      evaluateTexts .double ["/:"] given = .ok (Action.positions order) ∧
      evaluateTexts .double ["/:", "/:"] given = .ok (Action.positions ranks) ∧
      evaluateTexts .double ["/:", "/:", "/:"] given = .ok (Action.positions order) ∧
      ∀ i j : Nat, order[i]? = some j ↔ ranks[j]? = some i := by
  intro given
  let x : Noun :=
    .list [.atom (.real .nan), .atom (.real (.ofRat 2)), .atom (.int 2), .list []]
  have haccepted : given.toNoun nounRoot = .ok x := rfl
  have hcounted : ∀ result, Action.counted x result = .ok result := fun _ =>
    if_pos (by decide)
  obtain ⟨order, ranks, hone, htwo, hthree, hlength, -, hinverse, -⟩ :=
    grading_twice_gives_ranks (p := .double) haccepted
  rw [hcounted] at hone htwo hthree
  exact ⟨order, ranks, hlength, hone, htwo, hthree, hinverse⟩

end ArrayPhrase
