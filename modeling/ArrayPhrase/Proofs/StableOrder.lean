import Mathlib.Data.List.Nodup
import ArrayPhrase.Proofs.Grade

/-! Which of two positions stands first in a stable order, and that this settles the order: two
lists have the same stable order exactly when their comparisons agree on every two places. -/

namespace ArrayPhrase

/-! ### Two entries of a list -/

section Entries

variable {α : Type} {l : List α} {a b : α}

theorem pair_sublist_or_swap (ha : a ∈ l) (hb : b ∈ l) (hne : a ≠ b) :
    [a, b].Sublist l ∨ [b, a].Sublist l := by
  obtain ⟨before, after, rfl⟩ := List.mem_iff_append.1 ha
  rcases List.mem_append.1 hb with hb | hb
  · have hafter : [a].Sublist (a :: after) := List.singleton_sublist.2 List.mem_cons_self
    exact .inr ((List.singleton_sublist.2 hb).append hafter)
  · have hb := (List.mem_cons.1 hb).resolve_left hne.symm
    have hafter : [a, b].Sublist (a :: after) := (List.singleton_sublist.2 hb).cons_cons a
    exact .inl (hafter.trans (List.sublist_append_right before _))

theorem not_swap_sublist (hl : l.Nodup) (h : [a, b].Sublist l) : ¬ [b, a].Sublist l := by
  obtain ⟨before, after, rfl, ha, hb⟩ := List.cons_sublist_iff.1 h
  have hb := List.singleton_sublist.1 hb
  have hdisjoint := List.disjoint_of_nodup_append hl
  intro hswap
  obtain ⟨first, last, hsplit, hfirst, hlast⟩ := List.sublist_append_iff.1 hswap
  cases first with
  | nil =>
    rw [List.nil_append] at hsplit
    exact hdisjoint ha (hlast.subset (by simp [← hsplit]))
  | cons e first =>
    obtain ⟨rfl, -⟩ := List.cons.inj hsplit
    exact hdisjoint (hfirst.subset List.mem_cons_self) hb

/-- What stands before an entry of a list without duplicates. -/
theorem pair_sublist_iff_mem_take {k : Nat} (hl : l.Nodup) (hk : l[k]? = some b) :
    [a, b].Sublist l ↔ a ∈ l.take k := by
  obtain ⟨before, after, hbefore, rfl⟩ :
      ∃ before after, l.take k = before ∧ l = before ++ b :: after := by
    obtain ⟨hlt, rfl⟩ := List.getElem?_eq_some_iff.1 hk
    exact ⟨_, _, rfl, by rw [List.getElem_cons_drop, List.take_append_drop]⟩
  rw [hbefore]
  constructor
  · intro h
    have ha : a ∈ before ++ b :: after := h.subset (by simp)
    refine (List.mem_append.1 ha).resolve_right fun ha => ?_
    rcases List.mem_cons.1 ha with rfl | ha
    · exact List.nodup_iff_sublist.1 hl a h
    · have hswap := (List.singleton_sublist.2 ha).cons_cons b
      exact not_swap_sublist hl h (hswap.trans (List.sublist_append_right before _))
  · intro h
    exact (List.singleton_sublist.2 h).append (List.singleton_sublist.2 List.mem_cons_self)

/-- The entries of a list without duplicates stand in one order only. -/
theorem eq_of_pair_sublist_iff {l' : List α} (hl : l.Nodup) (hperm : l.Perm l')
    (h : ∀ a ∈ l, ∀ b ∈ l, [a, b].Sublist l → [a, b].Sublist l') : l = l' := by
  have hl' := hperm.nodup_iff.1 hl
  refine @List.Perm.eq_of_pairwise _ (fun a b => [a, b].Sublist l') _ _ ?_ ?_ ?_ hperm
  · intro a b _ _ hab hba
    exact absurd hba (not_swap_sublist hl' hab)
  · rw [List.pairwise_iff_forall_sublist]
    intro a b hab
    exact h a (hab.subset (by simp)) b (hab.subset (by simp)) hab
  · rw [List.pairwise_iff_forall_sublist]
    exact id

end Entries

namespace Noun

variable {α β : Type} {c : α → α → Ordering} {d : β → β → Ordering} {xs : List α} {ys : List β}
  {i j : Nat}

theorem nodup_stableOrder (c : α → α → Ordering) (xs : List α) : (stableOrder c xs).Nodup :=
  (stableOrder_perm c xs).nodup_iff.2 List.nodup_range

theorem mem_stableOrder : i ∈ stableOrder c xs ↔ i < xs.length := by
  rw [(stableOrder_perm c xs).mem_iff, List.mem_range]

/-- The stable order of two items. -/
theorem stableOrder_pair (c : α → α → Ordering) (x y : α) :
    stableOrder c [x, y] = if (c x y).isLE then [0, 1] else [1, 0] := by
  simp only [stableOrder, List.zipIdx_cons, List.zipIdx_nil, List.mergeSort,
    List.MergeSort.Internal.splitInTwo, List.length_cons, List.length_nil, List.splitAt_eq,
    List.take, List.drop, List.merge]
  split_ifs <;> rfl

theorem pair_sublist_zipIdx (hij : i < j) (hj : j < xs.length) :
    [(xs[i], i), (xs[j], j)].Sublist xs.zipIdx := by
  have hlen : xs.zipIdx.length = xs.length := List.length_zipIdx
  have hpair : [(⟨i, by omega⟩ : Fin xs.zipIdx.length), ⟨j, by omega⟩].Pairwise (· < ·) := by
    simpa using hij
  simpa using List.map_getElem_sublist hpair

variable [Std.TransCmp c] [Std.TransCmp d]

theorem isLE_or_isLE (c : α → α → Ordering) [Std.TransCmp c] (x y : α) :
    ((c x y).isLE || (c y x).isLE) = true := by
  rw [@Std.OrientedCmp.eq_swap _ c _ y x]
  cases c x y <;> rfl

theorem pairwise_mergeSort_items (c : α → α → Ordering) [Std.TransCmp c] (l : List (α × Nat)) :
    (l.mergeSort fun a b => (c a.1 b.1).isLE).Pairwise fun a b => (c a.1 b.1).isLE :=
  List.pairwise_mergeSort (fun _ _ _ => Std.TransCmp.isLE_trans)
    (fun a b => isLE_or_isLE c a.1 b.1) l

theorem pair_sublist_mergeSort_items {a b : α × Nat} {l : List (α × Nat)}
    (hab : (c a.1 b.1).isLE) (h : [a, b].Sublist l) :
    [a, b].Sublist (l.mergeSort fun a b => (c a.1 b.1).isLE) :=
  List.pair_sublist_mergeSort (fun _ _ _ => Std.TransCmp.isLE_trans)
    (fun a b => isLE_or_isLE c a.1 b.1) hab h

/-- What stands first in a stable order is not the greater one. -/
theorem isLE_of_pair_sublist (hi : i < xs.length) (hj : j < xs.length)
    (h : [i, j].Sublist (stableOrder c xs)) : (c xs[i] xs[j]).isLE := by
  obtain ⟨entries, hentries, hpositions⟩ := List.sublist_map_iff.1 h
  match entries, hpositions with
  | [(x, _), (y, _)], rfl =>
    have hitem : ∀ entry ∈ [(x, i), (y, j)], xs[entry.2]? = some entry.1 := by
      intro entry hentry
      have hmem := List.mem_mergeSort.1 (hentries.subset hentry)
      exact List.mk_mem_zipIdx_iff_getElem?.1 hmem
    obtain ⟨hx, hy⟩ : xs[i]? = some x ∧ xs[j]? = some y := by simpa using hitem
    rw [(List.getElem_eq_iff hi).2 hx, (List.getElem_eq_iff hj).2 hy]
    exact List.pairwise_iff_forall_sublist.1 (pairwise_mergeSort_items c xs.zipIdx) hentries

/-- Of two places the one before stays before unless its item is the greater one. -/
theorem pair_sublist_stableOrder_iff (hij : i < j) (hj : j < xs.length) :
    [i, j].Sublist (stableOrder c xs) ↔ (c xs[i] xs[j]).isLE := by
  refine ⟨isLE_of_pair_sublist (by omega) hj, fun h => ?_⟩
  exact (pair_sublist_mergeSort_items h (pair_sublist_zipIdx hij hj)).map Prod.snd

theorem swap_sublist_stableOrder_iff (hij : i < j) (hj : j < xs.length) :
    [j, i].Sublist (stableOrder c xs) ↔ ¬ (c xs[i] xs[j]).isLE := by
  rw [← pair_sublist_stableOrder_iff hij hj]
  refine ⟨not_swap_sublist (nodup_stableOrder c xs), fun h => ?_⟩
  have hi : i ∈ stableOrder c xs := mem_stableOrder.2 (by omega)
  exact (pair_sublist_or_swap hi (mem_stableOrder.2 hj) (Nat.ne_of_lt hij)).resolve_left h

/-- The item at one position stands before that at another exactly when it is the less one, or
when they compare equal and it stood before. -/
theorem before_stableOrder_iff (hi : i < xs.length) (hj : j < xs.length) :
    [i, j].Sublist (stableOrder c xs) ↔
      c xs[i] xs[j] = .lt ∨ c xs[i] xs[j] = .eq ∧ i < j := by
  rcases Nat.lt_trichotomy i j with hij | rfl | hij
  · rw [pair_sublist_stableOrder_iff hij hj, Ordering.isLE_iff_eq_lt_or_eq_eq, and_iff_left hij]
  · have hnot := List.nodup_iff_sublist.1 (nodup_stableOrder c xs) i
    simp [hnot, Std.ReflCmp.compare_self]
  · rw [swap_sublist_stableOrder_iff hij hi, @Std.OrientedCmp.eq_swap _ c]
    cases c xs[i] xs[j] <;> simp
    omega

/-- Two lists have the same stable order exactly when they compare alike at every two places. -/
theorem stableOrder_eq_iff (hlen : xs.length = ys.length) :
    stableOrder c xs = stableOrder d ys ↔
      ∀ (i j : Nat) (_ : i < j) (hj : j < xs.length),
        ((c xs[i] xs[j]).isLE ↔ (d ys[i] ys[j]).isLE) := by
  constructor
  · intro h i j hij hj
    rw [← pair_sublist_stableOrder_iff hij hj, h, pair_sublist_stableOrder_iff hij (hlen ▸ hj)]
  · intro h
    have hperm : (stableOrder c xs).Perm (stableOrder d ys) := by
      refine (stableOrder_perm c xs).trans ?_
      rw [hlen]
      exact (stableOrder_perm d ys).symm
    refine eq_of_pair_sublist_iff (nodup_stableOrder c xs) hperm fun i hi j hj hsub => ?_
    rw [mem_stableOrder] at hi hj
    rcases Nat.lt_trichotomy i j with hij | rfl | hij
    · rw [pair_sublist_stableOrder_iff hij hj, h i j hij hj] at hsub
      exact (pair_sublist_stableOrder_iff hij (hlen ▸ hj)).2 hsub
    · exact absurd hsub (List.nodup_iff_sublist.1 (nodup_stableOrder c xs) i)
    · rw [swap_sublist_stableOrder_iff hij hi, h j i hij hi] at hsub
      exact (swap_sublist_stableOrder_iff hij (hlen ▸ hi)).2 hsub

omit [Std.TransCmp d] in
/-- The order of images is the order by what they are images of. -/
theorem stableOrder_map (f : α → β) (xs : List α) :
    stableOrder d (xs.map f) = stableOrder (fun x y => d (f x) (f y)) xs := by
  unfold stableOrder
  rw [List.zipIdx_map, ← List.map_mergeSort (r := fun a b : α × Nat => (d (f a.1) (f b.1)).isLE)
    fun _ _ _ _ => rfl, List.map_map]
  rfl

end Noun
end ArrayPhrase
