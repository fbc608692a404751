import ArrayPhrase.Noun.Grade

/-! Grades list every position exactly once. -/

namespace ArrayPhrase.Noun

theorem stableOrder_perm {α : Type} (compare : α → α → Ordering) (xs : List α) :
    (stableOrder compare xs).Perm (List.range xs.length) := by
  have h := (List.mergeSort_perm xs.zipIdx fun a b => (compare a.1 b.1).isLE).map Prod.snd
  rwa [List.zipIdx_map_snd, ← List.range_eq_range'] at h

theorem length_stableOrder {α : Type} (compare : α → α → Ordering) (xs : List α) :
    (stableOrder compare xs).length = xs.length := by
  rw [(stableOrder_perm compare xs).length_eq, List.length_range]

theorem length_of_mapM_eq_some {α β : Type} {f : α → Option β} {xs : List α} {ys : List β}
    (h : xs.mapM f = some ys) : ys.length = xs.length := by
  induction xs generalizing ys with
  | nil =>
    cases h
    rfl
  | cons x xs ih =>
    simp only [List.mapM_cons, Option.pure_def, Option.bind_eq_bind, Option.bind_eq_some_iff] at h
    obtain ⟨y, -, ys', hys, hy⟩ := h
    cases hy
    rw [List.length_cons, List.length_cons, ih hys]

theorem gradeUp_perm (p : Precision) (xs : List Noun) :
    (gradeUp p xs).Perm (List.range xs.length) := by
  unfold gradeUp
  split
  next ns hns => exact length_of_mapM_eq_some hns ▸ stableOrder_perm _ ns
  next rs _ hrs => exact length_of_mapM_eq_some hrs ▸ stableOrder_perm _ rs
  next => exact stableOrder_perm _ xs

theorem length_gradeUp (p : Precision) (xs : List Noun) : (gradeUp p xs).length = xs.length := by
  rw [(gradeUp_perm p xs).length_eq, List.length_range]

theorem lt_of_mem_gradeUp {p : Precision} {xs : List Noun} {i : Nat} (h : i ∈ gradeUp p xs) :
    i < xs.length :=
  List.mem_range.1 ((gradeUp_perm p xs).mem_iff.1 h)

end ArrayPhrase.Noun
