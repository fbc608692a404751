import ArrayPhrase.Datum
import ArrayPhrase.Noun.Combine
import ArrayPhrase.Noun.Reshape
import ArrayPhrase.Proofs.Outcome

/-! Induction over nouns, and the functions on the items of a list as functions of lists. Every
atom of a mapped or combined noun is the result of the function on atoms it was made from. -/

namespace ArrayPhrase.Noun

open Outcome

@[elab_as_elim, induction_eliminator]
theorem induction {motive : Noun → Prop} (atom : ∀ a, motive (atom a))
    (list : ∀ xs, (∀ x ∈ xs, motive x) → motive (list xs)) : ∀ x, motive x
  | .atom a => atom a
  | .list xs => list xs fun x _ => induction atom list x

/-! ### The items of lists -/

@[simp] theorem leaves_atom (a : Atom) : (atom a).leaves = [a] := by
  rw [leaves]

@[simp] theorem leaves_list (xs : List Noun) : (list xs).leaves = xs.flatMap leaves := by
  rw [leaves]
  induction xs with
  | nil => rfl
  | cons x xs ih => rw [leavesOf, ih, List.flatMap_cons]

theorem leaves_subset_of_mem {x : Noun} {xs : List Noun} (hx : x ∈ xs) :
    x.leaves ⊆ (list xs).leaves := by
  intro a ha
  rw [leaves_list]
  exact List.mem_flatMap.2 ⟨x, hx, ha⟩

@[simp] theorem mapLeaves_atom (f : Atom → Except Fault Atom) (a : Atom) :
    mapLeaves f (atom a) = atom <$> f a := by
  rw [mapLeaves]

@[simp] theorem mapLeaves_list (f : Atom → Except Fault Atom) (xs : List Noun) :
    mapLeaves f (list xs) = list <$> xs.mapM (mapLeaves f) := by
  rw [mapLeaves]
  congr 1
  induction xs with
  | nil => rw [mapLeavesOf]; rfl
  | cons x xs ih => rw [mapLeavesOf, ih, List.mapM_cons]

theorem combine_atom_right (f : Atom → Atom → Except Fault Atom) (x : Noun) (b : Atom) :
    combine f x (atom b) = x.mapLeaves (f · b) := by
  cases x with
  | atom a => rw [combine, mapLeaves_atom, mapLeaves_atom]
  | list xs => rw [combine]

theorem combine_lists (f : Atom → Atom → Except Fault Atom) (xs ys : List Noun) :
    combine f (list xs) (list ys) =
      if xs.length = ys.length then list <$> (xs.zip ys).mapM (fun pair => combine f pair.1 pair.2)
      else .error (.lengthMismatch xs.length ys.length) := by
  rw [combine]
  split_ifs with hlen
  · congr 1
    clear hlen
    induction xs generalizing ys with
    | nil => rw [combineAll]; rfl
    | cons x xs ih =>
      cases ys with
      | nil => rw [combineAll]; rfl
      | cons y ys => rw [combineAll, ih, List.zip_cons_cons, List.mapM_cons]
  · rfl

@[simp] theorem toDatum_atom (a : Atom) : (atom a).toDatum = .leaf a.toGiven := by
  rw [toDatum]

@[simp] theorem toDatum_list (xs : List Noun) : (list xs).toDatum = .list (xs.map toDatum) := by
  rw [toDatum]
  congr 1
  induction xs with
  | nil => rw [toData]; rfl
  | cons x xs ih => rw [toData, ih, List.map_cons]

/-- Functions that agree on all atoms of a noun give the same on it. -/
theorem mapLeaves_congr {f g : Atom → Except Fault Atom} {x : Noun}
    (h : ∀ a ∈ x.leaves, f a = g a) : x.mapLeaves f = x.mapLeaves g := by
  induction x with
  | atom a => rw [mapLeaves_atom, mapLeaves_atom, h a (by simp)]
  | list xs ih =>
    rw [mapLeaves_list, mapLeaves_list]
    congr 1
    exact mapM_congr fun x hx => ih x hx fun a ha => h a (leaves_subset_of_mem hx ha)

/-! ### Where atoms come from -/

@[simp] theorem leaves_list_items (x : Noun) : (list x.items).leaves = x.leaves := by
  cases x <;> simp [items]

/-- The atoms of a mapped noun are those of the noun, mapped in their order. -/
theorem map_leaves_mapLeaves (f : Atom → Except Fault Atom) (x : Noun) :
    leaves <$> x.mapLeaves f = x.leaves.mapM f := by
  induction x with
  | atom a =>
    rw [mapLeaves_atom, leaves_atom]
    cases h : f a <;> simp [h]
  | list xs ih =>
    rw [mapLeaves_list, leaves_list, mapM_flatMap, ← mapM_congr ih, ← mapM_map_comm]
    cases xs.mapM (mapLeaves f) with
    | error fault => rfl
    | ok ys => exact congrArg Except.ok (leaves_list ys)

theorem exists_of_mem_mapLeaves {f : Atom → Except Fault Atom} {x y : Noun}
    (h : x.mapLeaves f = .ok y) : ∀ b ∈ y.leaves, ∃ a ∈ x.leaves, f a = .ok b := by
  have hleaves := map_leaves_mapLeaves f x
  rw [h] at hleaves
  exact fun b hb => exists_of_mem_mapM hleaves.symm hb

theorem exists_of_mapLeaves_error {f : Atom → Except Fault Atom} {x : Noun} {fault : Fault}
    (h : x.mapLeaves f = .error fault) : ∃ a ∈ x.leaves, f a = .error fault := by
  have hleaves := map_leaves_mapLeaves f x
  rw [h] at hleaves
  exact exists_of_mapM_error hleaves.symm

theorem exists_of_mem_combine {f : Atom → Atom → Except Fault Atom} {x y z : Noun}
    (h : combine f x y = .ok z) :
    ∀ c ∈ z.leaves, ∃ a ∈ x.leaves, ∃ b ∈ y.leaves, f a b = .ok c := by
  induction x generalizing y z with
  | atom a =>
    rw [combine] at h
    simpa using exists_of_mem_mapLeaves h
  | list xs ih =>
    cases y with
    | atom b =>
      rw [combine] at h
      simpa using exists_of_mem_mapLeaves h
    | list ys =>
      rw [combine_lists] at h
      split_ifs at h
      obtain ⟨zs, hzs, rfl⟩ := map_eq_ok.1 h
      intro c hc
      obtain ⟨z, hz, hcz⟩ := List.mem_flatMap.1 (leaves_list zs ▸ hc)
      obtain ⟨⟨x, y⟩, hxy, hcomb⟩ := exists_of_mem_mapM hzs hz
      obtain ⟨hx, hy⟩ := List.of_mem_zip hxy
      obtain ⟨a, ha, b, hb, hab⟩ := ih x hx hcomb c hcz
      exact ⟨a, leaves_subset_of_mem hx ha, b, leaves_subset_of_mem hy hb, hab⟩

/-- A combination fails at two atoms or where two lists differ in length. -/
theorem exists_of_combine_error {f : Atom → Atom → Except Fault Atom} {x y : Noun} {fault : Fault}
    (h : combine f x y = .error fault) :
    (∃ a ∈ x.leaves, ∃ b ∈ y.leaves, f a b = .error fault) ∨
      ∃ m n, fault = .lengthMismatch m n := by
  induction x generalizing y with
  | atom a =>
    rw [combine] at h
    obtain ⟨b, hb, hab⟩ := exists_of_mapLeaves_error h
    exact .inl ⟨a, by simp, b, hb, hab⟩
  | list xs ih =>
    cases y with
    | atom b =>
      rw [combine] at h
      obtain ⟨a, ha, hab⟩ := exists_of_mapLeaves_error h
      exact .inl ⟨a, ha, b, by simp, hab⟩
    | list ys =>
      rw [combine_lists] at h
      split_ifs at h with hlen
      · rw [map_eq_error] at h
        obtain ⟨⟨x, y⟩, hxy, hf⟩ := exists_of_mapM_error h
        obtain ⟨hx, hy⟩ := List.of_mem_zip hxy
        refine (ih x hx hf).imp_left ?_
        rintro ⟨a, ha, b, hb, hab⟩
        exact ⟨a, leaves_subset_of_mem hx ha, b, leaves_subset_of_mem hy hb, hab⟩
      · exact .inr ⟨_, _, (Except.error.inj h).symm⟩

theorem exists_of_mem_fill {element : Nat → Noun} {dims : List Nat} {rank : Nat} {a : Atom}
    (h : a ∈ (fill element dims rank).leaves) : ∃ r, a ∈ (element r).leaves := by
  induction dims generalizing rank with
  | nil => exact ⟨rank, h⟩
  | cons dim dims ih =>
    rw [fill, leaves_list] at h
    obtain ⟨x, hx, ha⟩ := List.mem_flatMap.1 h
    obtain ⟨i, -, rfl⟩ := List.mem_map.1 hx
    exact ih ha

end ArrayPhrase.Noun
