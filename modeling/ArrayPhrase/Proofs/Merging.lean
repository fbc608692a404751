import Mathlib.Data.Option.NAry
import ArrayPhrase.Proofs.Integral

/-! Combination where any two atoms can be combined, so that only the lengths of lists stand in its
way. It is a partial operation, commutative where the one on atoms is, and commutative and
associative together let any two nouns that are combined with a third one change places. What a
combination with failing atoms gives is what this one gives, and where it fails for the length of
lists this one has nothing to give. -/

namespace ArrayPhrase

open Outcome

namespace Noun

mutual

/-- The noun with every atom replaced. -/
def map (g : Atom → Atom) : Noun → Noun
  | atom a => atom (g a)
  | list xs => list (mapAll g xs)

def mapAll (g : Atom → Atom) : List Noun → List Noun
  | [] => []
  | x :: xs => map g x :: mapAll g xs

end

mutual

/-- Two nouns combined as `combine` does, by an operation that has a result for any two atoms. -/
def merge (op : Atom → Atom → Atom) : Noun → Noun → Option Noun
  | atom a, y => some (map (op a) y)
  | list xs, atom b => some (map (op · b) (list xs))
  | list xs, list ys => (mergeAll op xs ys).map list

def mergeAll (op : Atom → Atom → Atom) : List Noun → List Noun → Option (List Noun)
  | [], [] => some []
  | x :: xs, y :: ys => Option.map₂ List.cons (merge op x y) (mergeAll op xs ys)
  | [], _ :: _ => none
  | _ :: _, [] => none

end

variable {op : Atom → Atom → Atom} {g h : Atom → Atom} {x y z : Noun} {xs ys zs : List Noun}

@[simp] theorem map_atom (g : Atom → Atom) (a : Atom) : (atom a).map g = atom (g a) := by
  rw [map]

@[simp] theorem map_list (g : Atom → Atom) (xs : List Noun) :
    (list xs).map g = list (xs.map (map g)) := by
  rw [map]
  congr 1
  induction xs with
  | nil => rw [mapAll]; rfl
  | cons x xs ih => rw [mapAll, ih, List.map_cons]

theorem map_congr (hgh : ∀ a ∈ x.leaves, g a = h a) : x.map g = x.map h := by
  induction x with
  | atom a => rw [map_atom, map_atom, hgh a (by simp)]
  | list xs ih =>
    rw [map_list, map_list]
    congr 1
    exact List.map_congr_left fun x hx => ih x hx fun a ha => hgh a (leaves_subset_of_mem hx ha)

theorem map_id (x : Noun) : x.map id = x := by
  induction x with
  | atom a => rw [map_atom, id]
  | list xs ih => rw [map_list, List.map_congr_left ih, List.map_id']

theorem map_map (g h : Atom → Atom) (x : Noun) : (x.map h).map g = x.map (g ∘ h) := by
  induction x with
  | atom a => simp
  | list xs ih =>
    rw [map_list, map_list, map_list, List.map_map]
    congr 1
    exact List.map_congr_left ih

@[simp] theorem merge_atom_left (op : Atom → Atom → Atom) (a : Atom) (y : Noun) :
    merge op (atom a) y = some (y.map (op a)) := by
  rw [merge]

@[simp] theorem merge_atom_right (op : Atom → Atom → Atom) (x : Noun) (b : Atom) :
    merge op x (atom b) = some (x.map (op · b)) := by
  cases x <;> simp [merge]

@[simp] theorem merge_lists (op : Atom → Atom → Atom) (xs ys : List Noun) :
    merge op (list xs) (list ys) = (mergeAll op xs ys).map list := by
  rw [merge]

@[simp] theorem mergeAll_nil_nil (op : Atom → Atom → Atom) : mergeAll op [] [] = some [] := by
  rw [mergeAll]

@[simp] theorem mergeAll_cons_cons (op : Atom → Atom → Atom) (x y : Noun) (xs ys : List Noun) :
    mergeAll op (x :: xs) (y :: ys) =
      Option.map₂ List.cons (merge op x y) (mergeAll op xs ys) := by
  rw [mergeAll]

theorem mergeAll_of_length_ne (hlen : xs.length ≠ ys.length) : mergeAll op xs ys = none := by
  induction xs generalizing ys with
  | nil =>
    cases ys with
    | nil => exact absurd rfl hlen
    | cons y ys => rw [mergeAll]
  | cons x xs ih =>
    cases ys with
    | nil => rw [mergeAll]
    | cons y ys =>
      rw [mergeAll_cons_cons, ih fun h => hlen (congrArg Nat.succ h), Option.map₂_none_right]

/-! ### Commutativity -/

theorem mergeAll_comm_of (hxs : ∀ x ∈ xs, ∀ y, merge op x y = merge op y x) :
    mergeAll op xs ys = mergeAll op ys xs := by
  induction xs generalizing ys with
  | nil => cases ys <;> simp [mergeAll]
  | cons x xs ih =>
    rw [List.forall_mem_cons] at hxs
    cases ys with
    | nil => simp [mergeAll]
    | cons y ys => rw [mergeAll_cons_cons, mergeAll_cons_cons, hxs.1, ih hxs.2]

theorem merge_comm [Std.Commutative op] (x y : Noun) : merge op x y = merge op y x := by
  induction x generalizing y with
  | atom a =>
    rw [merge_atom_left, merge_atom_right]
    congr 2
    funext b
    exact Std.Commutative.comm a b
  | list xs ih =>
    cases y with
    | atom b =>
      rw [merge_atom_left, merge_atom_right]
      congr 2
      funext a
      exact Std.Commutative.comm a b
    | list ys => rw [merge_lists, merge_lists, mergeAll_comm_of ih]

/-! ### Three nouns -/

theorem mergeAll_map_of (hxs : ∀ x ∈ xs, ∀ y, merge op x (y.map g) = (merge op x y).map (map g)) :
    mergeAll op xs (ys.map (map g)) = (mergeAll op xs ys).map (List.map (map g)) := by
  induction xs generalizing ys with
  | nil => cases ys <;> simp [mergeAll]
  | cons x xs ih =>
    rw [List.forall_mem_cons] at hxs
    cases ys with
    | nil => simp [mergeAll]
    | cons y ys =>
      rw [List.map_cons, mergeAll_cons_cons, mergeAll_cons_cons, hxs.1, ih hxs.2]
      cases merge op x y <;> cases mergeAll op xs ys <;> rfl

/-- What is done to single atoms may be done before or after when it may on atoms. -/
theorem merge_map_right (hg : ∀ a b, op a (g b) = g (op a b)) (x y : Noun) :
    merge op x (y.map g) = (merge op x y).map (map g) := by
  induction x generalizing y with
  | atom a =>
    rw [merge_atom_left, merge_atom_left, Option.map_some, map_map, map_map]
    congr 2
    funext b
    exact hg a b
  | list xs ih =>
    cases y with
    | atom b =>
      rw [map_atom, merge_atom_right, merge_atom_right, Option.map_some, map_map]
      congr 2
      funext a
      exact hg a b
    | list ys =>
      rw [map_list, merge_lists, merge_lists, mergeAll_map_of ih, Option.map_map, Option.map_map]
      congr 1
      funext zs
      simp

theorem map₂_cons_bind (op : Atom → Atom → Atom) (x : Noun) (xs : List Noun) (first : Option Noun)
    (rest : Option (List Noun)) :
    (Option.map₂ List.cons first rest).bind (mergeAll op (x :: xs)) =
      Option.map₂ List.cons (first.bind (merge op x)) (rest.bind (mergeAll op xs)) := by
  cases first with
  | none => rfl
  | some y =>
    cases rest with
    | none => simp
    | some ys => simp

theorem mergeAll_left_comm_of (hxs : ∀ x ∈ xs, ∀ y z,
      (merge op y z).bind (merge op x) = (merge op x z).bind (merge op y)) :
    (mergeAll op ys zs).bind (mergeAll op xs) = (mergeAll op xs zs).bind (mergeAll op ys) := by
  induction xs generalizing ys zs with
  | nil =>
    cases zs with
    | nil => cases ys <;> simp [mergeAll]
    | cons z zs =>
      cases ys with
      | nil => simp [mergeAll]
      | cons y ys =>
        rw [mergeAll_cons_cons]
        cases merge op y z <;> cases mergeAll op ys zs <;> simp [mergeAll]
  | cons x xs ih =>
    rw [List.forall_mem_cons] at hxs
    cases zs with
    | nil => cases ys <;> simp [mergeAll]
    | cons z zs =>
      cases ys with
      | nil =>
        rw [mergeAll_cons_cons]
        cases merge op x z <;> cases mergeAll op xs zs <;> simp [mergeAll]
      | cons y ys =>
        rw [mergeAll_cons_cons, mergeAll_cons_cons, map₂_cons_bind, map₂_cons_bind, hxs.1, ih hxs.2]

section Associative

variable [Std.Commutative op] [Std.Associative op]

theorem merge_left_comm_atom (a : Atom) (y z : Noun) :
    (merge op y z).bind (merge op (atom a)) = (merge op (atom a) z).bind (merge op y) := by
  have hcomm (b c : Atom) : op b (op a c) = op a (op b c) :=
    LeftCommutative.left_comm b a c
  rw [merge_atom_left, Option.bind_some, merge_map_right hcomm]
  cases merge op y z <;> simp

/-- Of two nouns combined with a third one, either may come first. -/
theorem merge_left_comm (x y z : Noun) :
    (merge op y z).bind (merge op x) = (merge op x z).bind (merge op y) := by
  induction x generalizing y z with
  | atom a => exact merge_left_comm_atom a y z
  | list xs ih =>
    cases y with
    | atom b => exact (merge_left_comm_atom b (list xs) z).symm
    | list ys =>
      cases z with
      | atom c =>
        have hassoc (a b : Atom) : op a (op b c) = op (op a b) c :=
          (Std.Associative.assoc a b c).symm
        rw [merge_atom_right, merge_atom_right, Option.bind_some, Option.bind_some,
          merge_map_right hassoc, merge_map_right hassoc, merge_comm]
      | list zs =>
        have hlists (us ws : List Noun) :
            ((mergeAll op us zs).map list).bind (merge op (list ws)) =
              ((mergeAll op us zs).bind (mergeAll op ws)).map list := by
          cases mergeAll op us zs <;> simp
        rw [merge_lists, merge_lists, hlists, hlists, mergeAll_left_comm_of ih]

end Associative

/-! ### Combination with atoms that fail -/

theorem eq_map_of_mapLeaves {f : Atom → Except Fault Atom}
    (hf : ∀ a ∈ x.leaves, ∀ b, f a = .ok b → b = g a) (hy : x.mapLeaves f = .ok y) :
    y = x.map g := by
  induction x generalizing y with
  | atom a =>
    rw [mapLeaves_atom] at hy
    obtain ⟨b, hb, rfl⟩ := map_eq_ok.1 hy
    rw [map_atom, hf a (by simp) b hb]
  | list xs ih =>
    rw [mapLeaves_list] at hy
    obtain ⟨ys, hys, rfl⟩ := map_eq_ok.1 hy
    have hitems : ∀ x ∈ xs, ∀ y, x.mapLeaves f = .ok y → y = x.map g := fun x hx y hy =>
      ih x hx (fun a ha => hf a (leaves_subset_of_mem hx ha)) hy
    rw [map_list, eq_map_of_mapM hitems hys]

variable {f : Atom → Atom → Except Fault Atom} {fault : Fault}

theorem mergeAll_eq_some_of_mapM (hlen : xs.length = ys.length)
    (hitems : ∀ x ∈ xs, ∀ y ∈ ys, ∀ z, combine f x y = .ok z → merge op x y = some z)
    (hzs : (xs.zip ys).mapM (fun pair => combine f pair.1 pair.2) = .ok zs) :
    mergeAll op xs ys = some zs := by
  induction xs generalizing ys zs with
  | nil =>
    obtain rfl := List.length_eq_zero_iff.1 hlen.symm
    cases hzs
    exact mergeAll_nil_nil op
  | cons x xs ih =>
    obtain ⟨y, ys, rfl⟩ := List.exists_cons_of_length_eq_add_one hlen.symm
    rw [List.zip_cons_cons, List.mapM_cons] at hzs
    obtain ⟨z, hz, hzs⟩ := bind_eq_ok.1 hzs
    obtain ⟨zs, htail, hzs⟩ := bind_eq_ok.1 hzs
    cases hzs
    have hrest := ih (Nat.succ.inj hlen)
      (fun x hx y hy => hitems x (by simp [hx]) y (by simp [hy])) htail
    rw [mergeAll_cons_cons, hitems x (by simp) y (by simp) z hz, hrest]
    rfl

/-- Where atoms combine as the operation says, a combination that succeeds gives the merged noun. -/
theorem merge_of_combine_eq_ok
    (hf : ∀ a ∈ x.leaves, ∀ b ∈ y.leaves, ∀ c, f a b = .ok c → c = op a b)
    (hz : combine f x y = .ok z) : merge op x y = some z := by
  induction x generalizing y z with
  | atom a =>
    rw [combine] at hz
    rw [merge_atom_left, eq_map_of_mapLeaves (hf a (by simp)) hz]
  | list xs ih =>
    cases y with
    | atom b =>
      rw [combine] at hz
      rw [merge_atom_right, eq_map_of_mapLeaves (fun a ha => hf a ha b (by simp)) hz]
    | list ys =>
      rw [combine_lists] at hz
      split_ifs at hz with hlen
      obtain ⟨zs, hzs, rfl⟩ := map_eq_ok.1 hz
      have hitems : ∀ x ∈ xs, ∀ y ∈ ys, ∀ z, combine f x y = .ok z → merge op x y = some z :=
        fun x hx y hy z => ih x hx fun a ha b hb =>
          hf a (leaves_subset_of_mem hx ha) b (leaves_subset_of_mem hy hb)
      rw [merge_lists, mergeAll_eq_some_of_mapM hlen hitems hzs, Option.map_some]

theorem mergeAll_eq_none_of_mem_zip (hpair : (x, y) ∈ xs.zip ys) (hnone : merge op x y = none) :
    mergeAll op xs ys = none := by
  induction xs generalizing ys with
  | nil => simp at hpair
  | cons x' xs ih =>
    cases ys with
    | nil => simp at hpair
    | cons y' ys =>
      rw [mergeAll_cons_cons]
      rcases List.mem_cons.1 hpair with heq | hpair
      · cases heq
        rw [hnone, Option.map₂_none_left]
      · rw [ih hpair, Option.map₂_none_right]

/-- A combination that fails with a fault that no two atoms have leaves nothing to merge. -/
theorem merge_of_combine_eq_error (hf : ∀ a b, f a b ≠ .error fault)
    (hfault : combine f x y = .error fault) : merge op x y = none := by
  induction x generalizing y with
  | atom a =>
    rw [combine] at hfault
    obtain ⟨b, -, hab⟩ := exists_of_mapLeaves_error hfault
    exact absurd hab (hf a b)
  | list xs ih =>
    cases y with
    | atom b =>
      rw [combine] at hfault
      obtain ⟨a, -, hab⟩ := exists_of_mapLeaves_error hfault
      exact absurd hab (hf a b)
    | list ys =>
      rw [combine_lists] at hfault
      rw [merge_lists, Option.map_eq_none_iff]
      split_ifs at hfault with hlen
      · obtain ⟨⟨x, y⟩, hpair, hxy⟩ := exists_of_mapM_error (map_eq_error.1 hfault)
        exact mergeAll_eq_none_of_mem_zip hpair (ih x (List.of_mem_zip hpair).1 hxy)
      · exact mergeAll_of_length_ne hlen

end Noun
end ArrayPhrase
