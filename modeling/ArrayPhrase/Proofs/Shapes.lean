import ArrayPhrase.Proofs.Naturality

/-! Places in a noun, as paths of indices inwards, and the shape of a noun: where its lists are and
how long they are. A noun is known by its shape and its leaves. Scalar verbs keep the shape, and
do to the leaves, one after the other, what the verb does to single atoms. -/

namespace ArrayPhrase

open Outcome

namespace Noun

/-- What stands at a path of indices inwards. -/
def at? : Noun → List Nat → Option Noun
  | x, [] => some x
  | atom _, _ :: _ => none
  | list xs, i :: path => xs[i]?.bind fun x => x.at? path

/-- A list of the given length stands at the path. -/
def ListAt (x : Noun) (path : List Nat) (length : Nat) : Prop :=
  ∃ xs, x.at? path = some (list xs) ∧ xs.length = length

/-- The two nouns have lists at the same paths, of the same lengths. -/
def SameShape (x y : Noun) : Prop :=
  ∀ path length, x.ListAt path length ↔ y.ListAt path length

variable {x y z : Noun} {xs ys zs : List Noun} {a b : Atom} {path : List Nat} {i n : Nat}

/-! ### Paths -/

@[simp] theorem at?_nil (x : Noun) : x.at? [] = some x := by
  cases x <;> rfl

@[simp] theorem at?_atom_cons (a : Atom) (i : Nat) (path : List Nat) :
    (atom a).at? (i :: path) = none :=
  rfl

@[simp] theorem at?_list_cons (xs : List Noun) (i : Nat) (path : List Nat) :
    (list xs).at? (i :: path) = xs[i]?.bind fun x => x.at? path :=
  rfl

@[simp] theorem not_listAt_atom : ¬ (atom a).ListAt path n := by
  rintro ⟨xs, h, -⟩
  cases path <;> simp at h

@[simp] theorem listAt_list_nil : (list xs).ListAt [] n ↔ xs.length = n := by
  simp [ListAt]

@[simp] theorem listAt_list_cons :
    (list xs).ListAt (i :: path) n ↔ ∃ x, xs[i]? = some x ∧ x.ListAt path n := by
  simp only [ListAt, at?_list_cons, Option.bind_eq_some_iff]
  constructor
  · rintro ⟨ys, ⟨x, hx, hys⟩, hn⟩
    exact ⟨x, hx, ys, hys, hn⟩
  · rintro ⟨x, hx, ys, hys, hn⟩
    exact ⟨ys, ⟨x, hx, hys⟩, hn⟩

theorem ListAt.unique {m : Nat} (h : x.ListAt path m) (h' : x.ListAt path n) : m = n := by
  obtain ⟨xs, hxs, rfl⟩ := h
  obtain ⟨ys, hys, rfl⟩ := h'
  rw [hxs] at hys
  cases hys
  rfl

/-! ### Shapes -/

theorem sameShape_atom (a b : Atom) : SameShape (atom a) (atom b) := by
  simp [SameShape]

theorem SameShape.eq_atom (h : SameShape (atom a) y) : ∃ b, y = atom b := by
  cases y with
  | atom b => exact ⟨b, rfl⟩
  | list ys => exact absurd ((h [] ys.length).2 (by simp)) (by simp)

theorem sameShape_lists_iff :
    SameShape (list xs) (list ys) ↔ List.Forall₂ SameShape xs ys := by
  rw [List.forall₂_iff_get]
  constructor
  · intro h
    have hlen : xs.length = ys.length := by simpa using (h [] ys.length).2 (by simp)
    refine ⟨hlen, fun i hx hy path n => ?_⟩
    have hi := h (i :: path) n
    simpa [List.getElem?_eq_getElem hx, List.getElem?_eq_getElem hy] using hi
  · rintro ⟨hlen, hitems⟩ path n
    cases path with
    | nil => rw [listAt_list_nil, listAt_list_nil, hlen]
    | cons i path =>
      rw [listAt_list_cons, listAt_list_cons]
      by_cases hi : i < xs.length
      · have hi' : i < ys.length := hlen ▸ hi
        simpa [List.getElem?_eq_getElem hi, List.getElem?_eq_getElem hi'] using
          hitems i hi hi' path n
      · have hi' : ¬ i < ys.length := hlen ▸ hi
        simp [hi, hi']

theorem SameShape.eq_list (h : SameShape (list xs) y) :
    ∃ ys, y = list ys ∧ List.Forall₂ SameShape xs ys := by
  cases y with
  | atom b => exact absurd ((h [] xs.length).1 (by simp)) (by simp)
  | list ys => exact ⟨ys, rfl, sameShape_lists_iff.1 h⟩

theorem SameShape.refl (x : Noun) : SameShape x x :=
  fun _ _ => Iff.rfl

theorem SameShape.symm (h : SameShape x y) : SameShape y x :=
  fun path length => (h path length).symm

theorem SameShape.trans (h : SameShape x y) (h' : SameShape y z) : SameShape x z :=
  fun path length => (h path length).trans (h' path length)

/-! ### Leaves -/

/-- Nouns of one shape use up equally many leaves. -/
theorem lists_eq_of_leaves_append {as bs : List Atom}
    (hitems : ∀ x ∈ xs, ∀ y as bs, SameShape x y → x.leaves ++ as = y.leaves ++ bs →
      x = y ∧ as = bs) (h : List.Forall₂ SameShape xs ys)
    (hleaves : xs.flatMap leaves ++ as = ys.flatMap leaves ++ bs) : xs = ys ∧ as = bs := by
  induction h with
  | nil => exact ⟨rfl, hleaves⟩
  | cons hxy _ ih =>
    rw [List.forall_mem_cons] at hitems
    simp only [List.flatMap_cons, List.append_assoc] at hleaves
    obtain ⟨rfl, hrest⟩ := hitems.1 _ _ _ hxy hleaves
    obtain ⟨rfl, hend⟩ := ih hitems.2 hrest
    exact ⟨rfl, hend⟩

theorem SameShape.eq_of_leaves_append {as bs : List Atom} (h : SameShape x y)
    (hleaves : x.leaves ++ as = y.leaves ++ bs) : x = y ∧ as = bs := by
  induction x generalizing y as bs with
  | atom a =>
    obtain ⟨b, rfl⟩ := h.eq_atom
    simpa using hleaves
  | list xs ih =>
    obtain ⟨ys, rfl, hys⟩ := h.eq_list
    rw [leaves_list, leaves_list] at hleaves
    obtain ⟨rfl, hend⟩ := lists_eq_of_leaves_append (fun x hx _ _ _ => ih x hx) hys hleaves
    exact ⟨rfl, hend⟩

/-- A noun is known by its shape and its leaves. -/
theorem SameShape.eq_of_leaves (h : SameShape x y) (hleaves : x.leaves = y.leaves) : x = y :=
  (h.eq_of_leaves_append (congrArg (· ++ []) hleaves)).1

/-! ### Mapped leaves -/

variable {f : Atom → Except Fault Atom} {fault : Fault}

theorem Maps.sameShape (h : Maps f x y) : SameShape x y := by
  induction x generalizing y with
  | atom a =>
    obtain ⟨b, -, rfl⟩ := maps_atom_iff.1 h
    exact sameShape_atom a b
  | list xs ih =>
    obtain ⟨ys, hys, rfl⟩ := maps_list_iff.1 h
    have hitems := (List.forall₂_and_left _ _).2 ⟨fun x hx y => ih x hx (y := y), hys⟩
    exact sameShape_lists_iff.2 (hitems.imp fun x y hxy => hxy.1 y hxy.2)

/-- A mapped noun has the shape of the noun and its leaves mapped, and is the only such noun. -/
theorem mapLeaves_eq_ok_iff : x.mapLeaves f = .ok z ↔
    SameShape x z ∧ List.Forall₂ (fun a b => f a = .ok b) x.leaves z.leaves := by
  constructor
  · intro h
    exact ⟨Maps.sameShape h, Maps.leaves h⟩
  · rintro ⟨hshape, hleaves⟩
    rw [← mapM_eq_ok, ← map_leaves_mapLeaves, map_eq_ok] at hleaves
    obtain ⟨w, hw, hleaves⟩ := hleaves
    rw [hw, ((Maps.sameShape hw).symm.trans hshape).eq_of_leaves hleaves]

/-- A mapping ends with the fault of the first leaf that has one. -/
theorem mapLeaves_eq_error_iff : x.mapLeaves f = .error fault ↔
    ∃ before a after, x.leaves = before ++ a :: after ∧ (∀ b ∈ before, ∃ c, f b = .ok c) ∧
      f a = .error fault := by
  rw [← mapM_eq_error, ← map_leaves_mapLeaves, map_eq_error]

theorem exists_mapLeaves_eq_ok (h : ∀ a ∈ x.leaves, ∃ b, f a = .ok b) :
    ∃ y, x.mapLeaves f = .ok y := by
  cases hy : x.mapLeaves f with
  | ok y => exact ⟨y, rfl⟩
  | error fault =>
    obtain ⟨a, ha, hfault⟩ := exists_of_mapLeaves_error hy
    obtain ⟨b, hb⟩ := h a ha
    rw [hb] at hfault
    cases hfault

theorem mapLeaves_fails_iff :
    (∃ fault, x.mapLeaves f = .error fault) ↔ ∃ a ∈ x.leaves, ∃ fault, f a = .error fault := by
  constructor
  · rintro ⟨fault, h⟩
    obtain ⟨a, ha, hfault⟩ := exists_of_mapLeaves_error h
    exact ⟨a, ha, fault, hfault⟩
  · rintro ⟨a, ha, fault, hfault⟩
    cases h : x.mapLeaves f with
    | error fault' => exact ⟨fault', rfl⟩
    | ok y =>
      obtain ⟨b, hb⟩ := exists_of_mapM_ok (mapM_eq_ok.2 (Maps.leaves h)) ha
      rw [hfault] at hb
      cases hb

end Noun

/-! ### Scalar verbs -/

theorem Scalar.onAtom_int_eq_ok_iff {p : Precision} {s : Scalar} {m n : Int} {b : Atom}
    (h : s.onInt? n = some m) :
    s.onAtom p (.int n) = .ok b ↔ InRange m ∧ b = .int m := by
  rw [onAtom, h]
  dsimp only
  rw [map_eq_ok]
  constructor
  · rintro ⟨k, hk, rfl⟩
    obtain ⟨hrange, rfl⟩ := checkRange_eq_ok.1 hk
    exact ⟨hrange, rfl⟩
  · rintro ⟨hrange, rfl⟩
    exact ⟨m, checkRange_eq_ok.2 ⟨hrange, rfl⟩, rfl⟩

theorem Scalar.onAtom_int_eq_error_iff {p : Precision} {s : Scalar} {m n : Int}
    {fault : Fault} (h : s.onInt? n = some m) :
    s.onAtom p (.int n) = .error fault ↔ ¬ InRange m ∧ fault = .integerOverflow s.rep m := by
  rw [onAtom, h]
  dsimp only
  rw [map_eq_error, checkRange]
  split_ifs with hrange
  · simp [hrange]
  · rw [Except.error.injEq, eq_comm, and_iff_right hrange]

theorem Scalar.onAtomByRep_rep (p : Precision) (s : Scalar) (a : Atom) :
    onAtomByRep p s.rep a = s.onAtom p a := by
  have hfind : (all.find? fun t => t.rep = s.rep) = some s := by
    cases s <;> decide
  rw [onAtomByRep, hfind]

theorem tokenTexts_scalar (s : Scalar) : tokenTexts s.rep = [s.rep] := by
  cases s <;> decide +kernel

theorem evaluate_scalar {p : Precision} {s : Scalar} {given : Datum} {x : Noun}
    (haccepted : given.toNoun nounRoot = .ok x) :
    evaluate p s.rep given = x.mapLeaves (Scalar.onAtomByRep p s.rep) := by
  have heval := (Phrase.complete_scalar s).evaluateTexts_of_accepted p haccepted
  rw [evaluate, tokenTexts_scalar, heval, funext (Scalar.onAtomByRep_rep p s)]
  exact Phrase.apply_scalar s p x

theorem evaluate_scalar_eq_mapLeaves {p : Precision} {s : Scalar} {given : Datum} {x : Noun}
    (haccepted : given.toNoun nounRoot = .ok x) :
    evaluate p s.rep given = x.mapLeaves (s.onAtom p) := by
  rw [evaluate_scalar haccepted, funext (Scalar.onAtomByRep_rep p s)]

/-- A scalar verb fails exactly when it fails on a leaf, with the fault of the first such leaf.
Otherwise it gives the noun of the same shape whose leaves are the results on the leaves, in their
order. -/
theorem scalar_verb_acts_leaf_by_leaf {p : Precision} {s : Scalar} {given : Datum} {x : Noun}
    (haccepted : given.toNoun nounRoot = .ok x) :
    let onLeaf := Scalar.onAtomByRep p s.rep
    ((∃ fault, evaluate p s.rep given = .error fault) ↔
        ∃ a ∈ x.leaves, ∃ fault, onLeaf a = .error fault) ∧
      (∀ fault, evaluate p s.rep given = .error fault ↔
        ∃ before a after, x.leaves = before ++ a :: after ∧
          (∀ b ∈ before, ∃ c, onLeaf b = .ok c) ∧ onLeaf a = .error fault) ∧
      ∀ y, evaluate p s.rep given = .ok y ↔
        Noun.SameShape x y ∧ List.Forall₂ (fun a b => onLeaf a = .ok b) x.leaves y.leaves := by
  intro onLeaf
  rw [evaluate_scalar haccepted]
  exact ⟨Noun.mapLeaves_fails_iff, fun _ => Noun.mapLeaves_eq_error_iff,
    fun _ => Noun.mapLeaves_eq_ok_iff⟩

theorem scalar_verb_acts_leaf_by_leaf_first_square_out_of_range :
    let given : Datum :=
      .list [.leaf (.int 7), .list [], .list [.list [.leaf (.int 4294967296)], .leaf (.int (-2))],
        .leaf (.int 9223372036854775807)]
    let x : Noun :=
      .list [.atom (.int 7), .list [], .list [.list [.atom (.int 4294967296)], .atom (.int (-2))],
        .atom (.int 9223372036854775807)]
    given.toNoun nounRoot = .ok x ∧
      evaluate .double "*:" given = .error (.integerOverflow "*:" 18446744073709551616) := by
  intro given x
  have haccepted : given.toNoun nounRoot = .ok x := by
    decide +kernel
  have hfirst := ((scalar_verb_acts_leaf_by_leaf (p := .double) (s := .square) haccepted).2.1
    (.integerOverflow "*:" 18446744073709551616)).2
  refine ⟨haccepted, hfirst ⟨[.int 7], .int 4294967296, [.int (-2), .int 9223372036854775807], ?_⟩⟩
  refine ⟨by simp [x], ?_, by decide +kernel⟩
  intro b hb
  obtain rfl := List.mem_singleton.1 hb
  exact ⟨.int 49, by decide +kernel⟩

end ArrayPhrase
