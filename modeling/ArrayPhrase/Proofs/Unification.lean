import ArrayPhrase.Proofs.FirstFault
import ArrayPhrase.Proofs.Shapes
import ArrayPhrase.Proofs.TypedFaults

/-! Elementwise combination as the unification of two shapes. An atom fits every shape and stands
for as many copies of itself as it takes; two lists at one path have to be equally long. Where the
shapes fit and all results are there, the combination has the lists of both nouns, and each of its
leaves is the result on the two leaves that are met on the path to it. Otherwise it ends with the
fault at the first path, depth first, where there is one. -/

namespace ArrayPhrase

open Outcome

namespace Noun

variable {f : Atom → Atom → Except Fault Atom} {x y z : Noun} {xs ys zs : List Noun}
  {a b c : Atom} {path : List Nat} {i m n : Nat} {fault : Fault} {pairs : List (Noun × Noun)}

/-- The leaf stands at the path or on the way to it, where the longest part of the path that the
noun has ends. -/
def LeafOn (x : Noun) (path : List Nat) (a : Atom) : Prop :=
  ∃ start, start <+: path ∧ x.at? start = some (atom a)

/-- One of the leaves stands at the path, and the other one at it or on the way to it. -/
def Aligned (x y : Noun) (path : List Nat) (a b : Atom) : Prop :=
  x.LeafOn path a ∧ y.at? path = some (atom b) ∨ x.at? path = some (atom a) ∧ y.LeafOn path b

/-- A reason at the path why the nouns cannot be combined: lists that differ in length, or leaves
whose combination fails. -/
inductive Clash (fails : Atom → Atom → Fault → Prop) (x y : Noun) (path : List Nat) : Fault → Prop
  | lengths {m n : Nat} (left : x.ListAt path m) (right : y.ListAt path n) (differ : m ≠ n) :
    Clash fails x y path (.lengthMismatch m n)
  | leaves {a b : Atom} {fault : Fault} (aligned : Aligned x y path a b)
    (failure : fails a b fault) : Clash fails x y path fault

/-- The clash is the first one, depth first and from left to right. -/
def FirstClash (fails : Atom → Atom → Fault → Prop) (x y : Noun) (path : List Nat)
    (fault : Fault) : Prop :=
  Clash fails x y path fault ∧ ∀ before < path, ∀ other, ¬ Clash fails x y before other

/-! ### Leaves on a path -/

@[simp] theorem leafOn_atom : (atom a).LeafOn path b ↔ a = b := by
  constructor
  · rintro ⟨start, -, h⟩
    cases start with
    | nil => simpa using h
    | cons i start => simp at h
  · rintro rfl
    exact ⟨[], List.nil_prefix, at?_nil _⟩

@[simp] theorem not_leafOn_list_nil : ¬ (list xs).LeafOn [] a := by
  rintro ⟨start, hstart, h⟩
  rw [List.prefix_nil.1 hstart] at h
  simp at h

@[simp] theorem leafOn_list_cons :
    (list xs).LeafOn (i :: path) a ↔ ∃ x, xs[i]? = some x ∧ x.LeafOn path a := by
  constructor
  · rintro ⟨start, hstart, h⟩
    cases start with
    | nil => simp at h
    | cons j start =>
      obtain ⟨rfl, hprefix⟩ := List.cons_prefix_cons.1 hstart
      obtain ⟨x, hx, hstart⟩ := Option.bind_eq_some_iff.1 h
      exact ⟨x, hx, start, hprefix, hstart⟩
  · rintro ⟨x, hx, start, hprefix, hstart⟩
    refine ⟨i :: start, List.cons_prefix_cons.2 ⟨rfl, hprefix⟩, ?_⟩
    rw [at?_list_cons, hx]
    exact hstart

theorem leafOn_of_at? (h : x.at? path = some (atom a)) : x.LeafOn path a :=
  ⟨path, List.prefix_rfl, h⟩

theorem leafOn_nil : x.LeafOn [] a ↔ x = atom a := by
  cases x <;> simp

theorem LeafOn.unique (h : x.LeafOn path a) (h' : x.LeafOn path b) : a = b := by
  induction path generalizing x with
  | nil =>
    obtain rfl := leafOn_nil.1 h
    exact leafOn_atom.1 h'
  | cons i path ih =>
    cases x with
    | atom c => exact (leafOn_atom.1 h).symm.trans (leafOn_atom.1 h')
    | list xs =>
      obtain ⟨y, hy, hleaf⟩ := leafOn_list_cons.1 h
      obtain ⟨y', hy', hleaf'⟩ := leafOn_list_cons.1 h'
      rw [hy, Option.some.injEq] at hy'
      exact ih hleaf (hy' ▸ hleaf')

theorem eq_nil_of_at?_atom (h : (atom a).at? path = some x) : path = [] ∧ x = atom a := by
  cases path with
  | nil => simpa [eq_comm] using h
  | cons i path => simp at h

/-- An atom is aligned with all leaves of the other noun. -/
theorem aligned_atom_left : Aligned (atom a) y path b c ↔ a = b ∧ y.at? path = some (atom c) := by
  constructor
  · rintro (⟨ha, hy⟩ | ⟨ha, hy⟩)
    · exact ⟨leafOn_atom.1 ha, hy⟩
    · obtain ⟨rfl, hb⟩ := eq_nil_of_at?_atom ha
      rw [leafOn_nil.1 hy, at?_nil]
      exact ⟨(Noun.atom.inj hb).symm, rfl⟩
  · rintro ⟨rfl, hy⟩
    exact .inl ⟨leafOn_atom.2 rfl, hy⟩

theorem Aligned.leafOn (h : Aligned x y path a b) : x.LeafOn path a ∧ y.LeafOn path b := by
  rcases h with ⟨hx, hy⟩ | ⟨hx, hy⟩
  · exact ⟨hx, leafOn_of_at? hy⟩
  · exact ⟨leafOn_of_at? hx, hy⟩

theorem ListAt.not_aligned (h : x.ListAt path m) (h' : y.ListAt path n) :
    ¬ Aligned x y path a b := by
  obtain ⟨xs, hx, -⟩ := h
  obtain ⟨ys, hy, -⟩ := h'
  simp [Aligned, hx, hy]

theorem aligned_comm : Aligned x y path a b ↔ Aligned y x path b a := by
  rw [Aligned, Aligned, or_comm, and_comm, and_comm (a := x.LeafOn path a)]

theorem aligned_atom_right : Aligned x (atom a) path b c ↔ a = c ∧ x.at? path = some (atom b) := by
  rw [aligned_comm, aligned_atom_left]

/-! ### Pairs that meet -/

/-- The items of two nouns that meet in their combination, where it does not end at once: an atom
meets every item of a list, and lists of one length meet item by item. -/
inductive Meets : Noun → Noun → List (Noun × Noun) → Prop
  | left (a : Atom) (ys : List Noun) : Meets (atom a) (list ys) (ys.map fun y => (atom a, y))
  | right (xs : List Noun) (b : Atom) : Meets (list xs) (atom b) (xs.map fun x => (x, atom b))
  | both {xs ys : List Noun} (lengths : xs.length = ys.length) :
    Meets (list xs) (list ys) (xs.zip ys)

/-- Two nouns are both atoms, or lists of different lengths, or come down to the pairs that meet. -/
theorem pair_induction {motive : Noun → Noun → Prop} (atoms : ∀ a b, motive (atom a) (atom b))
    (lengths : ∀ xs ys : List Noun, xs.length ≠ ys.length → motive (list xs) (list ys))
    (meets : ∀ {x y pairs}, Meets x y pairs → (∀ q ∈ pairs, motive q.1 q.2) → motive x y) :
    ∀ x y, motive x y := by
  intro x
  induction x with
  | atom a =>
    intro y
    induction y with
    | atom b => exact atoms a b
    | list ys ih =>
      refine meets (.left a ys) fun q hq => ?_
      obtain ⟨y, hy, rfl⟩ := List.mem_map.1 hq
      exact ih y hy
  | list xs ih =>
    intro y
    cases y with
    | atom b =>
      refine meets (.right xs b) fun q hq => ?_
      obtain ⟨x, hx, rfl⟩ := List.mem_map.1 hq
      exact ih x hx (atom b)
    | list ys =>
      by_cases hlen : xs.length = ys.length
      · exact meets (.both hlen) fun q hq => ih q.1 (List.of_mem_zip hq).1 q.2
      · exact lengths xs ys hlen

theorem combine_atoms (f : Atom → Atom → Except Fault Atom) (a b : Atom) :
    combine f (atom a) (atom b) = atom <$> f a b := by
  rw [combine, mapLeaves_atom]

theorem combine_lists_of_ne (f : Atom → Atom → Except Fault Atom) (differ : xs.length ≠ ys.length) :
    combine f (list xs) (list ys) = .error (.lengthMismatch xs.length ys.length) := by
  rw [combine_lists, if_neg differ]

/-- At an index lists of one length both have an item or both end before it. -/
theorem getElem?_zip_cases (lengths : xs.length = ys.length) (i : Nat) :
    (xs[i]? = none ∧ ys[i]? = none ∧ (xs.zip ys)[i]? = none) ∨
      ∃ x y, xs[i]? = some x ∧ ys[i]? = some y ∧ (xs.zip ys)[i]? = some (x, y) := by
  by_cases hi : i < xs.length
  · have hi' : i < ys.length := lengths ▸ hi
    exact .inr ⟨xs[i], ys[i], by simp [hi, hi']⟩
  · have hi' : ¬ i < ys.length := lengths ▸ hi
    exact .inl (by simp [hi, hi'])

namespace Meets

theorem combine_eq (h : Meets x y pairs) (f : Atom → Atom → Except Fault Atom) :
    combine f x y = list <$> pairs.mapM fun q => combine f q.1 q.2 := by
  cases h with
  | left a ys =>
    rw [combine, mapLeaves_list, List.mapM_map]
    rfl
  | right xs b =>
    rw [combine, mapLeaves_list, List.mapM_map]
    congr 1
    exact mapM_congr fun x _ => (combine_atom_right f x b).symm
  | both lengths => rw [combine_lists, if_pos lengths]

theorem combine_eq_ok (h : Meets x y pairs) : combine f x y = .ok z ↔
    ∃ zs, List.Forall₂ (fun q w => combine f q.1 q.2 = .ok w) pairs zs ∧ list zs = z := by
  rw [h.combine_eq, map_eq_ok]
  simp only [mapM_eq_ok]

theorem listAt_nil (h : Meets x y pairs) :
    x.ListAt [] n ∨ y.ListAt [] n ↔ pairs.length = n := by
  cases h with
  | left a ys => simp
  | right xs b => simp
  | both lengths => simp [lengths]

theorem listAt_cons (h : Meets x y pairs) : x.ListAt (i :: path) n ∨ y.ListAt (i :: path) n ↔
    ∃ q, pairs[i]? = some q ∧ (q.1.ListAt path n ∨ q.2.ListAt path n) := by
  cases h with
  | left a ys => simp
  | right xs b => simp
  | both lengths =>
    rcases getElem?_zip_cases lengths i with ⟨hx, hy, hq⟩ | ⟨x, y, hx, hy, hq⟩
    · simp [hx, hy, hq]
    · simp [hx, hy, hq]

theorem listAt_both_cons (h : Meets x y pairs) :
    x.ListAt (i :: path) m ∧ y.ListAt (i :: path) n ↔
      ∃ q, pairs[i]? = some q ∧ q.1.ListAt path m ∧ q.2.ListAt path n := by
  cases h with
  | left a ys => simp
  | right xs b => simp
  | both lengths =>
    rcases getElem?_zip_cases lengths i with ⟨hx, hy, hq⟩ | ⟨x, y, hx, hy, hq⟩
    · simp [hx, hy, hq]
    · simp [hx, hy, hq]

theorem aligned_cons (h : Meets x y pairs) : Aligned x y (i :: path) a b ↔
    ∃ q, pairs[i]? = some q ∧ Aligned q.1 q.2 path a b := by
  cases h with
  | left a' ys => simp [aligned_atom_left, Option.bind_eq_some_iff, and_left_comm]
  | right xs b' => simp [aligned_atom_right, Option.bind_eq_some_iff, and_left_comm]
  | both lengths =>
    rcases getElem?_zip_cases lengths i with ⟨hx, hy, hq⟩ | ⟨x, y, hx, hy, hq⟩
    · simp [Aligned, hx, hy, hq]
    · simp [Aligned, hx, hy, hq]

theorem not_aligned_nil (h : Meets x y pairs) : ¬ Aligned x y [] a b := by
  cases h <;> simp [Aligned]

/-- The clashes are those of the pairs that meet. -/
theorem clash_iff {fails : Atom → Atom → Fault → Prop} (h : Meets x y pairs) (path : List Nat)
    (fault : Fault) :
    OfItems pairs (fun q => Clash fails q.1 q.2) path fault ↔ Clash fails x y path fault := by
  cases path with
  | nil =>
    refine iff_of_false id ?_
    rintro (⟨left, right, differ⟩ | ⟨aligned, -⟩)
    · have hm := h.listAt_nil.1 (.inl left)
      have hn := h.listAt_nil.1 (.inr right)
      exact differ (hm.symm.trans hn)
    · exact h.not_aligned_nil aligned
  | cons i path =>
    constructor
    · rintro ⟨q, hq, ⟨left, right, differ⟩ | ⟨aligned, failure⟩⟩
      · obtain ⟨left, right⟩ := h.listAt_both_cons.2 ⟨q, hq, left, right⟩
        exact .lengths left right differ
      · exact .leaves (h.aligned_cons.2 ⟨q, hq, aligned⟩) failure
    · rintro (⟨left, right, differ⟩ | ⟨aligned, failure⟩)
      · obtain ⟨q, hq, left, right⟩ := h.listAt_both_cons.1 ⟨left, right⟩
        exact ⟨q, hq, .lengths left right differ⟩
      · obtain ⟨q, hq, aligned⟩ := h.aligned_cons.1 aligned
        exact ⟨q, hq, .leaves aligned failure⟩

end Meets

/-! ### Clashes -/

/-- What the combination of two atoms fails with. -/
abbrev FailsWith (f : Atom → Atom → Except Fault Atom) (a b : Atom) (fault : Fault) : Prop :=
  f a b = .error fault

theorem not_clash_atoms (hok : f a b = .ok c) (path : List Nat) (fault : Fault) :
    ¬ Clash (FailsWith f) (atom a) (atom b) path fault := by
  rintro (⟨left, -, -⟩ | ⟨aligned, failure⟩)
  · exact not_listAt_atom left
  · obtain ⟨rfl, hb⟩ := aligned_atom_left.1 aligned
    obtain ⟨-, hb⟩ := eq_nil_of_at?_atom hb
    cases hb
    cases hok.symm.trans failure

/-- A combination ends with its first clash, if there is one. -/
theorem reports_combine (f : Atom → Atom → Except Fault Atom) (x y : Noun) :
    Reports (Clash (FailsWith f) x y) (combine f x y) := by
  induction x, y using pair_induction with
  | atoms a b =>
    rw [combine_atoms]
    cases h : f a b with
    | ok c => exact .ok (not_clash_atoms h)
    | error fault => exact .error (.leaves (aligned_atom_left.2 ⟨rfl, at?_nil _⟩) h)
  | lengths xs ys differ =>
    rw [combine_lists_of_ne f differ]
    exact .error (.lengths (listAt_list_nil.2 rfl) (listAt_list_nil.2 rfl) differ)
  | meets hmeets ih =>
    rw [hmeets.combine_eq]
    exact ((Reports.mapM ih).congr hmeets.clash_iff).map list

/-- A path has one clash at most. -/
theorem Clash.unique {fault' : Fault} (h : Clash (FailsWith f) x y path fault)
    (h' : Clash (FailsWith f) x y path fault') : fault = fault' := by
  rcases h with ⟨left, right, -⟩ | ⟨aligned, failure⟩
  · rcases h' with ⟨left', right', -⟩ | ⟨aligned', -⟩
    · rw [left.unique left', right.unique right']
    · exact absurd aligned' (left.not_aligned right)
  · rcases h' with ⟨left', right', -⟩ | ⟨aligned', failure'⟩
    · exact absurd aligned (left'.not_aligned right')
    · obtain rfl := aligned.leafOn.1.unique aligned'.leafOn.1
      obtain rfl := aligned.leafOn.2.unique aligned'.leafOn.2
      exact Except.error.inj (failure.symm.trans failure')

theorem combine_eq_error_iff :
    combine f x y = .error fault ↔ ∃ path, FirstClash (FailsWith f) x y path fault :=
  (reports_combine f x y).eq_error_iff Clash.unique

theorem exists_combine_iff :
    (∃ z, combine f x y = .ok z) ↔ ∀ path fault, ¬ Clash (FailsWith f) x y path fault :=
  (reports_combine f x y).exists_ok_iff

/-! ### What a combination gives -/

/-- The lists of a combination are those of both nouns. -/
theorem listAt_combine (h : combine f x y = .ok z) (path : List Nat) (n : Nat) :
    z.ListAt path n ↔ x.ListAt path n ∨ y.ListAt path n := by
  induction x, y using pair_induction generalizing z path with
  | atoms a b =>
    rw [combine_atoms] at h
    obtain ⟨c, -, rfl⟩ := map_eq_ok.1 h
    simp
  | lengths xs ys differ =>
    rw [combine_lists_of_ne f differ] at h
    cases h
  | @meets x y pairs hmeets ih =>
    obtain ⟨zs, hzs, rfl⟩ := hmeets.combine_eq_ok.1 h
    cases path with
    | nil => rw [listAt_list_nil, hmeets.listAt_nil, hzs.length_eq]
    | cons i path =>
      rw [listAt_list_cons, hmeets.listAt_cons]
      exact exists_getElem?_iff hzs (fun q hq w hw => ih q hq hw path) i

/-- The leaves of a combination are the results on the leaves aligned at their paths. -/
theorem at?_combine (h : combine f x y = .ok z) (path : List Nat) (c : Atom) :
    z.at? path = some (atom c) ↔ ∃ a b, Aligned x y path a b ∧ f a b = .ok c := by
  induction x, y using pair_induction generalizing z path with
  | atoms a b =>
    rw [combine_atoms] at h
    obtain ⟨c', hc, rfl⟩ := map_eq_ok.1 h
    cases path with
    | nil => simp [aligned_atom_left, hc]
    | cons i path => simp [aligned_atom_left]
  | lengths xs ys differ =>
    rw [combine_lists_of_ne f differ] at h
    cases h
  | @meets x y pairs hmeets ih =>
    obtain ⟨zs, hzs, rfl⟩ := hmeets.combine_eq_ok.1 h
    cases path with
    | nil => simp [hmeets.not_aligned_nil]
    | cons i path =>
      rw [at?_list_cons, Option.bind_eq_some_iff,
        exists_getElem?_iff hzs (fun q hq w hw => ih q hq hw path) i]
      simp only [hmeets.aligned_cons]
      constructor
      · rintro ⟨q, hq, a, b, haligned, hc⟩
        exact ⟨a, b, ⟨q, hq, haligned⟩, hc⟩
      · rintro ⟨a, b, ⟨q, hq, haligned⟩, hc⟩
        exact ⟨q, hq, a, b, haligned, hc⟩

end Noun

/-! ### Exchanged nouns -/

/-- The fault with the two lengths exchanged, if it is about lengths. -/
def Fault.swapLengths : Fault → Fault
  | lengthMismatch left right => lengthMismatch right left
  | fault => fault

theorem Fault.swapLengths_eq {fault : Fault} (h : fault.kind ≠ .shape) :
    fault.swapLengths = fault := by
  cases fault with
  | lengthMismatch left right => exact absurd rfl h
  | _ => rfl

theorem Floating.add_comm {format : Format} (u v : Floating format) : u.add v = v.add u := by
  cases u <;> cases v <;> grind [add]

theorem Floating.mul_comm {format : Format} (u v : Floating format) : u.mul v = v.mul u := by
  cases u <;> cases v <;> grind [mul, isNegative]

namespace Dyad

variable {d : Dyad} {a b : Atom} {fault : Fault}

theorem onReals_comm (d : Dyad) (u v : Binary64) : d.onReals u v = d.onReals v u := by
  cases d with
  | add => exact u.add_comm v
  | mul => exact u.mul_comm v

theorem onAtoms_int_real (d : Dyad) (m : Int) (v : Binary64) :
    d.onAtoms (.int m) (.real v) = d.onAtoms (.real v) (.int m) := by
  unfold onAtoms
  dsimp only
  cases (Atom.int m).toReal with
  | error fault => rfl
  | ok u => exact congrArg (fun w => Except.ok (Atom.real w)) (onReals_comm d u v)

theorem onAtoms_comm (d : Dyad) (a b : Atom) : d.onAtoms a b = d.onAtoms b a := by
  cases a with
  | int m =>
    cases b with
    | int n => rw [onAtoms, onAtoms, onInts_comm]
    | real v => exact onAtoms_int_real d m v
  | real u =>
    cases b with
    | int n => exact (onAtoms_int_real d n u).symm
    | real v => exact congrArg (fun w => Except.ok (Atom.real w)) (onReals_comm d u v)

end Dyad

namespace Noun

variable {f : Atom → Atom → Except Fault Atom} {x y : Noun} {pairs : List (Noun × Noun)}

theorem Meets.swap (h : Meets x y pairs) : Meets y x (pairs.map Prod.swap) := by
  cases h with
  | left a ys =>
    rw [List.map_map]
    exact .right ys a
  | right xs b =>
    rw [List.map_map]
    exact .left b xs
  | both lengths => simpa [List.zip_swap] using Meets.both lengths.symm

/-- Where atoms may be exchanged, nouns may, and only the order of two lengths shows it. -/
theorem combine_swap (hf : ∀ a b, f b a = (f a b).mapError Fault.swapLengths) (x y : Noun) :
    combine f y x = (combine f x y).mapError Fault.swapLengths := by
  induction x, y using pair_induction with
  | atoms a b =>
    rw [combine_atoms, combine_atoms, mapError_map, hf]
  | lengths xs ys differ =>
    rw [combine_lists_of_ne f differ, combine_lists_of_ne f differ.symm]
    rfl
  | @meets x y pairs hmeets ih =>
    rw [hmeets.combine_eq, hmeets.swap.combine_eq, mapError_map, mapError_mapM, List.mapM_map]
    congr 1
    exact mapM_congr fun q hq => ih q hq

end Noun

/-! ### Sums and products -/

/-- Two integers whose result is out of range, with the fault that tells it. -/
inductive Dyad.Overflows (d : Dyad) : Atom → Atom → Fault → Prop
  | intro {m n : Int} (out : ¬ InRange (d.onInts m n)) :
    Overflows d (.int m) (.int n) (.integerOverflow d.name (d.onInts m n))

theorem Atom.Canonical.exists_toReal {a : Atom} (ha : a.Canonical) : ∃ u, a.toReal = .ok u := by
  cases h : a.toReal with
  | ok u => exact ⟨u, rfl⟩
  | error fault =>
    obtain rfl := Atom.toReal_eq_error h
    exact absurd ⟨_, h, by decide⟩ ha.not_escapes_toReal

namespace Dyad

variable {d : Dyad} {a b : Atom} {fault : Fault}

/-- Integers in range are never too large for a real, so a result out of range is all that two
atoms can fail with. -/
theorem onAtoms_eq_error_iff (ha : a.Canonical) (hb : b.Canonical) :
    d.onAtoms a b = .error fault ↔ d.Overflows a b fault := by
  obtain ⟨u, hu⟩ := ha.exists_toReal
  obtain ⟨v, hv⟩ := hb.exists_toReal
  constructor
  · intro h
    unfold onAtoms at h
    split at h
    next m n =>
      rw [map_eq_error] at h
      rw [checkRange_eq_error h]
      refine .intro fun hin => ?_
      rw [checkRange, if_pos hin] at h
      cases h
    next =>
      rw [hu, hv] at h
      cases h
  · rintro ⟨hout⟩
    rw [onAtoms, checkRange, if_neg hout]
    rfl

end Dyad

namespace Noun

variable {d : Dyad} {x y : Noun} {path : List Nat} {fault : Fault}

theorem mem_leaves_of_at? {a : Atom} (h : x.at? path = some (atom a)) : a ∈ x.leaves := by
  induction path generalizing x with
  | nil =>
    obtain rfl : x = atom a := by simpa using h
    simp
  | cons i path ih =>
    cases x with
    | atom b => simp at h
    | list xs =>
      obtain ⟨y, hy, hleaf⟩ := Option.bind_eq_some_iff.1 h
      exact leaves_subset_of_mem (List.mem_of_getElem? hy) (ih hleaf)

theorem Aligned.mem_leaves {a b : Atom} (h : Aligned x y path a b) :
    a ∈ x.leaves ∧ b ∈ y.leaves := by
  obtain ⟨⟨start, -, hx⟩, ⟨start', -, hy⟩⟩ := h.leafOn
  exact ⟨mem_leaves_of_at? hx, mem_leaves_of_at? hy⟩

theorem clash_onAtoms_iff (hx : x.Canonical) (hy : y.Canonical) :
    Clash (FailsWith d.onAtoms) x y path fault ↔ Clash d.Overflows x y path fault := by
  rw [canonical_iff_all] at hx hy
  constructor
  · rintro (⟨left, right, differ⟩ | ⟨aligned, failure⟩)
    · exact .lengths left right differ
    · obtain ⟨ha, hb⟩ := aligned.mem_leaves
      exact .leaves aligned ((Dyad.onAtoms_eq_error_iff (hx _ ha) (hy _ hb)).1 failure)
  · rintro (⟨left, right, differ⟩ | ⟨aligned, failure⟩)
    · exact .lengths left right differ
    · obtain ⟨ha, hb⟩ := aligned.mem_leaves
      exact .leaves aligned ((Dyad.onAtoms_eq_error_iff (hx _ ha) (hy _ hb)).2 failure)

theorem not_clash_iff : (∀ path fault, ¬ Clash d.Overflows x y path fault) ↔
    (∀ path m n, x.ListAt path m → y.ListAt path n → m = n) ∧
      ∀ path m n, Aligned x y path (.int m) (.int n) → InRange (d.onInts m n) := by
  constructor
  · intro h
    refine ⟨fun path m n left right => ?_, fun path m n aligned => ?_⟩
    · by_contra differ
      exact h path _ (.lengths left right differ)
    · by_contra out
      exact h path _ (.leaves aligned (.intro out))
  · rintro ⟨hlengths, hranges⟩ path fault (⟨left, right, differ⟩ | ⟨aligned, ⟨out⟩⟩)
    · exact differ (hlengths path _ _ left right)
    · exact out (hranges path _ _ aligned)

/-- Sums and products of nouns unify their shapes. They are there exactly when lists at one path
are equally long and the results of aligned integers are in range, and then they have the lists of
both nouns with the results on the aligned leaves. They fail with the fault of the first clash. In
the other order they are the same, and so are the faults, but for the order of the lengths. -/
theorem combination_unifies_shapes (d : Dyad) (hx : x.Canonical) (hy : y.Canonical) :
    ((∃ z, combine d.onAtoms x y = .ok z) ↔
        (∀ path m n, x.ListAt path m → y.ListAt path n → m = n) ∧
          ∀ path m n, Aligned x y path (.int m) (.int n) → InRange (d.onInts m n)) ∧
      (∀ z, combine d.onAtoms x y = .ok z →
        (∀ path n, z.ListAt path n ↔ x.ListAt path n ∨ y.ListAt path n) ∧
          ∀ path c, z.at? path = some (atom c) ↔
            ∃ a b, Aligned x y path a b ∧ d.onAtoms a b = .ok c) ∧
      (∀ fault, combine d.onAtoms x y = .error fault ↔
        ∃ path, FirstClash d.Overflows x y path fault) ∧
      combine d.onAtoms y x = (combine d.onAtoms x y).mapError Fault.swapLengths := by
  have hclash : ∀ path fault,
      Clash (FailsWith d.onAtoms) x y path fault ↔ Clash d.Overflows x y path fault :=
    fun _ _ => clash_onAtoms_iff hx hy
  refine ⟨?_, fun z hz => ⟨listAt_combine hz, at?_combine hz⟩, fun fault => ?_, ?_⟩
  · rw [exists_combine_iff, ← not_clash_iff]
    exact forall_congr' fun path => forall_congr' fun fault => not_congr (hclash path fault)
  · rw [combine_eq_error_iff]
    simp only [FirstClash, hclash]
  · refine combine_swap (fun a b => ?_) x y
    rw [d.onAtoms_comm b a]
    cases h : d.onAtoms a b with
    | ok c => rfl
    | error fault =>
      exact congrArg Except.error (Fault.swapLengths_eq (Dyad.kind_ne_shape_of_onAtoms h)).symm

theorem combination_unifies_shapes_lengths_before_overflow :
    let x : Noun :=
      list [atom (.int 3), list [atom (.int 1)], atom (.int 9223372036854775807)]
    let y : Noun :=
      list [list [atom (.int 4), list []], list [atom (.int 5), atom (.int 6)], atom (.int 1)]
    (x.Canonical ∧ y.Canonical ∧
        combine Dyad.add.onAtoms x y = .error (.lengthMismatch 1 2)) ∧
      (∃ path, FirstClash Dyad.add.Overflows x y path (.lengthMismatch 1 2)) ∧
        combine Dyad.add.onAtoms y x = .error (.lengthMismatch 2 1) := by
  intro x y
  have hx : x.Canonical := (toNoun_toDatum_iff nounRoot).1 (by decide +kernel)
  have hy : y.Canonical := (toNoun_toDatum_iff nounRoot).1 (by decide +kernel)
  have hxy : combine Dyad.add.onAtoms x y = .error (.lengthMismatch 1 2) := by
    decide +kernel
  obtain ⟨-, -, hfirst, hswap⟩ := combination_unifies_shapes .add hx hy
  rw [hxy] at hswap
  exact ⟨⟨hx, hy, hxy⟩, (hfirst _).1 hxy, hswap⟩

end Noun
end ArrayPhrase
