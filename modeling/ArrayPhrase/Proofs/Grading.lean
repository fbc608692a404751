import ArrayPhrase.Floating.Bits
import ArrayPhrase.Verb
import ArrayPhrase.Proofs.NounOrder
import ArrayPhrase.Proofs.Rounding
import ArrayPhrase.Proofs.StableOrder

/-! Grades as stable sorts. The integers and the reals that are graded among themselves come to
the order of nouns as well, the reals with subnormal numbers counted as zero. That alone can set
them apart from the general grade: where subnormal numbers and zeros do not stand in ascending
order. -/

namespace ArrayPhrase

open Outcome

/-! ### Subnormal numbers -/

namespace Floating

variable {f : Format} {q r : ℚ} {x y : Floating f}

/-- A number too small for all digits of its format, or zero. -/
def Tiny (x : Floating f) : Prop :=
  ∃ q, x.extended = .finite q ∧ f.Subnormal q

/-- What a value counts as where subnormal numbers count as zero. -/
def flushed (f : Format) : Extended → Extended
  | .finite q => .finite (if f.Subnormal q then 0 else q)
  | u => u

theorem subnormal_iff : f.Subnormal q ↔ |q| < (2 : ℚ) ^ f.minNormalExponent := by
  rw [Format.Subnormal, rat_abs_eq]

theorem extended_flush (x : Floating f) : x.flush.extended = flushed f x.extended := by
  cases x with
  | nan => rfl
  | infinity negative => cases negative <;> rfl
  | zero negative => simp only [flush, extended, flushed, ite_self]
  | finite q fits =>
    simp only [flush, extended, flushed]
    split_ifs <;> rfl

/-- What is not below a magnitude compares with all that is as it does with zero. -/
theorem le_iff_of_abs_lt {m : ℚ} (hq : |q| < m) (hr : m ≤ |r|) :
    (0 ≤ r ↔ q ≤ r) ∧ (r ≤ 0 ↔ r ≤ q) := by
  obtain ⟨hlow, hhigh⟩ := abs_lt.1 hq
  rcases le_abs.1 hr with h | h
  · exact ⟨iff_of_true (by linarith) (by linarith),
      iff_of_false (not_le.2 (by linarith)) (not_le.2 (by linarith))⟩
  · exact ⟨iff_of_false (not_le.2 (by linarith)) (not_le.2 (by linarith)),
      iff_of_true (by linarith) (by linarith)⟩

theorem flushed_finite_le_iff :
    flushed f (.finite q) ≤ flushed f (.finite r) ↔
      Extended.finite q ≤ .finite r ∨ f.Subnormal q ∧ f.Subnormal r := by
  simp only [flushed, Extended.finite_le_finite, subnormal_iff]
  split_ifs with hq hr hr
  · exact iff_of_true le_rfl (.inr ⟨hq, hr⟩)
  · rw [or_iff_left fun h => hr h.2]
    exact (le_iff_of_abs_lt hq (not_lt.1 hr)).1
  · rw [or_iff_left fun h => hq h.1]
    exact (le_iff_of_abs_lt hr (not_lt.1 hq)).2
  · rw [or_iff_left fun h => hq h.1]

theorem extended_flush_le_iff :
    x.flush.extended ≤ y.flush.extended ↔ x.extended ≤ y.extended ∨ x.Tiny ∧ y.Tiny := by
  rw [extended_flush, extended_flush]
  unfold Tiny
  cases hx : x.extended with
  | finite q =>
    cases hy : y.extended with
    | finite r => simpa using flushed_finite_le_iff
    | _ => simp [flushed, ← not_lt, Extended.lt_iff, Extended.sort]
  | _ =>
    cases hy : y.extended <;> simp [flushed, ← not_lt, Extended.lt_iff, Extended.sort]

end Floating

/-- Integers are ordered as their values are. -/
theorem Atom.compare_extended_int (m n : ℤ) :
    (int m).extended.compare (int n).extended = Ord.compare m n := by
  have hmono : StrictMono fun n : ℤ => (int n).extended := fun _ _ h =>
    Extended.finite_lt_finite.2 (Int.cast_lt.2 h)
  rw [Extended.compare_eq_compare, ← cmp_eq_compare, ← cmp_eq_compare]
  exact hmono.cmp_map_eq m n

/-! ### What is graded -/

namespace Noun

def flush : Noun → Noun
  | atom (.real x) => atom (.real x.flush)
  | x => x

/-- The items of a list as their grade compares them. In double precision reals among themselves
count as zero when they are subnormal. -/
def graded (p : Precision) (xs : List Noun) : List Noun :=
  if p = .double ∧ ∀ x ∈ xs, x.real?.isSome then xs.map flush else xs

theorem mapM_eq_some_iff {α β : Type} {f : α → Option β} {g : β → α}
    (h : ∀ x y, f x = some y ↔ x = g y) {xs : List α} {ys : List β} :
    xs.mapM f = some ys ↔ xs = ys.map g := by
  induction xs generalizing ys with
  | nil => cases ys <;> simp
  | cons x xs ih =>
    simp only [List.mapM_cons, Option.pure_def, Option.bind_eq_bind, Option.bind_eq_some_iff, h,
      ih, Option.some.injEq]
    constructor
    · rintro ⟨y, rfl, ys, rfl, rfl⟩
      rfl
    · intro heq
      cases ys with
      | nil => cases heq
      | cons y ys =>
        obtain ⟨hx, hxs⟩ := List.cons.inj heq
        exact ⟨y, hx, ys, hxs, rfl⟩

theorem int?_eq_some_iff {x : Noun} {n : Int} : x.int? = some n ↔ x = atom (.int n) := by
  unfold int?
  split <;> simp_all

theorem real?_eq_some_iff {x : Noun} {r : Binary64} : x.real? = some r ↔ x = atom (.real r) := by
  unfold real?
  split <;> simp_all

theorem exists_eq_map_real_iff {xs : List Noun} :
    (∃ rs : List Binary64, xs = rs.map fun r => atom (.real r)) ↔ ∀ x ∈ xs, x.real?.isSome := by
  constructor
  · rintro ⟨rs, rfl⟩
    simp [real?]
  · intro h
    induction xs with
    | nil => exact ⟨[], rfl⟩
    | cons x xs ih =>
      rw [List.forall_mem_cons] at h
      obtain ⟨r, hr⟩ := Option.isSome_iff_exists.1 h.1
      obtain ⟨rs, rfl⟩ := ih h.2
      exact ⟨r :: rs, by rw [List.map_cons, real?_eq_some_iff.1 hr]⟩

theorem graded_ints (p : Precision) (ns : List Int) :
    graded p (ns.map fun n => atom (.int n)) = ns.map fun n => atom (.int n) := by
  cases ns with
  | nil => simp [graded]
  | cons n ns => simp [graded, real?]

theorem graded_reals (rs : List Binary64) :
    graded .double (rs.map fun r => atom (.real r)) = rs.map fun r => atom (.real r.flush) := by
  simp [graded, real?, flush]

theorem gradeInts_eq (ns : List Int) :
    gradeInts ns = stableOrder compare (ns.map fun n => atom (.int n)) := by
  rw [gradeInts, stableOrder_map]
  congr 1
  funext m n
  rw [compare, Atom.compare_extended_int]

theorem gradeReals_eq (rs : List Binary64) :
    gradeReals rs = stableOrder compare (rs.map fun r => atom (.real r.flush)) := by
  rw [gradeReals, stableOrder_map]
  simp only [compare]
  rfl

/-- A grade is the stable order of what it compares. -/
theorem gradeUp_eq (p : Precision) (xs : List Noun) :
    gradeUp p xs = stableOrder compare (graded p xs) := by
  cases p with
  | single => simp [graded, gradeUp, gradeNouns]
  | double =>
    unfold gradeUp
    split
    next ns _ hns =>
      obtain rfl := (mapM_eq_some_iff fun _ _ => int?_eq_some_iff).1 hns
      rw [graded_ints, gradeInts_eq]
    next rs _ _ hrs =>
      obtain rfl := (mapM_eq_some_iff fun _ _ => real?_eq_some_iff).1 hrs
      rw [graded_reals, gradeReals_eq]
    next hints hreals =>
      have hnot : ¬ ∀ x ∈ xs, x.real?.isSome := by
        intro hall
        obtain ⟨rs, hrs⟩ := exists_eq_map_real_iff.2 hall
        have hrs := (mapM_eq_some_iff fun _ _ => real?_eq_some_iff).2 hrs
        cases hns : xs.mapM int? with
        | some ns => exact hints ns rfl hns
        | none => exact hreals rs rfl hns hrs
      rw [graded, if_neg fun h => hnot h.2]
      rfl

theorem length_graded (p : Precision) (xs : List Noun) : (graded p xs).length = xs.length := by
  unfold graded
  split_ifs
  · exact List.length_map _
  · rfl

/-- One position stands before another in a grade exactly when what is compared there precedes, or
is equivalent and stood before. -/
theorem before_gradeUp_iff (p : Precision) (xs : List Noun) (i j : Fin (graded p xs).length) :
    [i.val, j.val].Sublist (gradeUp p xs) ↔
      Precedes (graded p xs)[i] (graded p xs)[j] ∨
        Equivalent (graded p xs)[i] (graded p xs)[j] ∧ i < j := by
  rw [gradeUp_eq, before_stableOrder_iff i.isLt j.isLt, compare_eq_lt_iff, compare_eq_eq_iff]
  rfl

theorem map_select {xs : List Noun} {order : List Nat} (h : ∀ i ∈ order, i < xs.length) :
    (select xs order).map some = order.map (xs[·]?) := by
  unfold select
  dsimp only
  induction order with
  | nil => rfl
  | cons i order ih =>
    rw [List.forall_mem_cons] at h
    have hi : xs[i]? = some (xs.get ⟨i, h.1⟩) := List.getElem?_eq_getElem h.1
    rw [List.filterMap_cons, List.getElem?_toArray, hi, List.map_cons, List.map_cons, ih h.2, hi]

/-! ### Grades against each other -/

theorem compare_atoms_isLE_iff {a b : Atom} :
    (compare (atom a) (atom b)).isLE ↔ a.extended ≤ b.extended := by
  rw [compare, Extended.compare_eq_compare, Ordering.isLE_iff_eq_lt_or_eq_eq, compare_lt_iff_lt,
    compare_eq_iff_eq, le_iff_lt_or_eq]

theorem gradeUp_reals_eq_iff (rs : List Binary64) :
    gradeUp .double (rs.map fun r => atom (.real r)) =
        gradeNouns (rs.map fun r => atom (.real r)) ↔
      rs.Pairwise fun r s => r.Tiny → s.Tiny → r.extended ≤ s.extended := by
  have hcompare (r s : Binary64) :
      (compare (atom (.real r)) (atom (.real s))).isLE ↔ r.extended ≤ s.extended :=
    compare_atoms_isLE_iff
  rw [gradeUp_eq, graded_reals, gradeNouns, stableOrder_eq_iff (by simp),
    List.pairwise_iff_getElem]
  simp only [List.getElem_map, List.length_map, hcompare, Floating.extended_flush_le_iff]
  constructor
  · intro h i j _ hj hij hi htiny
    exact (h i j hij hj).1 (.inr ⟨hi, htiny⟩)
  · intro h i j hij hj
    exact ⟨fun hle => hle.elim id fun htiny => h i j (by omega) hj hij htiny.1 htiny.2, .inl⟩

end Noun

open Noun

/-- The grade of integers among themselves is their grade as nouns. That of reals is when subnormal
numbers and zeros stand in ascending order among them, and only then. -/
theorem grade_among_one_kind_eq_iff (ns : List Int) (rs : List Binary64) :
    gradeUp .double (ns.map fun n => atom (.int n)) = gradeNouns (ns.map fun n => atom (.int n)) ∧
      (gradeUp .double (rs.map fun r => atom (.real r)) =
          gradeNouns (rs.map fun r => atom (.real r)) ↔
        rs.Pairwise fun r s => r.Tiny → s.Tiny → r.extended ≤ s.extended) := by
  refine ⟨?_, gradeUp_reals_eq_iff rs⟩
  rw [gradeUp_eq, graded_ints, gradeNouns]

theorem subnormal_before_zero_keeps_its_place :
    gradeUp .double [atom (.real (.ofBits 1)), atom (.real (.zero false))] = [0, 1] ∧
      gradeNouns [atom (.real (.ofBits 1)), atom (.real (.zero false))] = [1, 0] := by
  constructor
  · rw [gradeUp_eq]
    exact (stableOrder_pair compare _ _).trans (if_pos (by decide +kernel))
  · rw [gradeNouns, stableOrder_pair, if_neg (by decide +kernel)]

/-- The order of nouns is a total preorder. A grade lists every position once, and sorts stably by
that order; the grade downwards is its reverse, and sorting puts the items into either. -/
theorem grading_sorts_stably :
    ((∀ x, AtMost x x) ∧ (∀ x y z, AtMost x y → AtMost y z → AtMost x z) ∧
      (∀ x y, AtMost x y ∨ AtMost y x) ∧ (∀ x y, Precedes x y ↔ ¬ AtMost y x) ∧
      ∀ x y, Equivalent x y ↔ AtMost x y ∧ AtMost y x) ∧
    ∀ (p : Precision) (x : Noun) (s : TokenStream),
      let order := gradeUp p x.items
      let compared := graded p x.items
      let answer := fun indices : List Nat =>
        if x.items.length ≤ sizeLimit then (.ok (Action.positions indices) : Except Fault Noun)
        else .error .sizeTooLarge
      order.Perm (List.range x.items.length) ∧ compared.length = x.items.length ∧
      (∀ i j : Fin compared.length, [i.val, j.val].Sublist order ↔
        Precedes compared[i] compared[j] ∨ Equivalent compared[i] compared[j] ∧ i < j) ∧
      (Verb.lookup "/:").run p x s = (answer order, s) ∧
      (Verb.lookup "\\:").run p x s = (answer order.reverse, s) ∧
      (∃ ys, ys.map some = order.map (x.items[·]?) ∧
        (Verb.lookup "~").run p x ⟨"/:" :: s.remaining⟩ = (.ok (list ys), s)) ∧
      ∃ ys, ys.map some = order.reverse.map (x.items[·]?) ∧
        (Verb.lookup "~").run p x ⟨"\\:" :: s.remaining⟩ = (.ok (list ys), s) := by
  refine ⟨⟨AtMost.refl, fun _ _ _ => AtMost.trans, AtMost.total, fun _ _ => precedes_iff_not_atMost,
    fun _ _ => equivalent_iff⟩, fun p x s => ?_⟩
  have hup : Verb.lookup "/:" = .gradeUp := by decide
  have hdown : Verb.lookup "\\:" = .gradeDown := by decide
  have htilde : Verb.lookup "~" = .tilde := by decide
  have hlt : ∀ i ∈ gradeUp p x.items, i < x.items.length := fun i => lt_of_mem_gradeUp
  rw [hup, hdown, htilde]
  refine ⟨gradeUp_perm p _, length_graded p _, before_gradeUp_iff p _, rfl, rfl,
    ⟨_, map_select hlt, rfl⟩, _, map_select fun i hi => hlt i (List.mem_reverse.1 hi), rfl⟩

theorem grading_sorts_stably_equal_numbers_before_nan :
    [1, 2].Sublist (gradeUp .double
        [atom (.real .nan), atom (.real (.ofRat 2)), atom (.int 2), list []]) ∧
      [2, 0].Sublist (gradeUp .double
        [atom (.real .nan), atom (.real (.ofRat 2)), atom (.int 2), list []]) := by
  have h := (grading_sorts_stably.2 .double
    (list [atom (.real .nan), atom (.real (.ofRat 2)), atom (.int 2), list []]) ⟨[]⟩).2.2.1
  refine ⟨(h ⟨1, by decide⟩ ⟨2, by decide⟩).2 (.inr ⟨?_, by decide⟩),
    (h ⟨2, by decide⟩ ⟨0, by decide⟩).2 (.inl ?_)⟩
  · exact Equivalent.atoms (a := .real (.ofRat 2)) (b := .int 2) (by decide +kernel)
  · exact Precedes.atoms (a := .int 2) (b := .real .nan) (by decide +kernel)

end ArrayPhrase
