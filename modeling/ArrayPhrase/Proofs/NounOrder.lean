import Mathlib.Algebra.Order.Ring.Rat
import Mathlib.Data.List.Forall2
import Mathlib.Data.Prod.Lex
import Mathlib.Order.Compare
import Mathlib.Order.WithBot
import ArrayPhrase.Noun.Grade
import ArrayPhrase.Proofs.NounTree

/-! The order of nouns, said without computing it: when two nouns are equivalent and when one
precedes the other. Comparison decides exactly that. It is also the lexicographic comparison of the
words of two nouns, their atoms in writing order between marks for the lists, so it is transitive
and total as the order of the letters is. -/

namespace ArrayPhrase

/-! ### Values -/

namespace Extended

/-- The number of a finite value. Every other sort has one value only. -/
def number : Extended → ℚ
  | finite value => value
  | _ => 0

theorem sort_number_injective :
    Function.Injective fun u : Extended => toLex (u.sort, u.number) := by
  intro u v h
  cases u <;> cases v <;> simp_all [sort, number]

/-- Values are ordered by their sorts, and finite ones among themselves by their numbers. -/
instance : LinearOrder Extended :=
  LinearOrder.lift' (fun u => toLex (u.sort, u.number)) sort_number_injective

theorem lt_iff {u v : Extended} :
    u < v ↔ u.sort < v.sort ∨ u.sort = v.sort ∧ u.number < v.number :=
  Prod.Lex.toLex_lt_toLex

theorem finite_lt_finite {u v : ℚ} : finite u < finite v ↔ u < v := by
  simp [lt_iff, sort, number]

theorem finite_le_finite {u v : ℚ} : finite u ≤ finite v ↔ u ≤ v := by
  rw [← not_lt, finite_lt_finite, not_lt]

theorem compare_eq_lt_iff {u v : Extended} : u.compare v = .lt ↔ u < v := by
  rw [lt_iff, Extended.compare.eq_def]
  split
  next u v =>
    simp only [sort, number]
    split_ifs <;> simp_all
  next h =>
    rw [Nat.compare_eq_lt]
    cases u <;> cases v <;> simp_all [sort, number]

theorem compare_swap (u v : Extended) : v.compare u = (u.compare v).swap := by
  cases u with
  | finite u =>
    cases v with
    | finite v =>
      rcases lt_trichotomy u v with h | rfl | h <;> simp [Extended.compare, *, not_lt_of_gt]
    | _ => rfl
  | _ => cases v <;> rfl

theorem compare_self (u : Extended) : u.compare u = .eq := by
  cases u <;> simp [Extended.compare]

theorem compare_eq_compare (u v : Extended) : u.compare v = Ord.compare u v := by
  rcases lt_trichotomy u v with h | rfl | h
  · rw [compare_eq_lt_iff.2 h, compare_lt_iff_lt.2 h]
  · rw [compare_self, compare_eq_iff_eq.2 rfl]
  · rw [compare_swap, compare_eq_lt_iff.2 h, compare_gt_iff_gt.2 h, Ordering.swap_lt]

end Extended

namespace Noun

/-! ### Comparison as the order of words -/

/-- What the words of nouns are made of: values, with the beginnings of lists above all of them
and the ends of lists below. -/
abbrev Letter : Type :=
  WithBot (WithTop Extended)

mutual

def word : Noun → List Letter
  | atom a => [((a.extended : WithTop Extended) : Letter)]
  | list xs => ((⊤ : WithTop Extended) : Letter) :: wordOf xs

def wordOf : List Noun → List Letter
  | [] => [⊥]
  | x :: xs => word x ++ wordOf xs

end

theorem compare_letters (u v : Extended) :
    Ord.compare ((u : WithTop Extended) : Letter) ((v : WithTop Extended) : Letter) =
      u.compare v := by
  have hmono : StrictMono fun u : Extended => ((u : WithTop Extended) : Letter) :=
    WithBot.coe_strictMono.comp WithTop.coe_strictMono
  rw [Extended.compare_eq_compare, ← cmp_eq_compare, ← cmp_eq_compare]
  exact hmono.cmp_map_eq u v

/-- Every word but that of the end of a list begins above the mark for that end. -/
theorem exists_word_eq_cons (x : Noun) : ∃ letter rest, x.word = letter :: rest ∧ ⊥ < letter := by
  cases x with
  | atom a => exact ⟨_, _, by rw [word], WithBot.bot_lt_coe _⟩
  | list xs => exact ⟨_, _, by rw [word], WithBot.bot_lt_coe _⟩

mutual

/-- No word is the beginning of another one, so words that differ decide, whatever follows. -/
theorem compareLex_word : ∀ (x y : Noun) (r s : List Letter),
    List.compareLex Ord.compare (x.word ++ r) (y.word ++ s) =
      (compare x y).then (List.compareLex Ord.compare r s)
  | atom a, atom b, r, s => by
    rw [word, word, List.singleton_append, List.singleton_append, List.compareLex_cons_cons,
      compare_letters, compare]
  | atom a, list ys, r, s => by
    have hlt : ((a.extended : WithTop Extended) : Letter) < ((⊤ : WithTop Extended) : Letter) :=
      WithBot.coe_lt_coe.2 (WithTop.coe_lt_top _)
    rw [word, word, List.singleton_append, List.cons_append, List.compareLex_cons_cons,
      compare_lt_iff_lt.2 hlt, compare]
    rfl
  | list xs, atom b, r, s => by
    have hlt : ((b.extended : WithTop Extended) : Letter) < ((⊤ : WithTop Extended) : Letter) :=
      WithBot.coe_lt_coe.2 (WithTop.coe_lt_top _)
    rw [word, word, List.singleton_append, List.cons_append, List.compareLex_cons_cons,
      compare_gt_iff_gt.2 hlt, compare]
    rfl
  | list xs, list ys, r, s => by
    rw [word, word, List.cons_append, List.cons_append, List.compareLex_cons_cons,
      compare_eq_iff_eq.2 rfl, compare]
    exact compareLex_wordOf xs ys r s

theorem compareLex_wordOf : ∀ (xs ys : List Noun) (r s : List Letter),
    List.compareLex Ord.compare (wordOf xs ++ r) (wordOf ys ++ s) =
      (compareLists xs ys).then (List.compareLex Ord.compare r s)
  | [], [], r, s => by
    rw [wordOf, List.singleton_append, List.singleton_append, List.compareLex_cons_cons,
      compare_eq_iff_eq.2 rfl, compareLists]
  | [], y :: ys, r, s => by
    obtain ⟨letter, rest, hword, hlt⟩ := exists_word_eq_cons y
    rw [wordOf, wordOf, hword, List.singleton_append, List.cons_append, List.cons_append,
      List.compareLex_cons_cons, compare_lt_iff_lt.2 hlt, compareLists]
    rfl
  | x :: xs, [], r, s => by
    obtain ⟨letter, rest, hword, hlt⟩ := exists_word_eq_cons x
    rw [wordOf, wordOf, hword, List.singleton_append, List.cons_append, List.cons_append,
      List.compareLex_cons_cons, compare_gt_iff_gt.2 hlt, compareLists]
    rfl
  | x :: xs, y :: ys, r, s => by
    rw [wordOf, wordOf, List.append_assoc, List.append_assoc, compareLex_word x y,
      compareLex_wordOf xs ys, compareLists, Ordering.then_assoc]

end

theorem compare_eq_compareLex (x y : Noun) :
    compare x y = List.compareLex Ord.compare x.word y.word := by
  have h := compareLex_word x y [] []
  rw [List.append_nil, List.append_nil] at h
  rw [h]
  cases compare x y <;> rfl

/-- Comparison is oriented and transitive. -/
instance : Std.TransCmp compare where
  eq_swap {x y} := by
    rw [compare_eq_compareLex, compare_eq_compareLex]
    exact Std.OrientedCmp.eq_swap
  isLE_trans {x y z} hxy hyz := by
    rw [compare_eq_compareLex] at *
    exact Std.TransCmp.isLE_trans hxy hyz

/-! ### Equivalence and precedence -/

/-- Nouns of the same build whose atoms have the same values. -/
inductive Equivalent : Noun → Noun → Prop where
  | atoms {a b : Atom} (values : a.extended = b.extended) : Equivalent (atom a) (atom b)
  | lists {xs ys : List Noun} (items : List.Forall₂ Equivalent xs ys) :
    Equivalent (list xs) (list ys)

/-- Atoms precede one another by their values, and all lists. Of two lists the one precedes whose
item does at the first place where they are not equivalent, or that ends before there is one. -/
inductive Precedes : Noun → Noun → Prop where
  | atoms {a b : Atom} (values : a.extended < b.extended) : Precedes (atom a) (atom b)
  | atomList {a : Atom} {ys : List Noun} : Precedes (atom a) (list ys)
  | shorter {xs ys rest : List Noun} {y : Noun} (items : List.Forall₂ Equivalent xs ys) :
    Precedes (list xs) (list (ys ++ y :: rest))
  | item {xs ys rest rest' : List Noun} {x y : Noun} (items : List.Forall₂ Equivalent xs ys)
    (first : Precedes x y) : Precedes (list (xs ++ x :: rest)) (list (ys ++ y :: rest'))

theorem compareLists_eq_eq_iff {xs ys : List Noun}
    (h : ∀ x ∈ xs, ∀ y, compare x y = .eq ↔ Equivalent x y) :
    compareLists xs ys = .eq ↔ List.Forall₂ Equivalent xs ys := by
  induction xs generalizing ys with
  | nil => cases ys <;> simp [compareLists]
  | cons x xs ih =>
    rw [List.forall_mem_cons] at h
    cases ys with
    | nil => simp [compareLists]
    | cons y ys => rw [compareLists, Ordering.then_eq_eq, h.1, ih h.2, List.forall₂_cons]

theorem compare_eq_eq_iff {x y : Noun} : compare x y = .eq ↔ Equivalent x y := by
  induction x generalizing y with
  | atom a =>
    cases y with
    | atom b =>
      rw [compare, Extended.compare_eq_compare, compare_eq_iff_eq]
      exact ⟨.atoms, fun | .atoms values => values⟩
    | list ys =>
      rw [compare]
      exact ⟨nofun, nofun⟩
  | list xs ih =>
    cases y with
    | atom b =>
      rw [compare]
      exact ⟨nofun, nofun⟩
    | list ys =>
      rw [compare, compareLists_eq_eq_iff fun x hx _ => ih x hx]
      exact ⟨.lists, fun | .lists items => items⟩

/-- Equivalent items at the front of two lists do not matter to their comparison. -/
theorem compareLists_append {xs ys : List Noun} (h : List.Forall₂ Equivalent xs ys)
    (rest rest' : List Noun) :
    compareLists (xs ++ rest) (ys ++ rest') = compareLists rest rest' := by
  induction h with
  | nil => rfl
  | cons hxy _ ih =>
    rw [List.cons_append, List.cons_append, compareLists, compare_eq_eq_iff.2 hxy, ih]
    rfl

theorem Precedes.compare_eq_lt {x y : Noun} (h : Precedes x y) : compare x y = .lt := by
  induction h with
  | atoms values =>
    rw [compare]
    exact Extended.compare_eq_lt_iff.2 values
  | atomList => rw [compare]
  | shorter items =>
    have happend := compareLists_append items []
    rw [List.append_nil] at happend
    rw [compare, happend, compareLists]
  | item items _ ih =>
    rw [compare, compareLists_append items, compareLists, ih]
    rfl

theorem Precedes.cons {x y : Noun} {xs ys : List Noun} (hxy : Equivalent x y)
    (h : Precedes (list xs) (list ys)) : Precedes (list (x :: xs)) (list (y :: ys)) := by
  cases h with
  | shorter items => exact .shorter (.cons hxy items)
  | item items first => exact .item (.cons hxy items) first

theorem precedes_of_compareLists {xs ys : List Noun}
    (h : ∀ x ∈ xs, ∀ y, compare x y = .lt → Precedes x y) (hlt : compareLists xs ys = .lt) :
    Precedes (list xs) (list ys) := by
  induction xs generalizing ys with
  | nil =>
    cases ys with
    | nil => cases hlt
    | cons y ys => exact .shorter .nil
  | cons x xs ih =>
    rw [List.forall_mem_cons] at h
    cases ys with
    | nil => cases hlt
    | cons y ys =>
      rw [compareLists, Ordering.then_eq_lt] at hlt
      rcases hlt with hlt | ⟨heq, hlt⟩
      · exact .item .nil (h.1 y hlt)
      · exact (ih h.2 hlt).cons (compare_eq_eq_iff.1 heq)

theorem compare_eq_lt_iff {x y : Noun} : compare x y = .lt ↔ Precedes x y := by
  refine ⟨fun h => ?_, Precedes.compare_eq_lt⟩
  induction x generalizing y with
  | atom a =>
    cases y with
    | atom b =>
      rw [compare] at h
      exact .atoms (Extended.compare_eq_lt_iff.1 h)
    | list ys => exact .atomList
  | list xs ih =>
    cases y with
    | atom b =>
      rw [compare] at h
      cases h
    | list ys =>
      rw [compare] at h
      exact precedes_of_compareLists (fun x hx _ => ih x hx) h

/-! ### A total preorder -/

/-- A noun that precedes another or is equivalent to it. -/
def AtMost (x y : Noun) : Prop :=
  Precedes x y ∨ Equivalent x y

theorem isLE_compare_iff {x y : Noun} : (compare x y).isLE ↔ AtMost x y := by
  rw [Ordering.isLE_iff_eq_lt_or_eq_eq, compare_eq_lt_iff, compare_eq_eq_iff]
  rfl

theorem AtMost.refl (x : Noun) : AtMost x x :=
  isLE_compare_iff.1 Std.ReflCmp.isLE_rfl

theorem AtMost.trans {x y z : Noun} (hxy : AtMost x y) (hyz : AtMost y z) : AtMost x z := by
  rw [← isLE_compare_iff] at *
  exact Std.TransCmp.isLE_trans hxy hyz

theorem precedes_iff_not_atMost {x y : Noun} : Precedes x y ↔ ¬ AtMost y x := by
  rw [← isLE_compare_iff, ← compare_eq_lt_iff, Bool.not_eq_true, @Std.OrientedCmp.eq_swap _ compare]
  cases compare y x <;> decide

theorem equivalent_iff {x y : Noun} : Equivalent x y ↔ AtMost x y ∧ AtMost y x := by
  rw [← isLE_compare_iff, ← isLE_compare_iff, ← compare_eq_eq_iff,
    @Std.OrientedCmp.eq_swap _ compare _ y x]
  cases compare x y <;> decide

theorem AtMost.total (x y : Noun) : AtMost x y ∨ AtMost y x := by
  by_cases h : AtMost y x
  · exact .inr h
  · exact .inl (.inl (precedes_iff_not_atMost.2 h))

end Noun
end ArrayPhrase
