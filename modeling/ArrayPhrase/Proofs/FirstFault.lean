import Mathlib.Data.List.Lex
import ArrayPhrase.Proofs.Outcome

/-! Computations over trees that may fail at many paths. One that reports its failures succeeds
only where there are none, and otherwise ends with the first of them, depth first and from left to
right. What is done item by item reports the failures of the items. -/

namespace ArrayPhrase.Outcome

variable {ε α β : Type} {R S : List Nat → ε → Prop} {x : Except ε α} {path : List Nat} {e : ε}

/-- The failure at the path is the first one, depth first and from left to right. -/
def IsFirst (R : List Nat → ε → Prop) (path : List Nat) (e : ε) : Prop :=
  R path e ∧ ∀ before < path, ∀ other, ¬ R before other

/-- The failures of the items, at their paths in the list. -/
def OfItems (xs : List α) (R : α → List Nat → ε → Prop) : List Nat → ε → Prop
  | [], _ => False
  | i :: path, e => ∃ x, xs[i]? = some x ∧ R x path e

/-- Success means that nothing fails, and the failure of the whole is the first one. -/
structure Reports (R : List Nat → ε → Prop) (x : Except ε α) : Prop where
  none_of_ok {a : α} (success : x = .ok a) (path : List Nat) (e : ε) : ¬ R path e
  first_of_error {e : ε} (failure : x = .error e) : ∃ path, IsFirst R path e

theorem isFirst_nil (h : R [] e) : IsFirst R [] e :=
  ⟨h, fun before hbefore => absurd hbefore (List.not_lt_nil before)⟩

namespace Reports

theorem ok {a : α} (h : ∀ path e, ¬ R path e) : Reports R (.ok a : Except ε α) where
  none_of_ok _ := h
  first_of_error failure := by cases failure

/-- A failure of the whole comes before all failures inside. -/
theorem error (h : R [] e) : Reports R (.error e : Except ε α) where
  none_of_ok success := by cases success
  first_of_error failure := by
    cases failure
    exact ⟨[], isFirst_nil h⟩

theorem congr (h : Reports R x) (hRS : ∀ path e, R path e ↔ S path e) : Reports S x := by
  have hEq : R = S := funext₂ fun path e => propext (hRS path e)
  exact hEq ▸ h

theorem map (h : Reports R x) (f : α → β) : Reports R (f <$> x) where
  none_of_ok success := by
    obtain ⟨a, ha, -⟩ := map_eq_ok.1 success
    exact h.none_of_ok ha
  first_of_error failure := h.first_of_error (map_eq_error.1 failure)

/-- A list of computations reports the failures of all of them. -/
theorem mapM {f : α → Except ε β} {xs : List α} {R : α → List Nat → ε → Prop}
    (h : ∀ x ∈ xs, Reports (R x) (f x)) : Reports (OfItems xs R) (xs.mapM f) where
  none_of_ok success path e := by
    cases path with
    | nil => exact id
    | cons i path =>
      rintro ⟨x, hx, hfails⟩
      have hmem := List.mem_of_getElem? hx
      obtain ⟨y, hy⟩ := exists_of_mapM_ok success hmem
      exact (h x hmem).none_of_ok hy path e hfails
  first_of_error failure := by
    obtain ⟨done, x, rest, rfl, hdone, hx⟩ := mapM_eq_error.1 failure
    obtain ⟨path, hfails, hfirst⟩ := (h x (by simp)).first_of_error hx
    refine ⟨done.length :: path, ⟨x, by simp, hfails⟩, ?_⟩
    intro before hbefore other
    cases before with
    | nil => exact id
    | cons i before =>
      rintro ⟨x', hx', hother⟩
      rcases List.cons_lt_cons_iff.1 hbefore with hi | ⟨rfl, hlt⟩
      · -- The items in front have all succeeded.
        have hmem := List.mem_of_getElem? hx'
        rw [List.getElem?_append_left hi] at hx'
        obtain ⟨y, hy⟩ := hdone x' (List.mem_of_getElem? hx')
        exact (h x' hmem).none_of_ok hy before other hother
      · obtain rfl : x = x' := by simpa using hx'
        exact hfirst before hlt other hother

theorem exists_ok_iff (h : Reports R x) : (∃ a, x = .ok a) ↔ ∀ path e, ¬ R path e := by
  constructor
  · rintro ⟨a, ha⟩
    exact h.none_of_ok ha
  · intro hnone
    cases hx : x with
    | ok a => exact ⟨a, rfl⟩
    | error e =>
      obtain ⟨path, hfails, -⟩ := h.first_of_error hx
      exact absurd hfails (hnone path e)

/-- Where a path has one failure at most, the first failure is what the whole ends with. -/
theorem eq_error_iff (h : Reports R x) (hunique : ∀ {path e e'}, R path e → R path e' → e = e') :
    x = .error e ↔ ∃ path, IsFirst R path e := by
  refine ⟨h.first_of_error, ?_⟩
  rintro ⟨path, hfails, hfirst⟩
  cases hx : x with
  | ok a => exact absurd hfails (h.none_of_ok hx path e)
  | error e' =>
    obtain ⟨path', hfails', hfirst'⟩ := h.first_of_error hx
    have hpath : path = path' := by
      rcases Std.lt_trichotomy path path' with hlt | heq | hlt
      · exact absurd hfails (hfirst' path hlt e)
      · exact heq
      · exact absurd hfails' (hfirst path' hlt e')
    subst hpath
    rw [hunique hfails hfails']

end Reports

/-- What is true of the results of computations at an index is true of what they were made from. -/
theorem exists_getElem?_iff {α β : Type} {R : α → β → Prop} {P : α → Prop} {Q : β → Prop}
    {us : List α} {ws : List β} (h : List.Forall₂ R us ws)
    (hPQ : ∀ u ∈ us, ∀ w, R u w → (Q w ↔ P u)) (i : Nat) :
    (∃ w, ws[i]? = some w ∧ Q w) ↔ ∃ u, us[i]? = some u ∧ P u := by
  induction h generalizing i with
  | nil => simp
  | cons hR _ ih =>
    rw [List.forall_mem_cons] at hPQ
    cases i with
    | zero => simpa using hPQ.1 _ hR
    | succ i => simpa using ih hPQ.2 i

end ArrayPhrase.Outcome
