import Mathlib.Data.List.Nodup
import ArrayPhrase.Operator

/-! Which operators make a table. They do when no two of them have one representation, and the table
then finds every operator by its own. Otherwise the fault is about the first operator whose
representation stands before it already, and names the operator that has it there. -/

namespace ArrayPhrase

variable {operators seen : List Operator} {i i' j j' : Nat} {first second first' second' : Operator}

/-! ### Repeated representations -/

/-- The operators at two places, the earlier one first, have one representation. -/
structure Repeats (operators : List Operator) (i j : Nat) (first second : Operator) : Prop where
  lt : i < j
  first_eq : operators[i]? = some first
  second_eq : operators[j]? = some second
  rep_eq : first.rep = second.rep

/-- The first repetition: no representation repeats at a place before `j`. -/
structure FirstRepeat (operators : List Operator) (i j : Nat) (first second : Operator) : Prop
    extends Repeats operators i j first second where
  least : ∀ i' j' first' second', Repeats operators i' j' first' second' → j ≤ j'

theorem nodup_iff_not_repeats : (operators.map Operator.rep).Nodup ↔
    ∀ i j first second, ¬ Repeats operators i j first second := by
  rw [List.nodup_iff_pairwise_ne, List.pairwise_map, List.pairwise_iff_getElem]
  constructor
  · rintro hne i j first second ⟨hlt, hfirst, hsecond, hrep⟩
    obtain ⟨hi, rfl⟩ := List.getElem?_eq_some_iff.1 hfirst
    obtain ⟨hj, rfl⟩ := List.getElem?_eq_some_iff.1 hsecond
    exact hne i j hi hj hlt hrep
  · intro hnone i j hi hj hlt hrep
    exact hnone i j _ _ ⟨hlt, List.getElem?_eq_getElem hi, List.getElem?_eq_getElem hj, hrep⟩

/-- The first repetition is one of two operators only. -/
theorem FirstRepeat.unique (h : FirstRepeat operators i j first second)
    (h' : FirstRepeat operators i' j' first' second') : first = first' ∧ second = second' := by
  obtain rfl : j = j' :=
    Nat.le_antisymm (h.least _ _ _ _ h'.toRepeats) (h'.least _ _ _ _ h.toRepeats)
  have hsecond : second = second' := Option.some.inj (h.second_eq.symm.trans h'.second_eq)
  have hrep : first.rep = first'.rep := h.rep_eq.trans (hsecond ▸ h'.rep_eq.symm)
  -- Two places of one representation before `j` would themselves be a repetition.
  rcases Nat.lt_trichotomy i i' with hlt | rfl | hlt
  · exact absurd (h.least _ _ _ _ ⟨hlt, h.first_eq, h'.first_eq, hrep⟩) (Nat.not_le.2 h'.lt)
  · exact ⟨Option.some.inj (h.first_eq.symm.trans h'.first_eq), hsecond⟩
  · exact absurd (h.least _ _ _ _ ⟨hlt, h'.first_eq, h.first_eq, hrep.symm⟩) (Nat.not_le.2 h.lt)

/-! ### The search -/

theorem exists_of_firstDuplicate (h : firstDuplicate seen operators = some (first, second)) :
    ∃ before after, operators = before ++ second :: after ∧ firstDuplicate seen before = none ∧
      first ∈ seen ++ before ∧ first.rep = second.rep := by
  induction operators generalizing seen with
  | nil => cases h
  | cons operator rest ih =>
    rw [firstDuplicate] at h
    split at h
    next earlier hearlier =>
      cases h
      have hmem := List.mem_of_find?_eq_some hearlier
      exact ⟨[], rest, rfl, rfl, by simpa using hmem, by simpa using List.find?_some hearlier⟩
    next hnew =>
      obtain ⟨before, after, rfl, hnone, hfirst, hrep⟩ := ih h
      refine ⟨operator :: before, after, rfl, ?_, by simpa using hfirst, hrep⟩
      rw [firstDuplicate, hnew]
      exact hnone

theorem not_repeats_of_firstDuplicate (h : firstDuplicate [] operators = none) :
    ∀ i j first second, ¬ Repeats operators i j first second :=
  nodup_iff_not_repeats.1 (@nodup_of_firstDuplicate_eq_none [] operators List.nodup_nil h)

theorem exists_firstRepeat (h : firstDuplicate [] operators = some (first, second)) :
    ∃ i j, FirstRepeat operators i j first second := by
  obtain ⟨before, after, rfl, hnone, hfirst, hrep⟩ := exists_of_firstDuplicate h
  rw [List.nil_append] at hfirst
  obtain ⟨i, hi, rfl⟩ := List.mem_iff_getElem.1 hfirst
  refine ⟨i, before.length, ⟨hi, ?_, by simp, hrep⟩, ?_⟩
  · rw [List.getElem?_append_left hi]
    exact List.getElem?_eq_getElem hi
  · rintro i' j' first' second' ⟨hlt, hfirst', hsecond', hrep'⟩
    by_contra hle
    rw [List.getElem?_append_left (by omega)] at hfirst' hsecond'
    exact not_repeats_of_firstDuplicate hnone _ _ _ _ ⟨hlt, hfirst', hsecond', hrep'⟩

/-! ### Tables -/

namespace Registry

variable {registry : Registry}

theorem find?_eq_some_iff {token : String} {operator : Operator} :
    registry.find? token = some operator ↔
      operator ∈ registry.operators ∧ operator.rep = token := by
  unfold find?
  constructor
  · intro hfind
    exact ⟨List.mem_of_find?_eq_some hfind, by simpa using List.find?_some hfind⟩
  · rintro ⟨hmem, rfl⟩
    cases hfind : registry.operators.find? fun other => other.rep = operator.rep with
    | none =>
      rw [List.find?_eq_none] at hfind
      exact absurd (decide_eq_true rfl) (hfind operator hmem)
    | some other =>
      have hrep : other.rep = operator.rep := by simpa using List.find?_some hfind
      have hother := List.mem_of_find?_eq_some hfind
      rw [List.inj_on_of_nodup_map registry.distinct hother hmem hrep]

theorem build_eq_error_iff {fault : Fault} : build operators = .error fault ↔
    ∃ i j first second, FirstRepeat operators i j first second ∧
      fault = .duplicateOperator second.rep first.name second.name := by
  unfold build
  split
  next earlier later hfound =>
    obtain ⟨i, j, h⟩ := exists_firstRepeat hfound
    constructor
    · rintro ⟨⟩
      exact ⟨i, j, earlier, later, h, rfl⟩
    · rintro ⟨i', j', first, second, h', rfl⟩
      obtain ⟨rfl, rfl⟩ := h.unique h'
      rfl
  next hnone =>
    simp only [reduceCtorEq, false_iff]
    rintro ⟨i, j, first, second, h, -⟩
    exact not_repeats_of_firstDuplicate hnone _ _ _ _ h.toRepeats

theorem build_eq_ok_iff : build operators = .ok registry ↔ registry.operators = operators := by
  unfold build
  split
  next earlier later hfound =>
    obtain ⟨i, j, h⟩ := exists_firstRepeat hfound
    simp only [reduceCtorEq, false_iff]
    rintro rfl
    exact nodup_iff_not_repeats.1 registry.distinct _ _ _ _ h.toRepeats
  next hnone =>
    obtain ⟨listed, distinct⟩ := registry
    simp [eq_comm]

/-- Operators make a table exactly when their representations are distinct. The table lists them as
they are given, and a token is found in it as the operator that it represents. Otherwise the fault
is that of the first place `j` with a representation that stands before at a place `i`, and it tells
the representation and the names of the operators at `i` and at `j`. -/
theorem build_accepts_distinct (operators : List Operator) :
    ((∃ registry, build operators = .ok registry) ↔ (operators.map Operator.rep).Nodup) ∧
      (∀ registry, build operators = .ok registry → registry.operators = operators ∧
        ∀ token operator, registry.find? token = some operator ↔
          operator ∈ operators ∧ operator.rep = token) ∧
      ∀ fault, build operators = .error fault ↔
        ∃ i j first second, FirstRepeat operators i j first second ∧
          fault = .duplicateOperator second.rep first.name second.name ∧
          fault.kind = .registry ∧
          fault.message = "Duplicate operator representation " ++ Text.quoted second.rep ++ ": " ++
            first.name ++ " and " ++ second.name := by
  refine ⟨⟨?_, ?_⟩, ?_, fun fault => ?_⟩
  · rintro ⟨registry, h⟩
    rw [← build_eq_ok_iff.1 h]
    exact registry.distinct
  · intro h
    exact ⟨⟨operators, h⟩, build_eq_ok_iff.2 rfl⟩
  · intro registry h
    obtain rfl := build_eq_ok_iff.1 h
    exact ⟨rfl, fun token operator => find?_eq_some_iff⟩
  · rw [build_eq_error_iff]
    constructor
    · rintro ⟨i, j, first, second, h, rfl⟩
      exact ⟨i, j, first, second, h, rfl, rfl, rfl⟩
    · rintro ⟨i, j, first, second, h, hfault, -⟩
      exact ⟨i, j, first, second, h, hfault⟩

/-- Of two representations that repeat, the one that repeats first is told. -/
example : build [⟨"+", "Sum", .literals, []⟩, ⟨"-", "Difference", .nothing, []⟩,
      ⟨"#", "Count", .nothing, []⟩, ⟨"-", "Opposite", .nothing, []⟩, ⟨"+", "Plus", .nothing, []⟩] =
    .error (.duplicateOperator "-" "Difference" "Opposite") := by
  rfl

end Registry
end ArrayPhrase
