import ArrayPhrase.Datum
import ArrayPhrase.Proofs.Outcome
import ArrayPhrase.Proofs.Rounding

/-! Reading data from outside, by its cases. A single thing is converted or refused; lists and
tuples are read item by item, and the content of an array as what the array holds. -/

namespace ArrayPhrase

open Outcome

namespace Given

/-- The atom that a single thing becomes. -/
inductive Converts : Given → Atom → Prop where
  | int {n : Int} (inRange : InRange n) : Converts (.int n) (.int n)
  | bool (b : Bool) : Converts (.bool b) (.int (if b then 1 else 0))
  | real (x : Binary64) : Converts (.real x) (.real x)
  | ratio {q : Rat} (finite : |q| < ((2 ^ 1024 - 2 ^ 970 : Nat) : Rat)) :
    Converts (.ratio q) (.real (.ofRat q))

/-- The fault with which a single thing at a place is refused. -/
inductive Refused (place : Place) : Given → Fault → Prop where
  | other (typeName : String) : Refused place (.other typeName) (.unsupported place typeName)
  | int {n : Int} (out : ¬ InRange n) : Refused place (.int n) (.outsideRange place n)
  | ratio {q : Rat} (large : ((2 ^ 1024 - 2 ^ 970 : Nat) : Rat) ≤ |q|) :
    Refused place (.ratio q) .ratioTooLarge

variable {given : Given} {place : Place} {a b : Atom} {fault fault' : Fault}

theorem Converts.toAtom_eq (h : given.Converts a) (place : Place) :
    given.toAtom place = .ok a := by
  cases h with
  | int inRange => rw [toAtom, if_pos inRange]
  | bool b => rfl
  | real x => rfl
  | @ratio q finite =>
    rw [toAtom]
    split
    next negative hinf =>
      exact absurd (ofRat_eq_infinity_iff_binary64.1 ⟨negative, hinf⟩) (not_le.2 finite)
    next => rfl

theorem Refused.toAtom_eq (h : given.Refused place fault) : given.toAtom place = .error fault := by
  cases h with
  | other typeName => rfl
  | int out => rw [toAtom, if_neg out]
  | ratio large =>
    obtain ⟨negative, hinf⟩ := ofRat_eq_infinity_iff_binary64.2 large
    rw [toAtom, hinf]

theorem Converts.unique (h : given.Converts a) (h' : given.Converts b) : a = b := by
  cases h <;> cases h' <;> rfl

theorem Refused.unique (h : given.Refused place fault) (h' : given.Refused place fault') :
    fault = fault' :=
  Except.error.inj (h.toAtom_eq.symm.trans h'.toAtom_eq)

theorem Refused.not_converts (h : given.Refused place fault) : ¬ given.Converts a := by
  intro hconverts
  cases h.toAtom_eq.symm.trans (hconverts.toAtom_eq place)

theorem converts_or_refused (given : Given) (place : Place) :
    (∃ a, given.Converts a) ∨ ∃ fault, given.Refused place fault := by
  cases given with
  | int n =>
    by_cases h : InRange n
    · exact .inl ⟨_, .int h⟩
    · exact .inr ⟨_, .int h⟩
  | bool b => exact .inl ⟨_, .bool b⟩
  | real x => exact .inl ⟨_, .real x⟩
  | ratio q =>
    rcases lt_or_ge |q| ((2 ^ 1024 - 2 ^ 970 : Nat) : Rat) with h | h
    · exact .inl ⟨_, .ratio h⟩
    · exact .inr ⟨_, .ratio h⟩
  | other typeName => exact .inr ⟨_, .other typeName⟩

theorem toAtom_eq_ok : given.toAtom place = .ok a ↔ given.Converts a := by
  refine ⟨fun h => ?_, fun h => h.toAtom_eq place⟩
  obtain ⟨b, hb⟩ | ⟨fault, hrefused⟩ := given.converts_or_refused place
  · obtain rfl := Except.ok.inj (h.symm.trans (hb.toAtom_eq place))
    exact hb
  · cases h.symm.trans hrefused.toAtom_eq

theorem toAtom_eq_error : given.toAtom place = .error fault ↔ given.Refused place fault := by
  refine ⟨fun h => ?_, Refused.toAtom_eq⟩
  obtain ⟨a, ha⟩ | ⟨fault', hrefused⟩ := given.converts_or_refused place
  · cases h.symm.trans (ha.toAtom_eq place)
  · obtain rfl := Except.error.inj (h.symm.trans hrefused.toAtom_eq)
    exact hrefused

end Given

namespace Datum

/-- The datum is a list or a tuple of the items. -/
inductive Holds : Datum → List Datum → Prop where
  | list (xs : List Datum) : Holds (.list xs) xs
  | tuple (xs : List Datum) : Holds (.tuple xs) xs

variable {x : Datum} {xs : List Datum} {element : Given → Given} {place : Place} {z : Noun}

@[elab_as_elim, induction_eliminator]
theorem induction {motive : Datum → Prop} (leaf : ∀ given, motive (leaf given))
    (container : ∀ {x xs}, x.Holds xs → (∀ y ∈ xs, motive y) → motive x)
    (array : ∀ kind content, motive content → motive (array kind content)) : ∀ x, motive x
  | .leaf given => leaf given
  | .list xs => container (.list xs) fun x _ => induction leaf container array x
  | .tuple xs => container (.tuple xs) fun x _ => induction leaf container array x
  | .array kind content => array kind content (induction leaf container array content)

theorem Holds.unique {ys : List Datum} (h : x.Holds xs) (h' : x.Holds ys) : xs = ys := by
  cases h <;> cases h' <;> rfl

theorem toNounsAt_eq_mapM (element : Given → Given) (place : Place) (index : Nat) :
    toNounsAt element place index xs =
      (xs.zipIdx index).mapM fun entry => toNounAt element (place.item entry.2) entry.1 := by
  induction xs generalizing index with
  | nil => rw [toNounsAt]; rfl
  | cons x xs ih => rw [toNounsAt, ih, List.zipIdx_cons, List.mapM_cons]

theorem Holds.toNounAt_eq (h : x.Holds xs) (element : Given → Given) (place : Place) :
    x.toNounAt element place =
      .list <$> xs.zipIdx.mapM fun entry => toNounAt element (place.item entry.2) entry.1 := by
  cases h <;> rw [toNounAt, toNounsAt_eq_mapM]

/-- What is read, by the cases of a datum. -/
theorem toNounAt_induction {motive : (Given → Given) → Datum → Noun → Prop}
    (leaf : ∀ {element given a}, (element given).Converts a →
      motive element (.leaf given) (.atom a))
    (container : ∀ {element x xs zs}, Holds x xs → List.Forall₂ (motive element) xs zs →
      motive element x (.list zs))
    (array : ∀ {element kind content z}, motive (element ∘ kind.element) content z →
      motive element (.array kind content) z)
    (h : x.toNounAt element place = .ok z) : motive element x z := by
  induction x generalizing element place z with
  | leaf given =>
    rw [toNounAt] at h
    obtain ⟨a, ha, rfl⟩ := map_eq_ok.1 h
    exact leaf (Given.toAtom_eq_ok.1 ha)
  | @container x xs holds ih =>
    rw [holds.toNounAt_eq] at h
    obtain ⟨zs, hzs, rfl⟩ := map_eq_ok.1 h
    refine container holds ?_
    rw [← List.zipIdx_map_fst 0 xs, List.forall₂_map_left_iff]
    have hmem : ∀ entry ∈ xs.zipIdx, entry.1 ∈ xs := fun entry => List.fst_mem_of_mem_zipIdx
    refine ((List.forall₂_and_left _ _).2 ⟨hmem, mapM_eq_ok.1 hzs⟩).imp ?_
    rintro entry w ⟨hentry, hw⟩
    exact ih entry.1 hentry hw
  | array kind content ih =>
    rw [toNounAt] at h
    exact array (ih h)

end Datum
end ArrayPhrase
