import ArrayPhrase.Proofs.Merging
import ArrayPhrase.Proofs.Numerals
import ArrayPhrase.Proofs.TypedFaults

/-! Addends. Items are paired with addends in the order both are written, as far as both go, and
each addend is added to all atoms of its item, however deep they stand. The sums are there exactly
when each of these atoms can take its addend. Nothing is lost where the atoms are integers, so the
opposite addends give the items back. -/

namespace ArrayPhrase

open Outcome

/-! ### Pairs -/

section Pairs

variable {α β γ δ ε : Type} {xs : List α} {ns : List β}

theorem forall_mem_zip_iff {P : α → β → Prop} : (∀ q ∈ xs.zip ns, P q.1 q.2) ↔
    ∀ (i : Nat) x n, xs[i]? = some x → ns[i]? = some n → P x n := by
  constructor
  · intro h i x n hx hn
    exact h (x, n) (List.mem_of_getElem? (List.getElem?_zip_eq_some.2 ⟨hx, hn⟩))
  · intro h q hq
    obtain ⟨i, hi⟩ := List.mem_iff_getElem?.1 hq
    obtain ⟨hx, hn⟩ := List.getElem?_zip_eq_some.1 hi
    exact h i q.1 q.2 hx hn

theorem zip_take_length (xs : List α) (ns : List β) : (xs.take ns.length).zip ns = xs.zip ns := by
  induction xs generalizing ns with
  | nil => simp
  | cons x xs ih => cases ns <;> simp [ih]

theorem map_fst_zip_eq_take (xs : List α) (ns : List β) :
    (xs.zip ns).map Prod.fst = xs.take ns.length := by
  rw [← zip_take_length, List.map_fst_zip (List.length_take_le _ _)]

theorem map_zip_zip_map (g : α × β → γ) (h : β → δ) (xs : List α) (ns : List β) :
    ((xs.zip ns).map g).zip (ns.map h) = (xs.zip ns).map fun q => (g q, h q.2) := by
  induction xs generalizing ns with
  | nil => simp
  | cons x xs ih => cases ns <;> simp [ih]

theorem map_eq_ok_image_iff {r : Except ε α} {P : Prop} {a : α} {g : α → β} {b : β}
    (hr : ∀ a', r = .ok a' ↔ P ∧ a' = a) : g <$> r = .ok b ↔ P ∧ b = g a := by
  simp only [map_eq_ok, hr]
  constructor
  · rintro ⟨_, ⟨hP, rfl⟩, rfl⟩
    exact ⟨hP, rfl⟩
  · rintro ⟨hP, rfl⟩
    exact ⟨a, ⟨hP, rfl⟩, rfl⟩

/-- Computations that succeed on some arguments only, and give the images of those. -/
theorem mapM_eq_ok_map_iff {f : α → Except ε β} {P : α → Prop} {g : α → β} {ys : List β}
    (hf : ∀ x ∈ xs, ∀ y, f x = .ok y ↔ P x ∧ y = g x) :
    xs.mapM f = .ok ys ↔ (∀ x ∈ xs, P x) ∧ ys = xs.map g := by
  constructor
  · intro h
    refine ⟨fun x hx => ?_, eq_map_of_mapM (fun x hx y hy => ((hf x hx y).1 hy).2) h⟩
    obtain ⟨y, hy⟩ := exists_of_mapM_ok h hx
    exact ((hf x hx y).1 hy).1
  · rintro ⟨hall, rfl⟩
    rw [mapM_eq_ok, List.forall₂_map_right_iff, List.forall₂_same]
    exact fun x hx => (hf x hx (g x)).2 ⟨hall x hx, rfl⟩

end Pairs

/-! ### Atoms -/

namespace Atom

variable {a c : Atom} {n : Int}

/-- An atom with an integer added to it. A real takes the real nearest the integer. -/
def plus : Atom → Int → Atom
  | int m, n => int (m + n)
  | real r, n => real (r.add (.ofRat n))

theorem eq_plus_of_onAtoms (h : Dyad.add.onAtoms a (int n) = .ok c) : c = a.plus n := by
  cases a with
  | int m =>
    obtain ⟨k, hk, rfl⟩ := map_eq_ok.1 h
    obtain ⟨-, rfl⟩ := checkRange_eq_ok.1 hk
    rfl
  | real r =>
    rw [add_real_int] at h
    obtain ⟨y, hy, rfl⟩ := map_eq_ok.1 h
    rw [toReal] at hy
    split at hy
    · cases hy
    · rw [plus, Except.ok.inj hy]

theorem onAtoms_eq_ok_iff : Dyad.add.onAtoms a (int n) = .ok c ↔ a.HasSum n ∧ c = a.plus n := by
  constructor
  · exact fun h => ⟨hasSum_iff.2 ⟨c, h⟩, eq_plus_of_onAtoms h⟩
  · rintro ⟨hsum, rfl⟩
    obtain ⟨b, hb⟩ := hasSum_iff.1 hsum
    rw [hb, eq_plus_of_onAtoms hb]

/-- An integer in range takes the opposite addend, and is back where it was. -/
theorem plus_neg_of_isInt (ha : a.IsInt) (hrange : a.Canonical) :
    (a.plus n).HasSum (-n) ∧ (a.plus n).plus (-n) = a := by
  obtain ⟨m, rfl⟩ := ha
  simp only [plus, HasSum, Int.add_neg_cancel_right, and_true]
  exact hrange m rfl

end Atom

/-! ### Nouns -/

namespace Noun

variable {x y z : Noun} {xs : List Noun} {addends : List Int}

@[simp] theorem leaves_map (g : Atom → Atom) (x : Noun) : (x.map g).leaves = x.leaves.map g := by
  induction x with
  | atom a => simp
  | list xs ih =>
    simp only [map_list, leaves_list, List.flatMap_map, List.map_flatMap]
    exact List.flatMap_congr ih

theorem mapLeaves_eq_ok_map_iff {f : Atom → Except Fault Atom} {P : Atom → Prop} {g : Atom → Atom}
    (hf : ∀ a b, f a = .ok b ↔ P a ∧ b = g a) :
    x.mapLeaves f = .ok y ↔ x.All P ∧ y = x.map g := by
  induction x generalizing y with
  | atom a =>
    rw [mapLeaves_atom, all_atom, map_atom]
    exact map_eq_ok_image_iff (hf a)
  | list xs ih =>
    rw [mapLeaves_list, all_list, map_list]
    exact map_eq_ok_image_iff fun ys => mapM_eq_ok_map_iff fun x hx z => ih x hx

/-- Where there are addends, they are added exactly when all atoms of the items they are paired
with can take them. -/
theorem plus_eq_ok_iff (h : addends ≠ []) : x.plus addends = .ok y ↔
    (∀ q ∈ x.items.zip addends, q.1.All (·.HasSum q.2)) ∧
      y = list ((x.items.zip addends).map fun q => q.1.map (·.plus q.2)) := by
  have hplus : x.plus addends = list <$> (x.items.zip addends).mapM fun q =>
      combine Dyad.add.onAtoms q.1 (atom (.int q.2)) := by
    cases addends with
    | nil => exact absurd rfl h
    | cons n ns => rfl
  have hpair : ∀ q ∈ x.items.zip addends, ∀ z,
      combine Dyad.add.onAtoms q.1 (atom (.int q.2)) = .ok z ↔
        q.1.All (·.HasSum q.2) ∧ z = q.1.map (·.plus q.2) := by
    intro q _ z
    rw [combine_atom_right]
    exact mapLeaves_eq_ok_map_iff fun a b => Atom.onAtoms_eq_ok_iff
  rw [hplus]
  exact map_eq_ok_image_iff fun ys => mapM_eq_ok_map_iff hpair

/-- Items without an addend make no difference. -/
theorem plus_congr (h : addends ≠ [])
    (hitems : z.items.take addends.length = x.items.take addends.length) :
    z.plus addends = x.plus addends := by
  cases addends with
  | nil => exact absurd rfl h
  | cons n ns =>
    rw [plus, plus, ← zip_take_length, hitems, zip_take_length]

/-- Integers take the opposite addends, and are the items again. -/
theorem plus_neg (h : addends ≠ []) (hrange : x.Canonical)
    (hint : ∀ item ∈ x.items.take addends.length, item.Integral) (hy : x.plus addends = .ok y) :
    y.plus (addends.map fun n => -n) = .ok (list (x.items.take addends.length)) := by
  obtain ⟨-, rfl⟩ := (plus_eq_ok_iff h).1 hy
  have hback : ∀ q ∈ x.items.zip addends, ∀ a ∈ q.1.leaves,
      (a.plus q.2).HasSum (-q.2) ∧ (a.plus q.2).plus (-q.2) = a := by
    intro q hq a ha
    have hitem : q.1 ∈ x.items := (List.of_mem_zip hq).1
    have hpaired : q.1 ∈ x.items.take addends.length := by
      rw [← map_fst_zip_eq_take]
      exact List.mem_map_of_mem hq
    exact Atom.plus_neg_of_isInt (hint q.1 hpaired a ha)
      ((canonical_iff_all.1 hrange).items q.1 hitem a ha)
  rw [plus_eq_ok_iff (by simpa using h), items, map_zip_zip_map, List.map_map]
  constructor
  · intro q hq
    obtain ⟨r, hr, rfl⟩ := List.mem_map.1 hq
    simp only [All, leaves_map, List.mem_map, forall_exists_index, and_imp]
    rintro _ a ha rfl
    exact (hback r hr a ha).1
  · rw [← map_fst_zip_eq_take]
    congr 1
    refine List.map_congr_left fun q hq => ?_
    have hsame : q.1.map ((·.plus (-q.2)) ∘ (·.plus q.2)) = q.1.map id :=
      map_congr fun a ha => (hback q hq a ha).2
    rw [Function.comp, map_map, hsame, map_id]

end Noun

/-! ### Commands -/

variable {p : Precision} {given : Datum} {x : Noun} {addends : List Int} {texts : List String}

theorem evaluateTexts_plus (hwrites : List.Forall₂ Literal.Writes addends texts)
    (haccepted : given.toNoun nounRoot = .ok x) :
    evaluateTexts p ("+" :: texts) given = x.plus addends := by
  have hcomplete := Phrase.complete_of_integers (.inl rfl) hwrites
  rw [hcomplete.evaluateTexts_of_accepted p haccepted]
  exact Phrase.apply_of_integers .plus (.inl rfl) (fun _ => rfl) hwrites p x

/-- Integers written behind a plus are added, the first to all atoms of the first item and so on,
exactly when each of these atoms can take its addend. The items behind the last addend do not
matter and are left out. Where the items are made of integers, the opposite addends lead back. -/
theorem addends_pair_with_items (haccepted : given.toNoun nounRoot = .ok x) (hne : addends ≠ [])
    (hwrites : List.Forall₂ Literal.Writes addends texts) :
    ((∃ y, evaluateTexts p ("+" :: texts) given = .ok y) ↔
      ∀ (i : Nat) item n, x.items[i]? = some item → addends[i]? = some n →
        ∀ a ∈ item.leaves, a.HasSum n) ∧
    (∀ y, evaluateTexts p ("+" :: texts) given = .ok y → ∃ ys, y = .list ys ∧
      ys.length = min x.items.length addends.length ∧
      ∀ (i : Nat) item n, x.items[i]? = some item → addends[i]? = some n →
        ys[i]? = some (item.map (·.plus n))) ∧
    (∀ (other : Datum) (z : Noun), other.toNoun nounRoot = .ok z →
      z.items.take addends.length = x.items.take addends.length →
      evaluateTexts p ("+" :: texts) other = evaluateTexts p ("+" :: texts) given) ∧
    ∀ y, evaluateTexts p ("+" :: texts) given = .ok y →
      (∀ item ∈ x.items.take addends.length, item.Integral) →
      ∀ opposites, List.Forall₂ Literal.Writes (addends.map fun n => -n) opposites →
        evaluateTexts p ("+" :: opposites) y.toDatum =
          .ok (.list (x.items.take addends.length)) := by
  refine ⟨?_, fun y hy => ?_, fun other z hother hitems => ?_,
    fun y hy hint opposites hopposites => ?_⟩
  · rw [evaluateTexts_plus hwrites haccepted]
    simp only [Noun.plus_eq_ok_iff hne, exists_and_left, exists_eq, and_true]
    exact forall_mem_zip_iff (P := fun (item : Noun) n => item.All (·.HasSum n))
  · rw [evaluateTexts_plus hwrites haccepted] at hy
    obtain ⟨-, rfl⟩ := (Noun.plus_eq_ok_iff hne).1 hy
    refine ⟨_, rfl, by simp, fun i item n hitem hn => ?_⟩
    rw [List.getElem?_map, List.getElem?_zip_eq_some (z := (item, n)).2 ⟨hitem, hn⟩]
    rfl
  · rw [evaluateTexts_plus hwrites haccepted, evaluateTexts_plus hwrites hother,
      Noun.plus_congr hne hitems]
  · have hcanonical : y.toDatum.toNoun nounRoot = .ok y :=
      (Noun.toNoun_toDatum_iff nounRoot).2 (canonical_of_evaluateTexts hy)
    rw [evaluateTexts_plus hwrites haccepted] at hy
    rw [evaluateTexts_plus hopposites hcanonical]
    exact Noun.plus_neg hne (Datum.canonical_of_toNoun haccepted) hint hy

theorem addends_pair_with_items_nested_and_undone :
    let given : Datum := .list [.leaf (.int 9223372036854775800), .list [.leaf (.int 6), .list []],
      .leaf (.real .nan)]
    ∃ y, evaluateTexts .double ["+", "007", "_8"] given = .ok y ∧
      evaluateTexts .double ["+", "_7", "8"] y.toDatum =
        .ok (.list [.atom (.int 9223372036854775800), .list [.atom (.int 6), .list []]]) := by
  intro given
  let x : Noun := .list [.atom (.int 9223372036854775800), .list [.atom (.int 6), .list []],
    .atom (.real .nan)]
  have haccepted : given.toNoun nounRoot = .ok x := by
    decide +kernel
  have hwrites : List.Forall₂ Literal.Writes [7, -8] ["007", "_8"] := by
    decide +kernel
  have hopposites : List.Forall₂ Literal.Writes [-7, 8] ["_7", "8"] := by
    decide +kernel
  obtain ⟨hsucceeds, -, -, hundone⟩ :=
    addends_pair_with_items (p := .double) haccepted (by decide) hwrites
  have hsums : ∀ q ∈ x.items.zip [7, -8], ∀ a ∈ q.1.leaves, a.HasSum q.2 := by
    simp only [x, Noun.items, List.zip_cons_cons, List.zip_nil_right, List.forall_mem_cons]
    simpa using ⟨show InRange (9223372036854775800 + 7) by decide, show InRange (6 - 8) by decide⟩
  obtain ⟨y, hy⟩ := hsucceeds.2 (forall_mem_zip_iff.1 hsums)
  refine ⟨y, hy, hundone y hy ?_ _ hopposites⟩
  simp [x, Noun.items, Noun.Integral, Noun.all_list, Atom.IsInt]

end ArrayPhrase
