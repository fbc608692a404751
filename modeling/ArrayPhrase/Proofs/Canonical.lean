import ArrayPhrase.Proofs.Leaves
import ArrayPhrase.Proofs.Reading
import ArrayPhrase.Proofs.Run

/-! Canonical nouns: all their integers are in the 64-bit range. They are the nouns that stand for
themselves as outside data, reading outside data gives no others, and every verb keeps them
canonical, whatever tokens it reads. Lists are as long as lists can be: a count of items or a
position that would not fit is refused. -/

namespace ArrayPhrase

open Outcome State

/-- All integers of the noun are in range. -/
def Noun.Canonical (x : Noun) : Prop :=
  ∀ n, Atom.int n ∈ x.leaves → InRange n

/-! ### Results of arithmetic -/

theorem Dyad.inRange_of_onAtoms {d : Dyad} {a b : Atom} {n : Int}
    (h : d.onAtoms a b = .ok (.int n)) : InRange n := by
  unfold onAtoms at h
  split at h
  next =>
    obtain ⟨m, hm, hmn⟩ := map_eq_ok.1 h
    obtain ⟨hrange, rfl⟩ := checkRange_eq_ok.1 hm
    exact Atom.int.inj hmn ▸ hrange
  next =>
    simp only [bind_eq_ok, pure, Except.pure, Except.ok.injEq] at h
    obtain ⟨_, -, _, -, h⟩ := h
    cases h

theorem Scalar.inRange_of_onReal {p : Precision} {s : Scalar} {r : Binary64} {n : Int}
    (h : s.onReal p r = .int n) : InRange n := by
  unfold onReal at h
  dsimp only at h
  split at h
  next m hm =>
    have := (Option.filter_eq_some_iff.1 hm).2
    exact Atom.int.inj h ▸ of_decide_eq_true this
  next => cases h

theorem Scalar.inRange_of_onAtom {p : Precision} {s : Scalar} {a : Atom} {n : Int}
    (h : s.onAtom p a = .ok (.int n)) : InRange n := by
  cases a with
  | int m =>
    rw [onAtom] at h
    split at h
    · obtain ⟨k, hk, hkn⟩ := map_eq_ok.1 h
      obtain ⟨hrange, rfl⟩ := checkRange_eq_ok.1 hk
      exact Atom.int.inj hkn ▸ hrange
    · obtain ⟨r, -, hr⟩ := map_eq_ok.1 h
      exact inRange_of_onReal hr
  | real r =>
    rw [onAtom] at h
    exact inRange_of_onReal (Except.ok.inj h)

/-! ### Verbs -/

namespace Atom

/-- The atom is no integer out of range. -/
def Canonical (a : Atom) : Prop :=
  ∀ n, a = int n → InRange n

theorem lasting_canonical : Lasting Canonical where
  int inRange _ h := Atom.int.inj h ▸ inRange
  plus _ sum _ h := Dyad.inRange_of_onAtoms (h ▸ sum)
  dyad _ _ result _ h := Dyad.inRange_of_onAtoms (h ▸ result)

end Atom

variable {p : Precision} {x y : Noun}

theorem Noun.canonical_iff_all : x.Canonical ↔ x.All Atom.Canonical :=
  ⟨fun h _ ha n hn => h n (hn ▸ ha), fun h n hn => h _ hn n rfl⟩

theorem Noun.canonical_list_iff {xs : List Noun} :
    (list xs).Canonical ↔ ∀ x ∈ xs, x.Canonical := by
  simp only [canonical_iff_all, all_list]

theorem Noun.Canonical.apply {a : Action} (hx : x.Canonical) (h : a.apply p x = .ok y) :
    y.Canonical := by
  rw [canonical_iff_all] at *
  exact Action.all_apply Atom.lasting_canonical
    (fun _ _ _ _ _ hb _ hn => Scalar.inRange_of_onAtom (hn ▸ hb)) hx h

theorem Noun.Canonical.run {v : Verb} {s t : TokenStream} (hx : x.Canonical)
    (h : v.run p x s = (.ok y, t)) : y.Canonical := by
  unfold Verb.run at h
  split at h
  · cases h
  · exact hx.apply (Prod.ext_iff.1 h).1

theorem Noun.Canonical.reaches {a b : State} (ha : a.noun.Canonical) (h : Reaches p a b) :
    b.noun.Canonical := by
  refine h.preserves (P := fun c => c.noun.Canonical) ?_ ha
  rintro _ _ ⟨run⟩ hc
  exact hc.run run

/-! ### Outside data -/

theorem Given.Converts.canonical {given : Given} {a : Atom} (h : given.Converts a) :
    a.Canonical := by
  cases h with
  | int inRange =>
    rintro _ ⟨⟩
    exact inRange
  | bool b =>
    rintro _ ⟨⟩
    cases b <;> decide
  | real x => nofun
  | ratio finite => nofun

namespace Datum

theorem canonical_of_toNounAt {element : Given → Given} {place : Place} {given : Datum} {x : Noun}
    (h : given.toNounAt element place = .ok x) : x.Canonical := by
  refine toNounAt_induction (motive := fun _ _ x => x.Canonical) ?leaf ?container ?array h
  case leaf =>
    intro element given a hconverts
    exact Noun.canonical_iff_all.2 (Noun.all_atom.2 hconverts.canonical)
  case container =>
    intro element x xs zs _ hitems
    rw [Noun.canonical_list_iff]
    clear * - hitems
    induction hitems with
    | nil => simp
    | cons hz _ ih => exact List.forall_mem_cons.2 ⟨hz, ih⟩
  case array => exact id

theorem canonical_of_toNoun {given : Datum} {root : String} {x : Noun}
    (h : given.toNoun root = .ok x) : x.Canonical :=
  canonical_of_toNounAt h

theorem toNounsAt_map_toDatum {xs : List Noun} {place : Place}
    (h : ∀ x ∈ xs, ∀ place, toNounAt id place x.toDatum = .ok x) (index : Nat) :
    toNounsAt id place index (xs.map Noun.toDatum) = .ok xs := by
  induction xs generalizing index with
  | nil => rw [List.map_nil, toNounsAt]
  | cons x xs ih =>
    rw [List.map_cons, toNounsAt, h x (by simp), ih (fun y hy => h y (by simp [hy]))]
    rfl

end Datum

/-- A canonical noun stands for itself. -/
theorem Noun.Canonical.toNounAt_toDatum (hx : x.Canonical) (place : Place) :
    Datum.toNounAt id place x.toDatum = .ok x := by
  induction x generalizing place with
  | atom a =>
    rw [toDatum_atom, Datum.toNounAt]
    cases a with
    | int n =>
      have hn : InRange n := hx n (by simp)
      rw [Atom.toGiven, id_eq, Given.toAtom, if_pos hn]
      rfl
    | real r => rfl
  | list xs ih =>
    have hxs := canonical_list_iff.1 hx
    rw [toDatum_list, Datum.toNounAt,
      Datum.toNounsAt_map_toDatum fun x hmem => ih x hmem (hxs x hmem)]
    rfl

theorem Noun.toNoun_toDatum_iff (root : String) : x.toDatum.toNoun root = .ok x ↔ x.Canonical :=
  ⟨Datum.canonical_of_toNoun, fun hx => hx.toNounAt_toDatum _⟩

/-! ### Evaluation -/

theorem canonical_of_evaluateTexts {texts : List String} {given : Datum}
    (h : evaluateTexts p texts given = .ok y) : y.Canonical := by
  rw [evaluateTexts, fst_evaluateOn] at h
  obtain ⟨x, hx, hy⟩ := bind_eq_ok.1 h
  have hcanonical : x.Canonical := Datum.canonical_of_toNoun hx
  have hreach := (applyAll_eq_ok_iff.1 (Prod.ext hy rfl)).1
  exact hcanonical.reaches (a := ⟨x, _⟩) hreach

/-- What is read from outside, what evaluation passes through on any stream of tokens and what it
gives are canonical nouns, and each of them is read back as it is. -/
theorem evaluation_stays_canonical (p : Precision) (given : Datum) :
    (∀ root x, given.toNoun root = .ok x →
      x.Canonical ∧ ∀ root', x.toDatum.toNoun root' = .ok x) ∧
    (∀ x s t, given.toNoun nounRoot = .ok x → Reaches p ⟨x, s⟩ t →
      t.noun.Canonical ∧ ∀ root, t.noun.toDatum.toNoun root = .ok t.noun) ∧
    (∀ texts y, evaluateTexts p texts given = .ok y →
      y.Canonical ∧ ∀ root, y.toDatum.toNoun root = .ok y) := by
  have hstable : ∀ y : Noun, y.Canonical → y.Canonical ∧ ∀ root, y.toDatum.toNoun root = .ok y :=
    fun y hy => ⟨hy, fun root => (y.toNoun_toDatum_iff root).2 hy⟩
  refine ⟨fun root x hx => hstable x (Datum.canonical_of_toNoun hx), ?_, ?_⟩
  · intro x s t hx hreach
    have hcanonical : x.Canonical := Datum.canonical_of_toNoun hx
    exact hstable t.noun (hcanonical.reaches (a := ⟨x, s⟩) hreach)
  · intro texts y hy
    exact hstable y (canonical_of_evaluateTexts hy)

theorem evaluation_stays_canonical_long_literal :
    evaluateTexts .double ["+", "18446744073709551615"] (.leaf (.int (-9223372036854775808))) =
        .ok (.list [.atom (.int 9223372036854775807)]) ∧
      (Noun.list [.atom (.int 9223372036854775807)]).Canonical := by
  have heval : evaluateTexts .double ["+", "18446744073709551615"]
      (.leaf (.int (-9223372036854775808))) = .ok (.list [.atom (.int 9223372036854775807)]) := by
    decide +kernel
  exact ⟨heval, ((evaluation_stays_canonical .double _).2.2 _ _ heval).1⟩

end ArrayPhrase
