import ArrayPhrase.Proofs.Integral
import ArrayPhrase.Proofs.Lexing
import ArrayPhrase.Proofs.Shapes
import ArrayPhrase.Proofs.TypedFaults

/-! Verbs that undo each other on integers. One after the other they give a noun of integers back,
unless the first of them takes an integer out of range. Then it fails, and tells the exact value
for the first such integer, depth first; nothing wraps round. -/

namespace ArrayPhrase

open Outcome

/-! ### Nouns -/

namespace Noun

variable {f g : Atom → Except Fault Atom} {x y : Noun}

/-- A mapping that leads back on the atoms leads back on the noun. -/
theorem Maps.back (h : Maps f x y) (hback : ∀ a ∈ x.leaves, ∀ b, f a = .ok b → g b = .ok a) :
    Maps g y x := by
  have hleaves : List.Forall₂ (fun b a => g b = .ok a) y.leaves x.leaves := by
    have hboth := (List.forall₂_and_left _ _).2 ⟨hback, h.leaves⟩
    exact (hboth.imp fun a b hab => hab.1 b hab.2).flip
  exact mapLeaves_eq_ok_iff.2 ⟨h.sameShape.symm, hleaves⟩

/-- There and back, a mapping succeeds when it has a result for all atoms. -/
theorem mapLeaves_bind_eq_ok_iff (hback : ∀ a ∈ x.leaves, ∀ b, f a = .ok b → g b = .ok a) :
    x.mapLeaves f >>= mapLeaves g = .ok x ↔ ∀ a ∈ x.leaves, ∃ b, f a = .ok b := by
  constructor
  · intro h a ha
    obtain ⟨y, hy, -⟩ := bind_eq_ok.1 h
    exact exists_of_mapM_ok (mapM_eq_ok.2 (Maps.leaves hy)) ha
  · intro h
    obtain ⟨y, hy⟩ := exists_mapLeaves_eq_ok h
    rw [hy]
    exact Maps.back hy hback

end Noun

/-! ### Verbs -/

namespace Scalar

variable {p : Precision} {s outer inner : Scalar} {onInt : Int → Int} {overflows : Int → Prop}
  {m n : Int}

/-- The first verb undoes what the second one does to integers. That is told as a function, with
the integers for which its values are out of range. -/
inductive Undoes : Scalar → Scalar → (Int → Int) → (Int → Prop) → Prop
  | increment : Undoes decrement increment (fun n => n + 1) (fun n => n = 9223372036854775807)
  | decrement : Undoes increment decrement (fun n => n - 1) (fun n => n = -9223372036854775808)
  | complement : Undoes complement complement (fun n => 1 - n) (fun n => n ≤ -9223372036854775807)

namespace Undoes

theorem onInt?_inner (h : Undoes outer inner onInt overflows) (n : Int) :
    inner.onInt? n = some (onInt n) := by
  cases h <;> rfl

theorem onInt?_outer (h : Undoes outer inner onInt overflows) (n : Int) :
    outer.onInt? (onInt n) = some n := by
  cases h <;> simp [onInt?]

theorem overflows_iff (h : Undoes outer inner onInt overflows) (hn : InRange n) :
    overflows n ↔ ¬ InRange (onInt n) := by
  cases h <;> dsimp only <;> omega

theorem back (h : Undoes outer inner onInt overflows) {a b : Atom} (ha : a.IsInt)
    (hrange : a.Canonical) (hab : inner.onAtom p a = .ok b) : outer.onAtom p b = .ok a := by
  obtain ⟨n, rfl⟩ := ha
  obtain ⟨-, rfl⟩ := (onAtom_int_eq_ok_iff (h.onInt?_inner n)).1 hab
  exact (onAtom_int_eq_ok_iff (h.onInt?_outer n)).2 ⟨hrange n rfl, rfl⟩

theorem exists_onAtom_iff (h : Undoes outer inner onInt overflows) (hn : InRange n) :
    (∃ b, inner.onAtom p (.int n) = .ok b) ↔ ¬ overflows n := by
  rw [h.overflows_iff hn, not_not]
  simp only [onAtom_int_eq_ok_iff (h.onInt?_inner n), exists_and_left, exists_eq, and_true]

theorem onAtom_eq_error_iff (h : Undoes outer inner onInt overflows) (hn : InRange n)
    {fault : Fault} : inner.onAtom p (.int n) = .error fault ↔
      overflows n ∧ fault = .integerOverflow inner.rep (onInt n) := by
  rw [h.overflows_iff hn, onAtom_int_eq_error_iff (h.onInt?_inner n)]

/-- Where some integer overflows, the inner verb fails for the first one that does. -/
theorem exists_mapLeaves_eq_error (h : Undoes outer inner onInt overflows) {x : Noun}
    (hx : x.Canonical) (hints : x.Integral) (hn : .int n ∈ x.leaves) (hout : overflows n) :
    ∃ before k after, x.leaves = before ++ .int k :: after ∧
      (∀ m, .int m ∈ before → ¬ overflows m) ∧ overflows k ∧
      x.mapLeaves (inner.onAtom p) = .error (.integerOverflow inner.rep (onInt k)) := by
  obtain ⟨fault, hfault⟩ := Noun.mapLeaves_fails_iff.2
    ⟨.int n, hn, _, (h.onAtom_eq_error_iff (p := p) (hx n hn)).2 ⟨hout, rfl⟩⟩
  obtain ⟨before, a, after, hleaves, hbefore, ha⟩ := Noun.mapLeaves_eq_error_iff.1 hfault
  obtain ⟨k, rfl⟩ := hints a (by simp [hleaves])
  obtain ⟨hk, rfl⟩ := (h.onAtom_eq_error_iff (hx k (by simp [hleaves]))).1 ha
  refine ⟨before, k, after, hleaves, fun m hm => ?_, hk, hfault⟩
  exact (h.exists_onAtom_iff (hx m (by simp [hleaves, hm]))).1 (hbefore _ hm)

theorem isWritable (h : Undoes outer inner onInt overflows) (hn : InRange n) :
    isWritable (onInt n) = true := by
  refine isWritable_of_natAbs_le ?_
  cases h <;> dsimp only <;> omega

end Undoes
end Scalar

/-! ### Commands -/

variable {p : Precision} {s t : Scalar} {given : Datum} {x : Noun}

theorem evaluate_scalars (haccepted : given.toNoun nounRoot = .ok x) :
    evaluate p (t.rep ++ " " ++ s.rep) given =
      x.mapLeaves (s.onAtom p) >>= Noun.mapLeaves (t.onAtom p) := by
  have htexts : tokenTexts (t.rep ++ " " ++ s.rep) = [t.rep] ++ [s.rep] := by
    rw [tokenTexts_append, tokenTexts_scalar, tokenTexts_scalar]
  have heval := (Phrase.complete_scalar t).evaluateTexts_append (Phrase.complete_scalar s) p
    haccepted
  rw [evaluate, htexts]
  refine heval.trans ?_
  rw [Phrase.apply_scalar]
  congr 1
  funext y
  exact Phrase.apply_scalar t p y

/-- A verb and the one that undoes it give a noun of integers back exactly when none of them
overflows. Otherwise the command fails, naming the verb applied first and the exact value for the
first integer that does. -/
theorem inverse_verbs_cancel {outer inner : Scalar} {onInt : Int → Int} {overflows : Int → Prop}
    (h : outer.Undoes inner onInt overflows) (haccepted : given.toNoun nounRoot = .ok x)
    (hints : x.Integral) :
    let command := outer.rep ++ " " ++ inner.rep
    (evaluate p command given = .ok x ↔ ∀ n, .int n ∈ x.leaves → ¬ overflows n) ∧
      ((∃ n, .int n ∈ x.leaves ∧ overflows n) → ∃ before n after fault,
        x.leaves = before ++ .int n :: after ∧ (∀ m, .int m ∈ before → ¬ overflows m) ∧
          overflows n ∧ evaluate p command given = .error fault ∧ fault.kind = .evaluation ∧
          fault.message = "integer overflow in " ++ inner.rep ++ ": " ++ toString (onInt n) ++
            " is outside the int64 range") := by
  intro command
  have hrange : x.Canonical := Datum.canonical_of_toNoun haccepted
  have hback : ∀ a ∈ x.leaves, ∀ b, inner.onAtom p a = .ok b → outer.onAtom p b = .ok a :=
    fun a ha b => h.back (hints a ha) (Noun.canonical_iff_all.1 hrange a ha)
  have hok : evaluate p command given = .ok x ↔ ∀ n, .int n ∈ x.leaves → ¬ overflows n := by
    rw [evaluate_scalars haccepted, Noun.mapLeaves_bind_eq_ok_iff hback]
    constructor
    · intro hall n hn
      exact (h.exists_onAtom_iff (hrange n hn)).1 (hall _ hn)
    · intro hall a ha
      obtain ⟨n, rfl⟩ := hints a ha
      exact (h.exists_onAtom_iff (hrange n ha)).2 (hall n ha)
  refine ⟨hok, fun ⟨m, hm, hout⟩ => ?_⟩
  obtain ⟨before, n, after, hleaves, hbefore, hn, hfault⟩ :=
    h.exists_mapLeaves_eq_error (p := p) hrange hints hm hout
  have hwritable := h.isWritable (hrange n (by simp [hleaves]))
  refine ⟨before, n, after, _, hleaves, hbefore, hn, ?_, Fault.kind_integerOverflow hwritable,
    Fault.message_integerOverflow hwritable⟩
  rw [evaluate_scalars haccepted, hfault]
  rfl

theorem inverse_verbs_cancel_second_of_three :
    let given : Datum := .list [.list [.leaf (.int 9223372036854775807), .list []],
      .leaf (.int (-9223372036854775807)), .leaf (.int (-9223372036854775808))]
    ∃ fault, evaluate .single "-. -." given = .error fault ∧ fault.kind = .evaluation ∧
      fault.message =
        "integer overflow in -.: 9223372036854775808 is outside the int64 range" := by
  intro given
  let x : Noun := .list [.list [.atom (.int 9223372036854775807), .list []],
    .atom (.int (-9223372036854775807)), .atom (.int (-9223372036854775808))]
  have haccepted : given.toNoun nounRoot = .ok x := by
    decide +kernel
  have hints : x.Integral := by
    simp [x, Noun.Integral, Noun.all_list, Atom.IsInt]
  obtain ⟨before, n, after, fault, hleaves, hbefore, hn, hfault, hkind, hmessage⟩ :=
    (inverse_verbs_cancel (p := .single) .complement haccepted hints).2
      ⟨-9223372036854775807, by simp [x], by decide⟩
  have hx : x.leaves = [.int 9223372036854775807, .int (-9223372036854775807),
      .int (-9223372036854775808)] := by
    simp [x]
  have hsecond : n = -9223372036854775807 := by
    rw [hx] at hleaves
    rcases before with _ | ⟨a, _ | ⟨b, rest⟩⟩
    · obtain ⟨rfl, -⟩ : 9223372036854775807 = n ∧ _ := by simpa using hleaves
      exact absurd hn (by decide)
    · obtain ⟨-, rfl, -⟩ : _ ∧ -9223372036854775807 = n ∧ _ := by simpa using hleaves
      rfl
    · obtain ⟨-, rfl, -⟩ : _ ∧ Atom.int (-9223372036854775807) = b ∧ _ := by
        simpa using hleaves
      exact absurd le_rfl (hbefore (-9223372036854775807) (by simp))
  subst hsecond
  exact ⟨fault, hfault, hkind, hmessage⟩

end ArrayPhrase
