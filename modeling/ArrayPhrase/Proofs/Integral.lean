import ArrayPhrase.Proofs.Grading
import ArrayPhrase.Proofs.Leaves
import ArrayPhrase.Proofs.Phrasing
import ArrayPhrase.Proofs.Run

/-! Integer programs. Where all atoms are integers the precision matters to three verbs only, those
that have no exact result on integers. Without these all atoms stay integers and both precisions
give the same. -/

namespace ArrayPhrase

open Outcome State

/-! ### Atoms and nouns -/

/-- The verb has an exact result on every integer. -/
def Scalar.Exact (s : Scalar) : Prop :=
  ∀ n, (s.onInt? n).isSome

theorem Scalar.exact_iff {s : Scalar} :
    s.Exact ↔ s ≠ .halve ∧ s ≠ .exponential ∧ s ≠ .reciprocal := by
  cases s <;> simp [Exact, onInt?]

/-- An exact verb on an integer, in either precision. -/
theorem Scalar.Exact.onAtom_int {s : Scalar} (hs : s.Exact) (n : Int) :
    ∃ m, ∀ p, s.onAtom p (.int n) = .int <$> checkRange s.rep m := by
  obtain ⟨m, hm⟩ := Option.isSome_iff_exists.1 (hs n)
  refine ⟨m, fun p => ?_⟩
  rw [onAtom, hm]

def Atom.IsInt (a : Atom) : Prop :=
  ∃ n, a = int n

theorem Dyad.isInt_of_onAtoms {d : Dyad} {m n : Int} {c : Atom}
    (h : d.onAtoms (.int m) (.int n) = .ok c) : c.IsInt := by
  obtain ⟨k, -, rfl⟩ := map_eq_ok.1 h
  exact ⟨k, rfl⟩

theorem Atom.lasting_isInt : Lasting IsInt where
  int {n} _ := ⟨n, rfl⟩
  plus left sum := by
    obtain ⟨m, rfl⟩ := left
    exact Dyad.isInt_of_onAtoms sum
  dyad left right result := by
    obtain ⟨m, rfl⟩ := left
    obtain ⟨n, rfl⟩ := right
    exact Dyad.isInt_of_onAtoms result

theorem Scalar.Exact.isInt {s : Scalar} (hs : s.Exact) {p : Precision} {a b : Atom}
    (ha : a.IsInt) (h : s.onAtom p a = .ok b) : b.IsInt := by
  obtain ⟨n, rfl⟩ := ha
  obtain ⟨m, hm⟩ := hs.onAtom_int n
  obtain ⟨k, -, rfl⟩ := map_eq_ok.1 (hm p ▸ h)
  exact ⟨k, rfl⟩

/-- All atoms of the noun are integers. -/
def Noun.Integral (x : Noun) : Prop :=
  x.All Atom.IsInt

theorem Noun.graded_of_integral (p : Precision) {xs : List Noun} (h : ∀ x ∈ xs, x.Integral) :
    graded p xs = xs := by
  unfold graded
  split_ifs with hreal
  · cases xs with
    | nil => rfl
    | cons x xs =>
      obtain ⟨r, hr⟩ := Option.isSome_iff_exists.1 (hreal.2 x List.mem_cons_self)
      have hx := h x List.mem_cons_self
      rw [real?_eq_some_iff.1 hr, Integral, all_atom] at hx
      obtain ⟨n, hn⟩ := hx
      cases hn
  · rfl

/-! ### Actions -/

variable {p q : Precision} {x y : Noun}

namespace Action

/-- The action is no verb on single atoms but an exact one. -/
def Exact (action : Action) : Prop :=
  ∀ s, action = .scalar s → s.Exact

variable {action : Action}

theorem integral_apply (ha : action.Exact) (hx : x.Integral) (h : action.apply p x = .ok y) :
    y.Integral :=
  all_apply Atom.lasting_isInt (fun s hs _ _ => (ha s hs).isInt) hx h

theorem apply_eq_of_integral (p q : Precision) (ha : action.Exact) (hx : x.Integral) :
    action.apply p x = action.apply q x := by
  have hgrade : Noun.gradeUp p x.items = Noun.gradeUp q x.items := by
    rw [Noun.gradeUp_eq, Noun.gradeUp_eq, Noun.graded_of_integral p hx.items,
      Noun.graded_of_integral q hx.items]
  cases action with
  | scalar s =>
    refine Noun.mapLeaves_congr fun a hmem => ?_
    obtain ⟨n, rfl⟩ := hx a hmem
    obtain ⟨m, hm⟩ := (ha s rfl).onAtom_int n
    rw [hm, hm]
  | gradeUp => rw [apply, apply, hgrade]
  | gradeDown => rw [apply, apply, Noun.gradeDown, Noun.gradeDown, hgrade]
  | sort descending =>
    cases descending with
    | false => simp [apply, hgrade]
    | true => simp [apply, Noun.gradeDown, hgrade]
  | _ => rfl

end Action

/-! ### Verbs -/

namespace Verb

def Exact (v : Verb) : Prop :=
  ∀ s, v = .scalar s → s.Exact

variable {v : Verb} {s t : TokenStream}

theorem readFollower_ne_scalar {f : Scalar} {used : Nat} :
    v.readFollower s ≠ .ok (.scalar f, used) := by
  have hfollowers : ∀ follower ∈ v.followers, follower.2 ≠ .scalar f := by
    cases v <;> simp [followers]
  intro h
  unfold readFollower at h
  dsimp only at h
  split at h
  · cases h
  next token _ =>
    split at h
    · cases h
    next action hlookup =>
      cases h
      obtain ⟨before, after, hsplit, -⟩ := List.lookup_eq_some_iff.1 hlookup
      exact hfollowers (token, .scalar f) (by simp [hsplit]) rfl

/-- Only the verbs on single atoms give the actions on single atoms. -/
theorem eq_scalar_of_read {f : Scalar} {used : Nat} (h : v.read s = .ok (.scalar f, used)) :
    v = .scalar f := by
  cases v with
  | scalar g =>
    cases h
    rfl
  | plus | reshape =>
    obtain ⟨args, -, h⟩ := bind_eq_ok.1 h
    cases h
  | take | drop | reverseRotate =>
    obtain ⟨front, -, h⟩ := bind_eq_ok.1 h
    cases front <;> cases h
  | tilde | insert => exact absurd h readFollower_ne_scalar
  | _ => cases h

theorem Exact.read {action : Action} {used : Nat} (hv : v.Exact)
    (h : v.read s = .ok (action, used)) : action.Exact := by
  rintro f rfl
  exact hv f (eq_scalar_of_read h)

theorem exact_lookup {token : String} (h : token ≠ "-:" ∧ token ≠ "^" ∧ token ≠ "%") :
    (lookup token).Exact := by
  intro f hf
  have hrep : (lookup token).rep = token := rep_lookup_of_ne_noOp (by rw [hf]; nofun)
  rw [hf] at hrep
  rw [Scalar.exact_iff]
  refine ⟨?_, ?_, ?_⟩
  · rintro rfl
    exact h.1 hrep.symm
  · rintro rfl
    exact h.2.1 hrep.symm
  · rintro rfl
    exact h.2.2 hrep.symm

theorem run_eq_of_integral (p q : Precision) (hv : v.Exact) (hx : x.Integral) :
    v.run p x s = v.run q x s := by
  unfold run
  split
  · rfl
  next action used hread => rw [Action.apply_eq_of_integral p q (hv.read hread) hx]

theorem Exact.integral_run (hv : v.Exact) (hx : x.Integral) (h : v.run p x s = (.ok y, t)) :
    y.Integral := by
  unfold run at h
  split at h
  · cases h
  next action used hread => exact Action.integral_apply (hv.read hread) hx (Prod.ext_iff.1 h).1

end Verb

/-! ### Runs -/

/-- All atoms are integers, and all verbs still to come are exact. -/
structure State.Exact (a : State) : Prop where
  noun : a.noun.Integral
  tokens : ∀ token ∈ a.stream.remaining, (Verb.lookup token).Exact

theorem State.Next.exact {a b : State} (h : Next p a b) (ha : a.Exact) : b.Exact := by
  obtain ⟨run⟩ := h
  have htokens := List.forall_mem_cons.1 ha.tokens
  refine ⟨htokens.1.integral_run ha.noun run, fun token htoken => htokens.2 token ?_⟩
  rw [Verb.run_eq_ok run] at htoken
  exact List.mem_of_mem_drop htoken

theorem State.Exact.reaches {a b : State} (ha : a.Exact) (h : Reaches p a b) : b.Exact :=
  h.preserves Next.exact ha

/-- Runs in different precisions stay together. -/
theorem State.Exact.applyAll_eq {a : State} (ha : a.Exact) (p q : Precision) :
    applyAll p a.noun a.stream = applyAll q a.noun a.stream := by
  obtain ⟨x, s⟩ := a
  fun_induction applyAll p x s with
  | case1 x => rw [applyAll_nil]
  | case2 x token rest outcome y hok ih =>
    have hv := (List.forall_mem_cons.1 ha.tokens).1
    have hnext : Next p ⟨x, ⟨token :: rest⟩⟩ ⟨y, outcome.2⟩ := .apply (Prod.ext hok rfl)
    rw [ih (hnext.exact ha), applyAll_cons, ← Verb.run_eq_of_integral p q hv ha.noun,
      next_cons_iff.1 hnext]
  | case3 x token rest outcome fault herror =>
    have hv := (List.forall_mem_cons.1 ha.tokens).1
    have hrun : (Verb.lookup token).run p x ⟨rest⟩ = (.error fault, outcome.2) :=
      Prod.ext herror rfl
    rw [applyAll_cons, ← Verb.run_eq_of_integral p q hv ha.noun, hrun]

theorem mem_of_mem_ofTexts {texts : List String} {token : String}
    (h : token ∈ (TokenStream.ofTexts texts).remaining) : token ∈ texts := by
  obtain ⟨q, hq, htoken⟩ := List.mem_flatMap.1 h
  exact (phrasing_phrases texts).applied_subset q (List.mem_reverse.1 hq) htoken

/-- Evaluation of an integer program on a noun of integers gives the same in either precision,
faults included, and passes through nouns of integers only. -/
theorem evaluation_of_integers {texts : List String} {given : Datum}
    (htexts : ∀ t ∈ texts, t ≠ "-:" ∧ t ≠ "^" ∧ t ≠ "%")
    (hgiven : ∀ x, given.toNoun nounRoot = .ok x → x.Integral) :
    evaluateTexts .double texts given = evaluateTexts .single texts given ∧
      ∀ p x b, given.toNoun nounRoot = .ok x → Reaches p ⟨x, .ofTexts texts⟩ b →
        b.noun.Integral := by
  have hexact : ∀ x, given.toNoun nounRoot = .ok x → State.Exact ⟨x, .ofTexts texts⟩ :=
    fun x hx => ⟨hgiven x hx, fun t ht => Verb.exact_lookup (htexts t (mem_of_mem_ofTexts ht))⟩
  constructor
  · rw [evaluateTexts, evaluateTexts, fst_evaluateOn, fst_evaluateOn]
    cases hx : given.toNoun nounRoot with
    | error fault => rfl
    | ok x => exact congrArg Prod.fst ((hexact x hx).applyAll_eq .double .single)
  · exact fun p x b hx hreach => ((hexact x hx).reaches hreach).noun

theorem evaluation_of_integers_grade_of_squares :
    evaluateTexts .double ["/:", "*:"] (.list [.leaf (.int 3), .leaf (.int (-2))]) =
        evaluateTexts .single ["/:", "*:"] (.list [.leaf (.int 3), .leaf (.int (-2))]) := by
  refine (evaluation_of_integers (by decide) fun x hx => ?_).1
  obtain rfl : Noun.list [.atom (.int 3), .atom (.int (-2))] = x := Except.ok.inj hx
  simp [Noun.Integral, Noun.all_list, Atom.IsInt]

end ArrayPhrase
