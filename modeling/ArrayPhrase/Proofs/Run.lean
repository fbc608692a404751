import Mathlib.Logic.Relation
import ArrayPhrase.Interpreter
import ArrayPhrase.Proofs.Outcome

/-! Evaluation as a sequence of steps. A state is a noun with the tokens still to be applied to it,
and a step applies the verb at the front. A property that one step preserves holds in every state
that evaluation passes through. -/

namespace ArrayPhrase

/-- A noun and the stream of tokens still to be applied to it. -/
structure State where
  noun : Noun
  stream : TokenStream

namespace State

/-- One step of evaluation that does not fail. -/
inductive Next (p : Precision) : State → State → Prop where
  | apply {token : String} {rest : List String} {x y : Noun} {s : TokenStream}
    (run : (Verb.lookup token).run p x ⟨rest⟩ = (.ok y, s)) : Next p ⟨x, ⟨token :: rest⟩⟩ ⟨y, s⟩

/-- The states that evaluation passes through. -/
def Reaches (p : Precision) : State → State → Prop :=
  Relation.ReflTransGen (Next p)

end State

open State

variable {p : Precision} {x y : Noun} {s t : TokenStream}

@[simp] theorem applyAll_nil (p : Precision) (x : Noun) : applyAll p x ⟨[]⟩ = (.ok x, ⟨[]⟩) := by
  rw [applyAll]

theorem applyAll_cons (p : Precision) (x : Noun) (token : String) (rest : List String) :
    applyAll p x ⟨token :: rest⟩ =
      match (Verb.lookup token).run p x ⟨rest⟩ with
      | (.ok y, s) => applyAll p y s
      | (.error fault, s) => (.error fault, s) := by
  rw [applyAll]
  rcases (Verb.lookup token).run p x ⟨rest⟩ with ⟨_ | _, _⟩ <;> rfl

theorem State.not_next_nil {b : State} : ¬ Next p ⟨x, ⟨[]⟩⟩ b := by
  rintro ⟨⟩

theorem State.next_cons_iff {token : String} {rest : List String} {b : State} :
    Next p ⟨x, ⟨token :: rest⟩⟩ b ↔
      (Verb.lookup token).run p x ⟨rest⟩ = (.ok b.noun, b.stream) := by
  constructor
  · rintro ⟨run⟩
    exact run
  · exact fun run => .apply run

theorem applyAll_of_next {a b : State} (h : Next p a b) :
    applyAll p a.noun a.stream = applyAll p b.noun b.stream := by
  obtain ⟨run⟩ := h
  rw [applyAll_cons, run]

theorem applyAll_of_reaches {a b : State} (h : Reaches p a b) :
    applyAll p a.noun a.stream = applyAll p b.noun b.stream := by
  induction h with
  | refl => rfl
  | tail _ hnext ih => rw [ih, applyAll_of_next hnext]

/-- Evaluation succeeds when it passes through a state without tokens, and gives its noun. -/
theorem applyAll_eq_ok_iff :
    applyAll p x s = (.ok y, t) ↔ Reaches p ⟨x, s⟩ ⟨y, ⟨[]⟩⟩ ∧ t = ⟨[]⟩ := by
  constructor
  · intro h
    fun_induction applyAll p x s with
    | case1 x => cases h; exact ⟨.refl, rfl⟩
    | case2 x token rest outcome y' hok ih =>
      obtain ⟨hreach, rfl⟩ := ih h
      exact ⟨.head (.apply (Prod.ext hok rfl)) hreach, rfl⟩
    | case3 => cases h
  · rintro ⟨hreach, rfl⟩
    simpa using applyAll_of_reaches hreach

/-- Evaluation fails when it passes through a state whose verb fails, and with its fault. -/
theorem fst_applyAll_eq_error_iff {fault : Fault} :
    (applyAll p x s).1 = .error fault ↔ ∃ b token rest, Reaches p ⟨x, s⟩ b ∧
      b.stream = ⟨token :: rest⟩ ∧ ((Verb.lookup token).run p b.noun ⟨rest⟩).1 = .error fault := by
  constructor
  · intro h
    fun_induction applyAll p x s with
    | case1 => cases h
    | case2 x token rest outcome y hok ih =>
      obtain ⟨b, token', rest', hreach, hb, hfault⟩ := ih h
      exact ⟨b, token', rest', .head (.apply (Prod.ext hok rfl)) hreach, hb, hfault⟩
    | case3 x token rest outcome fault' herror =>
      exact ⟨⟨x, ⟨token :: rest⟩⟩, token, rest, .refl, rfl, herror.trans h⟩
  · rintro ⟨⟨y, _⟩, token, rest, hreach, rfl, hfault⟩
    have hrun := applyAll_of_reaches hreach
    dsimp only at hrun hfault
    rw [hrun, applyAll_cons]
    split
    next y' t heq =>
      rw [heq] at hfault
      cases hfault
    next fault' t heq =>
      rw [heq] at hfault
      exact hfault

theorem fst_evaluateOn (p : Precision) (given : Datum) (s : TokenStream) :
    (evaluateOn p given s).1 = given.toNoun nounRoot >>= fun x => (applyAll p x s).1 := by
  unfold evaluateOn
  cases given.toNoun nounRoot <;> rfl

/-- What every step preserves holds in all states that evaluation passes through. -/
theorem State.Reaches.preserves {P : State → Prop} {a b : State} (h : Reaches p a b)
    (step : ∀ {c d}, Next p c d → P c → P d) (ha : P a) : P b := by
  induction h with
  | refl => exact ha
  | tail _ hnext ih => exact step hnext ih

end ArrayPhrase
