import ArrayPhrase.Proofs.Faults
import ArrayPhrase.Proofs.PhraseSemantics

/-! Commands that end with an open compound verb. That verb is applied first, and then the head of
the last phrase before it stands behind it in the stream. So it misses its follower only when no
phrase is before it; otherwise it takes that head for a follower or refuses it, and the operands
of the phrase it has taken the head of are left over and do nothing. -/

namespace ArrayPhrase

open Outcome

variable {p : Precision} {x y : Noun} {c : Verb} {init texts : List String} {ps qs : List Phrase}

/-! ### The end of a command -/

namespace EndsOpen

theorem exists_phrasing (h : EndsOpen texts c) :
    ∃ init ps, texts = init ++ [c.rep] ∧ Phrasing init ps ∧ (∀ q ∈ ps, q.Complete) ∧
      Phrasing texts (ps ++ [.application c.rep []]) := by
  obtain ⟨hc, ps, hps⟩ := h
  have hcomplete : ∀ q ∈ ps, q.Complete := by
    rcases hps.complete_or_open with hall | ⟨before, v, -, hbefore, hall⟩
    · exact fun q hq => hall q (List.mem_append_left _ hq)
    · rwa [(List.append_inj' hbefore rfl).1]
  obtain ⟨init, rest, rfl, hinit, hrest⟩ := hps.of_append
  have hlast : rest = [c.rep] := by
    obtain _ | _ | ⟨_, _, htail⟩ := hrest
    obtain ⟨⟩ := htail
    rfl
  subst hlast
  exact ⟨init, ps, rfl, hinit, hcomplete, hps⟩

theorem lookup_rep (h : EndsOpen texts c) : Verb.lookup c.rep = c := by
  rcases h.1 with rfl | rfl
  · decide
  · decide

theorem consumption_eq (h : EndsOpen texts c) : c.consumption = .follower := by
  rcases h.1 with rfl | rfl
  · rfl
  · rfl

end EndsOpen

/-! ### What follows an open compound verb -/

/-- A follower takes no follower itself. -/
theorem Verb.consumption_ne_follower {v : Verb} {t : String} {action : Action}
    (h : v.followers.lookup t = some action) : (lookup t).consumption ≠ .follower := by
  obtain ⟨before, after, hsplit, -⟩ := List.lookup_eq_some_iff.1 h
  have hmem : (t, action) ∈ v.followers := by
    rw [hsplit]
    simp
  have hall : ∀ w ∈ [tilde, insert], ∀ pair ∈ w.followers,
      (lookup pair.1).consumption ≠ .follower := by
    decide
  cases v with
  | tilde => exact hall tilde (by simp) _ hmem
  | insert => exact hall insert (by simp) _ hmem
  | _ => cases h

/-- Literals that no verb has taken do nothing. -/
theorem applyAll_literals_append {own : List String} (hown : ∀ t ∈ own, Literal.isLiteral t)
    (p : Precision) (x : Noun) (others : List String) :
    applyAll p x ⟨own ++ others⟩ = applyAll p x ⟨others⟩ := by
  induction own with
  | nil => rfl
  | cons t own ih =>
    rw [List.forall_mem_cons] at hown
    rw [List.cons_append, applyAll_cons, Verb.lookup_of_isLiteral hown.1]
    exact ih hown.2

theorem Verb.read_of_follower {v : Verb} (hv : v.consumption = .follower) (s : TokenStream) :
    v.read s = v.readFollower s := by
  rcases eq_tilde_or_insert hv with rfl | rfl
  · rfl
  · rfl

theorem Verb.readFollower_cons (v : Verb) (t : String) (rest : List String) :
    v.readFollower ⟨t :: rest⟩ =
      match v.followers.lookup t with
      | none => .error (.missingFollower v.rep (v.followers.map Prod.fst) (some t))
      | some action => .ok (action, 1) :=
  rfl

/-! ### Complete phrases never come to the end of the command -/

theorem applyPhrases_eq_error {fault : Fault} (h : applyPhrases p ps x = .error fault) :
    ∃ q ∈ ps, ∃ y, q.apply p y = .error fault := by
  induction ps with
  | nil => cases h
  | cons q ps ih =>
    rw [applyPhrases_cons] at h
    rcases bind_eq_error.1 h with h | ⟨y, -, h⟩
    · obtain ⟨q', hq', z, hz⟩ := ih h
      exact ⟨q', by simp [hq'], z, hz⟩
    · exact ⟨q, by simp, y, h⟩

theorem Phrase.Complete.apply_ne_missingFollower {q : Phrase} (hq : q.Complete) (p : Precision)
    (x : Noun) (op : String) (expected : List String) :
    q.apply p x ≠ .error (.missingFollower op expected none) := by
  intro h
  cases q with
  | stray literal => cases h
  | application head operands =>
    obtain ⟨hv, hfound⟩ := Verb.run_eq_missingFollower h
    have hnil : operands.reverse = [] := List.head?_eq_none_iff.1 hfound.symm
    exact hq.2.2 hv (List.reverse_eq_nil_iff.1 hnil)

theorem applyPhrases_ne_missingFollower (hps : ∀ q ∈ ps, q.Complete) (p : Precision) (x : Noun)
    (op : String) (expected : List String) :
    applyPhrases p ps x ≠ .error (.missingFollower op expected none) := by
  intro h
  obtain ⟨q, hq, y, hy⟩ := applyPhrases_eq_error h
  exact (hps q hq).apply_ne_missingFollower p y op expected hy

/-! ### Evaluation -/

/-- The open compound verb comes first in the stream. -/
theorem Phrasing.ofTexts_eq (hps : Phrasing texts (ps ++ [.application c.rep []])) :
    TokenStream.ofTexts texts = ⟨c.rep :: Phrase.stream ps.reverse⟩ := by
  unfold TokenStream.ofTexts applicationOrder
  rw [← hps.eq_phrases, List.reverse_append, List.reverse_singleton, List.singleton_append]
  rfl

/-- No phrase has tokens to apply just when all tokens are literals. -/
theorem Phrasing.applied_eq_nil_iff (h : Phrasing texts ps) :
    (∀ q ∈ ps, q.applied = []) ↔ ∀ t ∈ texts, Literal.isLiteral t := by
  induction h with
  | nil => simp
  | stray isLiteral _ ih =>
    rw [List.forall_mem_cons, List.forall_mem_cons, ih]
    exact and_congr_left' (by simp [Phrase.applied, isLiteral])
  | application notLiteral _ _ _ =>
    rw [List.forall_mem_cons, List.forall_mem_cons, notLiteral]
    simp [Phrase.applied]

theorem Phrase.stream_eq_nil (h : ∀ q ∈ qs, q.applied = []) : Phrase.stream qs = [] :=
  List.flatMap_eq_nil_iff.2 h

/-- The last phrase that has tokens to apply, when there is one. -/
theorem exists_last_application (h : ¬ ∀ q ∈ ps, q.applied = []) :
    ∃ before t operands after, ps = before ++ .application t operands :: after ∧
      ∀ q ∈ after, q.applied = [] := by
  induction ps with
  | nil => exact absurd (by simp) h
  | cons q ps ih =>
    by_cases hps : ∀ q ∈ ps, q.applied = []
    · cases q with
      | stray literal =>
        refine absurd ?_ h
        rw [List.forall_mem_cons]
        exact ⟨rfl, hps⟩
      | application t operands => exact ⟨[], t, operands, ps, rfl, hps⟩
    · obtain ⟨before, t, operands, after, rfl, hafter⟩ := ih hps
      exact ⟨q :: before, t, operands, after, rfl, hafter⟩

/-- Without a phrase before it, an open compound verb misses its follower at the end. -/
theorem fst_applyAll_of_literals (hopen : EndsOpen texts c)
    (hps : Phrasing texts (ps ++ [.application c.rep []])) (hnil : ∀ q ∈ ps, q.applied = [])
    (p : Precision) (x : Noun) :
    (applyAll p x (.ofTexts texts)).1 =
      .error (.missingFollower c.rep (c.followers.map Prod.fst) none) := by
  have hstream : Phrase.stream ps.reverse = [] :=
    Phrase.stream_eq_nil fun q hq => hnil q (List.mem_reverse.1 hq)
  rw [hps.ofTexts_eq, hstream, applyAll_cons, hopen.lookup_rep]
  rcases hopen.1 with rfl | rfl
  · rfl
  · rfl

/-- Otherwise the head of the last phrase before it is taken for its follower, or refused. -/
theorem fst_applyAll_of_application (hopen : EndsOpen texts c) {before after : List Phrase}
    {t : String} {operands : List String}
    (hps : Phrasing texts (before ++ .application t operands :: after ++ [.application c.rep []]))
    (hcomplete : ∀ q ∈ before ++ .application t operands :: after, q.Complete)
    (hafter : ∀ q ∈ after, q.applied = []) (p : Precision) (x : Noun) :
    (applyAll p x (.ofTexts texts)).1 =
      match c.followers.lookup t with
      | none => .error (.missingFollower c.rep (c.followers.map Prod.fst) (some t))
      | some action => action.apply p x >>= applyPhrases p before := by
  have hstream : Phrase.stream (before ++ .application t operands :: after).reverse =
      t :: (operands.reverse ++ Phrase.stream before.reverse) := by
    rw [List.reverse_append, List.reverse_cons, Phrase.stream_append, Phrase.stream_append,
      Phrase.stream_eq_nil fun q hq => hafter q (List.mem_reverse.1 hq)]
    simp
  have hbefore : ∀ q ∈ before.reverse, q.Complete := fun q hq =>
    hcomplete q (List.mem_append_left _ (List.mem_reverse.1 hq))
  rw [hps.ofTexts_eq, hstream, applyAll_cons, hopen.lookup_rep, Verb.run,
    Verb.read_of_follower hopen.consumption_eq, Verb.readFollower_cons]
  cases hlookup : c.followers.lookup t with
  | none => rfl
  | some action =>
    have hliterals : ∀ o ∈ operands.reverse, Literal.isLiteral o := by
      have hq := hcomplete (.application t operands) (by simp)
      exact hq.2.1.reverse.isLiteral (Verb.consumption_ne_follower hlookup)
    cases happly : action.apply p x with
    | error fault =>
      simp only [happly]
      rfl
    | ok y =>
      simp only [happly, TokenStream.drop, List.drop_one, List.tail_cons]
      rw [applyAll_literals_append hliterals, fst_applyAll_stream hbefore, List.reverse_reverse]
      rfl

/-- A command with an open compound verb at its end misses the follower there exactly when all
tokens before that verb are literals. Otherwise the head of the last phrase before it decides: the
verb refuses it, or takes it for its follower, and then the phrases before that one are applied. -/
theorem evaluation_of_open_end (hopen : EndsOpen texts c) (p : Precision) {given : Datum}
    (haccepted : given.toNoun nounRoot = .ok x) :
    ∃ init ps, texts = init ++ [c.rep] ∧ Phrasing init ps ∧
      (evaluateTexts p texts given =
          .error (.missingFollower c.rep (c.followers.map Prod.fst) none) ↔
        ∀ t ∈ init, Literal.isLiteral t) ∧
      ((¬ ∀ t ∈ init, Literal.isLiteral t) →
        ∃ before t operands after, ps = before ++ .application t operands :: after ∧
          (∀ q ∈ after, q.applied = []) ∧
          evaluateTexts p texts given =
            match c.followers.lookup t with
            | none => .error (.missingFollower c.rep (c.followers.map Prod.fst) (some t))
            | some action => action.apply p x >>= applyPhrases p before) := by
  obtain ⟨init, ps, htexts, hinit, hcomplete, hps⟩ := hopen.exists_phrasing
  have heval : evaluateTexts p texts given = (applyAll p x (.ofTexts texts)).1 := by
    rw [evaluateTexts, fst_evaluateOn, haccepted]
    rfl
  refine ⟨init, ps, htexts, hinit, ?_⟩
  rw [heval, ← hinit.applied_eq_nil_iff]
  refine ⟨⟨fun hmissing => ?_, fun hnil => ?_⟩, fun hnil => ?_⟩
  · by_contra hnil
    obtain ⟨before, t, operands, after, rfl, hafter⟩ := exists_last_application hnil
    have hbefore : ∀ q ∈ before, q.Complete := fun q hq =>
      hcomplete q (List.mem_append_left _ hq)
    rw [fst_applyAll_of_application hopen hps hcomplete hafter] at hmissing
    split at hmissing
    · cases hmissing
    · rcases bind_eq_error.1 hmissing with h | ⟨y, -, h⟩
      · exact Action.ofNoun_of_apply h
      · exact applyPhrases_ne_missingFollower hbefore p y _ _ h
  · exact fst_applyAll_of_literals hopen hps hnil p x
  · obtain ⟨before, t, operands, after, rfl, hafter⟩ := exists_last_application hnil
    refine ⟨before, t, operands, after, rfl, hafter, ?_⟩
    exact fst_applyAll_of_application hopen hps hcomplete hafter p x

theorem evaluation_of_open_end_after_literal :
    EndsOpen ["5", "/"] .insert ∧
      evaluateTexts .double ["5", "/"] (.leaf (.int 3)) =
        .error (.missingFollower "/" ["+", "*"] none) := by
  have hopen : EndsOpen ["5", "/"] .insert := by
    decide +kernel
  have haccepted : (Datum.leaf (.int 3)).toNoun nounRoot = .ok (.atom (.int 3)) := by
    decide +kernel
  obtain ⟨init, ps, htexts, -, heval, -⟩ := evaluation_of_open_end hopen .double haccepted
  obtain rfl : ["5"] = init := (List.append_inj' htexts rfl).1
  exact ⟨hopen, heval.2 (by decide)⟩

/-- The head of a phrase becomes the follower of a compound verb written behind it. -/
theorem plus_before_insert_is_follower :
    EndsOpen (tokenTexts "+ /") .insert ∧
      evaluate .double "+ /" (.list [.leaf (.int 1), .leaf (.int 2), .leaf (.int 3)]) =
        .ok (.list [.atom (.int 6)]) := by
  decide +kernel

end ArrayPhrase
