import ArrayPhrase.Proofs.Canonical
import ArrayPhrase.Proofs.Lexing
import ArrayPhrase.Proofs.PhraseSemantics

/-! Commands one after the other. A command written before another one acts on what that one gives,
when the one written last does not begin with a literal, which might become an operand of the
other, and when neither has an open end. The noun between them is canonical, so it is handed on
unchanged. -/

namespace ArrayPhrase

open Outcome

variable {p : Precision} {first last : List String}

theorem phrases_append (hfirst : ∀ v, ¬ EndsOpen first v) (hplain : StartsPlain last) :
    phrases Verb.registry (first ++ last) =
      phrases Verb.registry first ++ phrases Verb.registry last := by
  have hphrasing := phrasing_phrases first
  exact (hphrasing.append (hphrasing.complete hfirst) (phrasing_phrases last) hplain).eq_phrases.symm

theorem not_endsOpen_append (hfirst : ∀ v, ¬ EndsOpen first v) (hlast : ∀ v, ¬ EndsOpen last v)
    (hplain : StartsPlain last) (v : Verb) : ¬ EndsOpen (first ++ last) v := by
  refine (phrasing_phrases (first ++ last)).not_endsOpen ?_ v
  rw [phrases_append hfirst hplain]
  intro q hq
  rcases List.mem_append.1 hq with hq | hq
  · exact (phrasing_phrases first).complete hfirst q hq
  · exact (phrasing_phrases last).complete hlast q hq

/-- Two token sequences one after the other: the last is evaluated first, and the first on what it
gives. -/
theorem evaluateTexts_append (hfirst : ∀ v, ¬ EndsOpen first v) (hlast : ∀ v, ¬ EndsOpen last v)
    (hplain : StartsPlain last) (p : Precision) (given : Datum) :
    evaluateTexts p (first ++ last) given =
      evaluateTexts p last given >>= fun y => evaluateTexts p first y.toDatum := by
  have hall : evaluateTexts p (first ++ last) given =
      evaluateTexts p last given >>= applyPhrases p (phrases Verb.registry first) := by
    rw [evaluateTexts_eq (not_endsOpen_append hfirst hlast hplain), evaluateTexts_eq hlast,
      phrases_append hfirst hplain, bind_assoc]
    congr 1
    funext x
    exact applyPhrases_append p _ _ x
  rw [hall]
  cases hy : evaluateTexts p last given with
  | error fault => rfl
  | ok y =>
    -- On the right the noun in between is read again as outside data, which leaves it as it is.
    have hcanonical : y.toDatum.toNoun nounRoot = .ok y :=
      (Noun.toNoun_toDatum_iff nounRoot).2 (canonical_of_evaluateTexts hy)
    show applyPhrases p (phrases Verb.registry first) y = evaluateTexts p first y.toDatum
    rw [evaluateTexts_eq hfirst, hcanonical]
    rfl

/-- Two commands with white space between them do what the second and then the first one do. -/
theorem evaluate_append (s t : String) (hplain : StartsPlain (tokenTexts t))
    (hs : ∀ v, ¬ EndsOpen (tokenTexts s) v) (ht : ∀ v, ¬ EndsOpen (tokenTexts t) v)
    (p : Precision) (given : Datum) :
    evaluate p (s ++ " " ++ t) given =
      evaluate p t given >>= fun y => evaluate p s y.toDatum := by
  unfold evaluate
  rw [tokenTexts_append]
  exact evaluateTexts_append hs ht hplain p given

theorem evaluate_append_insert_take :
    StartsPlain (tokenTexts "\x7b.2") ∧ (∀ v, ¬ EndsOpen (tokenTexts "/+") v) ∧
      (∀ v, ¬ EndsOpen (tokenTexts "\x7b.2") v) ∧
      evaluate .double ("/+" ++ " " ++ "\x7b.2")
        (.list [.leaf (.int 1), .leaf (.int 2), .leaf (.int 4)]) = .ok (.list [.atom (.int 3)]) := by
  have hplain : StartsPlain (tokenTexts "\x7b.2") := by
    decide +kernel
  have hinsert : Phrasing (tokenTexts "/+") [.application "/" ["+"]] := by
    decide +kernel
  have htake : Phrasing (tokenTexts "\x7b.2") [.application "\x7b." ["2"]] := by
    decide +kernel
  have hs := hinsert.not_endsOpen (by decide)
  have ht := htake.not_endsOpen (by decide)
  refine ⟨hplain, hs, ht, ?_⟩
  rw [evaluate_append "/+" "\x7b.2" hplain hs ht]
  decide +kernel

end ArrayPhrase
