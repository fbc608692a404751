import ArrayPhrase.Proofs.Phrasing
import ArrayPhrase.Proofs.Run

/-! What a command means, phrase by phrase. The last-written phrase is applied first, and its verb
reads a stream of its own operands only. Evaluation reads one stream that all phrases share; it
comes to the same, because that stream is at every step a sequence of whole phrases, and a phrase
never begins with a literal. -/

namespace ArrayPhrase

open Outcome State

namespace Phrase

/-- What a phrase gives when its verb has no tokens but the operands of the phrase. -/
def apply (p : Precision) : Phrase → Noun → Except Fault Noun
  | application head operands, x => ((Verb.lookup head).run p x ⟨operands.reverse⟩).1
  | stray _, x => .ok x

/-- The tokens of phrases that are applied one after the other. -/
def stream (qs : List Phrase) : List String :=
  qs.flatMap applied

end Phrase

/-- The phrases of a command applied one after the other, the last-written first. -/
def applyPhrases (p : Precision) (ps : List Phrase) (x : Noun) : Except Fault Noun :=
  ps.reverse.foldlM (fun y q => q.apply p y) x

/-- A complete phrase that is no stray literal. -/
def Phrase.Whole : Phrase → Prop
  | application head operands => (application head operands).Complete
  | stray _ => False

/-- A verb in front of `others` gives what it gives without them. It takes none of them, and all
of its operands unless it fails; the literals among these it sees in the order written. -/
structure Verb.KeepsApart (v : Verb) (operands others : List String) : Prop where
  outcome (p : Precision) (x : Noun) :
    (v.run p x ⟨operands.reverse ++ others⟩).1 = (v.run p x ⟨operands.reverse⟩).1
  untouched (p : Precision) (x : Noun) :
    others <:+ (v.run p x ⟨operands.reverse ++ others⟩).2.remaining
  taken {p : Precision} {x y : Noun} {t : TokenStream}
    (success : v.run p x ⟨operands.reverse ++ others⟩ = (.ok y, t)) : t = ⟨others⟩
  literals (args : List Int) (hv : v.consumption = .literals) :
    (⟨operands.reverse ++ others⟩ : TokenStream).integerArgs = .ok args ↔
      operands.mapM Literal.parse = .ok args

variable {p : Precision} {x y : Noun} {head : String} {operands others texts : List String}
  {ps qs : List Phrase}

/-! ### One phrase -/

/-- The literals of a phrase reach its verb in the order they are written in. -/
theorem Verb.Takes.integerArgs_eq_ok_iff {v : Verb} {rest : List String} {args : List Int}
    (h : v.Takes operands rest) (hv : v.consumption = .literals) (hothers : StartsPlain others) :
    (⟨operands.reverse ++ others⟩ : TokenStream).integerArgs = .ok args ↔
      operands.mapM Literal.parse = .ok args := by
  have hall : ∀ t ∈ operands.reverse, Literal.isLiteral t := by
    intro t ht
    have hne : v.consumption ≠ .follower := by simp [hv]
    exact h.isLiteral hne t (List.mem_reverse.1 ht)
  rw [TokenStream.integerArgs_append hothers]
  unfold TokenStream.integerArgs
  dsimp only
  rw [List.takeWhile_eq_self_iff.2 hall, map_eq_ok, mapM_eq_ok]
  constructor
  · rintro ⟨values, hvalues, rfl⟩
    rw [mapM_eq_ok, ← List.reverse_reverse values] at hvalues
    exact List.forall₂_reverse_iff.1 hvalues
  · intro hargs
    refine ⟨args.reverse, mapM_eq_ok.2 ?_, List.reverse_reverse args⟩
    exact List.forall₂_reverse_iff.2 hargs

namespace Phrase

@[simp] theorem stream_nil : stream [] = [] :=
  rfl

@[simp] theorem stream_cons_stray (literal : String) (qs : List Phrase) :
    stream (stray literal :: qs) = stream qs :=
  rfl

@[simp] theorem stream_cons_application (head : String) (operands : List String)
    (qs : List Phrase) :
    stream (application head operands :: qs) = head :: (operands.reverse ++ stream qs) :=
  rfl

theorem stream_append (qs rs : List Phrase) : stream (qs ++ rs) = stream qs ++ stream rs :=
  List.flatMap_append

theorem startsPlain_stream (hqs : ∀ q ∈ qs, q.Complete) : StartsPlain (stream qs) :=
  startsPlain_flatMap_applied fun _ _ hq => (hqs _ hq).1

/-- A phrase gives what the action does that its verb reads from its operands. -/
theorem apply_of_read {action : Action} {used : Nat}
    (h : (Verb.lookup head).read ⟨operands.reverse⟩ = .ok (action, used)) :
    (application head operands).apply p x = action.apply p x := by
  rw [apply, Verb.run, h]

/-- What stands behind the operands of a complete phrase does not matter to its verb. -/
theorem Complete.run_append (h : (application head operands).Complete)
    (hothers : StartsPlain others) (p : Precision) (x : Noun) :
    (Verb.lookup head).run p x ⟨operands.reverse ++ others⟩ =
      ((application head operands).apply p x,
        ⟨((Verb.lookup head).run p x ⟨operands.reverse⟩).2.remaining ++ others⟩) := by
  refine Verb.run_append hothers fun hcons hnil => ?_
  exact absurd (List.reverse_eq_nil_iff.1 hnil) (h.2.2 hcons)

/-- A complete phrase that succeeds has taken all its operands. -/
theorem Complete.run_of_apply_eq_ok (h : (application head operands).Complete)
    (hothers : StartsPlain others) (hok : (application head operands).apply p x = .ok y) :
    (Verb.lookup head).run p x ⟨operands.reverse ++ others⟩ = (.ok y, ⟨others⟩) := by
  have hrest : ((Verb.lookup head).run p x ⟨operands.reverse⟩).2 = ⟨[]⟩ := by
    have hcount := Verb.takes_iff.1 h.2.1.reverse
    rw [List.append_nil] at hcount
    have hrun : (Verb.lookup head).run p x ⟨operands.reverse⟩ =
        (.ok y, ((Verb.lookup head).run p x ⟨operands.reverse⟩).2) := Prod.ext hok rfl
    rw [Verb.run_eq_ok hrun]
    simp only [TokenStream.drop, hcount, List.drop_length]
  rw [h.run_append hothers, hok, hrest, List.nil_append]

theorem Complete.keepsApart (h : (application head operands).Complete)
    (hothers : StartsPlain others) : (Verb.lookup head).KeepsApart operands others where
  outcome p x := by
    rw [h.run_append hothers]
    rfl
  untouched p x := by
    rw [h.run_append hothers]
    exact List.suffix_append _ _
  taken {p x y t} hok := by
    have happly : (application head operands).apply p x = .ok y := by
      rw [h.run_append hothers] at hok
      exact (Prod.ext_iff.1 hok).1
    rw [h.run_of_apply_eq_ok hothers happly] at hok
    exact (Prod.ext_iff.1 hok).2.symm
  literals args hv := h.2.1.integerArgs_eq_ok_iff hv hothers

end Phrase

/-! ### All phrases -/

@[simp] theorem applyPhrases_nil (p : Precision) (x : Noun) : applyPhrases p [] x = .ok x :=
  rfl

@[simp] theorem applyPhrases_singleton (p : Precision) (q : Phrase) (x : Noun) :
    applyPhrases p [q] x = q.apply p x :=
  bind_pure _

theorem applyPhrases_append (p : Precision) (ps qs : List Phrase) (x : Noun) :
    applyPhrases p (ps ++ qs) x = applyPhrases p qs x >>= applyPhrases p ps := by
  unfold applyPhrases
  rw [List.reverse_append, List.foldlM_append]

theorem applyPhrases_cons (p : Precision) (q : Phrase) (ps : List Phrase) (x : Noun) :
    applyPhrases p (q :: ps) x = applyPhrases p ps x >>= q.apply p := by
  rw [← List.singleton_append, applyPhrases_append]
  congr 1
  funext y
  exact applyPhrases_singleton p q y

/-- Evaluation of the tokens of complete phrases applies the phrases. -/
theorem fst_applyAll_stream (hqs : ∀ q ∈ qs, q.Complete) (p : Precision) (x : Noun) :
    (applyAll p x ⟨Phrase.stream qs⟩).1 = applyPhrases p qs.reverse x := by
  unfold applyPhrases
  rw [List.reverse_reverse]
  induction qs generalizing x with
  | nil =>
    rw [Phrase.stream_nil, applyAll_nil]
    rfl
  | cons q qs ih =>
    rw [List.forall_mem_cons] at hqs
    rw [List.foldlM_cons]
    cases q with
    | stray literal => exact ih hqs.2 x
    | application head operands =>
      -- The next phrase begins with its head, so the operands end where they were written to end.
      have hothers := Phrase.startsPlain_stream hqs.2
      rw [Phrase.stream_cons_application, applyAll_cons]
      cases happly : (Phrase.application head operands).apply p x with
      | ok y =>
        rw [hqs.1.run_of_apply_eq_ok hothers happly]
        exact ih hqs.2 y
      | error fault =>
        rw [hqs.1.run_append hothers, happly]
        rfl

/-- A step from a sequence of complete phrases applies the first of them, and comes to the
sequence of the others. -/
theorem State.Next.exists_phrases {b : State} (hqs : ∀ q ∈ qs, q.Complete)
    (h : Next p ⟨x, ⟨Phrase.stream qs⟩⟩ b) :
    ∃ done rest, qs = done ++ rest ∧ b.stream = ⟨Phrase.stream rest⟩ ∧
      applyPhrases p done.reverse x = .ok b.noun := by
  induction qs with
  | nil => exact absurd h not_next_nil
  | cons q qs ih =>
    rw [List.forall_mem_cons] at hqs
    cases q with
    | stray literal =>
      obtain ⟨done, rest, rfl, hrest, hdone⟩ := ih hqs.2 h
      refine ⟨.stray literal :: done, rest, rfl, hrest, ?_⟩
      rw [List.reverse_cons, applyPhrases_append]
      exact hdone
    | application head operands =>
      have hothers := Phrase.startsPlain_stream hqs.2
      rw [Phrase.stream_cons_application, next_cons_iff] at h
      refine ⟨[.application head operands], qs, rfl, (hqs.1.keepsApart hothers).taken h, ?_⟩
      rw [hqs.1.run_append hothers] at h
      rw [List.reverse_singleton, applyPhrases_singleton]
      exact (Prod.ext_iff.1 h).1

/-- Every state that evaluation passes through stands between two phrases. -/
theorem State.Reaches.exists_phrases {b : State} (hqs : ∀ q ∈ qs, q.Complete)
    (h : Reaches p ⟨x, ⟨Phrase.stream qs⟩⟩ b) :
    ∃ done rest, qs = done ++ rest ∧ b.stream = ⟨Phrase.stream rest⟩ ∧
      applyPhrases p done.reverse x = .ok b.noun := by
  refine h.preserves (P := fun c => ∃ done rest, qs = done ++ rest ∧
    c.stream = ⟨Phrase.stream rest⟩ ∧ applyPhrases p done.reverse x = .ok c.noun) ?_
    ⟨[], qs, rfl, rfl, applyPhrases_nil p x⟩
  rintro ⟨y, s⟩ d hnext ⟨done, rest, rfl, rfl, hdone⟩
  obtain ⟨more, rest, rfl, hstream, hmore⟩ := hnext.exists_phrases fun q hq => hqs q (by simp [hq])
  refine ⟨done ++ more, rest, by rw [List.append_assoc], hstream, ?_⟩
  rw [List.reverse_append, applyPhrases_append, hdone]
  exact hmore

/-! ### Whole commands -/

/-- The phrases in the order they are applied in are complete when the command has no open end. -/
theorem complete_of_mem_reverse_phrases (hclosed : ∀ v, ¬ EndsOpen texts v) :
    ∀ q ∈ (phrases Verb.registry texts).reverse, q.Complete := by
  intro q hq
  exact (phrasing_phrases texts).complete hclosed q (List.mem_reverse.1 hq)

theorem fst_applyAll_ofTexts (hclosed : ∀ v, ¬ EndsOpen texts v) (p : Precision) (x : Noun) :
    (applyAll p x (.ofTexts texts)).1 = applyPhrases p (phrases Verb.registry texts) x := by
  have hall := fst_applyAll_stream (complete_of_mem_reverse_phrases hclosed) p x
  rwa [List.reverse_reverse] at hall

theorem evaluateTexts_eq (hclosed : ∀ v, ¬ EndsOpen texts v) (p : Precision) (given : Datum) :
    evaluateTexts p texts given =
      given.toNoun nounRoot >>= applyPhrases p (phrases Verb.registry texts) := by
  unfold evaluateTexts
  rw [fst_evaluateOn]
  congr 1
  funext x
  exact fst_applyAll_ofTexts hclosed p x

theorem Phrase.Whole.complete {q : Phrase} (h : q.Whole) : q.Complete := by
  cases q with
  | application head operands => exact h
  | stray literal => exact h.elim

theorem Phrase.Complete.whole (h : (application head operands).Complete) :
    (application head operands).Whole :=
  h

/-- Whole phrases are the phrases of what they are written as. -/
theorem phrasing_flatMap_written (hqs : ∀ q ∈ qs, q.Whole) :
    StartsPlain (qs.flatMap Phrase.written) ∧ Phrasing (qs.flatMap Phrase.written) qs := by
  induction qs with
  | nil => exact ⟨startsPlain_nil, .nil⟩
  | cons q qs ih =>
    rw [List.forall_mem_cons] at hqs
    obtain ⟨hq, hqs⟩ := hqs
    obtain ⟨hplain, hphrasing⟩ := ih hqs
    cases q with
    | stray literal => exact hq.elim
    | application head operands =>
      have htakes := hq.complete.2.1.append hplain hq.complete.2.2
      exact ⟨startsPlain_cons.2 hq.complete.1, .application hq.complete.1 htakes hphrasing⟩

/-- A command of whole phrases applies them, the last-written first. -/
theorem evaluateTexts_flatMap_written (hqs : ∀ q ∈ qs, q.Whole) (p : Precision) (given : Datum) :
    evaluateTexts p (qs.flatMap Phrase.written) given =
      given.toNoun nounRoot >>= applyPhrases p qs := by
  have hphrasing := (phrasing_flatMap_written hqs).2
  rw [evaluateTexts_eq (hphrasing.not_endsOpen fun q hq => (hqs q hq).complete),
    ← hphrasing.eq_phrases]

/-- The first phrase of such a command is applied to what the others give. -/
theorem Phrase.Complete.evaluateTexts_cons (h : (application head operands).Complete)
    (hqs : ∀ q ∈ qs, q.Whole) (p : Precision) (given : Datum) :
    evaluateTexts p (head :: operands ++ qs.flatMap Phrase.written) given =
      evaluateTexts p (qs.flatMap Phrase.written) given >>=
        (application head operands).apply p := by
  have hall : ∀ q ∈ application head operands :: qs, q.Whole :=
    List.forall_mem_cons.2 ⟨h.whole, hqs⟩
  refine (evaluateTexts_flatMap_written hall p given).trans ?_
  rw [evaluateTexts_flatMap_written hqs, bind_assoc]
  congr 1
  funext x
  exact applyPhrases_cons p _ qs x

/-- A command of one complete phrase applies that phrase. -/
theorem Phrase.Complete.evaluateTexts_eq_apply (h : (application head operands).Complete)
    (p : Precision) (given : Datum) :
    evaluateTexts p (head :: operands) given =
      given.toNoun nounRoot >>= (application head operands).apply p := by
  have heval := evaluateTexts_flatMap_written (List.forall_mem_singleton.2 h.whole) p given
  rw [List.flatMap_singleton] at heval
  refine heval.trans ?_
  congr 1
  funext x
  exact applyPhrases_singleton p _ x

theorem Phrase.Complete.evaluateTexts_of_accepted (h : (application head operands).Complete)
    (p : Precision) {given : Datum} (haccepted : given.toNoun nounRoot = .ok x) :
    evaluateTexts p (head :: operands) given = (application head operands).apply p x := by
  rw [h.evaluateTexts_eq_apply, haccepted]
  rfl

/-- A command without an open compound verb at its end means what its phrases mean, and it has one
sequence of phrases only. Evaluation passes from phrase to phrase, and no verb reads or takes a
token of another phrase. -/
theorem evaluation_applies_phrases (texts : List String) (hclosed : ∀ v, ¬ EndsOpen texts v) :
    ∃ ps, Phrasing texts ps ∧ (∀ qs, Phrasing texts qs → qs = ps) ∧
      (∀ p given, evaluateTexts p texts given =
        given.toNoun nounRoot >>= fun x => applyPhrases p ps x) ∧
      (∀ p x b, Reaches p ⟨x, .ofTexts texts⟩ b →
        ∃ ahead done, ps = ahead ++ done ∧ b.stream = ⟨Phrase.stream ahead.reverse⟩ ∧
          applyPhrases p done x = .ok b.noun) ∧
      (∀ ahead head operands done, ps = ahead ++ .application head operands :: done →
        (Verb.lookup head).KeepsApart operands (Phrase.stream ahead.reverse)) := by
  have hps := phrasing_phrases texts
  have hreverse := complete_of_mem_reverse_phrases hclosed
  set ps := phrases Verb.registry texts with hdef
  refine ⟨ps, hps, fun qs hqs => hqs.unique hps, fun p given => ?_, fun p x b h => ?_, ?_⟩
  · exact evaluateTexts_eq hclosed p given
  · obtain ⟨done, rest, hdone, hstream, happly⟩ := h.exists_phrases hreverse
    refine ⟨rest.reverse, done.reverse, ?_, ?_, happly⟩
    · rw [← List.reverse_append, ← hdone, List.reverse_reverse]
    · rw [List.reverse_reverse, hstream]
  · intro ahead head operands done hsplit
    rw [hsplit, List.reverse_append, List.reverse_cons, List.append_assoc] at hreverse
    have hq := hreverse (.application head operands) (by simp)
    refine hq.keepsApart (Phrase.startsPlain_stream fun q hq => hreverse q ?_)
    exact List.mem_append_right _ (List.mem_append_right _ hq)

theorem evaluation_applies_phrases_sum_of_first :
    (∀ v, ¬ EndsOpen ["/", "+", "\x7b.", "2", "7"] v) ∧
      ∀ p given, evaluateTexts p ["/", "+", "\x7b.", "2", "7"] given =
        given.toNoun nounRoot >>= applyPhrases p
          [.application "/" ["+"], .application "\x7b." ["2"], .stray "7"] := by
  have hphrasing : Phrasing ["/", "+", "\x7b.", "2", "7"]
      [.application "/" ["+"], .application "\x7b." ["2"], .stray "7"] := by
    decide +kernel
  have hclosed := hphrasing.not_endsOpen (by decide)
  obtain ⟨ps, -, hunique, heval, -⟩ := evaluation_applies_phrases _ hclosed
  refine ⟨hclosed, ?_⟩
  rw [hunique _ hphrasing]
  exact heval

end ArrayPhrase
