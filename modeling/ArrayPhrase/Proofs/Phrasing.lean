import ArrayPhrase.Proofs.Grouping

/-! How the tokens of a command fall into phrases. `Phrasing` says it verb by verb, without the
table, and is the grouping over the table of the verbs: every token sequence has exactly one
phrasing, the one that is computed. All its phrases are complete, except that a compound verb at
the very end may be open. -/

namespace ArrayPhrase

/-- The operands that a verb takes of the tokens behind it, and what it leaves: all literals up to
the first other token, a literal if one stands there, or any one token. -/
def Verb.Takes (v : Verb) (operands rest : List String) : Prop :=
  match v with
  | plus | reshape => (∀ t ∈ operands, Literal.isLiteral t) ∧ StartsPlain rest
  | take | drop | reverseRotate =>
    (∀ t ∈ operands, Literal.isLiteral t) ∧ operands.length ≤ 1 ∧
      (operands = [] → StartsPlain rest)
  | tilde | insert => operands.length = 1 ∨ operands = [] ∧ rest = []
  | _ => operands = []

/-- The phrases of a token sequence. A literal that no verb takes is a stray one; every other
token heads a phrase with the operands it takes. -/
inductive Phrasing : List String → List Phrase → Prop where
  | nil : Phrasing [] []
  | stray {literal : String} {rest : List String} {ps : List Phrase}
    (isLiteral : Literal.isLiteral literal = true) (tail : Phrasing rest ps) :
    Phrasing (literal :: rest) (.stray literal :: ps)
  | application {head : String} {operands rest : List String} {ps : List Phrase}
    (notLiteral : Literal.isLiteral head = false) (takes : (Verb.lookup head).Takes operands rest)
    (tail : Phrasing rest ps) :
    Phrasing (head :: (operands ++ rest)) (.application head operands :: ps)

/-- The last token is a compound verb that is itself no follower, and so has none. -/
def EndsOpen (texts : List String) (compound : Verb) : Prop :=
  (compound = .tilde ∨ compound = .insert) ∧
    ∃ ps, Phrasing texts (ps ++ [.application compound.rep []])

/-- A phrase whose head has what it needs whatever stands behind the phrase. -/
def Phrase.Complete : Phrase → Prop
  | application head operands =>
    Literal.isLiteral head = false ∧ (Verb.lookup head).Takes operands [] ∧
      ((Verb.lookup head).consumption = .follower → operands ≠ [])
  | stray _ => True

/-! ### Operands -/

theorem Verb.takes_iff_consumption {v : Verb} {operands rest : List String} :
    v.Takes operands rest ↔ v.consumption.Takes operands rest := by
  cases v <;> exact Iff.rfl

/-- What a verb takes is what its consumption counts. -/
theorem Verb.takes_iff {v : Verb} {operands rest : List String} :
    v.Takes operands rest ↔ v.consumption.operandCount (operands ++ rest) = operands.length :=
  takes_iff_consumption.trans Consumption.takes_iff

instance (v : Verb) (operands rest : List String) : Decidable (v.Takes operands rest) :=
  decidable_of_iff _ Verb.takes_iff.symm

instance : DecidablePred Phrase.Complete
  | .application head operands => inferInstanceAs <| Decidable <|
      Literal.isLiteral head = false ∧ (Verb.lookup head).Takes operands [] ∧
        ((Verb.lookup head).consumption = .follower → operands ≠ [])
  | .stray _ => .isTrue trivial

theorem Verb.Takes.isLiteral {v : Verb} {operands rest : List String} (h : v.Takes operands rest)
    (hv : v.consumption ≠ .follower) : ∀ t ∈ operands, Literal.isLiteral t := by
  cases v with
  | plus | reshape => exact h.1
  | take | drop | reverseRotate => exact h.1
  | tilde | insert => exact absurd rfl hv
  | _ =>
    intro t ht
    rw [show operands = [] from h] at ht
    cases ht

/-- The operands stay what the verb takes when they stand in another order with nothing behind. -/
theorem Verb.Takes.reverse {v : Verb} {operands rest : List String} (h : v.Takes operands rest) :
    v.Takes operands.reverse [] :=
  takes_iff_consumption.2 (takes_iff_consumption.1 h).reverse

/-- A verb takes the same when some of what it leaves is not there. -/
theorem Verb.Takes.of_append {v : Verb} {operands rest others : List String}
    (h : v.Takes operands (rest ++ others)) : v.Takes operands rest :=
  takes_iff_consumption.2 (takes_iff_consumption.1 h).of_append

/-- More tokens may follow what a verb leaves when they do not begin with a literal. A compound
verb has to have its follower before. -/
theorem Verb.Takes.append {v : Verb} {operands rest others : List String}
    (h : v.Takes operands rest) (hothers : StartsPlain others)
    (hown : v.consumption = .follower → operands ≠ []) : v.Takes operands (rest ++ others) :=
  takes_iff_consumption.2 ((takes_iff_consumption.1 h).append hothers hown)

/-! ### The table -/

namespace Verb

theorem not_isLiteral_rep : ∀ v ∈ table, Literal.isLiteral v.rep = false := by
  decide

theorem plain_registry : registry.Plain := by
  intro operator hoperator
  obtain ⟨v, hv, rfl⟩ := List.mem_map.1 hoperator
  exact not_isLiteral_rep v hv

theorem find?_registry (token : String) :
    registry.find? token = (table.find? fun v => v.rep = token).map operator := by
  unfold Registry.find? registry
  dsimp only
  rw [List.find?_map]
  rfl

theorem find?_eq_none_of_isLiteral {token : String} (h : Literal.isLiteral token = true) :
    (table.find? fun v => v.rep = token) = none := by
  rw [List.find?_eq_none]
  intro v hv hrep
  rw [decide_eq_true_eq] at hrep
  rw [← hrep, not_isLiteral_rep v hv] at h
  cases h

theorem lookup_of_isLiteral {token : String} (h : Literal.isLiteral token = true) :
    lookup token = noOp := by
  rw [lookup, find?_eq_none_of_isLiteral h]
  rfl

/-- The strays of the table are the literals. -/
theorem isStray_registry_iff {token : String} :
    registry.IsStray token ↔ Literal.isLiteral token = true := by
  refine and_iff_left_of_imp fun h => ?_
  rw [find?_registry, find?_eq_none_of_isLiteral h]
  rfl

theorem consumption_registry (token : String) :
    registry.consumption token = (lookup token).consumption := by
  rw [Registry.consumption, find?_registry, lookup]
  cases table.find? fun v => v.rep = token <;> rfl

/-- A token of the table is the representation of the verb it stands for. -/
theorem rep_lookup_of_ne_noOp {token : String} (h : lookup token ≠ noOp) :
    (lookup token).rep = token := by
  unfold lookup at h ⊢
  cases hfind : table.find? fun v => v.rep = token with
  | none =>
    rw [hfind] at h
    exact absurd rfl h
  | some v => simpa using List.find?_some hfind

theorem rep_lookup {token : String} (h : (lookup token).consumption ≠ .nothing) :
    (lookup token).rep = token :=
  rep_lookup_of_ne_noOp fun hnoOp => h (by rw [hnoOp]; rfl)

theorem lookup_rep_scalar (s : Scalar) : lookup s.rep = scalar s := by
  cases s <;> decide

theorem eq_tilde_or_insert {v : Verb} (h : v.consumption = .follower) :
    v = tilde ∨ v = insert := by
  cases v with
  | tilde => exact .inl rfl
  | insert => exact .inr rfl
  | _ => cases h

end Verb

/-! ### The computed phrases -/

theorem phrasing_iff_grouping {texts : List String} {ps : List Phrase} :
    Phrasing texts ps ↔ Grouping Verb.registry texts ps := by
  constructor
  · intro h
    induction h with
    | nil => exact .nil
    | stray isLiteral _ ih => exact .stray (Verb.isStray_registry_iff.2 isLiteral) ih
    | application notLiteral takes _ ih =>
      refine .application ?_ ?_ ih
      · rw [Verb.isStray_registry_iff, notLiteral]
        decide
      · rw [Verb.consumption_registry]
        exact Verb.takes_iff_consumption.1 takes
  · intro h
    induction h with
    | nil => exact .nil
    | stray isStray _ ih => exact .stray (Verb.isStray_registry_iff.1 isStray) ih
    | application notStray takes _ ih =>
      refine .application ?_ ?_ ih
      · rwa [Verb.isStray_registry_iff, Bool.not_eq_true] at notStray
      · rw [Verb.consumption_registry] at takes
        exact Verb.takes_iff_consumption.2 takes

theorem phrasing_phrases (texts : List String) : Phrasing texts (phrases Verb.registry texts) :=
  phrasing_iff_grouping.2 (grouping_phrases Verb.registry texts)

/-- The computed phrases are the only phrasing. -/
theorem Phrasing.eq_phrases {texts : List String} {ps : List Phrase} (h : Phrasing texts ps) :
    ps = phrases Verb.registry texts :=
  (phrasing_iff_grouping.1 h).eq_phrases

theorem phrasing_iff {texts : List String} {ps : List Phrase} :
    Phrasing texts ps ↔ ps = phrases Verb.registry texts :=
  ⟨Phrasing.eq_phrases, fun h => h ▸ phrasing_phrases texts⟩

instance (texts : List String) : DecidablePred (Phrasing texts) := fun _ =>
  decidable_of_iff _ phrasing_iff.symm

theorem endsOpen_iff {texts : List String} {compound : Verb} :
    EndsOpen texts compound ↔ (compound = .tilde ∨ compound = .insert) ∧
      (phrases Verb.registry texts).getLast? = some (.application compound.rep []) := by
  simp only [EndsOpen, phrasing_iff, List.getLast?_eq_some_iff, eq_comm]

instance (texts : List String) : DecidablePred (EndsOpen texts) := fun _ =>
  decidable_of_iff _ endsOpen_iff.symm

theorem Phrasing.unique {texts : List String} {ps qs : List Phrase} (hp : Phrasing texts ps)
    (hq : Phrasing texts qs) : ps = qs :=
  hp.eq_phrases.trans hq.eq_phrases.symm

/-! ### Parts of a command -/

theorem Phrasing.of_append {texts : List String} {ps qs : List Phrase}
    (h : Phrasing texts (ps ++ qs)) :
    ∃ init rest, texts = init ++ rest ∧ Phrasing init ps ∧ Phrasing rest qs := by
  induction ps generalizing texts with
  | nil => exact ⟨[], texts, rfl, .nil, h⟩
  | cons q ps ih =>
    cases h with
    | @stray literal _ _ isLiteral tail =>
      obtain ⟨init, rest, rfl, hinit, hrest⟩ := ih tail
      exact ⟨literal :: init, rest, rfl, .stray isLiteral hinit, hrest⟩
    | @application head operands _ _ notLiteral takes tail =>
      obtain ⟨init, rest, rfl, hinit, hrest⟩ := ih tail
      refine ⟨head :: (operands ++ init), rest, by simp, ?_, hrest⟩
      exact .application notLiteral takes.of_append hinit

/-- The tokens of a phrase are tokens of the command. -/
theorem Phrasing.applied_subset {texts : List String} {ps : List Phrase} (h : Phrasing texts ps) :
    ∀ q ∈ ps, q.applied ⊆ texts := by
  induction h with
  | nil => simp
  | stray _ _ ih =>
    rw [List.forall_mem_cons]
    exact ⟨List.nil_subset _, fun q hq => List.Subset.trans (ih q hq) (List.subset_cons_self _ _)⟩
  | @application head operands rest _ _ _ _ ih =>
    rw [List.forall_mem_cons]
    have hrest : rest ⊆ head :: (operands ++ rest) :=
      List.Subset.trans (List.subset_append_right _ _) (List.subset_cons_self _ _)
    refine ⟨?_, fun q hq => List.Subset.trans (ih q hq) hrest⟩
    intro token htoken
    simp only [Phrase.applied, List.mem_cons, List.mem_reverse] at htoken
    simp only [List.mem_cons, List.mem_append]
    exact htoken.imp_right .inl

/-- Complete phrases stay the same in front of a command that does not begin with a literal. -/
theorem Phrasing.append {init rest : List String} {ps qs : List Phrase} (h : Phrasing init ps)
    (hps : ∀ q ∈ ps, q.Complete) (hrest : Phrasing rest qs) (hplain : StartsPlain rest) :
    Phrasing (init ++ rest) (ps ++ qs) := by
  induction h with
  | nil => exact hrest
  | stray isLiteral _ ih =>
    rw [List.forall_mem_cons] at hps
    exact .stray isLiteral (ih hps.2)
  | application notLiteral takes _ ih =>
    rw [List.forall_mem_cons] at hps
    rw [List.cons_append, List.append_assoc]
    exact .application notLiteral (takes.append hplain hps.1.2.2) (ih hps.2)

/-! ### Complete phrases -/

/-- A literal after its head is all that a verb of one literal needs. -/
theorem Phrase.complete_of_literal {head count : String} (hhead : Literal.isLiteral head = false)
    (hverb : (Verb.lookup head).consumption = .literal) (hcount : Literal.isLiteral count = true) :
    (Phrase.application head [count]).Complete := by
  refine ⟨hhead, Verb.takes_iff.2 ?_, fun _ => List.cons_ne_nil _ _⟩
  rw [hverb, List.append_nil, Consumption.operandCount_literal_cons, if_pos hcount]
  rfl

theorem Phrase.complete_iff {q : Phrase} : q.Complete ↔ q.CompleteIn Verb.registry := by
  cases q with
  | stray literal => exact Iff.rfl
  | application head operands =>
    rw [Complete, CompleteIn, Verb.consumption_registry, Verb.takes_iff_consumption]

/-- All phrases are complete but perhaps the last one, when that is a bare compound verb. -/
theorem Phrasing.complete_or_open {texts : List String} {ps : List Phrase}
    (h : Phrasing texts ps) :
    (∀ q ∈ ps, q.Complete) ∨ ∃ before v, (v = Verb.tilde ∨ v = Verb.insert) ∧
      ps = before ++ [.application v.rep []] ∧ ∀ q ∈ before, q.Complete := by
  simp only [Phrase.complete_iff]
  rcases (phrasing_iff_grouping.1 h).complete_or_open Verb.plain_registry with
    hall | ⟨before, head, rfl, hfollower, hbefore⟩
  · exact .inl hall
  · rw [Verb.consumption_registry] at hfollower
    have hrep : (Verb.lookup head).rep = head := Verb.rep_lookup (by rw [hfollower]; decide)
    refine .inr ⟨before, Verb.lookup head, Verb.eq_tilde_or_insert hfollower, ?_, hbefore⟩
    rw [hrep]

theorem Phrasing.complete {texts : List String} {ps : List Phrase} (h : Phrasing texts ps)
    (hclosed : ∀ v, ¬ EndsOpen texts v) : ∀ q ∈ ps, q.Complete := by
  rcases h.complete_or_open with hall | ⟨before, v, hv, rfl, -⟩
  · exact hall
  · exact absurd ⟨hv, before, h⟩ (hclosed v)

theorem Phrasing.not_endsOpen {texts : List String} {ps : List Phrase} (h : Phrasing texts ps)
    (hps : ∀ q ∈ ps, q.Complete) (v : Verb) : ¬ EndsOpen texts v := by
  rintro ⟨hv, before, hopen⟩
  rw [h.unique hopen] at hps
  have hlast := hps (.application v.rep []) (by simp)
  rcases hv with rfl | rfl
  · exact absurd hlast (by decide)
  · exact absurd hlast (by decide)

end ArrayPhrase
