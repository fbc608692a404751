import ArrayPhrase.Phrase
import ArrayPhrase.Proofs.Operands

/-! How tokens fall into phrases over any table of operators. `Grouping` says it head by head: an
operator takes the operands that its consumption asks for, any other token takes none, and a
literal that is no operator is left out. The computed phrases are the only grouping there is. When
no operator is written like a literal they are complete, except that the last one may lack its
follower. -/

namespace ArrayPhrase

/-- The operands that are taken of the tokens behind an operator, and what is left of these: none,
a literal if one stands there, all literals up to the first other token, or any one token. -/
def Consumption.Takes : Consumption → List String → List String → Prop
  | nothing, operands, _ => operands = []
  | literal, operands, rest =>
    (∀ t ∈ operands, Literal.isLiteral t) ∧ operands.length ≤ 1 ∧
      (operands = [] → StartsPlain rest)
  | literals, operands, rest => (∀ t ∈ operands, Literal.isLiteral t) ∧ StartsPlain rest
  | follower, operands, rest => operands.length = 1 ∨ operands = [] ∧ rest = []

namespace Registry

/-- What a token takes at the head of a phrase; nothing, if it is no operator. -/
def consumption (registry : Registry) (token : String) : Consumption :=
  (registry.find? token).elim .nothing Operator.consumption

/-- A literal that is no operator. -/
def IsStray (registry : Registry) (token : String) : Prop :=
  Literal.isLiteral token = true ∧ registry.find? token = none

instance (registry : Registry) : DecidablePred registry.IsStray := fun token =>
  inferInstanceAs (Decidable (Literal.isLiteral token = true ∧ registry.find? token = none))

end Registry

/-- The phrases of a token sequence. A stray literal at the head of a phrase is one by itself;
every other token at the head has the operands that it takes. -/
inductive Grouping (registry : Registry) : List String → List Phrase → Prop where
  | nil : Grouping registry [] []
  | stray {literal : String} {rest : List String} {ps : List Phrase}
    (isStray : registry.IsStray literal) (tail : Grouping registry rest ps) :
    Grouping registry (literal :: rest) (.stray literal :: ps)
  | application {head : String} {operands rest : List String} {ps : List Phrase}
    (notStray : ¬ registry.IsStray head)
    (takes : (registry.consumption head).Takes operands rest) (tail : Grouping registry rest ps) :
    Grouping registry (head :: (operands ++ rest)) (.application head operands :: ps)

namespace Registry

/-- The last phrase is an operator that takes a follower and has none. -/
def EndsOpen (registry : Registry) (texts : List String) : Prop :=
  ∃ ps head, Grouping registry texts (ps ++ [.application head []]) ∧
    registry.consumption head = .follower

/-- No operator is written like a literal. -/
def Plain (registry : Registry) : Prop :=
  ∀ operator ∈ registry.operators, Literal.isLiteral operator.rep = false

end Registry

namespace Phrase

/-- A phrase whose head is no literal and has what it needs, whatever stands behind. -/
def CompleteIn (registry : Registry) : Phrase → Prop
  | application head operands =>
    Literal.isLiteral head = false ∧ (registry.consumption head).Takes operands [] ∧
      (registry.consumption head = .follower → operands ≠ [])
  | stray _ => True

end Phrase

/-! ### Operands -/

theorem length_takeWhile_append_eq_iff {operands rest : List String} :
    ((operands ++ rest).takeWhile Literal.isLiteral).length = operands.length ↔
      (∀ t ∈ operands, Literal.isLiteral t) ∧ StartsPlain rest := by
  constructor
  · intro h
    have hall : ∀ t ∈ operands, Literal.isLiteral t := by
      rw [List.takeWhile_append] at h
      split_ifs at h with hlen
      · intro t ht
        rw [← (List.takeWhile_prefix _).eq_of_length hlen] at ht
        exact List.mem_takeWhile_imp ht
      · exact absurd h hlen
    rw [List.takeWhile_append_of_pos hall, List.length_append] at h
    refine ⟨hall, ?_⟩
    cases rest with
    | nil => exact startsPlain_nil
    | cons t rest =>
      rw [startsPlain_cons]
      by_contra ht
      rw [List.takeWhile_cons_of_pos (by simpa using ht), List.length_cons] at h
      omega
  · rintro ⟨hall, hrest⟩
    rw [hrest.takeWhile_append, List.takeWhile_eq_self_iff.2 hall]

namespace Consumption

theorem operandCount_literal_append_eq_iff {operands rest : List String} :
    literal.operandCount (operands ++ rest) = operands.length ↔
      (∀ t ∈ operands, Literal.isLiteral t) ∧ operands.length ≤ 1 ∧
        (operands = [] → StartsPlain rest) := by
  rcases operands with _ | ⟨t, _ | ⟨t', operands⟩⟩
  · cases rest with
    | nil => simp [operandCount, startsPlain_nil]
    | cons t rest =>
      rw [List.nil_append, operandCount_literal_cons, startsPlain_cons]
      cases Literal.isLiteral t <;> simp
  · rw [List.singleton_append, operandCount_literal_cons]
    cases h : Literal.isLiteral t <;> simp [h]
  · rw [List.cons_append, operandCount_literal_cons]
    split_ifs <;> simp

theorem operandCount_follower_append_eq_iff {operands rest : List String} :
    follower.operandCount (operands ++ rest) = operands.length ↔
      operands.length = 1 ∨ operands = [] ∧ rest = [] := by
  rcases operands with _ | ⟨t, _ | ⟨t', operands⟩⟩
  · cases rest <;> simp [operandCount]
  · simp [operandCount]
  · simp [operandCount]

variable {c : Consumption} {operands operands' rest rest' others : List String}

/-- What is taken is as much as is counted. -/
theorem takes_iff : c.Takes operands rest ↔
    c.operandCount (operands ++ rest) = operands.length := by
  cases c with
  | nothing => exact List.length_eq_zero_iff.symm.trans eq_comm
  | literal => exact operandCount_literal_append_eq_iff.symm
  | literals => exact length_takeWhile_append_eq_iff.symm
  | follower => exact operandCount_follower_append_eq_iff.symm

instance (c : Consumption) (operands rest : List String) : Decidable (c.Takes operands rest) :=
  decidable_of_iff _ takes_iff.symm

theorem takes_take_drop (c : Consumption) (tokens : List String) :
    c.Takes (tokens.take (c.operandCount tokens)) (tokens.drop (c.operandCount tokens)) := by
  rw [takes_iff, List.take_append_drop, List.length_take,
    min_eq_left (operandCount_le_length c tokens)]

/-- The tokens behind an operator determine its operands. -/
theorem Takes.unique (h : c.Takes operands rest) (h' : c.Takes operands' rest')
    (htokens : operands ++ rest = operands' ++ rest') : operands = operands' ∧ rest = rest' := by
  have hlen : operands.length = operands'.length := by
    rw [← takes_iff.1 h, ← takes_iff.1 h', htokens]
  exact List.append_inj htokens hlen

/-- The operands stay what is taken when they stand in another order with nothing behind. -/
theorem Takes.reverse (h : c.Takes operands rest) : c.Takes operands.reverse [] := by
  cases c with
  | nothing => exact List.reverse_eq_nil_iff.2 h
  | literal =>
    refine ⟨fun t ht => h.1 t (List.mem_reverse.1 ht), ?_, fun _ => startsPlain_nil⟩
    rw [List.length_reverse]
    exact h.2.1
  | literals => exact ⟨fun t ht => h.1 t (List.mem_reverse.1 ht), startsPlain_nil⟩
  | follower => exact h.imp (by simp) fun hnil => ⟨by simp [hnil.1], rfl⟩

/-- The same is taken when some of what is left is not there. -/
theorem Takes.of_append (h : c.Takes operands (rest ++ others)) : c.Takes operands rest := by
  cases c with
  | nothing => exact h
  | literal => exact ⟨h.1, h.2.1, fun hnil => (h.2.2 hnil).of_append⟩
  | literals => exact ⟨h.1, h.2.of_append⟩
  | follower => exact h.imp_right fun hnil => ⟨hnil.1, (List.append_eq_nil_iff.1 hnil.2).1⟩

/-- More tokens may stand behind what is left when they do not begin with a literal. A follower
has to be there before. -/
theorem Takes.append (h : c.Takes operands rest) (hothers : StartsPlain others)
    (hown : c = .follower → operands ≠ []) : c.Takes operands (rest ++ others) := by
  cases c with
  | nothing => exact h
  | literal => exact ⟨h.1, h.2.1, fun hnil => (h.2.2 hnil).append hothers⟩
  | literals => exact ⟨h.1, h.2.append hothers⟩
  | follower => exact .inl (h.resolve_right fun hnil => hown rfl hnil.1)

end Consumption

/-! ### The computed phrases -/

variable {registry : Registry} {head literal : String} {texts rest : List String}
  {ps qs : List Phrase}

theorem phrases_nil (registry : Registry) : phrases registry [] = [] := by
  rw [phrases]

theorem phrases_cons_of_isStray (h : registry.IsStray literal) :
    phrases registry (literal :: rest) = .stray literal :: phrases registry rest := by
  rw [phrases, h.2]
  simp only [h.1, if_true]

theorem phrases_cons_of_not_isStray (h : ¬ registry.IsStray head) :
    phrases registry (head :: rest) =
      let count := (registry.consumption head).operandCount rest
      .application head (rest.take count) :: phrases registry (rest.drop count) := by
  rw [phrases, Registry.consumption]
  cases hfind : registry.find? head with
  | some operator => rfl
  | none =>
    have hplain : ¬ Literal.isLiteral head = true := fun hlit => h ⟨hlit, hfind⟩
    simp [hplain, Consumption.operandCount]

theorem grouping_phrases (registry : Registry) :
    ∀ texts, Grouping registry texts (phrases registry texts)
  | [] => by
    rw [phrases_nil]
    exact .nil
  | head :: rest => by
    by_cases h : registry.IsStray head
    · rw [phrases_cons_of_isStray h]
      exact .stray h (grouping_phrases registry rest)
    · rw [phrases_cons_of_not_isStray h]
      have htakes := (registry.consumption head).takes_take_drop rest
      have htail := grouping_phrases registry
        (rest.drop ((registry.consumption head).operandCount rest))
      simpa only [List.take_append_drop] using Grouping.application h htakes htail
termination_by texts => texts.length
decreasing_by all_goals (simp only [List.length_cons, List.length_drop]; omega)

namespace Grouping

/-- The computed phrases are the only grouping. -/
theorem eq_phrases (h : Grouping registry texts ps) : ps = phrases registry texts := by
  induction h with
  | nil => rw [phrases_nil]
  | stray isStray _ ih => rw [phrases_cons_of_isStray isStray, ih]
  | application notStray takes _ ih =>
    rw [phrases_cons_of_not_isStray notStray]
    dsimp only
    rw [Consumption.takes_iff.1 takes, List.take_left, List.drop_left, ih]

theorem unique (hp : Grouping registry texts ps) (hq : Grouping registry texts qs) : ps = qs :=
  hp.eq_phrases.trans hq.eq_phrases.symm

/-- The phrases as they were written are the tokens. -/
theorem flatMap_written (h : Grouping registry texts ps) : ps.flatMap Phrase.written = texts := by
  induction h with
  | nil => rfl
  | stray _ _ ih => rw [List.flatMap_cons, ih, Phrase.written, List.singleton_append]
  | application _ _ _ ih => rw [List.flatMap_cons, ih, Phrase.written, List.cons_append]

theorem length_le (h : Grouping registry texts ps) : ps.length ≤ texts.length := by
  induction h with
  | nil => exact Nat.le_refl _
  | stray _ _ ih => exact Nat.succ_le_succ ih
  | application _ _ _ ih =>
    simp only [List.length_cons, List.length_append]
    omega

end Grouping

/-! ### Complete phrases -/

namespace Registry

theorem Plain.isLiteral_eq_false (h : registry.Plain) (hhead : ¬ registry.IsStray head) :
    Literal.isLiteral head = false := by
  by_contra hlit
  rw [Bool.not_eq_false] at hlit
  obtain ⟨operator, hoperator⟩ := Option.ne_none_iff_exists'.1 fun hnone => hhead ⟨hlit, hnone⟩
  have hrep : operator.rep = head := by simpa using List.find?_some hoperator
  have hplain := h operator (List.mem_of_find?_eq_some hoperator)
  rw [hrep, hlit] at hplain
  cases hplain

end Registry

/-- All phrases are complete but perhaps the last one, when that is a bare operator that takes a
follower. -/
theorem Grouping.complete_or_open (h : Grouping registry texts ps) (hplain : registry.Plain) :
    (∀ q ∈ ps, q.CompleteIn registry) ∨ ∃ before head, ps = before ++ [.application head []] ∧
      registry.consumption head = .follower ∧ ∀ q ∈ before, q.CompleteIn registry := by
  induction h with
  | nil => exact .inl (by simp)
  | stray _ _ ih =>
    rcases ih with hall | ⟨before, head, rfl, hfollower, hbefore⟩
    · exact .inl (List.forall_mem_cons.2 ⟨trivial, hall⟩)
    · exact .inr ⟨_ :: before, head, rfl, hfollower, List.forall_mem_cons.2 ⟨trivial, hbefore⟩⟩
  | @application head operands rest ps notStray takes tail ih =>
    -- Such an operator is bare only when nothing is left to take, and then no phrase follows.
    by_cases hopen : registry.consumption head = .follower ∧ operands = []
    · obtain ⟨hfollower, rfl⟩ := hopen
      have hrest : rest = [] := by
        rw [hfollower] at takes
        simpa [Consumption.Takes] using takes
      have hps : ps = [] := by
        rw [tail.eq_phrases, hrest, phrases_nil]
      exact .inr ⟨[], head, by rw [hps]; rfl, hfollower, by simp⟩
    · have hq : (Phrase.application head operands).CompleteIn registry := by
        refine ⟨hplain.isLiteral_eq_false notStray, ?_, not_and.1 hopen⟩
        simpa using takes.reverse.reverse
      rcases ih with hall | ⟨before, last, rfl, hfollower, hbefore⟩
      · exact .inl (List.forall_mem_cons.2 ⟨hq, hall⟩)
      · exact .inr ⟨_ :: before, last, rfl, hfollower, List.forall_mem_cons.2 ⟨hq, hbefore⟩⟩

theorem Grouping.complete (h : Grouping registry texts ps) (hplain : registry.Plain)
    (hclosed : ¬ registry.EndsOpen texts) : ∀ q ∈ ps, q.CompleteIn registry := by
  rcases h.complete_or_open hplain with hall | ⟨before, head, rfl, hfollower, -⟩
  · exact hall
  · exact absurd ⟨before, head, h, hfollower⟩ hclosed

/-! ### Application order -/

/-- What is applied begins with the head of a phrase. -/
theorem startsPlain_flatMap_applied
    (h : ∀ head operands, .application head operands ∈ qs → Literal.isLiteral head = false) :
    StartsPlain (qs.flatMap Phrase.applied) := by
  induction qs with
  | nil => exact startsPlain_nil
  | cons q qs ih =>
    rw [List.flatMap_cons]
    cases q with
    | stray literal => exact ih fun head operands hq => h head operands (by simp [hq])
    | application head operands => exact startsPlain_cons.2 (h head operands (by simp))

end ArrayPhrase
