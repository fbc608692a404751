import Mathlib.Data.List.Perm.Basic
import ArrayPhrase.Proofs.Phrasing

/-! Tokens in application order against tokens as written, over any table of operators. Nothing is
lost or added but the unclaimed literals, which are told here by their positions: they stand where
no operator before them takes them. When no operator is written like a literal and the last one
has what it needs, the tokens in application order fall into the same phrases again, so that a
second ordering puts them back as they were written. -/

namespace ArrayPhrase

namespace Registry

/-- The operands that the token at a position takes if a phrase begins there. -/
def OperandsAt (registry : Registry) (texts : List String) (i : Nat) (operands : List String) :
    Prop :=
  ∃ head rest, texts.drop i = head :: (operands ++ rest) ∧
    (registry.consumption head).Takes operands rest

/-- A phrase begins at the position, or the tokens end there. -/
inductive Boundary (registry : Registry) (texts : List String) : Nat → Prop where
  | start : Boundary registry texts 0
  | next {i : Nat} {operands : List String} (here : Boundary registry texts i)
    (taken : registry.OperandsAt texts i operands) :
    Boundary registry texts (i + 1 + operands.length)

/-- The position is in the range of the operands of a head to its left. -/
def IsOperand (registry : Registry) (texts : List String) (j : Nat) : Prop :=
  ∃ i operands, registry.Boundary texts i ∧ registry.OperandsAt texts i operands ∧
    i < j ∧ j ≤ i + operands.length

/-- At the position stands a literal that is no operator and no operand. -/
def Unclaimed (registry : Registry) (texts : List String) (j : Nat) : Prop :=
  (∃ token, texts[j]? = some token ∧ registry.IsStray token) ∧ ¬ registry.IsOperand texts j

end Registry

namespace Phrase

/-- For each token of a phrase, whether it is dropped. -/
def drops : Phrase → List Bool
  | application _ operands => List.replicate (operands.length + 1) false
  | stray _ => [true]

/-- The tokens of a phrase that are not dropped, as they were written. -/
def kept : Phrase → List String
  | application head operands => head :: operands
  | stray _ => []

/-- The phrase that its tokens make in application order. -/
def turned : Phrase → List Phrase
  | application head operands => [application head operands.reverse]
  | stray _ => []

end Phrase

/-- The tokens at the positions that have the property. -/
def tokensAt (texts : List String) (P : Nat → Prop) [DecidablePred P] : List String :=
  (texts.zipIdx.filter fun entry => P entry.2).map Prod.fst

variable {registry : Registry} {texts before rest operands operands' : List String}
  {head literal : String} {i j : Nat} {ps qs : List Phrase}

/-! ### Positions -/

namespace Registry

theorem IsStray.consumption_eq (h : registry.IsStray literal) :
    registry.consumption literal = .nothing := by
  rw [consumption, h.2]
  rfl

theorem OperandsAt.unique (h : registry.OperandsAt texts i operands)
    (h' : registry.OperandsAt texts i operands') : operands = operands' := by
  obtain ⟨head, rest, htokens, htakes⟩ := h
  obtain ⟨head', rest', htokens', htakes'⟩ := h'
  obtain ⟨rfl, htail⟩ := List.cons.inj (htokens.symm.trans htokens')
  exact (htakes.unique htakes' htail).1

/-- The next phrase begins behind the operands at the earliest. -/
theorem Boundary.le_of_lt (hi : registry.Boundary texts i)
    (htaken : registry.OperandsAt texts i operands) (hj : registry.Boundary texts j)
    (hij : i < j) : i + 1 + operands.length ≤ j := by
  induction j using Nat.strong_induction_on generalizing i operands with
  | _ j ih =>
    cases hj with
    | start => omega
    | @next k operands' here taken =>
      rcases lt_trichotomy i k with hik | rfl | hki
      · have hle := ih k (by omega) hi htaken here hik
        omega
      · rw [htaken.unique taken]
      · -- The position would be inside the phrase that begins before it.
        have hle := ih i hij here taken hi hki
        omega

theorem Boundary.not_isOperand (h : registry.Boundary texts j) : ¬ registry.IsOperand texts j := by
  rintro ⟨i, operands, hi, htaken, hij, hle⟩
  have hnext := hi.le_of_lt htaken h hij
  omega

theorem operandsAt_length (htakes : (registry.consumption head).Takes operands rest) :
    registry.OperandsAt (before ++ head :: (operands ++ rest)) before.length operands :=
  ⟨head, rest, List.drop_left, htakes⟩

/-- A phrase ends behind its operands. -/
theorem Boundary.skip (h : registry.Boundary (before ++ head :: (operands ++ rest)) before.length)
    (htakes : (registry.consumption head).Takes operands rest) :
    registry.Boundary ((before ++ head :: operands) ++ rest)
      (before ++ head :: operands).length := by
  have hnext := h.next (operandsAt_length htakes)
  rw [List.append_assoc, List.cons_append, List.length_append, List.length_cons]
  rwa [Nat.add_right_comm, Nat.add_assoc] at hnext

theorem Boundary.skip_stray (h : registry.Boundary (before ++ literal :: rest) before.length)
    (hstray : registry.IsStray literal) :
    registry.Boundary ((before ++ [literal]) ++ rest) (before ++ [literal]).length := by
  have htakes : (registry.consumption literal).Takes [] rest := by
    rw [hstray.consumption_eq]
    rfl
  exact Boundary.skip (by simpa using h) htakes

end Registry

/-- Behind tokens whose phrases end there, the marks of the phrases tell the unclaimed literals. -/
theorem Grouping.unclaimed_append_iff (h : Grouping registry rest ps)
    (hbefore : registry.Boundary (before ++ rest) before.length) (j : Nat) :
    registry.Unclaimed (before ++ rest) (before.length + j) ↔
      (ps.flatMap Phrase.drops)[j]? = some true := by
  induction h generalizing before j with
  | nil => simp [Registry.Unclaimed]
  | @stray literal rest ps isStray tail ih =>
    cases j with
    | zero =>
      refine iff_of_true ⟨⟨literal, by simp, isStray⟩, hbefore.not_isOperand⟩ rfl
    | succ j =>
      have hrest := ih (hbefore.skip_stray isStray) j
      rw [List.append_assoc, List.length_append, List.length_singleton, Nat.add_right_comm] at hrest
      exact hrest
  | @application head operands rest ps notStray takes tail ih =>
    rw [List.flatMap_cons, Phrase.drops]
    rcases Nat.lt_or_ge operands.length j with hj | hj
    · obtain ⟨k, rfl⟩ := Nat.exists_eq_add_of_lt hj
      have hrest := ih (hbefore.skip takes) k
      rw [List.append_assoc, List.cons_append, List.length_append, List.length_cons] at hrest
      rw [List.getElem?_append_right (by simp), List.length_replicate,
        show operands.length + k + 1 - (operands.length + 1) = k by omega, ← hrest]
      rw [show before.length + (operands.length + k + 1) =
        before.length + (operands.length + 1) + k by omega]
    · refine iff_of_false ?_ ?_
      · rintro ⟨⟨token, htoken, hstray⟩, hclaimed⟩
        cases j with
        | zero =>
          obtain rfl : head = token := by simpa using htoken
          exact notStray hstray
        | succ j =>
          refine hclaimed ⟨before.length, operands, hbefore, ?_, by omega, by omega⟩
          exact Registry.operandsAt_length takes
      · rw [List.getElem?_append_left (by simp; omega)]
        simp [List.getElem?_replicate]

theorem Grouping.unclaimed_iff (h : Grouping registry texts ps) (j : Nat) :
    registry.Unclaimed texts j ↔ (ps.flatMap Phrase.drops)[j]? = some true := by
  have hall := h.unclaimed_append_iff (.start : registry.Boundary ([] ++ texts) 0) j
  rwa [List.nil_append, List.length_nil, Nat.zero_add] at hall

instance (registry : Registry) (texts : List String) : DecidablePred (registry.Unclaimed texts) :=
  fun j => decidable_of_iff _ ((grouping_phrases registry texts).unclaimed_iff j).symm

/-! ### Tokens by their positions -/

section TokensAt

variable {P : Nat → Prop} [DecidablePred P]

theorem tokensAt_append (own others : List String) :
    tokensAt (own ++ others) P = tokensAt own P ++ tokensAt others fun j => P (own.length + j) := by
  unfold tokensAt
  rw [List.zipIdx_append, List.filter_append, List.map_append, Nat.zero_add,
    List.zipIdx_eq_map_add (i := own.length), List.filter_map, List.map_map]
  rfl

theorem tokensAt_eq_self (h : ∀ j < texts.length, P j) : tokensAt texts P = texts := by
  unfold tokensAt
  rw [List.filter_eq_self.2, List.zipIdx_map_fst]
  rintro ⟨token, j⟩ hentry
  have hj := List.snd_lt_of_mem_zipIdx hentry
  simpa using h j (by omega)

theorem tokensAt_append_perm (texts : List String) :
    (tokensAt texts P ++ tokensAt texts fun j => ¬ P j).Perm texts := by
  have hparts :=
    (List.filter_append_perm (fun entry => decide (P entry.2)) texts.zipIdx).map Prod.fst
  rw [List.map_append, List.zipIdx_map_fst] at hparts
  simpa [tokensAt] using hparts

/-- What stands at the positions that are not marked are the tokens that are kept. -/
theorem tokensAt_flatMap_written (h : ∀ j, P j ↔ (ps.flatMap Phrase.drops)[j]? = some true) :
    tokensAt (ps.flatMap Phrase.written) (fun j => ¬ P j) = ps.flatMap Phrase.kept := by
  induction ps generalizing P with
  | nil => rfl
  | cons q ps ih =>
    have hlength : q.drops.length = q.written.length := by
      cases q <;> simp [Phrase.drops, Phrase.written]
    rw [List.flatMap_cons, List.flatMap_cons, tokensAt_append]
    congr 1
    · cases q with
      | stray literal =>
        have hmarked : P 0 := (h 0).2 rfl
        simp [tokensAt, Phrase.written, Phrase.kept, hmarked]
      | application head operands =>
        refine tokensAt_eq_self fun j hj => ?_
        rw [h, List.flatMap_cons, List.getElem?_append_left (hlength ▸ hj), Phrase.drops,
          List.getElem?_replicate]
        split_ifs <;> simp
    · refine ih fun j => ?_
      rw [h, List.flatMap_cons, ← hlength, List.getElem?_append_right (Nat.le_add_right _ _),
        Nat.add_sub_cancel_left]

end TokensAt

/-! ### What is kept -/

theorem Phrase.applied_perm_kept (q : Phrase) : q.applied.Perm q.kept := by
  cases q with
  | stray literal => exact .nil
  | application head operands => exact (List.reverse_perm operands).cons head

theorem Grouping.flatMap_kept (h : Grouping registry texts ps) :
    ps.flatMap Phrase.kept = tokensAt texts fun j => ¬ registry.Unclaimed texts j := by
  rw [← tokensAt_flatMap_written h.unclaimed_iff, h.flatMap_written]

/-- Application order loses the unclaimed literals and nothing else, and invents nothing. The
phrases stand in it last first, every head before its operands, and these last first. -/
theorem regrouping_keeps_tokens (registry : Registry) (texts : List String) :
    ∃ ps, Grouping registry texts ps ∧ (∀ qs, Grouping registry texts qs → qs = ps) ∧
      ps.length ≤ texts.length ∧ ps.flatMap Phrase.written = texts ∧
      ps.flatMap Phrase.kept = tokensAt texts (fun j => ¬ registry.Unclaimed texts j) ∧
      applicationOrder registry texts = ps.reverse.flatMap Phrase.applied ∧
      texts.Perm
        (applicationOrder registry texts ++ tokensAt texts (registry.Unclaimed texts)) := by
  have hgroups := grouping_phrases registry texts
  refine ⟨phrases registry texts, hgroups, fun qs hqs => hqs.unique hgroups, hgroups.length_le,
    hgroups.flatMap_written, hgroups.flatMap_kept, rfl, ?_⟩
  have horder : (applicationOrder registry texts).Perm
      (tokensAt texts fun j => ¬ registry.Unclaimed texts j) := by
    rw [← hgroups.flatMap_kept]
    exact (List.reverse_perm _).flatMap fun q _ => q.applied_perm_kept
  exact (tokensAt_append_perm texts).symm.trans
    (List.perm_append_comm.trans (horder.symm.append_right _))

/-! ### Twice -/

/-- Complete phrases in application order fall into the same phrases again. -/
theorem grouping_applied (h : ∀ q ∈ qs, q.CompleteIn registry) :
    Grouping registry (qs.flatMap Phrase.applied) (qs.flatMap Phrase.turned) := by
  induction qs with
  | nil => exact .nil
  | cons q qs ih =>
    rw [List.forall_mem_cons] at h
    cases q with
    | stray literal => exact ih h.2
    | application head operands =>
      obtain ⟨⟨hhead, htakes, hfollower⟩, hqs⟩ := h
      refine .application (fun hstray => ?_) ?_ (ih hqs)
      · cases hhead.symm.trans hstray.1
      · have hothers : StartsPlain (qs.flatMap Phrase.applied) :=
          startsPlain_flatMap_applied fun _ _ hq => (hqs _ hq).1
        exact htakes.reverse.append hothers (by simpa using hfollower)

theorem flatMap_turned_reverse (qs : List Phrase) :
    (qs.flatMap Phrase.turned).reverse.flatMap Phrase.applied = qs.reverse.flatMap Phrase.kept := by
  induction qs with
  | nil => rfl
  | cons q qs ih =>
    have hq : q.turned.reverse.flatMap Phrase.applied = q.kept := by
      cases q <;> simp [Phrase.turned, Phrase.applied, Phrase.kept]
    rw [List.flatMap_cons, List.reverse_append, List.flatMap_append, ih, hq, List.reverse_cons,
      List.flatMap_append, List.flatMap_singleton]

/-- Where no operator is written like a literal and none at the end lacks its follower, the tokens
in application order fall into the same phrases, last first and with their operands turned. So
application order applied twice leaves out the unclaimed literals and changes nothing else. -/
theorem regrouping_twice (hplain : registry.Plain) (hclosed : ¬ registry.EndsOpen texts) :
    (∀ ps, Grouping registry texts ps →
        Grouping registry (applicationOrder registry texts) (ps.reverse.flatMap Phrase.turned)) ∧
      applicationOrder registry (applicationOrder registry texts) =
        tokensAt texts fun j => ¬ registry.Unclaimed texts j := by
  have hgroups := grouping_phrases registry texts
  have hcomplete := hgroups.complete hplain hclosed
  have hagain : Grouping registry (applicationOrder registry texts)
      ((phrases registry texts).reverse.flatMap Phrase.turned) :=
    grouping_applied fun q hq => hcomplete q (List.mem_reverse.1 hq)
  refine ⟨fun ps hps => hps.eq_phrases ▸ hagain, ?_⟩
  calc applicationOrder registry (applicationOrder registry texts)
      = ((phrases registry texts).reverse.flatMap Phrase.turned).reverse.flatMap
          Phrase.applied := by
        rw [hagain.eq_phrases]
        rfl
    _ = (phrases registry texts).flatMap Phrase.kept := by
        rw [flatMap_turned_reverse, List.reverse_reverse]
    _ = tokensAt texts fun j => ¬ registry.Unclaimed texts j := hgroups.flatMap_kept

/-- An operator can be the follower of another, and a literal can lie between two operators. -/
theorem regrouping_twice_insert_before_insert :
    Verb.registry.Plain ∧
      ¬ Verb.registry.EndsOpen ["5", "/", "+", "$", "2", "3", "/", "/", "\x7b.", "x", "7"] ∧
      applicationOrder Verb.registry (applicationOrder Verb.registry
        ["5", "/", "+", "$", "2", "3", "/", "/", "\x7b.", "x", "7"]) =
        ["/", "+", "$", "2", "3", "/", "/", "\x7b.", "x"] := by
  have hclosed :
      ¬ Verb.registry.EndsOpen ["5", "/", "+", "$", "2", "3", "/", "/", "\x7b.", "x", "7"] := by
    rintro ⟨ps, head, hopen, -⟩
    have hlast := congrArg List.getLast? hopen.eq_phrases
    rw [List.getLast?_concat] at hlast
    cases hlast.trans (show _ = some (.stray "7") by decide +kernel)
  refine ⟨Verb.plain_registry, hclosed, ?_⟩
  rw [(regrouping_twice Verb.plain_registry hclosed).2]
  decide +kernel

end ArrayPhrase
