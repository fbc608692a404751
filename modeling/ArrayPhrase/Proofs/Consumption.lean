import ArrayPhrase.Proofs.Faults
import ArrayPhrase.Proofs.Phrasing
import ArrayPhrase.Proofs.Run

/-! Tokens that a verb takes. It takes all the operands that the table counts for it, or none of
them: none when they cannot be read, all when they can, even if it then fails on the noun. So what
is left of a stream is always an end of it, every step leaves less, and evaluation comes to an end
after as many steps as there are tokens or sooner. -/

namespace ArrayPhrase

open State

/-- The first `count` tokens of `s` are taken, and `t` is left. -/
def TokenStream.Advanced (s : TokenStream) (count : Nat) (t : TokenStream) : Prop :=
  ∃ taken, taken.length = count ∧ s.remaining = taken ++ t.remaining

/-- Whether the fault is one of operands that cannot be read: a follower is missing, or a literal is
none or too long. -/
def Fault.isOfReading : Fault → Bool
  | missingFollower .. | invalidLiteral _ | literalTooLong _ => true
  | _ => false

theorem Fault.OfNoun.isOfReading_eq_false {fault : Fault} (h : fault.OfNoun) :
    fault.isOfReading = false := by
  cases fault with
  | missingFollower | invalidLiteral | literalTooLong => exact absurd h not_false
  | _ => rfl

/-- How many of its operands a verb has taken when it ends with an outcome: all of them unless it
could not read them. -/
def takenOperands (count : Nat) : Except Fault Noun → Nat
  | .ok _ => count
  | .error fault => if fault.isOfReading then 0 else count

/-! ### One verb -/

namespace TokenStream

variable {s t u : TokenStream} {count : Nat}

theorem advanced_zero (s : TokenStream) : s.Advanced 0 s :=
  ⟨[], rfl, rfl⟩

theorem advanced_drop (h : count ≤ s.length) : s.Advanced count (s.drop count) :=
  ⟨s.remaining.take count, List.length_take_of_le h, (List.take_append_drop _ _).symm⟩

theorem Advanced.suffix (h : s.Advanced count t) : t.remaining <:+ s.remaining := by
  obtain ⟨taken, -, hs⟩ := h
  exact ⟨taken, hs.symm⟩

end TokenStream

namespace Verb

variable {p : Precision} {v : Verb} {x : Noun} {s t : TokenStream}

theorem isOfReading_of_read {fault : Fault} (h : v.read s = .error fault) :
    fault.isOfReading = true := by
  rcases read_eq_error h with ⟨-, rfl⟩ | ⟨digits, rfl⟩
  · rfl
  · rfl

theorem advanced_run (p : Precision) (v : Verb) (x : Noun) (s : TokenStream) :
    s.Advanced (takenOperands (v.consumption.operandCount s.remaining) (v.run p x s).1)
      (v.run p x s).2 := by
  unfold run
  cases hread : v.read s with
  | error fault =>
    have hzero : takenOperands (v.consumption.operandCount s.remaining) (.error fault) = 0 :=
      if_pos (isOfReading_of_read hread)
    exact hzero ▸ s.advanced_zero
  | ok result =>
    obtain ⟨action, used⟩ := result
    have hused := used_of_read hread
    have hall : takenOperands used (action.apply p x) = used := by
      cases happly : action.apply p x with
      | ok y => rfl
      | error fault =>
        -- Once the operands are read, the fault is one of the noun.
        exact if_neg (by simp [(Action.ofNoun_of_apply happly).isOfReading_eq_false])
    dsimp only
    rw [← hused, hall, hused]
    exact TokenStream.advanced_drop (Consumption.operandCount_le_length _ _)

theorem suffix_run (p : Precision) (v : Verb) (x : Noun) (s : TokenStream) :
    (v.run p x s).2.remaining <:+ s.remaining :=
  (advanced_run p v x s).suffix

/-- What the table lists under a token is what is run for it. -/
theorem operator_lookup {token : String} {operator : Operator}
    (h : registry.find? token = some operator) : (lookup token).operator = operator := by
  rw [find?_registry] at h
  obtain ⟨v, hv, rfl⟩ := Option.map_eq_some_iff.1 h
  rw [lookup, hv]
  rfl

end Verb

/-! ### Whole evaluations -/

variable {p : Precision} {x : Noun} {s : TokenStream}

theorem State.Next.suffix {a b : State} (h : Next p a b) :
    b.stream.remaining <:+ a.stream.remaining := by
  obtain @⟨token, rest, x, y, t, run⟩ := h
  have hrest := Verb.suffix_run p (Verb.lookup token) x ⟨rest⟩
  rw [run] at hrest
  exact hrest.trans (List.suffix_cons token rest)

theorem State.Reaches.suffix {a b : State} (h : Reaches p a b) :
    b.stream.remaining <:+ a.stream.remaining :=
  h.preserves (P := fun c => c.stream.remaining <:+ a.stream.remaining)
    (fun hnext hc => hnext.suffix.trans hc) (List.suffix_refl _)

theorem State.Next.length_lt {a b : State} (h : Next p a b) :
    b.stream.length < a.stream.length := by
  obtain @⟨token, rest, x, y, t, run⟩ := h
  have hrest := Verb.length_run_le p (Verb.lookup token) x ⟨rest⟩
  rw [run] at hrest
  exact Nat.lt_succ_of_le hrest

/-- The numbers of tokens left go down with every step, that of a failure included. -/
theorem isChain_left_steps (p : Precision) (x : Noun) (s : TokenStream) :
    (s.length :: (steps p x s).map Step.left).IsChain (· > ·) := by
  fun_induction steps p x s with
  | case1 => simp
  | case2 x token rest outcome step y hok ih =>
    have hle := Verb.length_run_le p (Verb.lookup token) x ⟨rest⟩
    rw [List.map_cons, List.isChain_cons_cons]
    exact ⟨Nat.lt_succ_of_le hle, ih⟩
  | case3 x token rest outcome step fault herror =>
    have hle := Verb.length_run_le p (Verb.lookup token) x ⟨rest⟩
    exact .cons_cons (Nat.lt_succ_of_le hle) (.singleton _)

theorem length_steps_le (p : Precision) (x : Noun) (s : TokenStream) :
    (steps p x s).length ≤ s.length := by
  fun_induction steps p x s with
  | case1 => simp
  | case2 x token rest outcome step y hok ih =>
    have hle := Verb.length_run_le p (Verb.lookup token) x ⟨rest⟩
    exact Nat.succ_le_succ (ih.trans hle)
  | case3 => exact Nat.succ_le_succ (Nat.zero_le _)

/-- What evaluation gives and how much it leaves is what its last step gives and leaves. -/
theorem applyAll_eq_getLastD_steps (p : Precision) (x : Noun) (s : TokenStream) :
    ((applyAll p x s).1, (applyAll p x s).2.length) =
      ((steps p x s).map fun step => (step.outcome, step.left)).getLastD (.ok x, s.length) := by
  fun_induction steps p x s with
  | case1 x =>
    rw [applyAll_nil]
    rfl
  | case2 x token rest outcome step y hok ih =>
    have hnext : Next p ⟨x, ⟨token :: rest⟩⟩ ⟨y, outcome.2⟩ := .apply (Prod.ext hok rfl)
    rw [applyAll_of_next hnext, ih, List.map_cons, List.getLastD_cons]
    exact congrArg _ (Prod.ext hok.symm rfl)
  | case3 x token rest outcome step fault herror =>
    have hrun : (Verb.lookup token).run p x ⟨rest⟩ = (.error fault, outcome.2) :=
      Prod.ext herror rfl
    rw [applyAll_cons, hrun]
    exact Prod.ext herror.symm rfl

theorem suffix_applyAll (p : Precision) (x : Noun) (s : TokenStream) :
    (applyAll p x s).2.remaining <:+ s.remaining := by
  fun_induction applyAll p x s with
  | case1 => exact List.suffix_refl _
  | case2 x token rest outcome y hok ih =>
    have hnext : Next p ⟨x, ⟨token :: rest⟩⟩ ⟨y, outcome.2⟩ := .apply (Prod.ext hok rfl)
    exact ih.trans hnext.suffix
  | case3 x token rest outcome fault herror =>
    exact (Verb.suffix_run p _ x ⟨rest⟩).trans (List.suffix_cons token rest)

theorem suffix_evaluateOn (p : Precision) (given : Datum) (s : TokenStream) :
    (evaluateOn p given s).2.remaining <:+ s.remaining := by
  unfold evaluateOn
  split
  · exact suffix_applyAll p _ s
  · exact List.suffix_refl _

/-- A verb takes the operands that the table counts for it at the front of the stream, or none when
it cannot read them. An evaluation leaves an end of its stream behind at any time; every step leaves
less, and there are no more steps than tokens. -/
theorem evaluation_takes_all_operands_or_none (p : Precision) :
    (∀ token operator, Verb.registry.find? token = some operator → ∀ x s,
      let result := (Verb.lookup token).run p x s
      let count := operator.consumption.operandCount s.remaining
      s.Advanced (takenOperands count result.1) result.2) ∧
    (∀ a b, Reaches p a b → b.stream.remaining <:+ a.stream.remaining) ∧
    (∀ given s, (evaluateOn p given s).2.remaining <:+ s.remaining) ∧
    (∀ a b, Next p a b → b.stream.length < a.stream.length) ∧
    (∀ x s, (s.length :: (steps p x s).map Step.left).IsChain (· > ·) ∧
      (steps p x s).length ≤ s.length ∧
      ((applyAll p x s).1, (applyAll p x s).2.length) =
        ((steps p x s).map fun step => (step.outcome, step.left)).getLastD (.ok x, s.length)) := by
  refine ⟨?_, fun a b h => h.suffix, suffix_evaluateOn p, fun a b h => h.length_lt, fun x s =>
    ⟨isChain_left_steps p x s, length_steps_le p x s, applyAll_eq_getLastD_steps p x s⟩⟩
  intro token operator hoperator x s
  rw [← Verb.operator_lookup hoperator]
  exact Verb.advanced_run p (Verb.lookup token) x s

theorem evaluation_takes_all_operands_or_none_sum_out_of_range :
    (Verb.lookup "+").run .double (.atom (.int 1)) ⟨["2", "9223372036854775807", "#"]⟩ =
        (.error (.integerOverflow "add" 9223372036854775808), ⟨["#"]⟩) ∧
      TokenStream.Advanced ⟨["2", "9223372036854775807", "#"]⟩ 2 ⟨["#"]⟩ ∧
      Next .double ⟨.atom (.int 1), ⟨["\x7d.", "1", "#"]⟩⟩ ⟨.list [], ⟨["#"]⟩⟩ ∧
      ["#"] <:+ ["\x7d.", "1", "#"] := by
  have hfind : Verb.registry.find? "+" = some Verb.plus.operator := by
    decide +kernel
  have hrun : (Verb.lookup "+").run .double (.atom (.int 1))
      ⟨["2", "9223372036854775807", "#"]⟩ =
        (.error (.integerOverflow "add" 9223372036854775808), ⟨["#"]⟩) := by
    decide +kernel
  have hcount : Verb.plus.operator.consumption.operandCount
      ["2", "9223372036854775807", "#"] = 2 := by
    decide +kernel
  have hnext : Next .double ⟨.atom (.int 1), ⟨["\x7d.", "1", "#"]⟩⟩ ⟨.list [], ⟨["#"]⟩⟩ :=
    .apply (by decide +kernel)
  obtain ⟨htaken, hsuffix, -⟩ := evaluation_takes_all_operands_or_none .double
  have hadvanced := htaken "+" _ hfind (.atom (.int 1)) ⟨["2", "9223372036854775807", "#"]⟩
  dsimp only at hadvanced
  rw [hrun, hcount] at hadvanced
  exact ⟨hrun, hadvanced, hnext, hsuffix _ _ (.single hnext)⟩

end ArrayPhrase
