import Mathlib.Data.List.TakeWhile
import ArrayPhrase.Verb
import ArrayPhrase.Proofs.Outcome

/-! Operands in front of other tokens. A verb that succeeds has read as many tokens as its
consumption counts, and where no literal stands behind its operands it does to them exactly what it
does when they stand alone. -/

namespace ArrayPhrase

open Outcome

/-- No literal stands first. -/
def StartsPlain (tokens : List String) : Prop :=
  ∀ token ∈ tokens.head?, Literal.isLiteral token = false

instance : DecidablePred StartsPlain := fun tokens =>
  inferInstanceAs (Decidable (∀ token ∈ tokens.head?, Literal.isLiteral token = false))

theorem startsPlain_nil : StartsPlain [] := by
  simp [StartsPlain]

theorem startsPlain_cons {token : String} {rest : List String} :
    StartsPlain (token :: rest) ↔ Literal.isLiteral token = false := by
  simp [StartsPlain]

variable {own others : List String}

theorem StartsPlain.append (hown : StartsPlain own) (hothers : StartsPlain others) :
    StartsPlain (own ++ others) := by
  cases own with
  | nil => exact hothers
  | cons token rest => exact startsPlain_cons.2 (startsPlain_cons.1 hown)

theorem StartsPlain.of_append (h : StartsPlain (own ++ others)) : StartsPlain own := by
  cases own with
  | nil => exact startsPlain_nil
  | cons token rest => exact startsPlain_cons.2 (startsPlain_cons.1 h)

theorem StartsPlain.takeWhile_eq_nil (h : StartsPlain others) :
    others.takeWhile Literal.isLiteral = [] := by
  cases others with
  | nil => rfl
  | cons token rest => rw [List.takeWhile_cons, startsPlain_cons.1 h]; rfl

theorem StartsPlain.takeWhile_append (h : StartsPlain others) :
    (own ++ others).takeWhile Literal.isLiteral = own.takeWhile Literal.isLiteral := by
  rw [List.takeWhile_append, h.takeWhile_eq_nil]
  split_ifs with hall
  · rw [List.append_nil, (List.takeWhile_prefix _).eq_of_length hall]
  · rfl

namespace TokenStream

theorem nextLiteral_cons (token : String) (rest : List String) :
    (⟨token :: rest⟩ : TokenStream).nextLiteral =
      if Literal.isLiteral token then some <$> Literal.parse token else .ok none :=
  rfl

theorem nextLiteral_append (h : StartsPlain others) :
    (⟨own ++ others⟩ : TokenStream).nextLiteral = (⟨own⟩ : TokenStream).nextLiteral := by
  cases own with
  | cons token rest => rfl
  | nil =>
    cases others with
    | nil => rfl
    | cons token rest =>
      rw [List.nil_append, nextLiteral_cons, startsPlain_cons.1 h]
      rfl

theorem integerArgs_append (h : StartsPlain others) :
    (⟨own ++ others⟩ : TokenStream).integerArgs = (⟨own⟩ : TokenStream).integerArgs := by
  unfold integerArgs
  rw [h.takeWhile_append]

theorem length_of_integerArgs {s : TokenStream} {args : List Int} (h : s.integerArgs = .ok args) :
    args.length = (s.remaining.takeWhile Literal.isLiteral).length := by
  obtain ⟨values, hvalues, rfl⟩ := map_eq_ok.1 h
  rw [List.length_reverse, (mapM_eq_ok.1 hvalues).length_eq]

end TokenStream

namespace Consumption

theorem operandCount_le_length (c : Consumption) (tokens : List String) :
    c.operandCount tokens ≤ tokens.length := by
  cases c with
  | nothing => exact Nat.zero_le _
  | literal =>
    exact (List.takeWhile_sublist _).length_le.trans (List.take_sublist _ _).length_le
  | literals => exact (List.takeWhile_sublist _).length_le
  | follower => exact (List.take_sublist _ _).length_le

theorem operandCount_literal_cons (token : String) (rest : List String) :
    literal.operandCount (token :: rest) = if Literal.isLiteral token then 1 else 0 := by
  rw [operandCount, List.take_succ_cons, List.take_zero, List.takeWhile_cons]
  split_ifs <;> rfl

end Consumption

namespace Verb

variable {v : Verb} {s : TokenStream} {action : Action} {used : Nat}

theorem used_of_readLiterals {given : List Int → Action}
    (h : readLiterals s given = .ok (action, used)) :
    used = Consumption.literals.operandCount s.remaining := by
  obtain ⟨args, hargs, h⟩ := bind_eq_ok.1 h
  cases h
  exact TokenStream.length_of_integerArgs hargs

theorem used_of_readLiteral {absent : Action} {given : Int → Action}
    (h : readLiteral s absent given = .ok (action, used)) :
    used = Consumption.literal.operandCount s.remaining := by
  obtain ⟨front, hfront, h⟩ := bind_eq_ok.1 h
  rcases s with ⟨_ | ⟨token, rest⟩⟩
  · cases hfront
    cases h
    rfl
  · rw [TokenStream.nextLiteral_cons] at hfront
    rw [Consumption.operandCount_literal_cons]
    split_ifs at hfront ⊢ with hlit
    · obtain ⟨n, -, rfl⟩ := map_eq_ok.1 hfront
      cases h
      rfl
    · cases hfront
      cases h
      rfl

theorem exists_of_readLiterals {given : List Int → Action}
    (h : readLiterals s given = .ok (action, used)) : ∃ args, action = given args := by
  obtain ⟨args, -, h⟩ := bind_eq_ok.1 h
  cases h
  exact ⟨args, rfl⟩

theorem exists_of_readLiteral {token : String} {rest : List String} {absent : Action}
    {given : Int → Action} (htoken : Literal.isLiteral token = true)
    (h : readLiteral ⟨token :: rest⟩ absent given = .ok (action, used)) :
    ∃ n, Literal.parse token = .ok n ∧ action = given n := by
  obtain ⟨front, hfront, h⟩ := bind_eq_ok.1 h
  rw [TokenStream.nextLiteral_cons, if_pos htoken] at hfront
  obtain ⟨n, hn, rfl⟩ := map_eq_ok.1 hfront
  cases h
  exact ⟨n, hn, rfl⟩

theorem used_of_readFollower (h : v.readFollower s = .ok (action, used)) :
    used = Consumption.follower.operandCount s.remaining := by
  rcases s with ⟨_ | ⟨token, rest⟩⟩
  · cases h
  · unfold readFollower TokenStream.peek at h
    dsimp only [List.head?_cons] at h
    split at h <;> cases h
    rfl

/-- A verb that succeeds in reading uses as many tokens as its consumption counts. -/
theorem used_of_read (h : v.read s = .ok (action, used)) :
    used = v.consumption.operandCount s.remaining := by
  cases v with
  | plus => exact used_of_readLiterals h
  | reshape => exact used_of_readLiterals h
  | take => exact used_of_readLiteral h
  | drop => exact used_of_readLiteral h
  | reverseRotate => exact used_of_readLiteral h
  | tilde => exact used_of_readFollower h
  | insert => exact used_of_readFollower h
  | _ => cases h; rfl

theorem readLiterals_append (hothers : StartsPlain others) (given : List Int → Action) :
    readLiterals ⟨own ++ others⟩ given = readLiterals ⟨own⟩ given := by
  unfold readLiterals
  rw [TokenStream.integerArgs_append hothers]

theorem readLiteral_append (hothers : StartsPlain others) (absent : Action) (given : Int → Action) :
    readLiteral ⟨own ++ others⟩ absent given = readLiteral ⟨own⟩ absent given := by
  unfold readLiteral
  rw [TokenStream.nextLiteral_append hothers]

theorem readFollower_append (hown : own = [] → others = []) :
    v.readFollower ⟨own ++ others⟩ = v.readFollower ⟨own⟩ := by
  cases own with
  | nil => rw [hown rfl, List.nil_append]
  | cons => rfl

/-- A verb reads the same in front of other tokens as alone. A compound verb needs a token of its
own for that, since it takes any. -/
theorem read_append (hothers : StartsPlain others)
    (hown : v.consumption = .follower → own = [] → others = []) :
    v.read ⟨own ++ others⟩ = v.read ⟨own⟩ := by
  cases v with
  | plus => exact readLiterals_append hothers _
  | reshape => exact readLiterals_append hothers _
  | take => exact readLiteral_append hothers _ _
  | drop => exact readLiteral_append hothers _ _
  | reverseRotate => exact readLiteral_append hothers _ _
  | tilde => exact readFollower_append (hown rfl)
  | insert => exact readFollower_append (hown rfl)
  | _ => rfl

/-- A verb in front of other tokens gives what it gives on its own operands, and leaves the others
in place. -/
theorem run_append {p : Precision} {x : Noun} (hothers : StartsPlain others)
    (hown : v.consumption = .follower → own = [] → others = []) :
    v.run p x ⟨own ++ others⟩ =
      ((v.run p x ⟨own⟩).1, ⟨(v.run p x ⟨own⟩).2.remaining ++ others⟩) := by
  unfold run
  rw [read_append hothers hown]
  cases hread : v.read ⟨own⟩ with
  | error fault => rfl
  | ok result =>
    obtain ⟨action, used⟩ := result
    have hused : used ≤ own.length :=
      used_of_read hread ▸ Consumption.operandCount_le_length v.consumption own
    simp only [TokenStream.drop, List.drop_append_of_le_length hused]

theorem run_eq_ok {p : Precision} {x y : Noun} {t : TokenStream} (h : v.run p x s = (.ok y, t)) :
    t = s.drop (v.consumption.operandCount s.remaining) := by
  unfold run at h
  split at h
  · cases h
  · rename_i action used hread
    rw [← used_of_read hread]
    exact (Prod.ext_iff.1 h).2.symm

end Verb
end ArrayPhrase
