import Mathlib.Data.List.TakeWhile
import ArrayPhrase.Verb
import ArrayPhrase.Proofs.NounTree
import ArrayPhrase.Proofs.Outcome

/-! Which faults evaluation can end with. What is done to a noun fails for reasons of numbers and
shapes only; tokens are the reason only where a verb reads its operands. -/

namespace ArrayPhrase

open Outcome

/-- The faults that come from numbers and shapes. -/
def Fault.OfNoun : Fault → Prop
  | integerOverflow .. | lengthMismatch .. | negativeDimension | emptyNoun | integerTooLarge
  | sizeTooLarge => True
  | _ => False

variable {p : Precision} {fault : Fault} {x : Noun}

/-! ### Arithmetic -/

theorem checkRange_eq_error {site : String} {n : Int} (h : checkRange site n = .error fault) :
    fault = .integerOverflow site n := by
  unfold checkRange at h
  split_ifs at h
  exact (Except.error.inj h).symm

theorem Atom.toReal_eq_error {a : Atom} (h : a.toReal = .error fault) :
    fault = .integerTooLarge := by
  cases a with
  | real r => cases h
  | int n =>
    rw [toReal] at h
    split at h <;> cases h
    rfl

theorem Dyad.ofNoun_of_onAtoms {d : Dyad} {a b : Atom} (h : d.onAtoms a b = .error fault) :
    fault.OfNoun := by
  unfold onAtoms at h
  split at h
  · rw [checkRange_eq_error (map_eq_error.1 h)]
    trivial
  · simp only [bind_eq_error, pure, Except.pure, reduceCtorEq, and_false, exists_false,
      or_false] at h
    rcases h with h | ⟨_, -, h⟩
    · rw [Atom.toReal_eq_error h]
      trivial
    · rw [Atom.toReal_eq_error h]
      trivial

/-- Two atoms never fail to have a shape. -/
theorem Dyad.kind_ne_shape_of_onAtoms {d : Dyad} {a b : Atom} (h : d.onAtoms a b = .error fault) :
    fault.kind ≠ .shape := by
  unfold onAtoms at h
  split at h
  · rw [checkRange_eq_error (map_eq_error.1 h), Fault.kind]
    split_ifs <;> decide
  · simp only [bind_eq_error, pure, Except.pure, reduceCtorEq, and_false, exists_false,
      or_false] at h
    rcases h with h | ⟨_, -, h⟩
    · rw [Atom.toReal_eq_error h]
      decide
    · rw [Atom.toReal_eq_error h]
      decide

theorem Scalar.ofNoun_of_onAtom {s : Scalar} {a : Atom} (h : s.onAtom p a = .error fault) :
    fault.OfNoun := by
  cases a with
  | real r => cases h
  | int n =>
    rw [onAtom] at h
    split at h
    · rw [checkRange_eq_error (map_eq_error.1 h)]
      trivial
    · rw [Atom.toReal_eq_error (map_eq_error.1 h)]
      trivial

/-! ### Nouns -/

namespace Noun

theorem ofNoun_of_combine {d : Dyad} {y : Noun} (h : combine d.onAtoms x y = .error fault) :
    fault.OfNoun := by
  rcases exists_of_combine_error h with ⟨a, -, b, -, hab⟩ | ⟨m, n, rfl⟩
  · exact Dyad.ofNoun_of_onAtoms hab
  · trivial

theorem ofNoun_of_plus {addends : List Int} (h : x.plus addends = .error fault) :
    fault.OfNoun := by
  unfold plus at h
  split at h
  · cases h
  · obtain ⟨pair, -, hpair⟩ := exists_of_mapM_error (map_eq_error.1 h)
    exact ofNoun_of_combine hpair

theorem ofNoun_of_fold {d : Dyad} {xs : List Noun} (h : fold d xs = .error fault) :
    fault.OfNoun := by
  fun_induction fold d xs with
  | case1 => cases h
  | case2 => cases h
  | case3 x y rest ih =>
    rcases bind_eq_error.1 h with h | ⟨z, -, h⟩
    · exact ih h
    · exact ofNoun_of_combine h

theorem ofNoun_of_takePadded {xs : List Noun} {count : Nat}
    (h : takePadded xs count = .error fault) : fault.OfNoun := by
  unfold takePadded at h
  dsimp only at h
  split_ifs at h
  rw [← Except.error.inj h]
  trivial

theorem ofNoun_of_takeItems {xs : List Noun} {count : Int}
    (h : takeItems count xs = .error fault) : fault.OfNoun := by
  unfold takeItems at h
  split_ifs at h
  · exact ofNoun_of_takePadded h
  · exact ofNoun_of_takePadded (map_eq_error.1 h)

theorem ofNoun_of_reshape {dims : List Int} (h : x.reshape dims = .error fault) :
    fault.OfNoun := by
  unfold reshape at h
  split_ifs at h
  · rw [← Except.error.inj h]
    trivial
  · dsimp only at h
    split at h
    · split_ifs at h
      rw [← Except.error.inj h]
      trivial
    · cases h

end Noun

theorem Action.ofNoun_of_counted {result : Noun} (h : counted x result = .error fault) :
    fault.OfNoun := by
  unfold counted at h
  split_ifs at h
  rw [← Except.error.inj h]
  trivial

theorem Action.ofNoun_of_apply {action : Action} (h : action.apply p x = .error fault) :
    fault.OfNoun := by
  cases action with
  | scalar s =>
    obtain ⟨a, -, ha⟩ := Noun.exists_of_mapLeaves_error h
    exact Scalar.ofNoun_of_onAtom ha
  | tally => exact ofNoun_of_counted h
  | gradeUp => exact ofNoun_of_counted h
  | gradeDown => exact ofNoun_of_counted h
  | plus addends => exact Noun.ofNoun_of_plus h
  | take count => exact Noun.ofNoun_of_takeItems (map_eq_error.1 h)
  | insert d => exact Noun.ofNoun_of_fold (map_eq_error.1 h)
  | reshape dims => exact Noun.ofNoun_of_reshape h
  | _ => cases h

/-! ### Reading operands -/

theorem Literal.parse_eq_error {token : String} (hlit : isLiteral token = true)
    (h : parse token = .error fault) : ∃ digits, fault = .literalTooLong digits := by
  unfold isLiteral at hlit
  unfold parse at h
  split at h
  next hnone =>
    rw [hnone] at hlit
    cases hlit
  next =>
    split_ifs at h
    exact ⟨_, (Except.error.inj h).symm⟩

namespace Verb

variable {v : Verb} {s : TokenStream}

theorem readLiterals_eq_error {given : List Int → Action}
    (h : readLiterals s given = .error fault) : ∃ digits, fault = .literalTooLong digits := by
  rcases bind_eq_error.1 h with h | ⟨args, -, h⟩
  · obtain ⟨token, htoken, hparse⟩ := exists_of_mapM_error (map_eq_error.1 h)
    exact Literal.parse_eq_error (List.mem_takeWhile_imp htoken) hparse
  · cases h

theorem readLiteral_eq_error {absent : Action} {given : Int → Action}
    (h : readLiteral s absent given = .error fault) : ∃ digits, fault = .literalTooLong digits := by
  rcases bind_eq_error.1 h with h | ⟨front, -, h⟩
  · unfold TokenStream.nextLiteral at h
    split at h
    · cases h
    · split_ifs at h with hlit
      exact Literal.parse_eq_error hlit (map_eq_error.1 h)
  · cases front <;> cases h

theorem readFollower_eq_error (h : v.readFollower s = .error fault) :
    fault = .missingFollower v.rep (v.followers.map Prod.fst) s.peek := by
  unfold readFollower at h
  dsimp only at h
  split at h
  · exact (Except.error.inj h).symm
  · split at h
    · exact (Except.error.inj h).symm
    · cases h

/-- A verb fails to read its operands for the want of a follower or for a literal that is too
long. -/
theorem read_eq_error (h : v.read s = .error fault) :
    v.consumption = .follower ∧
        fault = .missingFollower v.rep (v.followers.map Prod.fst) s.peek ∨
      ∃ digits, fault = .literalTooLong digits := by
  cases v with
  | plus => exact .inr (readLiterals_eq_error h)
  | reshape => exact .inr (readLiterals_eq_error h)
  | take => exact .inr (readLiteral_eq_error h)
  | drop => exact .inr (readLiteral_eq_error h)
  | reverseRotate => exact .inr (readLiteral_eq_error h)
  | tilde => exact .inl ⟨rfl, readFollower_eq_error h⟩
  | insert => exact .inl ⟨rfl, readFollower_eq_error h⟩
  | _ => cases h

/-- A verb misses a follower only where it takes one, and tells what stands there instead. -/
theorem run_eq_missingFollower {op : String} {expected : List String} {found : Option String}
    (h : (v.run p x s).1 = .error (.missingFollower op expected found)) :
    v.consumption = .follower ∧ found = s.peek := by
  unfold run at h
  split at h
  next fault hread =>
    obtain rfl := Except.error.inj h
    rcases read_eq_error hread with ⟨hv, hfault⟩ | ⟨digits, hfault⟩
    · cases hfault
      exact ⟨hv, rfl⟩
    · cases hfault
  next => exact absurd (Action.ofNoun_of_apply h) not_false

end Verb
end ArrayPhrase
