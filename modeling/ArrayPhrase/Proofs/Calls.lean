import ArrayPhrase.Proofs.Literals
import ArrayPhrase.Proofs.Operands

/-! Calls to a token stream, made one after the other with any arguments. Only an advance changes
the stream, and a negative one is refused. So what is left at any time is the end of the tokens that
the stream began with, behind as many as it has advanced by in all, and all answers are told by it.
-/

namespace ArrayPhrase.TokenStream

open Literal

variable {s : TokenStream} {texts : List String} {c : Call}

/-! ### The stream after calls -/

/-- The stream after calls made one after the other. -/
def after (s : TokenStream) (calls : List Call) : TokenStream :=
  calls.foldl (fun s c => (s.call c).2) s

/-- How far a call advances the stream, not at all by a negative amount. -/
def Call.amount : Call → Nat
  | .advance n => n.toNat
  | _ => 0

/-- How far calls advance a stream in all. -/
def advanced (calls : List Call) : Nat :=
  (calls.map Call.amount).sum

theorem calls_append (s : TokenStream) (earlier later : List Call) :
    s.calls (earlier ++ later) = s.calls earlier ++ (s.after earlier).calls later := by
  induction earlier generalizing s with
  | nil => rfl
  | cons c earlier ih =>
    rw [List.cons_append, calls, ih]
    rfl

theorem call_advance_of_nonneg {n : Int} (h : 0 ≤ n) :
    s.call (.advance n) = (.ok .done, s.drop n.toNat) := by
  rw [call, advance, if_neg (not_lt.2 h)]

theorem call_advance_of_neg {n : Int} (h : n < 0) :
    s.call (.advance n) = (.error .negativeAdvance, s) := by
  rw [call, advance, if_pos h]

theorem snd_call_of_ne_advance (h : ∀ n, c ≠ .advance n) : (s.call c).2 = s := by
  cases c with
  | advance n => exact absurd rfl (h n)
  | _ => rfl

theorem remaining_call (s : TokenStream) (c : Call) :
    (s.call c).2.remaining = s.remaining.drop c.amount := by
  cases c with
  | advance n =>
    rcases lt_or_ge n 0 with hneg | hnonneg
    · rw [call_advance_of_neg hneg, Call.amount, Int.toNat_of_nonpos hneg.le, List.drop_zero]
    · rw [call_advance_of_nonneg hnonneg]
      rfl
  | _ => rfl

theorem remaining_after (s : TokenStream) (calls : List Call) :
    (s.after calls).remaining = s.remaining.drop (advanced calls) := by
  induction calls generalizing s with
  | nil => rfl
  | cons c calls ih =>
    have hafter : s.after (c :: calls) = (s.call c).2.after calls := rfl
    have hadvanced : advanced (c :: calls) = c.amount + advanced calls := List.sum_cons
    rw [hafter, ih, remaining_call, List.drop_drop, hadvanced]

/-- Advancing past the end is advancing to the end. -/
theorem drop_min_length (n : Nat) : texts.drop (min texts.length n) = texts.drop n := by
  rcases Nat.le_total texts.length n with h | h
  · rw [Nat.min_eq_left h, List.drop_length, List.drop_of_length_le h]
  · rw [Nat.min_eq_right h]

/-! ### Numerals in front -/

/-- The values of numerals, or the fault of the first one that is too long. -/
def readAll (numerals : List Numeral) : Except Fault (List Int) :=
  match numerals.find? fun l => digitLimit < l.digits.length with
  | some l => .error (.literalTooLong l.digits.length)
  | none => .ok (numerals.map Numeral.value)

theorem readAll_cons (l : Numeral) (numerals : List Numeral) : readAll (l :: numerals) =
    if digitLimit < l.digits.length then .error (.literalTooLong l.digits.length)
    else (l.value :: ·) <$> readAll numerals := by
  unfold readAll
  by_cases hlong : digitLimit < l.digits.length
  · rw [if_pos hlong, List.find?_cons_of_pos (by simpa using hlong)]
  · rw [if_neg hlong, List.find?_cons_of_neg (by simpa using hlong)]
    cases numerals.find? fun l => digitLimit < l.digits.length <;> rfl

theorem mapM_parse_text (numerals : List Numeral) :
    (numerals.map Numeral.text).mapM parse = readAll numerals := by
  induction numerals with
  | nil => rfl
  | cons l numerals ih =>
    rw [List.map_cons, List.mapM_cons, ih, l.parse_text, readAll_cons]
    split
    · rfl
    · cases readAll numerals <;> rfl

/-- The texts begin with numerals, as many as there are in front of the first text that is none. -/
structure Led (texts : List String) (numerals : List Numeral) (rest : List String) : Prop where
  texts_eq : texts = numerals.map Numeral.text ++ rest
  longest : StartsPlain rest

theorem exists_led (texts : List String) : ∃ numerals rest, Led texts numerals rest := by
  induction texts with
  | nil => exact ⟨[], [], rfl, startsPlain_nil⟩
  | cons t texts ih =>
    cases hliteral : isLiteral t with
    | false => exact ⟨[], t :: texts, rfl, startsPlain_cons.2 hliteral⟩
    | true =>
      obtain ⟨l, rfl⟩ := isLiteral_iff_numeral.1 hliteral
      obtain ⟨numerals, rest, rfl, hlongest⟩ := ih
      exact ⟨l :: numerals, rest, rfl, hlongest⟩

theorem Led.takeWhile_eq {numerals : List Numeral} {rest : List String}
    (h : Led texts numerals rest) : texts.takeWhile isLiteral = numerals.map Numeral.text := by
  rw [h.texts_eq, h.longest.takeWhile_append, List.takeWhile_eq_self_iff]
  intro t ht
  obtain ⟨l, -, hl⟩ := List.mem_map.1 ht
  exact isLiteral_iff_numeral.2 ⟨l, hl⟩

theorem call_integerArgs {numerals : List Numeral} {rest : List String}
    (h : Led s.remaining numerals rest) :
    (s.call .integerArgs).1 = Answer.integers <$> List.reverse <$> readAll numerals := by
  rw [← mapM_parse_text, ← h.takeWhile_eq]
  rfl

/-! ### Answers -/

/-- What a stream answers of which the tokens `texts` are left. Asked for integers, it gives the
values of the numerals in front, the last one first. -/
structure Shows (s : TokenStream) (texts : List String) : Prop where
  remaining : (s.call .remaining).1 = .ok (.tokens texts)
  length : (s.call .length).1 = .ok (.count texts.length)
  isEmpty : (s.call .isEmpty).1 = .ok (.flag (texts = []))
  hasMore : (s.call .hasMore).1 = .ok (.flag (texts ≠ []))
  peek : (s.call .peek).1 = .ok (.token texts[0]?)
  integerArgs : ∃ numerals rest, Led texts numerals rest ∧
    (s.call .integerArgs).1 = Answer.integers <$> List.reverse <$> readAll numerals

theorem isEmpty_eq (s : TokenStream) : s.isEmpty = decide (s.remaining = []) := by
  rw [Bool.eq_iff_iff, isEmpty, List.isEmpty_iff, decide_eq_true_eq]

theorem shows_remaining (s : TokenStream) : s.Shows s.remaining where
  remaining := rfl
  length := rfl
  isEmpty := by rw [call, isEmpty_eq]
  hasMore := by rw [call, isEmpty_eq, ← decide_not]
  peek := by rw [call, TokenStream.peek, List.head?_eq_getElem?]
  integerArgs := by
    obtain ⟨numerals, rest, h⟩ := exists_led s.remaining
    exact ⟨numerals, rest, h, call_integerArgs h⟩

/-- However a stream has been called, it shows the end of its first tokens behind as many as the
advances make up, or nothing when they are more. An advance is accepted unless it is negative, and
then it changes nothing, as no other call does, whatever it answers. -/
theorem advances_alone_move (tokens : List String) (earlier : List Call) (c : Call)
    (later : List Call) :
    let s := after ⟨tokens⟩ earlier
    calls ⟨tokens⟩ (earlier ++ c :: later) =
        calls ⟨tokens⟩ earlier ++ s.call c :: calls (s.call c).2 later ∧
      s.Shows (tokens.drop (min tokens.length (advanced earlier))) ∧
      (∀ n : Int, 0 ≤ n → (s.call (.advance n)).1 = .ok .done) ∧
      (∀ n < 0, s.call (.advance n) = (.error .negativeAdvance, s)) ∧
      ((∀ n, c ≠ .advance n) → (s.call c).2 = s) := by
  intro s
  refine ⟨calls_append _ _ _, ?_, fun n hn => ?_, fun n hn => call_advance_of_neg hn,
    snd_call_of_ne_advance⟩
  · have hremaining : s.remaining = tokens.drop (advanced earlier) := remaining_after _ _
    rw [drop_min_length, ← hremaining]
    exact s.shows_remaining
  · rw [call_advance_of_nonneg hn]

end ArrayPhrase.TokenStream
