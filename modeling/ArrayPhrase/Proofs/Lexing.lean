import Mathlib.Data.List.TakeWhile
import ArrayPhrase.Token

/-! White space cuts a text in two. No word goes on over a white-space character, and the look
ahead at the front of a word does not see past one, so the two sides are cut into words on their
own. Positions are counted from the first character of the text. -/

namespace ArrayPhrase

namespace Token

/-- The same word, `count` characters further on. -/
def shift (count : Nat) (t : Token) : Token :=
  { t with start := t.start + count, stop := t.stop + count }

@[simp] theorem text_shift (count : Nat) (t : Token) : (t.shift count).text = t.text :=
  rfl

/-! ### White space at the edge of a word -/

variable {w : Char}

/-- No word goes on with white space. -/
theorem Kind.continues_of_isBlank (kind : Kind) (hw : isBlank w = true) :
    kind.continues w = false := by
  simp only [isBlank, Bool.or_eq_true, decide_eq_true_eq] at hw
  obtain ((((rfl | rfl) | rfl) | rfl) | rfl) | rfl := hw <;> cases kind <;> rfl

theorem isDigit_of_isBlank (hw : isBlank w = true) : Literal.isDigit w = false :=
  Kind.number.continues_of_isBlank hw

theorem kindAt_append (hw : isBlank w = true) (c : Char) (rest after : List Char) :
    kindAt c (rest ++ w :: after) = kindAt c rest := by
  cases rest with
  | cons d rest => rfl
  | nil =>
    have hstarts : startsNumber c ([] ++ w :: after) = startsNumber c [] := by
      simp [startsNumber, isDigit_of_isBlank hw]
    rw [kindAt, kindAt, hstarts]

theorem takeWhile_append (kind : Kind) (hw : isBlank w = true) (rest after : List Char) :
    (rest ++ w :: after).takeWhile kind.continues = rest.takeWhile kind.continues := by
  have hnil : (w :: after).takeWhile kind.continues = [] := by
    rw [List.takeWhile_cons, kind.continues_of_isBlank hw]
    rfl
  rw [List.takeWhile_append, hnil]
  split_ifs with hall
  · rw [List.append_nil, (List.takeWhile_prefix _).eq_of_length hall]
  · rfl

end Token

/-! ### Words of a text with white space in it -/

theorem tokensFrom_cons_of_isBlank {c : Char} (hc : Token.isBlank c = true) (start : Nat)
    (rest : List Char) : tokensFrom start (c :: rest) = tokensFrom (start + 1) rest := by
  rw [tokensFrom, if_pos hc]

theorem tokensFrom_cons_of_not_isBlank {c : Char} (hc : Token.isBlank c = false) (start : Nat)
    (rest : List Char) :
    tokensFrom start (c :: rest) =
      let kind := Token.kindAt c rest
      let tail := rest.takeWhile kind.continues
      let stop := start + 1 + tail.length
      ⟨kind, String.ofList (c :: tail), start, stop⟩ ::
        tokensFrom stop (rest.drop tail.length) := by
  rw [tokensFrom, if_neg (by simp [hc])]

theorem tokensFrom_append {w : Char} (hw : Token.isBlank w = true) (start : Nat)
    (before after : List Char) :
    tokensFrom start (before ++ w :: after) =
      tokensFrom start before ++ tokensFrom (start + before.length + 1) after := by
  fun_induction tokensFrom start before with
  | case1 start => exact tokensFrom_cons_of_isBlank hw start after
  | case2 start c rest hc ih =>
    rw [List.cons_append, tokensFrom_cons_of_isBlank hc, ih, List.length_cons]
    congr 2
    omega
  | case3 start c rest hc kind tail stop ih =>
    rw [List.cons_append, tokensFrom_cons_of_not_isBlank (by simpa using hc)]
    dsimp only
    -- The word ends before the white space, so the same characters are left on both sides of it.
    have htail : tail.length ≤ rest.length := (List.takeWhile_sublist _).length_le
    rw [Token.kindAt_append hw, Token.takeWhile_append _ hw, List.drop_append_of_le_length htail,
      ih, List.length_cons, List.length_drop, List.cons_append]
    congr 3
    omega

theorem tokensFrom_add (start count : Nat) (chars : List Char) :
    tokensFrom (start + count) chars = (tokensFrom start chars).map (Token.shift count) := by
  fun_induction tokensFrom start chars with
  | case1 => rw [tokensFrom]; rfl
  | case2 start c rest hc ih =>
    rw [tokensFrom_cons_of_isBlank hc, ← ih]
    congr 1
    omega
  | case3 start c rest hc kind tail stop ih =>
    have hstop : start + count + 1 + tail.length = stop + count := by
      show start + count + 1 + tail.length = start + 1 + tail.length + count
      omega
    rw [tokensFrom_cons_of_not_isBlank (by simpa using hc)]
    dsimp only
    rw [hstop, ih]
    rfl

/-- The words of two texts with white space between them. -/
theorem tokenTexts_append (s t : String) :
    tokenTexts (s ++ " " ++ t) = tokenTexts s ++ tokenTexts t := by
  have hchars : (s ++ " " ++ t).toList = s.toList ++ ' ' :: t.toList := by
    simp
  have hshift (count : Nat) (tokens : List Token) :
      (tokens.map (Token.shift count)).map Token.text = tokens.map Token.text := by
    rw [List.map_map]
    exact List.map_congr_left fun t _ => t.text_shift count
  unfold tokenTexts tokenize
  rw [hchars, tokensFrom_append rfl, List.map_append, Nat.add_assoc, tokensFrom_add, hshift]

end ArrayPhrase
