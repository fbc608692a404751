import Mathlib.Algebra.Group.Nat.Defs
import Mathlib.Data.List.Basic
import ArrayPhrase.Fault

/-! Quoted texts in messages. A quoted text ends where its mark stands without a backslash before
it, and every character inside can be read back. So a quoted text is known from any text that begins
with it, and a message about a missing follower tells the operator, the tokens expected and the one
found, whatever characters they are made of. -/

namespace ArrayPhrase

namespace Text

/-! ### Words that delimit themselves -/

/-- No word of the code begins another one: what a text begins with is known from the text. -/
def PrefixFree {α : Type} (code : α → List Char) : Prop :=
  ∀ a b rest rest', code a ++ rest = code b ++ rest' → a = b ∧ rest = rest'

namespace PrefixFree

variable {α β : Type} {code : α → List Char} (h : PrefixFree code)

include h

theorem injective : Function.Injective code := by
  intro a b hab
  exact (h a b [] [] (by rw [hab])).1

theorem comp {f : β → α} (hf : Function.Injective f) : PrefixFree fun b => code (f b) := by
  intro a b rest rest' heq
  obtain ⟨hab, hrest⟩ := h _ _ _ _ heq
  exact ⟨hf hab, hrest⟩

/-- The same behind words that are all alike. -/
theorem lead (start : List Char) : PrefixFree fun a => start ++ code a := by
  intro a b rest rest' heq
  rw [List.append_assoc, List.append_assoc, List.append_cancel_left_eq] at heq
  exact h _ _ _ _ heq

/-- Any number of words, ended by a character that none begins with. -/
theorem flatMap {stop : Char} (hstop : ∀ a, ∃ c tail, code a = c :: tail ∧ c ≠ stop) :
    PrefixFree fun words : List α => words.flatMap code ++ [stop] := by
  intro words words' rest rest' heq
  simp only [List.append_assoc, List.singleton_append] at heq
  induction words generalizing words' with
  | nil =>
    cases words' with
    | nil => exact ⟨rfl, (List.cons.inj heq).2⟩
    | cons b words' =>
      obtain ⟨c, tail, hb, hc⟩ := hstop b
      rw [List.flatMap_nil, List.nil_append, List.flatMap_cons, hb] at heq
      exact absurd (List.cons.inj heq).1.symm hc
  | cons a words ih =>
    cases words' with
    | nil =>
      obtain ⟨c, tail, ha, hc⟩ := hstop a
      rw [List.flatMap_nil, List.nil_append, List.flatMap_cons, ha] at heq
      exact absurd (List.cons.inj heq).1 hc
    | cons b words' =>
      rw [List.flatMap_cons, List.flatMap_cons, List.append_assoc, List.append_assoc] at heq
      obtain ⟨rfl, hwords⟩ := h _ _ _ _ heq
      obtain ⟨rfl, hrest⟩ := ih words' hwords
      exact ⟨rfl, hrest⟩

end PrefixFree

/-! ### Escapes -/

/-- The number that lower case hexadecimal digits make up. -/
def hexValue (digits : List Char) : Nat :=
  digits.foldl (fun value c => 16 * value + ((List.range 16).map Nat.digitChar).idxOf c) 0

theorem length_hexDigits (width n : Nat) : (hexDigits width n).length = width := by
  induction width generalizing n with
  | zero => rfl
  | succ width ih => rw [hexDigits, List.length_append, ih, List.length_singleton]

theorem hexValue_concat (digits : List Char) {d : Nat} (h : d < 16) :
    hexValue (digits ++ [Nat.digitChar d]) = 16 * hexValue digits + d := by
  have hdigit : ∀ d < 16, ((List.range 16).map Nat.digitChar).idxOf (Nat.digitChar d) = d := by
    decide
  rw [hexValue, List.foldl_append, List.foldl_cons, List.foldl_nil, hdigit d h, hexValue]

theorem hexValue_hexDigits (width n : Nat) : hexValue (hexDigits width n) = n % 16 ^ width := by
  induction width generalizing n with
  | zero => exact (Nat.mod_one n).symm
  | succ width ih =>
    rw [hexDigits, hexValue_concat _ (Nat.mod_lt _ (by decide)), ih, Nat.pow_succ', Nat.mod_mul,
      Nat.add_comm]

/-- The character that is written behind a backslash, and what comes after it. -/
def readEscape : List Char → Option (Char × List Char)
  | [] => none
  | 'n' :: rest => some ('\n', rest)
  | 'r' :: rest => some ('\r', rest)
  | 't' :: rest => some ('\t', rest)
  | 'x' :: rest => some (Char.ofNat (hexValue (rest.take 2)), rest.drop 2)
  | 'u' :: rest => some (Char.ofNat (hexValue (rest.take 4)), rest.drop 4)
  | 'U' :: rest => some (Char.ofNat (hexValue (rest.take 8)), rest.drop 8)
  | c :: rest => some (c, rest)

/-- The character that is written first in a quoted text, and what comes after it. -/
def readChar : List Char → Option (Char × List Char)
  | [] => none
  | '\\' :: rest => readEscape rest
  | c :: rest => some (c, rest)

theorem ofNat_hexValue {width : Nat} {c : Char} (h : c.toNat < 16 ^ width) (rest : List Char) :
    (Char.ofNat (hexValue ((hexDigits width c.toNat ++ rest).take width)),
      (hexDigits width c.toNat ++ rest).drop width) = (c, rest) := by
  have hlength := length_hexDigits width c.toNat
  rw [List.take_left' hlength, List.drop_left' hlength, hexValue_hexDigits, Nat.mod_eq_of_lt h,
    Char.ofNat_toNat]

theorem quoteMark_eq (text : List Char) : quoteMark text = apostrophe ∨ quoteMark text = '"' := by
  unfold quoteMark
  split
  · exact .inr rfl
  · exact .inl rfl

/-- What a character is written as between two marks: itself, or an escape behind a backslash. -/
inductive StandsFor (mark c : Char) : List Char → Prop where
  | plain (hbackslash : c ≠ '\\') (hmark : c ≠ mark) : StandsFor mark c [c]
  | escaped (written : List Char) (hread : ∀ rest, readEscape (written ++ rest) = some (c, rest)) :
    StandsFor mark c ('\\' :: written)

variable {mark c : Char} {word : List Char}

theorem StandsFor.readChar_append (h : StandsFor mark c word) (rest : List Char) :
    readChar (word ++ rest) = some (c, rest) := by
  cases h with
  | plain hbackslash => simp [readChar]
  | escaped written hread => exact hread rest

section Marks

variable (hmark : mark = apostrophe ∨ mark = '"')

include hmark

theorem StandsFor.head_ne_mark (h : StandsFor mark c word) :
    ∃ d tail, word = d :: tail ∧ d ≠ mark := by
  cases h with
  | plain _ hc => exact ⟨c, [], rfl, hc⟩
  | escaped written => exact ⟨'\\', written, rfl, by rcases hmark with rfl | rfl <;> decide⟩

theorem standsFor_escape (c : Char) : StandsFor mark c (escape mark c) := by
  rw [escape]
  -- One case for each way to write a character, in the order in which they are tried.
  by_cases hbackslash : c = '\\'
  · rw [if_pos hbackslash]
    exact .escaped _ fun rest => by rw [hbackslash]; rfl
  rw [if_neg hbackslash]
  by_cases hc : c = mark
  · rw [if_pos hc, hc]
    exact .escaped _ fun rest => by rcases hmark with rfl | rfl <;> rfl
  rw [if_neg hc]
  by_cases hn : c = '\n'
  · rw [if_pos hn]
    exact .escaped _ fun rest => by rw [hn]; rfl
  rw [if_neg hn]
  by_cases hr : c = '\r'
  · rw [if_pos hr]
    exact .escaped _ fun rest => by rw [hr]; rfl
  rw [if_neg hr]
  by_cases ht : c = '\t'
  · rw [if_pos ht]
    exact .escaped _ fun rest => by rw [ht]; rfl
  rw [if_neg ht]
  by_cases hshown : isPrintable c = true
  · rw [if_pos hshown]
    exact .plain hbackslash hc
  rw [if_neg hshown]
  by_cases hx : c.toNat < 0x100
  · rw [if_pos hx]
    exact .escaped _ fun rest => congrArg some (ofNat_hexValue hx rest)
  rw [if_neg hx]
  by_cases hu : c.toNat < 0x10000
  · rw [if_pos hu]
    exact .escaped _ fun rest => congrArg some (ofNat_hexValue hu rest)
  rw [if_neg hu]
  exact .escaped _ fun rest => congrArg some (ofNat_hexValue c.val.toNat_lt rest)

theorem prefixFree_escape : PrefixFree (escape mark) := by
  intro a b rest rest' heq
  have hread := congrArg readChar heq
  rw [(standsFor_escape hmark a).readChar_append, (standsFor_escape hmark b).readChar_append]
    at hread
  exact Prod.mk.inj (Option.some.inj hread)

end Marks

theorem prefixFree_quote : PrefixFree quote := by
  intro text text' rest rest' heq
  -- The first character is the mark, and the mark tells where the text ends.
  obtain ⟨hmark, heq⟩ := List.cons.inj heq
  have hquoteMark := quoteMark_eq text
  rw [← hmark] at heq
  have hbody := (prefixFree_escape hquoteMark).flatMap fun c =>
    (standsFor_escape hquoteMark c).head_ne_mark hquoteMark
  exact hbody text text' rest rest' (by simpa using heq)

theorem toList_quoted (text : String) : (quoted text).toList = quote text.toList :=
  String.toList_ofList

theorem prefixFree_quoted : PrefixFree fun text => (quoted text).toList := by
  simp only [toList_quoted]
  exact prefixFree_quote.comp fun _ _ => String.toList_inj.1

/-- Texts in a row, each but the first one behind the separator. -/
theorem toList_intercalate_cons (separator first : String) (others : List String) :
    (separator.intercalate (first :: others)).toList =
      first.toList ++ others.flatMap fun other => separator.toList ++ other.toList := by
  induction others generalizing first with
  | nil => simp
  | cons second others ih =>
    rw [String.intercalate_cons_cons, String.toList_append, ih, String.toList_append,
      List.flatMap_cons, List.append_assoc, List.append_assoc]

end Text

namespace Fault

open Text

theorem foundText_none_ne (token : String) : foundText none ≠ foundText (some token) := by
  intro h
  have hlist : "end of command".toList = quote token.toList :=
    (congrArg String.toList h).trans (toList_quoted token)
  have hmark : 'e' = quoteMark token.toList := Option.some.inj (congrArg List.head? hlist)
  rcases quoteMark_eq token.toList with heq | heq
  · exact absurd (hmark.trans heq) (by decide)
  · exact absurd (hmark.trans heq) (by decide)

theorem foundText_injective : Function.Injective foundText := by
  rintro (_ | token) (_ | token') h
  · rfl
  · exact absurd h (foundText_none_ne token')
  · exact absurd h.symm (foundText_none_ne token)
  · exact congrArg some (prefixFree_quoted.injective (congrArg String.toList h))

theorem toList_expectedText_cons (token : String) (tokens : List String) :
    (expectedText (token :: tokens)).toList = "; expected ".toList ++ ((quoted token).toList ++
      tokens.flatMap fun other => ", ".toList ++ (quoted other).toList) := by
  have htext : expectedText (token :: tokens) =
      "; expected " ++ ", ".intercalate (quoted token :: tokens.map quoted) := rfl
  rw [htext, String.toList_append, toList_intercalate_cons, List.flatMap_map]

/-- The expected tokens are known together with where they end. -/
theorem prefixFree_expectedText :
    PrefixFree fun expected => (expectedText expected).toList ++ "; found ".toList := by
  have hothers : PrefixFree fun tokens : List String =>
      (tokens.flatMap fun other => ", ".toList ++ (quoted other).toList) ++ [';'] :=
    (prefixFree_quoted.lead ", ".toList).flatMap fun other => ⟨',', _, rfl, by decide⟩
  rintro (_ | ⟨token, tokens⟩) (_ | ⟨token', tokens'⟩) rest rest' heq <;> dsimp only at heq
  · exact ⟨rfl, List.append_cancel_left heq⟩
  · rw [toList_expectedText_cons] at heq
    have hthird : some 'f' = some 'e' := congrArg (fun text : List Char => text[2]?) heq
    exact absurd hthird (by decide)
  · rw [toList_expectedText_cons] at heq
    have hthird : some 'e' = some 'f' := congrArg (fun text : List Char => text[2]?) heq
    exact absurd hthird (by decide)
  · rw [toList_expectedText_cons, toList_expectedText_cons] at heq
    simp only [List.append_assoc, List.append_cancel_left_eq] at heq
    obtain ⟨rfl, hwords⟩ := prefixFree_quoted _ _ _ _ heq
    obtain ⟨rfl, hrest⟩ := hothers tokens tokens' (" found ".toList ++ rest)
      (" found ".toList ++ rest') (by rw [List.append_assoc, List.append_assoc]; exact hwords)
    exact ⟨rfl, List.append_cancel_left hrest⟩

theorem toList_message_missingFollower (operator : String) (expected : List String)
    (found : Option String) : (missingFollower operator expected found).message.toList =
      (quoted operator).toList ++ (" is missing its follower".toList ++
        ((expectedText expected).toList ++ ("; found ".toList ++ (foundText found).toList))) := by
  have hmessage : (missingFollower operator expected found).message =
      quoted operator ++ " is missing its follower" ++ expectedText expected ++ "; found " ++
        foundText found := rfl
  simp only [hmessage, String.toList_append, List.append_assoc]

/-- Two messages about a missing follower are the same only when they are about the same operator,
with the same tokens expected and the same one found, or none both times. -/
theorem message_missingFollower_eq_iff (operator operator' : String)
    (expected expected' : List String) (found found' : Option String) :
    (missingFollower operator expected found).message =
        (missingFollower operator' expected' found').message ↔
      operator = operator' ∧ expected = expected' ∧ found = found' := by
  constructor
  · intro h
    have hlist := congrArg String.toList h
    rw [toList_message_missingFollower, toList_message_missingFollower] at hlist
    obtain ⟨hoperator, hlist⟩ := prefixFree_quoted _ _ _ _ hlist
    rw [List.append_cancel_left_eq, ← List.append_assoc, ← List.append_assoc] at hlist
    obtain ⟨hexpected, hfound⟩ := prefixFree_expectedText _ _ _ _ hlist
    exact ⟨hoperator, hexpected, foundText_injective (String.toList_inj.1 hfound)⟩
  · rintro ⟨rfl, rfl, rfl⟩
    rfl

end Fault
end ArrayPhrase
