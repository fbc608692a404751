import Mathlib.Data.List.Basic
import Mathlib.Data.List.Induction
import Mathlib.Data.Nat.Digits.Defs
import Mathlib.Data.Set.List
import ArrayPhrase.TokenStream

/-! Literals as numerals: one or more digits in base ten, behind an underscore when the value is
negative. A text spells at most one numeral, and it is read as the value of the numeral unless that
is too long. Among the numerals of an integer the written one has no zeros to spare. -/

namespace ArrayPhrase

namespace Literal

/-! ### Signs and digits -/

theorem split?_eq_some_iff {chars digits : List Char} {negative : Bool} :
    split? chars = some (negative, digits) ↔ digits ≠ [] ∧ (∀ d ∈ digits, isDigit d = true) ∧
      chars = (if negative then ['_'] else []) ++ digits := by
  unfold split?
  constructor
  · intro h
    split at h
    all_goals
      split_ifs at h with hdigits
      cases h
      exact ⟨hdigits.1, List.all_eq_true.1 hdigits.2, rfl⟩
  · rintro ⟨hnonempty, hall, rfl⟩
    cases negative with
    | false =>
      split
      next tail htail =>
        have hdigits : digits = '_' :: tail := htail
        have hunderscore : isDigit '_' = true := hall '_' (by simp [hdigits])
        exact absurd hunderscore (by decide)
      next => exact if_pos ⟨hnonempty, List.all_eq_true.2 hall⟩
    | true => exact if_pos ⟨hnonempty, List.all_eq_true.2 hall⟩

theorem isLiteral_iff {text : String} : isLiteral text = true ↔ ∃ sign digits,
    (sign = [] ∨ sign = ['_']) ∧ digits ≠ [] ∧ (∀ d ∈ digits, isDigit d = true) ∧
      text.toList = sign ++ digits := by
  rw [isLiteral, Option.isSome_iff_exists]
  constructor
  · rintro ⟨⟨negative, digits⟩, h⟩
    obtain ⟨hnonempty, hall, htext⟩ := split?_eq_some_iff.1 h
    exact ⟨_, digits, by cases negative <;> simp, hnonempty, hall, htext⟩
  · rintro ⟨sign, digits, rfl | rfl, hnonempty, hall, htext⟩
    · exact ⟨(false, digits), split?_eq_some_iff.2 ⟨hnonempty, hall, htext⟩⟩
    · exact ⟨(true, digits), split?_eq_some_iff.2 ⟨hnonempty, hall, htext⟩⟩

/-- The character of a digit. -/
def digit (d : Fin 10) : Char :=
  Nat.digitChar d

theorem toNat_digit (d : Fin 10) : (digit d).toNat = '0'.toNat + d :=
  Nat.toNat_digitChar_of_lt_ten d.isLt

theorem digit_injective : Function.Injective digit := by
  intro d e h
  have hnat := congrArg Char.toNat h
  rw [toNat_digit, toNat_digit] at hnat
  omega

theorem isDigit_iff {c : Char} : isDigit c = true ↔ ∃ d, digit d = c := by
  constructor
  · intro h
    simp only [isDigit, Bool.and_eq_true, decide_eq_true_eq] at h
    have hlow : 48 ≤ c.toNat := h.1
    have hhigh : c.toNat ≤ 57 := h.2
    refine ⟨⟨c.toNat - 48, by omega⟩, Char.toNat_inj.1 ?_⟩
    rw [toNat_digit]
    show 48 + (c.toNat - 48) = c.toNat
    omega
  · rintro ⟨d, rfl⟩
    revert d
    decide

/-- The number that digits make up in base ten, the first one for the highest power. -/
def magnitude (digits : List (Fin 10)) : Nat :=
  Nat.ofDigits 10 (digits.reverse.map Fin.val)

variable {digits : List (Fin 10)} {n : Int} {t : String}

theorem magnitude_concat (digits : List (Fin 10)) (d : Fin 10) :
    magnitude (digits ++ [d]) = 10 * magnitude digits + d := by
  simp [magnitude, Nat.ofDigits_cons, Nat.add_comm]

theorem digitsValue_map_digit (digits : List (Fin 10)) :
    digitsValue (digits.map digit) = magnitude digits := by
  induction digits using List.reverseRecOn with
  | nil => rfl
  | append_singleton digits d ih =>
    rw [magnitude_concat, ← ih, digitsValue, List.map_append, List.foldl_append]
    simp only [List.map_cons, List.map_nil, List.foldl_cons, List.foldl_nil, toNat_digit]
    rw [Nat.add_sub_cancel_left]
    rfl

/-- Behind zeros in front, digits are those that their number is written with. -/
theorem exists_map_digit_eq (h : digits ≠ []) : ∃ zeros,
    digits.map digit = List.replicate zeros '0' ++ Nat.toDigits 10 (magnitude digits) := by
  induction digits using List.reverseRecOn with
  | nil => exact absurd rfl h
  | append_singleton digits d ih =>
    have hone : Nat.toDigits 10 d = [digit d] := Nat.toDigits_of_lt_base d.isLt
    rw [magnitude_concat, List.map_append, List.map_singleton, ← hone]
    by_cases hdigits : digits = []
    · exact ⟨0, by simp [hdigits, magnitude]⟩
    · obtain ⟨zeros, hzeros⟩ := ih hdigits
      rw [hzeros]
      rcases Nat.eq_zero_or_pos (magnitude digits) with hzero | hpos
      · -- The digits so far are all zeros, and one of them stands for the number zero.
        refine ⟨zeros + 1, ?_⟩
        rw [hzero, Nat.mul_zero, Nat.zero_add, Nat.toDigits_zero, List.replicate_succ']
      · refine ⟨zeros, ?_⟩
        rw [List.append_assoc, Nat.toDigits_append_toDigits (by decide) hpos d.isLt]

/-! ### Numerals -/

/-- Digits, negated or not. -/
structure Numeral where
  negative : Bool
  digits : List (Fin 10)
  nonempty : digits ≠ []

namespace Numeral

def sign (l : Numeral) : List Char :=
  if l.negative then ['_'] else []

/-- How a numeral is spelled. -/
def text (l : Numeral) : String :=
  String.ofList (l.sign ++ l.digits.map digit)

def value (l : Numeral) : Int :=
  if l.negative then -(magnitude l.digits : Int) else magnitude l.digits

theorem split?_text (l : Numeral) :
    split? l.text.toList = some (l.negative, l.digits.map digit) := by
  rw [split?_eq_some_iff]
  refine ⟨by simpa using l.nonempty, fun c hc => ?_, by rw [text, String.toList_ofList, sign]⟩
  obtain ⟨d, -, hd⟩ := List.mem_map.1 hc
  exact isDigit_iff.2 ⟨d, hd⟩

/-- A text spells one numeral only. -/
theorem text_injective : Function.Injective text := by
  intro l m h
  have hsplit := split?_text l
  rw [h, split?_text, Option.some.injEq, Prod.mk.injEq] at hsplit
  obtain ⟨hnegative, hdigits⟩ := hsplit
  cases l
  cases m
  simp only [mk.injEq]
  exact ⟨hnegative.symm, List.map_injective_iff.2 digit_injective hdigits.symm⟩

theorem parse_text (l : Numeral) : parse l.text =
    if digitLimit < l.digits.length then .error (.literalTooLong l.digits.length)
    else .ok l.value := by
  rw [parse, split?_text]
  simp only [List.length_map, digitsValue_map_digit]
  rfl

end Numeral

theorem isLiteral_iff_numeral : isLiteral t = true ↔ ∃ l : Numeral, l.text = t := by
  rw [isLiteral, Option.isSome_iff_exists]
  constructor
  · rintro ⟨⟨negative, chars⟩, h⟩
    obtain ⟨hnonempty, hall, htext⟩ := split?_eq_some_iff.1 h
    have hdigits : chars ∈ Set.range (List.map digit) := by
      rw [Set.range_list_map]
      exact fun c hc => isDigit_iff.1 (hall c hc)
    obtain ⟨digits, rfl⟩ := hdigits
    refine ⟨⟨negative, digits, by simpa using hnonempty⟩, String.toList_inj.1 ?_⟩
    rw [Numeral.text, String.toList_ofList, htext, Numeral.sign]
  · rintro ⟨l, rfl⟩
    exact ⟨_, l.split?_text⟩

theorem parse_of_not_numeral (h : ∀ l : Numeral, l.text ≠ t) :
    parse t = .error (.invalidLiteral t) := by
  have hsplit : split? t.toList = none := by
    rw [← Option.not_isSome_iff_eq_none, ← isLiteral, isLiteral_iff_numeral]
    simpa using h
  rw [parse, hsplit]

/-! ### Writing -/

theorem toList_write (n : Int) :
    (write n).toList = (if n < 0 then ['_'] else []) ++ Nat.toDigits 10 n.natAbs := by
  unfold write
  split_ifs <;> simp

theorem isDigit_of_mem_toDigits (m : Nat) : ∀ d ∈ Nat.toDigits 10 m, isDigit d = true :=
  fun _ hd => Nat.isDigit_of_mem_toDigits (by decide) (by decide) hd

theorem parse_write (h : (Nat.toDigits 10 n.natAbs).length ≤ digitLimit) :
    parse (write n) = .ok n := by
  have hsplit : split? (write n).toList = some (decide (n < 0), Nat.toDigits 10 n.natAbs) := by
    rw [split?_eq_some_iff, toList_write]
    exact ⟨Nat.toDigits_ne_nil, isDigit_of_mem_toDigits _, by simp⟩
  have hvalue : digitsValue (Nat.toDigits 10 n.natAbs) = n.natAbs := Nat.ofDigitChars_ten_toDigits
  rw [parse, hsplit]
  simp only [if_neg (not_lt.2 h), hvalue, decide_eq_true_eq]
  congr 1
  split_ifs <;> omega

/-- The value of a numeral is written with its digits behind the zeros in front, and with its sign
unless it is zero. -/
theorem Numeral.toList_write_value (l : Numeral) : ∃ zeros digits,
    l.digits.map digit = List.replicate zeros '0' ++ digits ∧
      (write l.value).toList = (if l.value = 0 then [] else l.sign) ++ digits := by
  obtain ⟨zeros, hzeros⟩ := exists_map_digit_eq l.nonempty
  have hmagnitude : l.value.natAbs = magnitude l.digits := by
    unfold value
    split_ifs <;> omega
  have hsign : (if l.value < 0 then ['_'] else []) = if l.value = 0 then [] else l.sign := by
    cases hnegative : l.negative with
    | false => simp [value, sign, hnegative]
    | true => simp [value, sign, hnegative, Nat.pos_iff_ne_zero]
  exact ⟨zeros, _, hzeros, by rw [toList_write, hmagnitude, hsign]⟩

/-! ### Reading -/

theorem digitLimitText_ne (count : Nat) (text : String) :
    Fault.digitLimitText (some count) ≠ "Invalid numeric literal " ++ text := by
  intro h
  unfold Fault.digitLimitText at h
  -- The limit in the text stays closed, for simp would count up to it.
  generalize toString digitLimit = limit at h
  have hfirst := congrArg (fun message => message.toList.head?) h
  simp at hfirst

theorem digitLimitText_injective {count count' : Nat}
    (h : Fault.digitLimitText (some count) = Fault.digitLimitText (some count')) :
    count = count' := by
  unfold Fault.digitLimitText at h
  simp only [String.append_left_inj, String.append_right_inj] at h
  have hdigits : Nat.toDigits 10 count = Nat.toDigits 10 count' := by
    simpa using congrArg String.toList h
  simpa using congrArg (fun digits => Nat.ofDigitChars 10 digits 0) hdigits

/-- What reading a text gives that spells a numeral, and one that does not. -/
theorem parse_cases (t : String) :
    (∃ l : Numeral, l.text = t ∧ parse t =
      if digitLimit < l.digits.length then .error (.literalTooLong l.digits.length)
      else .ok l.value) ∨
    (∀ l : Numeral, l.text ≠ t) ∧ parse t = .error (.invalidLiteral t) := by
  by_cases h : ∃ l : Numeral, l.text = t
  · obtain ⟨l, rfl⟩ := h
    exact .inl ⟨l, rfl, l.parse_text⟩
  · exact .inr ⟨not_exists.1 h, parse_of_not_numeral (not_exists.1 h)⟩

theorem parse_eq_ok_iff : parse t = .ok n ↔
    ∃ l : Numeral, l.text = t ∧ l.digits.length ≤ digitLimit ∧ l.value = n := by
  obtain ⟨l, rfl, hparse⟩ | ⟨hnone, hparse⟩ := parse_cases t
  · simp only [Numeral.text_injective.eq_iff, exists_eq_left, hparse]
    split_ifs with hlong
    · simp [hlong]
    · simp [not_lt.1 hlong]
  · simp [hparse, hnone]

/-- A text is refused as invalid when it spells no numeral. -/
theorem exists_invalid_iff : (∃ fault, parse t = .error fault ∧ fault.kind = .value ∧
    fault.message = "Invalid numeric literal " ++ Text.quoted t) ↔ ∀ l : Numeral, l.text ≠ t := by
  constructor
  · rintro ⟨fault, hparse, -, hmessage⟩ l rfl
    rw [l.parse_text] at hparse
    split_ifs at hparse
    cases hparse
    exact digitLimitText_ne _ _ hmessage
  · intro h
    exact ⟨_, parse_of_not_numeral h, rfl, rfl⟩

/-- A text is refused for its length when it spells a numeral with too many digits. -/
theorem exists_too_long_iff {count : Nat} : (∃ fault, parse t = .error fault ∧
    fault.kind = .value ∧ fault.message = Fault.digitLimitText (some count)) ↔
      ∃ l : Numeral, l.text = t ∧ l.digits.length = count ∧ digitLimit < count := by
  constructor
  · rintro ⟨fault, hfault, -, hmessage⟩
    obtain ⟨l, hl, hparse⟩ | ⟨-, hparse⟩ := parse_cases t
    · rw [hparse] at hfault
      split_ifs at hfault with hlong
      cases hfault
      cases digitLimitText_injective hmessage
      exact ⟨l, hl, rfl, hlong⟩
    · rw [hparse] at hfault
      cases hfault
      exact absurd hmessage.symm (digitLimitText_ne _ _)
  · rintro ⟨l, rfl, rfl, hlong⟩
    rw [l.parse_text, if_pos hlong]
    exact ⟨_, rfl, rfl, rfl⟩

theorem nextLiteral_eq_none_iff {s : TokenStream} : s.nextLiteral = .ok none ↔
    s.remaining = [] ∨ ∃ t rest, s.remaining = t :: rest ∧ ∀ l : Numeral, l.text ≠ t := by
  obtain ⟨tokens⟩ := s
  cases tokens with
  | nil => simp [TokenStream.nextLiteral, TokenStream.peek]
  | cons t rest =>
    have hnumeral : (∀ l : Numeral, l.text ≠ t) ↔ isLiteral t = false := by
      rw [← Bool.not_eq_true, isLiteral_iff_numeral, not_exists]
    have hnext : TokenStream.nextLiteral ⟨t :: rest⟩ =
        if isLiteral t then some <$> parse t else .ok none := rfl
    rw [hnext]
    cases hliteral : isLiteral t
    · simp [hnumeral, hliteral]
    · cases parse t <;> simp [hnumeral, hliteral]

/-- The literals are the texts that spell a numeral. Reading gives the value of the numeral, and it
refuses a text that spells none and a numeral with more digits than the limit, be they zeros. An
integer that is written is read again, and what is read is written as it was but for zeros in front
and the sign of zero. A stream gives no literal when it is empty or another text is in front. -/
theorem numerals_are_read_and_written :
    (∀ t, (isLiteral t = true ↔ ∃ l : Numeral, l.text = t) ∧
      ((∃ fault, parse t = .error fault ∧ fault.kind = .value ∧
        fault.message = "Invalid numeric literal " ++ Text.quoted t) ↔
          ∀ l : Numeral, l.text ≠ t) ∧
      (∀ count, (∃ fault, parse t = .error fault ∧ fault.kind = .value ∧
        fault.message = Fault.digitLimitText (some count)) ↔
          ∃ l : Numeral, l.text = t ∧ l.digits.length = count ∧ digitLimit < count) ∧
      (∀ n, parse t = .ok n ↔
        ∃ l : Numeral, l.text = t ∧ l.digits.length ≤ digitLimit ∧ l.value = n) ∧
      ∀ n, parse t = .ok n → ∃ l : Numeral, l.text = t ∧ ∃ zeros digits,
        l.digits.map digit = List.replicate zeros '0' ++ digits ∧
          (write n).toList = (if n = 0 then [] else l.sign) ++ digits) ∧
    (∀ n : Int, (Nat.toDigits 10 n.natAbs).length ≤ digitLimit → parse (write n) = .ok n) ∧
    ∀ s : TokenStream, s.nextLiteral = .ok none ↔
      s.remaining = [] ∨ ∃ t rest, s.remaining = t :: rest ∧ ∀ l : Numeral, l.text ≠ t := by
  refine ⟨fun t => ⟨isLiteral_iff_numeral, exists_invalid_iff, fun count => exists_too_long_iff,
    fun n => parse_eq_ok_iff, fun n hparse => ?_⟩, fun n => parse_write,
    fun s => nextLiteral_eq_none_iff⟩
  obtain ⟨l, hl, -, rfl⟩ := parse_eq_ok_iff.1 hparse
  exact ⟨l, hl, l.toList_write_value⟩

theorem numerals_are_read_and_written_other_scripts :
    parse "_007" = .ok (-7) ∧ parse (write (-7)) = .ok (-7) ∧
      TokenStream.nextLiteral ⟨["\u0667", "7"]⟩ = .ok none := by
  obtain ⟨htexts, hwritten, hstreams⟩ := numerals_are_read_and_written
  obtain ⟨-, -, -, hvalue, -⟩ := htexts "_007"
  have hother : ¬ ∃ l : Numeral, l.text = "\u0667" := by
    rw [← (htexts "\u0667").1]
    decide
  refine ⟨(hvalue (-7)).2 ⟨⟨true, [0, 0, 7], by decide⟩, rfl, ?_, rfl⟩, hwritten (-7) ?_, ?_⟩
  · simp [digitLimit]
  · decide
  · exact (hstreams _).2 (.inr ⟨_, _, rfl, not_exists.1 hother⟩)

end Literal
end ArrayPhrase
