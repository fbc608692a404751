import ArrayPhrase.Proofs.PhraseSemantics
import ArrayPhrase.Proofs.Spacing

/-! Integers written behind an operator that takes literals. Each is one word, all of them are
operands of the operator, last written first, and read from the stream they are the integers again
in the order written. -/

namespace ArrayPhrase

open Outcome

/-! ### Numerals -/

namespace Literal

/-- Digits of a number in base ten, perhaps with zeros in front, no more than a literal may have. -/
structure Digits (value : Nat) (digits : List Char) : Prop where
  nonempty : digits ≠ []
  all : ∀ d ∈ digits, isDigit d = true
  short : digits.length ≤ digitLimit
  value_eq : Nat.ofDigitChars 10 digits 0 = value

instance (value : Nat) (digits : List Char) : Decidable (Digits value digits) :=
  decidable_of_iff (digits ≠ [] ∧ digits.all isDigit = true ∧
      digits.length ≤ digitLimit ∧ Nat.ofDigitChars 10 digits 0 = value)
    ⟨fun h => ⟨h.1, List.all_eq_true.1 h.2.1, h.2.2.1, h.2.2.2⟩,
      fun h => ⟨h.nonempty, List.all_eq_true.2 h.all, h.short, h.value_eq⟩⟩

/-- The text writes the integer: its digits, after an underscore when it is negative. -/
inductive Writes : Int → String → Prop where
  | plain {value : Nat} {text : String} (digits : Digits value text.toList) : Writes value text
  | negated {value : Nat} {chars : List Char} {text : String} (text_eq : text.toList = '_' :: chars)
    (digits : Digits value chars) : Writes (-value) text

variable {n : Int} {m : Nat} {digits : List Char} {text : String}

-- With a number for `k` the power would be computed.
theorem length_toDigits_le {k : Nat} (hk : 0 < k) (hm : m < Nat.pow 10 k) :
    (Nat.toDigits 10 m).length ≤ k :=
  (Nat.length_toDigits_le_iff (by decide) hk).2 hm

theorem digits_toDigits (hm : m < Nat.pow 10 digitLimit) : Digits m (Nat.toDigits 10 m) where
  nonempty := Nat.toDigits_ne_nil
  all := isDigit_of_mem_toDigits m
  short := length_toDigits_le (by decide) hm
  value_eq := Nat.ofDigitChars_ten_toDigits

/-- The literal of an integer writes it. -/
theorem writes_write (hn : isWritable n = true) : Writes n (write n) := by
  have hdigits := digits_toDigits (of_decide_eq_true hn)
  have htext := toList_write n
  by_cases hneg : n < 0
  · rw [if_pos hneg] at htext
    have hwrites : Writes (-(n.natAbs : Int)) (write n) := .negated htext hdigits
    rwa [show -(n.natAbs : Int) = n by omega] at hwrites
  · rw [if_neg hneg, List.nil_append] at htext
    have hwrites : Writes (n.natAbs : Int) (write n) := .plain (htext ▸ hdigits)
    rwa [show (n.natAbs : Int) = n by omega] at hwrites

theorem Digits.split?_eq (h : Digits m digits) : split? digits = some (false, digits) :=
  split?_eq_some_iff.2 ⟨h.nonempty, h.all, rfl⟩

theorem Digits.split?_negated (h : Digits m digits) :
    split? ('_' :: digits) = some (true, digits) :=
  split?_eq_some_iff.2 ⟨h.nonempty, h.all, rfl⟩

theorem Writes.isLiteral (h : Writes n text) : isLiteral text = true := by
  cases h with
  | plain digits => rw [Literal.isLiteral, digits.split?_eq]; rfl
  | negated text_eq digits => rw [Literal.isLiteral, text_eq, digits.split?_negated]; rfl

theorem Writes.parse_eq (h : Writes n text) : parse text = .ok n := by
  cases h with
  | plain digits =>
    rw [parse, digits.split?_eq]
    simp only [if_neg (not_lt.2 digits.short)]
    exact congrArg (fun value : Nat => Except.ok (value : Int)) digits.value_eq
  | negated text_eq digits =>
    rw [parse, text_eq, digits.split?_negated]
    simp only [if_neg (not_lt.2 digits.short)]
    exact congrArg (fun value : Nat => Except.ok (-(value : Int))) digits.value_eq

theorem Numeral.writes (l : Numeral) (h : l.digits.length ≤ digitLimit) :
    Writes l.value l.text := by
  have hdigits : Digits (magnitude l.digits) (l.digits.map digit) :=
    ⟨by simpa using l.nonempty, (split?_eq_some_iff.1 l.split?_text).2.1, by simpa using h,
      digitsValue_map_digit l.digits⟩
  unfold value
  split_ifs with hnegative
  · exact .negated (by simp [text, sign, hnegative]) hdigits
  · refine .plain ?_
    rw [text, sign, if_neg hnegative, String.toList_ofList]
    exact hdigits

/-- The texts that write an integer are those that are read as it. -/
theorem writes_iff_parse_eq : Writes n text ↔ parse text = .ok n := by
  constructor
  · exact Writes.parse_eq
  · intro h
    obtain ⟨l, rfl, hshort, rfl⟩ := parse_eq_ok_iff.1 h
    exact l.writes hshort

instance (n : Int) (text : String) : Decidable (Writes n text) :=
  decidable_of_iff (parse text = .ok n) writes_iff_parse_eq.symm

theorem isLiteral_of_writes {ns : List Int} {texts : List String}
    (h : List.Forall₂ Writes ns texts) : ∀ t ∈ texts, Literal.isLiteral t = true := by
  induction h with
  | nil => simp
  | cons writes _ ih => exact List.forall_mem_cons.2 ⟨writes.isLiteral, ih⟩

end Literal

/-! ### Words -/

/-- A literal begins with an underscore or a digit. -/
theorem exists_cons_of_isLiteral {text : String} (h : Literal.isLiteral text = true) :
    ∃ c tail, text.toList = c :: tail ∧ (c = '_' ∨ Literal.isDigit c = true) := by
  obtain ⟨sign, digits, sign_eq, nonempty, all, htext⟩ := Literal.isLiteral_iff.1 h
  rw [htext]
  rcases sign_eq with rfl | rfl
  · obtain ⟨c, tail, rfl⟩ := List.exists_cons_of_ne_nil nonempty
    exact ⟨c, tail, rfl, .inr (all c List.mem_cons_self)⟩
  · exact ⟨'_', digits, rfl, .inl rfl⟩

theorem not_isBlank_of_literal_head {c : Char} (hc : c = '_' ∨ Literal.isDigit c = true) :
    Token.isBlank c = false := by
  rcases hc with rfl | hc
  · rfl
  · by_contra hblank
    rw [Token.isDigit_of_isBlank (by simpa using hblank)] at hc
    cases hc

theorem not_isInflection_of_literal_head {c : Char} (hc : c = '_' ∨ Literal.isDigit c = true) :
    Token.isInflection c = false := by
  rw [Token.isInflection, Bool.or_eq_false_iff, decide_eq_false_iff_not, decide_eq_false_iff_not]
  constructor
  · rintro rfl
    exact absurd hc (by decide)
  · rintro rfl
    exact absurd hc (by decide)

/-- A literal on its own is one word. -/
theorem wordsOf_of_isLiteral {text : String} (h : Literal.isLiteral text = true) :
    wordsOf text.toList = [(.number, text)] := by
  obtain ⟨sign, digits, sign_eq, nonempty, all, htext⟩ := Literal.isLiteral_iff.1 h
  obtain ⟨c, tail, hchars, hc⟩ := exists_cons_of_isLiteral h
  have hspelled : Token.Spelled [] .number text.toList := by
    rw [htext]
    exact .number sign_eq nonempty all (by simp [Stops])
  rw [hchars] at hspelled
  have hwords := wordsOf_of_spelled (not_isBlank_of_literal_head hc) hspelled
  rwa [List.append_nil, wordsOf_nil, ← hchars, String.ofList_toList] at hwords

/-- White space and literals do not inflect what stands before them. -/
theorem Spaced.stops_isInflection {texts : List String} {body : List Char} (h : Spaced texts body)
    (htexts : ∀ t ∈ texts, Literal.isLiteral t = true) : Stops Token.isInflection body := by
  have hblank : ∀ {c : Char} {rest : List Char}, Token.isBlank c = true →
      Stops Token.isInflection (c :: rest) := by
    intro c rest hc
    have hstop : Token.isInflection c = false := Token.Kind.primitive.continues_of_isBlank hc
    simpa [Stops] using hstop
  cases h with
  | nil blank =>
    cases body with
    | nil => simp [Stops]
    | cons c trail => exact hblank (blank c List.mem_cons_self)
  | @cons lead gap rest text texts lead_blank gap_blank apart tail =>
    cases lead with
    | nil =>
      obtain ⟨c, chars, hchars, hc⟩ := exists_cons_of_isLiteral (htexts text List.mem_cons_self)
      simpa [Stops, hchars] using not_isInflection_of_literal_head hc
    | cons c lead => exact hblank (lead_blank c List.mem_cons_self)

/-! ### Operators that take literals -/

variable {head : String} {texts : List String} {ns : List Int}

theorem wordsOf_operator {lead body : List Char} (hhead : head = "+" ∨ head = "$")
    (hlead : ∀ c ∈ lead, Token.isBlank c = true) (hbody : Spaced texts body)
    (htexts : ∀ t ∈ texts, Literal.isLiteral t = true) :
    wordsOf (lead ++ head.toList ++ body) =
      (.primitive, head) :: texts.map fun t => (.number, t) := by
  have hstops := hbody.stops_isInflection htexts
  have hwords : wordsOf body = texts.map fun t => (.number, t) := by
    rw [hbody.wordsOf_eq, List.map_eq_flatMap]
    exact List.flatMap_congr fun t ht => wordsOf_of_isLiteral (htexts t ht)
  rw [List.append_assoc, wordsOf_lead_append hlead, ← hwords]
  rcases hhead with rfl | rfl
  · have hspelled : Token.Spelled body .primitive ['+'] :=
      .primitive rfl rfl (fun h => absurd h (by decide)) (by simp) hstops
    exact wordsOf_of_spelled rfl hspelled
  · have hspelled : Token.Spelled body .primitive ['$'] :=
      .primitive rfl rfl (fun h => absurd h (by decide)) (by simp) hstops
    exact wordsOf_of_spelled rfl hspelled

theorem not_isLiteral_operator (hhead : head = "+" ∨ head = "$") :
    Literal.isLiteral head = false := by
  rcases hhead with rfl | rfl <;> rfl

/-- All literals are operands of such an operator. -/
theorem takes_of_isLiteral (hhead : head = "+" ∨ head = "$")
    (htexts : ∀ t ∈ texts, Literal.isLiteral t = true) :
    (Verb.lookup head).consumption = .literals ∧ (Verb.lookup head).Takes texts [] := by
  rcases hhead with rfl | rfl
  · have hlookup : Verb.lookup "+" = .plus := by decide
    rw [hlookup]
    exact ⟨rfl, htexts, startsPlain_nil⟩
  · have hlookup : Verb.lookup "$" = .reshape := by decide
    rw [hlookup]
    exact ⟨rfl, htexts, startsPlain_nil⟩

theorem remaining_ofTexts_operator (hhead : head = "+" ∨ head = "$")
    (htexts : ∀ t ∈ texts, Literal.isLiteral t = true) :
    (TokenStream.ofTexts (head :: texts)).remaining = head :: texts.reverse := by
  have hphrasing :=
    Phrasing.application (not_isLiteral_operator hhead) (takes_of_isLiteral hhead htexts).2 .nil
  rw [List.append_nil] at hphrasing
  unfold TokenStream.ofTexts applicationOrder
  rw [← hphrasing.eq_phrases]
  simp [Phrase.applied]

/-- The literals behind such an operator are read in the order written. -/
theorem integerArgs_reverse (hhead : head = "+" ∨ head = "$")
    (hwrites : List.Forall₂ Literal.Writes ns texts) :
    (⟨texts.reverse⟩ : TokenStream).integerArgs = .ok ns := by
  have htexts := Literal.isLiteral_of_writes hwrites
  obtain ⟨hliterals, htakes⟩ := takes_of_isLiteral hhead htexts
  have hargs : (⟨texts.reverse ++ []⟩ : TokenStream).integerArgs = .ok ns ↔
      texts.mapM Literal.parse = .ok ns :=
    htakes.integerArgs_eq_ok_iff hliterals startsPlain_nil
  rw [List.append_nil] at hargs
  rw [hargs, mapM_eq_ok]
  exact hwrites.flip.imp fun _ _ h => h.parse_eq

namespace Phrase

theorem complete_of_integers (hhead : head = "+" ∨ head = "$")
    (hwrites : List.Forall₂ Literal.Writes ns texts) : (application head texts).Complete := by
  obtain ⟨hliterals, htakes⟩ := takes_of_isLiteral hhead (Literal.isLiteral_of_writes hwrites)
  refine ⟨not_isLiteral_operator hhead, htakes, ?_⟩
  rw [hliterals]
  exact nofun

/-- A verb that takes literals acts by the integers written behind it. -/
theorem apply_of_integers (given : List Int → Action) (hhead : head = "+" ∨ head = "$")
    (hread : ∀ s, (Verb.lookup head).read s = Verb.readLiterals s given)
    (hwrites : List.Forall₂ Literal.Writes ns texts) (p : Precision) (x : Noun) :
    (application head texts).apply p x = (given ns).apply p x := by
  have hintegers : Verb.readLiterals ⟨texts.reverse⟩ given = .ok (given ns, ns.length) := by
    rw [Verb.readLiterals, integerArgs_reverse hhead hwrites]
    rfl
  exact apply_of_read ((hread _).trans hintegers)

end Phrase

/-- Integers written with white space between them behind an operator that takes literals are one
number each. In the stream they stand behind that operator, last written first, and there they are
read as the integers that were written, without a change to the stream. Every integer that is short
enough can be written in that way. -/
theorem integers_reach_their_operator :
    (∀ n : Int, isWritable n = true → Literal.Writes n (Literal.write n)) ∧
    ∀ (head : String) (ns : List Int) (texts : List String) (lead body : List Char)
      (source : String), (head = "+" ∨ head = "$") → List.Forall₂ Literal.Writes ns texts →
      (∀ c ∈ lead, Token.isBlank c = true) → Spaced texts body →
      source.toList = lead ++ head.toList ++ body →
      let s := TokenStream.ofTexts (tokenTexts source)
      (tokenize source).map Token.word = (.primitive, head) :: texts.map (fun t => (.number, t)) ∧
        s.remaining = head :: texts.reverse ∧
        (s.drop 1).call .integerArgs = (.ok (.integers ns), s.drop 1) := by
  refine ⟨fun n => Literal.writes_write, ?_⟩
  intro head ns texts lead body source hhead hwrites hlead hbody hsource
  have htexts := Literal.isLiteral_of_writes hwrites
  have hwords : (tokenize source).map Token.word =
      (.primitive, head) :: texts.map (fun t => (.number, t)) := by
    rw [tokenize, hsource]
    exact wordsOf_operator hhead hlead hbody htexts
  have htokens : tokenTexts source = head :: texts := by
    have htexts := congrArg (List.map Prod.snd) hwords
    rw [List.map_map, List.map_cons, List.map_map] at htexts
    exact htexts.trans (congrArg (head :: ·) (List.map_id texts))
  have hremaining := remaining_ofTexts_operator hhead htexts
  rw [htokens]
  refine ⟨hwords, hremaining, ?_⟩
  have hdrop : (TokenStream.ofTexts (head :: texts)).drop 1 = ⟨texts.reverse⟩ := by
    rw [TokenStream.drop, hremaining, List.drop_one, List.tail_cons]
  rw [hdrop, TokenStream.call, integerArgs_reverse hhead hwrites]
  rfl

theorem integers_reach_their_operator_leading_zeros :
    let s := TokenStream.ofTexts (tokenTexts "+ 1\t_20  003")
    (tokenize "+ 1\t_20  003").map Token.word =
        [(.primitive, "+"), (.number, "1"), (.number, "_20"), (.number, "003")] ∧
      s.remaining = ["+", "003", "_20", "1"] ∧
      (s.drop 1).call .integerArgs = (.ok (.integers [1, -20, 3]), s.drop 1) := by
  have hdigits : Literal.Digits 1 ['1'] ∧ Literal.Digits 20 ['2', '0'] ∧
      Literal.Digits 3 ['0', '0', '3'] :=
    ⟨⟨by simp, by simp [Literal.isDigit], by simp [digitLimit], rfl⟩,
      ⟨by simp, by simp [Literal.isDigit], by simp [digitLimit], rfl⟩,
      ⟨by simp, by simp [Literal.isDigit], by simp [digitLimit], rfl⟩⟩
  have hwrites : List.Forall₂ Literal.Writes [1, -20, 3] ["1", "_20", "003"] :=
    .cons (.plain hdigits.1) (.cons (.negated rfl hdigits.2.1) (.cons (.plain hdigits.2.2) .nil))
  have hspaced : Spaced ["1", "_20", "003"] " 1\t_20  003".toList := by
    have hchars : " 1\t_20  003".toList = [' '] ++ "1".toList ++ ['\t'] ++
        ([] ++ "_20".toList ++ [' ', ' '] ++ ([] ++ "003".toList ++ [] ++ [])) := by decide +kernel
    rw [hchars]
    have hone : ∀ c ∈ [' '], Token.isBlank c = true := by simp [Token.isBlank]
    have htwo : ∀ c ∈ [' ', ' '], Token.isBlank c = true := by simp [Token.isBlank]
    have htab : ∀ c ∈ ['\t'], Token.isBlank c = true := by simp [Token.isBlank]
    refine .cons hone htab (by simp) (.cons (by simp) htwo (by simp) ?_)
    exact .cons (by simp) (by simp) (by simp) (.nil (by simp))
  exact integers_reach_their_operator.2 "+" _ _ [] _ _ (.inl rfl) hwrites (by simp) hspaced rfl

end ArrayPhrase
