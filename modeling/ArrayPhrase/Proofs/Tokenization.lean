import ArrayPhrase.Proofs.Lexing
import ArrayPhrase.Proofs.Literals

/-! Words by what they are. A cutting of a text into words is told by conditions on the words and
on the positions they cover, without the scan that finds them. There is exactly one cutting that
meets them, the one that is computed. -/

namespace ArrayPhrase

/-- No character of the class stands first. -/
def Stops (holds : Char → Bool) (chars : List Char) : Prop :=
  ∀ c ∈ chars.head?, holds c = false

theorem takeWhile_append_eq_left_iff {holds : Char → Bool} {chars following : List Char} :
    (chars ++ following).takeWhile holds = chars ↔
      (∀ c ∈ chars, holds c = true) ∧ Stops holds following := by
  induction chars with
  | nil => cases following <;> simp [Stops, List.takeWhile_cons]
  | cons c chars ih =>
    rw [List.cons_append, List.takeWhile_cons, List.forall_mem_cons, and_assoc, ← ih]
    cases holds c <;> simp

theorem drop_of_drop_eq_cons {source rest : List Char} {start : Nat} {c : Char}
    (h : source.drop start = c :: rest) (n : Nat) : source.drop (start + 1 + n) = rest.drop n := by
  rw [Nat.add_assoc, ← List.drop_drop, h, Nat.add_comm, List.drop_succ_cons]

/-! ### Characters of one word -/

namespace Token

/-- The characters of a word of each kind in front of what follows it. A word goes on as long as it
can, and an underscore is a primitive only where no digit is behind it. -/
inductive Spelled (following : List Char) : Kind → List Char → Prop where
  | number {sign digits : List Char} (sign_eq : sign = [] ∨ sign = ['_']) (nonempty : digits ≠ [])
    (all : ∀ d ∈ digits, Literal.isDigit d = true) (stops : Stops Literal.isDigit following) :
    Spelled following .number (sign ++ digits)
  | name {c : Char} {parts : List Char} (letter : isLetter c = true)
    (all : ∀ d ∈ parts, isNamePart d = true) (stops : Stops isNamePart following) :
    Spelled following .name (c :: parts)
  | primitive {c : Char} {inflections : List Char} (notDigit : Literal.isDigit c = false)
    (notLetter : isLetter c = false)
    (noNumber : c = '_' → Stops Literal.isDigit (inflections ++ following))
    (all : ∀ d ∈ inflections, isInflection d = true) (stops : Stops isInflection following) :
    Spelled following .primitive (c :: inflections)

theorem isDigit_of_isLetter {c : Char} (h : isLetter c = true) : Literal.isDigit c = false := by
  have h9 : ('9' : Char).val.toNat = 57 := rfl
  have hA : ('A' : Char).val.toNat = 65 := rfl
  have ha : ('a' : Char).val.toNat = 97 := rfl
  simp only [isLetter, Bool.or_eq_true, Bool.and_eq_true, decide_eq_true_eq, Char.le_def,
    UInt32.le_iff_toNat_le] at h
  simp only [Literal.isDigit, Bool.and_eq_false_iff, decide_eq_false_iff_not, Char.le_def,
    UInt32.le_iff_toNat_le]
  omega

theorem startsNumber_iff {c : Char} {rest : List Char} : startsNumber c rest = true ↔
    Literal.isDigit c = true ∨ c = '_' ∧ ¬ Stops Literal.isDigit rest := by
  cases rest <;> simp [startsNumber, Stops]

theorem startsNumber_of_isLetter {c : Char} (h : isLetter c = true) (rest : List Char) :
    startsNumber c rest = false := by
  have hunderscore : c ≠ '_' := by
    rintro rfl
    exact absurd h (by decide)
  simp [startsNumber, isDigit_of_isLetter h, hunderscore]

/-- Digits after a sign or none begin a number, whatever follows. -/
theorem startsNumber_of_digits {sign digits tail : List Char} {c : Char}
    (sign_eq : sign = [] ∨ sign = ['_']) (nonempty : digits ≠ [])
    (all : ∀ d ∈ digits, Literal.isDigit d = true) (h : c :: tail = sign ++ digits)
    (following : List Char) :
    startsNumber c (tail ++ following) = true ∧ ∀ d ∈ tail, Literal.isDigit d = true := by
  rw [startsNumber_iff]
  rcases sign_eq with rfl | rfl
  · rw [List.nil_append] at h
    rw [← h, List.forall_mem_cons] at all
    exact ⟨.inl all.1, all.2⟩
  · obtain ⟨rfl, rfl⟩ : c = '_' ∧ tail = digits := by simpa using h
    obtain ⟨d, ds, rfl⟩ := List.exists_cons_of_ne_nil nonempty
    exact ⟨.inr ⟨rfl, by simp [Stops, all d]⟩, all⟩

/-- The words that the scan takes are the ones that are spelled as words of a kind are. -/
theorem spelled_cons_iff {following tail : List Char} {kind : Kind} {c : Char} :
    Spelled following kind (c :: tail) ↔ kind = kindAt c (tail ++ following) ∧
      (tail ++ following).takeWhile kind.continues = tail := by
  rw [takeWhile_append_eq_left_iff]
  constructor
  · generalize hchars : c :: tail = chars
    rintro (⟨sign_eq, nonempty, all, stops⟩ | ⟨letter, all, stops⟩ |
      ⟨notDigit, notLetter, noNumber, all, stops⟩)
    · obtain ⟨hnumber, hdigits⟩ := startsNumber_of_digits sign_eq nonempty all hchars following
      rw [kindAt, if_pos hnumber]
      exact ⟨rfl, hdigits, stops⟩
    · cases hchars
      rw [kindAt, startsNumber_of_isLetter letter, letter]
      exact ⟨rfl, all, stops⟩
    · cases hchars
      have hnumber : ¬ startsNumber c (tail ++ following) = true := by
        rw [startsNumber_iff, notDigit]
        simpa using noNumber
      rw [kindAt, if_neg hnumber, notLetter]
      exact ⟨rfl, all, stops⟩
  · rintro ⟨rfl, hall⟩
    unfold kindAt at hall ⊢
    split_ifs at hall ⊢ with hnumber hletter
    · obtain ⟨all, stops⟩ := hall
      rcases startsNumber_iff.1 hnumber with hdigit | ⟨rfl, hbehind⟩
      · exact @Spelled.number _ [] (c :: tail) (.inl rfl) (List.cons_ne_nil c tail)
          (List.forall_mem_cons.2 ⟨hdigit, all⟩) stops
      · have htail : tail ≠ [] := by
          rintro rfl
          exact hbehind stops
        exact @Spelled.number _ ['_'] tail (.inr rfl) htail all stops
    · exact .name hletter hall.1 hall.2
    · rw [startsNumber_iff, not_or, not_and_not_right] at hnumber
      exact .primitive (by simpa using hnumber.1) (by simpa using hletter) hnumber.2 hall.1 hall.2

theorem take_length_takeWhile (holds : Char → Bool) (chars : List Char) :
    chars.take (chars.takeWhile holds).length = chars.takeWhile holds :=
  (List.prefix_iff_eq_take.1 (List.takeWhile_prefix holds)).symm

/-- The scan takes a word of the kind that it has begun with. -/
theorem spelled_scan (c : Char) (rest : List Char) :
    let kind := kindAt c rest
    let tail := rest.takeWhile kind.continues
    Spelled (rest.drop tail.length) kind (c :: tail) := by
  intro kind tail
  have happend : tail ++ rest.drop tail.length = rest := calc
    tail ++ rest.drop tail.length = rest.take tail.length ++ rest.drop tail.length := by
      rw [take_length_takeWhile]
    _ = rest := List.take_append_drop _ _
  rw [spelled_cons_iff, happend]
  exact ⟨rfl, rfl⟩

/-! ### Words at their positions -/

/-- The positions of the word hold its text, and what follows does not go on with it. -/
structure StandsIn (source : List Char) (t : Token) : Prop where
  start_lt_stop : t.start < t.stop
  stop_le : t.stop ≤ source.length
  text_eq : t.text = String.ofList ((source.take t.stop).drop t.start)
  spelled : Spelled (source.drop t.stop) t.kind t.text.toList

/-- The character at a position is one of the word. -/
def Covers (t : Token) (i : Nat) : Prop :=
  t.start ≤ i ∧ i < t.stop

/-- The word that begins with the character `c` at a position. -/
def wordAt (start : Nat) (c : Char) (rest : List Char) : Token :=
  let kind := kindAt c rest
  let tail := rest.takeWhile kind.continues
  ⟨kind, String.ofList (c :: tail), start, start + 1 + tail.length⟩

variable {source rest : List Char} {start : Nat} {c : Char} {t : Token}

/-- Only one word can stand where it begins. -/
theorem standsIn_iff (hrest : source.drop start = c :: rest) :
    t.StandsIn source ∧ t.start = start ↔ t = wordAt start c rest := by
  have hlength : source.length = start + 1 + rest.length := by
    have h := congrArg List.length hrest
    rw [List.length_drop, List.length_cons] at h
    omega
  have hbehind := drop_of_drop_eq_cons hrest
  have htext (n : Nat) : (source.take (start + 1 + n)).drop start = c :: rest.take n := by
    rw [List.drop_take, hrest, show start + 1 + n - start = n + 1 by omega, List.take_succ_cons]
  constructor
  · obtain ⟨kind, text, first, stop⟩ := t
    rintro ⟨⟨hlt, hle, text_eq, spelled⟩, rfl⟩
    dsimp only at *
    obtain ⟨n, rfl⟩ : ∃ n, stop = first + 1 + n := Nat.exists_eq_add_of_le hlt
    rw [htext] at text_eq
    rw [hbehind, text_eq, String.toList_ofList, spelled_cons_iff, List.take_append_drop] at spelled
    obtain ⟨hkind, htail⟩ := spelled
    have hn : (rest.takeWhile kind.continues).length = n := by
      rw [htail, List.length_take]
      omega
    rw [text_eq, wordAt, ← hkind, hn, htail]
  · rintro rfl
    set tail := rest.takeWhile (kindAt c rest).continues with htail
    have htake : rest.take tail.length = tail := take_length_takeWhile _ rest
    have hle : tail.length ≤ rest.length := (List.takeWhile_sublist _).length_le
    refine ⟨⟨by simp only [wordAt]; omega, ?_, ?_, ?_⟩, rfl⟩
    · show start + 1 + tail.length ≤ source.length
      omega
    · show String.ofList (c :: tail) =
        String.ofList ((source.take (start + 1 + tail.length)).drop start)
      rw [htext, htake]
    · show Spelled (source.drop (start + 1 + tail.length)) (kindAt c rest)
        (String.ofList (c :: tail)).toList
      rw [hbehind, String.toList_ofList]
      exact spelled_scan c rest

theorem not_isBlank_of_wordAt (hrest : source.drop start = c :: rest) (hc : isBlank c = false)
    {i : Nat} {d : Char} (hi : (wordAt start c rest).Covers i) (hd : source[i]? = some d) :
    isBlank d = false := by
  obtain ⟨k, rfl⟩ : ∃ k, i = start + k := Nat.exists_eq_add_of_le hi.1
  rw [← List.getElem?_drop, hrest] at hd
  cases k with
  | zero =>
    obtain rfl : c = d := by simpa using hd
    exact hc
  | succ k =>
    set tail := rest.takeWhile (kindAt c rest).continues with htail
    have hk : k < tail.length := by
      have hstop : start + (k + 1) < start + 1 + tail.length := hi.2
      omega
    rw [List.getElem?_cons_succ] at hd
    have htake : rest.take tail.length = tail := take_length_takeWhile _ rest
    have hmem : d ∈ tail := by
      rw [← List.getElem?_take_of_lt hk, htake] at hd
      exact List.mem_of_getElem? hd
    have hcontinues := List.mem_takeWhile_imp hmem
    by_contra hblank
    rw [Kind.continues_of_isBlank _ (by simpa using hblank)] at hcontinues
    cases hcontinues

end Token

/-- The words cover what stands in the source from a position on: they come one after the other,
and the characters that no word covers are the blank ones. -/
structure Tokenization (source : List Char) (start : Nat) (tokens : List Token) : Prop where
  start_le : ∀ t ∈ tokens, start ≤ t.start
  standsIn : ∀ t ∈ tokens, t.StandsIn source
  ordered : tokens.Pairwise fun t u => t.stop ≤ u.start
  isBlank_iff : ∀ i c, start ≤ i → source[i]? = some c →
    (Token.isBlank c = true ↔ ∀ t ∈ tokens, ¬ t.Covers i)

namespace Tokenization

variable {source rest : List Char} {start : Nat} {c : Char} {tokens : List Token}

theorem nil_iff (h : source.drop start = []) : Tokenization source start tokens ↔ tokens = [] := by
  have hlength : source.length ≤ start := List.drop_eq_nil_iff.1 h
  constructor
  · intro htokens
    refine List.eq_nil_iff_forall_not_mem.2 fun t ht => ?_
    have hstart := htokens.start_le t ht
    have hstands := htokens.standsIn t ht
    have hlt := hstands.start_lt_stop
    have hle := hstands.stop_le
    omega
  · rintro rfl
    refine ⟨by simp, by simp, .nil, fun i c hi hc => ?_⟩
    rw [List.getElem?_eq_none (by omega)] at hc
    cases hc

theorem blank_iff (hrest : source.drop start = c :: rest) (hblank : Token.isBlank c = true) :
    Tokenization source start tokens ↔ Tokenization source (start + 1) tokens := by
  have hc : source[start]? = some c := by
    rw [← List.head?_drop, hrest, List.head?_cons]
  constructor
  · intro h
    refine ⟨fun t ht => ?_, h.standsIn, h.ordered, fun i d hi => h.isBlank_iff i d (by omega)⟩
    have huncovered := (h.isBlank_iff start c le_rfl hc).1 hblank t ht
    have hstart := h.start_le t ht
    have hlt := (h.standsIn t ht).start_lt_stop
    unfold Token.Covers at huncovered
    omega
  · intro h
    refine ⟨fun t ht => by have := h.start_le t ht; omega, h.standsIn, h.ordered, ?_⟩
    intro i d hi hd
    rcases Nat.eq_or_lt_of_le hi with rfl | hi
    · obtain rfl : d = c := by simpa [hc] using hd.symm
      refine iff_of_true hblank fun t ht hcovers => ?_
      have hstart := h.start_le t ht
      have hle := hcovers.1
      omega
    · exact h.isBlank_iff i d hi hd

theorem word_iff (hrest : source.drop start = c :: rest) (hc : Token.isBlank c = false) :
    Tokenization source start tokens ↔ ∃ us, tokens = Token.wordAt start c rest :: us ∧
      Tokenization source (Token.wordAt start c rest).stop us := by
  have hfirst : source[start]? = some c := by
    rw [← List.head?_drop, hrest, List.head?_cons]
  set word := Token.wordAt start c rest with hword
  obtain ⟨hstands, hstart⟩ := (Token.standsIn_iff hrest).2 hword
  constructor
  · intro h
    -- The first character is not blank, so a word covers it, and it is the first of the words.
    obtain ⟨t, ht, hcovers⟩ : ∃ t ∈ tokens, t.Covers start := by
      by_contra hnone
      simp only [not_exists, not_and] at hnone
      rw [(h.isBlank_iff start c le_rfl hfirst).2 hnone] at hc
      cases hc
    obtain ⟨u, us, rfl⟩ := List.exists_cons_of_ne_nil (List.ne_nil_of_mem ht)
    obtain ⟨hbehind, hordered⟩ := List.pairwise_cons.1 h.ordered
    have hu : u.start = start := by
      have hle := h.start_le u (by simp)
      have hlt := (h.standsIn u (by simp)).start_lt_stop
      have hcovers := hcovers.1
      rcases List.mem_cons.1 ht with rfl | ht
      · omega
      · have hstop := hbehind t ht
        omega
    obtain rfl : u = word := (Token.standsIn_iff hrest).1 ⟨h.standsIn u (by simp), hu⟩
    refine ⟨us, rfl, hbehind, fun t ht => h.standsIn t (by simp [ht]), hordered, ?_⟩
    intro i d hi hd
    have hlt := hstands.start_lt_stop
    have huncovered : ¬ word.Covers i := fun hcovers => absurd hcovers.2 (not_lt_of_ge hi)
    rw [h.isBlank_iff i d (by omega) hd, List.forall_mem_cons, and_iff_right huncovered]
  · rintro ⟨us, rfl, h⟩
    have hlt := hstands.start_lt_stop
    refine ⟨?_, List.forall_mem_cons.2 ⟨hstands, h.standsIn⟩,
      List.pairwise_cons.2 ⟨h.start_le, h.ordered⟩, fun i d hi hd => ?_⟩
    · refine List.forall_mem_cons.2 ⟨hstart.ge, fun t ht => ?_⟩
      have hle := h.start_le t ht
      omega
    · rw [List.forall_mem_cons]
      by_cases hcovers : word.Covers i
      · rw [Token.not_isBlank_of_wordAt hrest hc hcovers hd]
        simp [hcovers]
      · have hstop : word.stop ≤ i := by
          unfold Token.Covers at hcovers
          omega
        rw [h.isBlank_iff i d hstop hd, and_iff_right hcovers]

end Tokenization

/-- The computed words are the only ones that cover a text as words have to. -/
theorem tokenization_iff {source : List Char} (start : Nat) (chars : List Char) :
    source.drop start = chars →
      ∀ tokens, Tokenization source start tokens ↔ tokens = tokensFrom start chars := by
  fun_induction tokensFrom start chars with
  | case1 start => exact fun h tokens => Tokenization.nil_iff h
  | case2 start c rest hc ih =>
    intro h tokens
    rw [Tokenization.blank_iff h hc, ih (drop_of_drop_eq_cons h 0)]
  | case3 start c rest hc kind tail stop ih =>
    intro h tokens
    have hrest := ih (drop_of_drop_eq_cons h tail.length)
    rw [Tokenization.word_iff h (by simpa using hc)]
    constructor
    · rintro ⟨us, rfl, hus⟩
      rw [(hrest us).1 hus]
      rfl
    · rintro rfl
      exact ⟨_, rfl, (hrest _).2 rfl⟩

/-! ### Numbers -/

/-- The words that are read as literals are the numbers. -/
theorem Token.Spelled.kind_eq_number_iff {following : List Char} {kind : Kind} {text : String}
    (h : Spelled following kind text.toList) : kind = .number ↔ Literal.isLiteral text = true := by
  rw [Literal.isLiteral_iff]
  constructor
  · rintro rfl
    generalize text.toList = chars at h
    cases h with
    | number sign_eq nonempty all stops => exact ⟨_, _, sign_eq, nonempty, all, rfl⟩
  · rintro ⟨sign, digits, sign_eq, nonempty, all, htext⟩
    obtain ⟨c, tail, hchars⟩ := List.exists_cons_of_ne_nil
      (List.append_ne_nil_of_right_ne_nil sign nonempty)
    have hnumber := (startsNumber_of_digits sign_eq nonempty all hchars.symm following).1
    rw [htext, hchars, spelled_cons_iff] at h
    rw [h.1, kindAt, if_pos hnumber]

/-- The words of a text are the only sequence of words, each one as long as it can be, that covers
the text up to its white space. Those that are numbers are those that are read as literals. -/
theorem tokenize_covers_uniquely (source : String) :
    (∀ tokens, Tokenization source.toList 0 tokens ↔ tokens = tokenize source) ∧
      ∀ t ∈ tokenize source, t.kind = .number ↔ Literal.isLiteral t.text = true := by
  have hunique := tokenization_iff 0 source.toList rfl
  refine ⟨hunique, fun t ht => ?_⟩
  have htokens := (hunique (tokenize source)).2 rfl
  exact (htokens.standsIn t ht).spelled.kind_eq_number_iff

theorem tokenize_covers_uniquely_underscores :
    Tokenization "a_1 _.5 1_2".toList 0
        [⟨.name, "a_1", 0, 3⟩, ⟨.primitive, "_.", 4, 6⟩, ⟨.number, "5", 6, 7⟩,
          ⟨.number, "1", 8, 9⟩, ⟨.number, "_2", 9, 11⟩] ∧
      ⟨.number, "_2", 9, 11⟩ ∈ tokenize "a_1 _.5 1_2" ∧ Literal.isLiteral "_2" = true := by
  have htokens : tokenize "a_1 _.5 1_2" =
      [⟨.name, "a_1", 0, 3⟩, ⟨.primitive, "_.", 4, 6⟩, ⟨.number, "5", 6, 7⟩,
        ⟨.number, "1", 8, 9⟩, ⟨.number, "_2", 9, 11⟩] := by
    decide +kernel
  obtain ⟨hunique, hnumber⟩ := tokenize_covers_uniquely "a_1 _.5 1_2"
  have hmem : ⟨.number, "_2", 9, 11⟩ ∈ tokenize "a_1 _.5 1_2" := by
    simp [htokens]
  exact ⟨(hunique _).2 htokens.symm, hmem, (hnumber _ hmem).1 rfl⟩

end ArrayPhrase
