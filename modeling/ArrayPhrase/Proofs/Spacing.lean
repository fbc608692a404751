import ArrayPhrase.Proofs.Tokenization

/-! White space between words. It only separates them: a text is cut into words on either side of
each white-space character as if the other side were not there, so words written down again with
any white space between them are the same words. -/

namespace ArrayPhrase

/-- A text of the given texts in order, with white space between them and perhaps at both ends. -/
inductive Spaced : List String → List Char → Prop where
  | nil {trail : List Char} (blank : ∀ c ∈ trail, Token.isBlank c = true) : Spaced [] trail
  | cons {lead gap rest : List Char} {text : String} {texts : List String}
    (lead_blank : ∀ c ∈ lead, Token.isBlank c = true)
    (gap_blank : ∀ c ∈ gap, Token.isBlank c = true) (apart : texts ≠ [] → gap ≠ [])
    (tail : Spaced texts rest) : Spaced (text :: texts) (lead ++ text.toList ++ gap ++ rest)

/-- A word without its positions. -/
def Token.word (t : Token) : Kind × String :=
  (t.kind, t.text)

/-- The words of a text without their positions. -/
def wordsOf (chars : List Char) : List (Token.Kind × String) :=
  (tokensFrom 0 chars).map Token.word

variable {chars before after lead trail : List Char} {w : Char}

theorem map_word_tokensFrom (start : Nat) (chars : List Char) :
    (tokensFrom start chars).map Token.word = wordsOf chars := by
  have hshift := tokensFrom_add 0 start chars
  rw [Nat.zero_add] at hshift
  rw [hshift, List.map_map]
  rfl

@[simp] theorem wordsOf_nil : wordsOf [] = [] := by
  rw [wordsOf, tokensFrom]
  rfl

theorem wordsOf_append (hw : Token.isBlank w = true) (before after : List Char) :
    wordsOf (before ++ w :: after) = wordsOf before ++ wordsOf after := by
  rw [wordsOf, tokensFrom_append hw, List.map_append, map_word_tokensFrom, map_word_tokensFrom]

theorem wordsOf_lead_append (hlead : ∀ c ∈ lead, Token.isBlank c = true) (after : List Char) :
    wordsOf (lead ++ after) = wordsOf after := by
  induction lead with
  | nil => rfl
  | cons c lead ih =>
    rw [List.forall_mem_cons] at hlead
    have hcons := wordsOf_append hlead.1 [] (lead ++ after)
    rw [wordsOf_nil, List.nil_append, List.nil_append] at hcons
    rw [List.cons_append, hcons, ih hlead.2]

theorem wordsOf_blank (htrail : ∀ c ∈ trail, Token.isBlank c = true) : wordsOf trail = [] := by
  have hwords := wordsOf_lead_append htrail []
  rwa [List.append_nil, wordsOf_nil] at hwords

theorem wordsOf_append_trail (htrail : ∀ c ∈ trail, Token.isBlank c = true) (before : List Char) :
    wordsOf (before ++ trail) = wordsOf before := by
  cases trail with
  | nil => rw [List.append_nil]
  | cons c trail =>
    rw [List.forall_mem_cons] at htrail
    rw [wordsOf_append htrail.1, wordsOf_blank htrail.2, List.append_nil]

theorem wordsOf_append_gap {gap : List Char} (hgap : ∀ c ∈ gap, Token.isBlank c = true)
    (hne : gap ≠ []) (before after : List Char) :
    wordsOf (before ++ gap ++ after) = wordsOf before ++ wordsOf after := by
  obtain ⟨c, gap, rfl⟩ := List.exists_cons_of_ne_nil hne
  rw [List.forall_mem_cons] at hgap
  rw [List.append_assoc, List.cons_append, wordsOf_append hgap.1, wordsOf_lead_append hgap.2]

/-- The words of texts with white space between them are the words of each of the texts. -/
theorem Spaced.wordsOf_eq {texts : List String} (h : Spaced texts chars) :
    wordsOf chars = texts.flatMap fun text => wordsOf text.toList := by
  induction h with
  | nil blank => exact wordsOf_blank blank
  | @cons lead gap rest text texts lead_blank gap_blank apart tail ih =>
    rw [List.flatMap_cons, ← ih, List.append_assoc, List.append_assoc,
      wordsOf_lead_append lead_blank, ← List.append_assoc]
    by_cases hgap : gap = []
    · subst hgap
      -- Nothing separates the text from the rest, so it is the last one and the rest is blank.
      obtain rfl : texts = [] := by
        by_contra hne
        exact apart hne rfl
      obtain ⟨blank⟩ := tail
      rw [List.append_nil, wordsOf_append_trail blank, wordsOf_blank blank, List.append_nil]
    · exact wordsOf_append_gap gap_blank hgap _ _

/-! ### Words written down again -/

theorem Stops.of_append {holds : Char → Bool} (h : Stops holds (before ++ after)) :
    Stops holds before := by
  cases before with
  | nil => simp [Stops]
  | cons c before => exact h

/-- The characters of a word are a word of the same kind without what followed. -/
theorem Token.Spelled.alone {following : List Char} {kind : Kind}
    (h : Spelled following kind chars) : Spelled [] kind chars := by
  have hstops (holds : Char → Bool) : Stops holds [] := by simp [Stops]
  cases h with
  | number sign_eq nonempty all stops => exact .number sign_eq nonempty all (hstops _)
  | name letter all stops => exact .name letter all (hstops _)
  | primitive notDigit notLetter noNumber all stops =>
    refine .primitive notDigit notLetter (fun hc => ?_) all (hstops _)
    rw [List.append_nil]
    exact (noNumber hc).of_append

/-- A word in front of what it ends at. -/
theorem wordsOf_of_spelled {following tail : List Char} {kind : Token.Kind} {c : Char}
    (hc : Token.isBlank c = false) (h : Token.Spelled following kind (c :: tail)) :
    wordsOf (c :: tail ++ following) = (kind, String.ofList (c :: tail)) :: wordsOf following := by
  obtain ⟨hkind, htail⟩ := Token.spelled_cons_iff.1 h
  rw [wordsOf, List.cons_append, tokensFrom_cons_of_not_isBlank hc]
  dsimp only
  rw [← hkind, htail, List.drop_left, List.map_cons, map_word_tokensFrom]
  rfl

/-- A word that is cut into words stays whole. -/
theorem wordsOf_text {start : Nat} {t : Token} (ht : t ∈ tokensFrom start chars) :
    wordsOf t.text.toList = [t.word] := by
  fun_induction tokensFrom start chars with
  | case1 => cases ht
  | case2 start c rest hc ih => exact ih ht
  | case3 start c rest hc kind tail stop ih =>
    rcases List.mem_cons.1 ht with rfl | ht
    · have halone := (Token.spelled_scan c rest).alone
      have hwords := wordsOf_of_spelled (by simpa using hc) halone
      rw [List.append_nil, wordsOf_nil] at hwords
      rw [String.toList_ofList]
      exact hwords
    · exact ih ht

theorem flatMap_wordsOf_tokenTexts (source : String) :
    ((tokenTexts source).flatMap fun text => wordsOf text.toList) =
      (tokenize source).map Token.word := by
  have hwords : (tokenize source).map (fun t => wordsOf t.text.toList) =
      (tokenize source).map (fun t => [t.word]) :=
    List.map_congr_left fun t ht => wordsOf_text ht
  rw [tokenTexts, List.flatMap_map, List.flatMap_def, hwords, ← List.flatMap_def,
    ← List.map_eq_flatMap]

/-- Texts joined with single spaces. -/
theorem spaced_intercalate (texts : List String) :
    Spaced texts (" ".intercalate texts).toList := by
  rw [String.toList_intercalate]
  induction texts with
  | nil => exact .nil (by simp)
  | cons text texts ih =>
    cases texts with
    | nil =>
      have hsingle : Spaced [text] ([] ++ text.toList ++ [] ++ []) :=
        .cons (by simp) (by simp) (absurd rfl) (.nil (by simp))
      simpa using hsingle
    | cons next texts =>
      rw [List.map_cons, List.map_cons, List.intercalate_cons_cons]
      show Spaced (text :: next :: texts) ([] ++ text.toList ++ " ".toList ++ _)
      exact .cons (by simp) (by simp [Token.isBlank]) (by simp) ih

/-- White space cuts a text into two, and any text of the same words has the same words. -/
theorem white_space_separates_words :
    (∀ a b w, Token.isBlank w = true → tokenize (a ++ String.singleton w ++ b) =
      tokenize a ++ (tokenize b).map (Token.shift (a.length + 1))) ∧
    (∀ source text, Spaced (tokenTexts source) text.toList →
      (tokenize text).map Token.word = (tokenize source).map Token.word) ∧
    ∀ source, tokenTexts (" ".intercalate (tokenTexts source)) = tokenTexts source := by
  have hspaced : ∀ source text, Spaced (tokenTexts source) text.toList →
      (tokenize text).map Token.word = (tokenize source).map Token.word := by
    intro source text h
    rw [← flatMap_wordsOf_tokenTexts source, ← h.wordsOf_eq]
    rfl
  refine ⟨?_, hspaced, fun source => ?_⟩
  · intro a b w hw
    have hchars : (a ++ String.singleton w ++ b).toList = a.toList ++ w :: b.toList := by simp
    unfold tokenize
    rw [hchars, tokensFrom_append hw, String.length_toList, Nat.add_assoc, tokensFrom_add]
  · have hwords := hspaced source _ (spaced_intercalate (tokenTexts source))
    have htexts := congrArg (List.map Prod.snd) hwords
    rwa [List.map_map, List.map_map] at htexts

theorem white_space_separates_words_dangling_characters :
    tokenize "a_ _\t.5" = tokenize "a_ _" ++ (tokenize ".5").map (Token.shift 5) ∧
      Spaced (tokenTexts "3a+.") "3  a +. ".toList ∧
      (tokenize "3  a +. ").map Token.word = (tokenize "3a+.").map Token.word := by
  obtain ⟨hsplit, hrespaced, -⟩ := white_space_separates_words
  have hspaced : Spaced (tokenTexts "3a+.") "3  a +. ".toList := by
    have htexts : tokenTexts "3a+." = ["3", "a", "+."] := by decide +kernel
    have hchars : "3  a +. ".toList = [] ++ "3".toList ++ [' ', ' '] ++
        ([] ++ "a".toList ++ [' '] ++ ([] ++ "+.".toList ++ [' '] ++ [])) := by decide +kernel
    rw [htexts, hchars]
    have hone : ∀ c ∈ [' '], Token.isBlank c = true := by simp [Token.isBlank]
    have htwo : ∀ c ∈ [' ', ' '], Token.isBlank c = true := by simp [Token.isBlank]
    refine .cons (by simp) htwo (by simp) (.cons (by simp) hone (by simp) ?_)
    exact .cons (by simp) hone (by simp) (.nil (by simp))
  have htab : "a_ _" ++ String.singleton '\t' ++ ".5" = "a_ _\t.5" := by decide +kernel
  have hlength : "a_ _".length = 4 := by decide +kernel
  have htokens := hsplit "a_ _" ".5" '\t' rfl
  rw [htab, hlength] at htokens
  exact ⟨htokens, hspaced, hrespaced _ _ hspaced⟩

end ArrayPhrase
