import ArrayPhrase.Proofs.Naturality
import ArrayPhrase.Proofs.Numerals

/-! Items taken and items dropped. A count takes from one end and drops from the same end, so the
two results make up the noun, and where the count is too large zeros stand in for what is missing.
The ends are alike: a negative count does to a noun what the positive count does to the reversed
noun. -/

namespace ArrayPhrase

open Outcome

namespace Noun

variable {xs : List Noun} {n a b : Int}

/-- Two portions put together, the first at the end that the count is counted from. -/
def fromEnd (count : Int) (first second : List Noun) : List Noun :=
  if 0 ≤ count then first ++ second else second ++ first

theorem takeItems_of_nonneg (h : 0 ≤ n) (xs : List Noun) :
    takeItems n xs = takePadded xs n.toNat :=
  if_pos h

theorem dropItems_of_nonneg (h : 0 ≤ n) (xs : List Noun) : dropItems n xs = xs.drop n.toNat :=
  if_pos h

/-! ### The other end -/

theorem map_reverse_map_reverse (result : Except Fault (List Noun)) :
    List.reverse <$> List.reverse <$> result = result := by
  rw [← comp_map, List.reverse_involutive.comp_self, id_map]

theorem takeItems_mirror (n : Int) (xs : List Noun) :
    takeItems n xs = List.reverse <$> takeItems (-n) xs.reverse := by
  rcases Int.lt_trichotomy n 0 with hneg | rfl | hpos
  · rw [takeItems_of_nonneg (n := -n) (by omega), takeItems, if_neg (by omega)]
  · have hnone : ∀ ys : List Noun, takeItems 0 ys = .ok [] := fun ys =>
      takePadded_of_le (Nat.zero_le _)
    rw [Int.neg_zero, hnone, hnone]
    rfl
  · rw [takeItems_of_nonneg (by omega), takeItems, if_neg (by omega), Int.neg_neg,
      List.reverse_reverse, map_reverse_map_reverse]

theorem dropItems_mirror (n : Int) (xs : List Noun) :
    dropItems n xs = (dropItems (-n) xs.reverse).reverse := by
  rcases Int.lt_trichotomy n 0 with hneg | rfl | hpos
  · rw [dropItems_of_nonneg (n := -n) (by omega), dropItems, if_neg (by omega), List.drop_reverse,
      List.reverse_reverse]
  · exact (List.reverse_reverse xs).symm
  · rw [dropItems_of_nonneg (by omega), dropItems, if_neg (by omega), Int.neg_neg,
      List.length_reverse, ← List.reverse_drop, List.reverse_reverse]

theorem fromEnd_mirror (hn : n ≠ 0) (first second : List Noun) :
    fromEnd n first second = (fromEnd (-n) first.reverse second.reverse).reverse := by
  rcases Int.lt_or_gt_of_ne hn with hneg | hpos
  · rw [fromEnd, fromEnd, if_neg (by omega), if_pos (by omega), ← List.reverse_append,
      List.reverse_reverse]
  · rw [fromEnd, fromEnd, if_pos (by omega), if_neg (by omega), ← List.reverse_append,
      List.reverse_reverse]

/-! ### Enough items, and too few -/

theorem exists_takeItems_of_le (h : n.natAbs ≤ xs.length) : ∃ taken, takeItems n xs = .ok taken ∧
    taken.length = n.natAbs ∧ xs = fromEnd n taken (dropItems n xs) := by
  -- Counting from the end is counting from the front of the reversed items.
  wlog hn : 0 ≤ n generalizing n xs with hmirror
  · have hle : (-n).natAbs ≤ xs.reverse.length := by simpa using h
    obtain ⟨taken, htake, hlength, hall⟩ := hmirror hle (by omega)
    refine ⟨taken.reverse, ?_, ?_, ?_⟩
    · rw [takeItems_mirror, htake]
      rfl
    · rw [List.length_reverse, hlength, Int.natAbs_neg]
    · rw [fromEnd_mirror (by omega), dropItems_mirror, List.reverse_reverse, List.reverse_reverse,
        ← hall, List.reverse_reverse]
  · refine ⟨xs.take n.toNat, ?_, ?_, ?_⟩
    · rw [takeItems_of_nonneg hn, takePadded_of_le (by omega)]
    · rw [List.length_take]
      omega
    · rw [fromEnd, if_pos hn, dropItems_of_nonneg hn, List.take_append_drop]

theorem dropItems_of_lt (h : xs.length < n.natAbs) : dropItems n xs = [] := by
  unfold dropItems
  split_ifs
  · exact List.drop_eq_nil_of_le (by omega)
  · rw [Nat.sub_eq_zero_of_le (by omega), List.take_zero]

theorem takeItems_of_lt (h : xs.length < n.natAbs) : takeItems n xs =
    if sizeLimit < n.natAbs - xs.length then .error .sizeTooLarge
    else .ok (fromEnd n xs (List.replicate (n.natAbs - xs.length) (atom (.int 0)))) := by
  wlog hn : 0 ≤ n generalizing n xs with hmirror
  · have hlt : xs.reverse.length < (-n).natAbs := by simpa using h
    have htake := hmirror hlt (by omega)
    rw [Int.natAbs_neg, List.length_reverse] at htake
    rw [takeItems_mirror, htake, fromEnd_mirror (n := n) (by omega), List.reverse_replicate]
    split_ifs <;> rfl
  · rw [takeItems_of_nonneg hn, takePadded, fromEnd, if_pos hn, List.take_of_length_le (by omega),
      show n.toNat = n.natAbs by omega]

theorem dropItems_dropItems (hsign : 0 ≤ a ∧ 0 ≤ b ∨ a ≤ 0 ∧ b ≤ 0) (xs : List Noun) :
    dropItems a (dropItems b xs) = dropItems (a + b) xs := by
  wlog hnonneg : 0 ≤ a ∧ 0 ≤ b generalizing a b xs with hmirror
  · have h := hmirror (a := -a) (b := -b) (by omega) xs.reverse (by omega)
    rw [dropItems_mirror a, dropItems_mirror b, List.reverse_reverse, h, ← Int.neg_add,
      ← dropItems_mirror]
  · obtain ⟨ha, hb⟩ := hnonneg
    rw [dropItems_of_nonneg ha, dropItems_of_nonneg hb, dropItems_of_nonneg (by omega),
      List.drop_drop, Int.toNat_add ha hb, Nat.add_comm]

end Noun

/-! ### Commands -/

theorem Verb.readLiteral_of_writes {n : Int} {text : String} (hwrites : Literal.Writes n text)
    (rest : List String) (absent : Action) (given : Int → Action) :
    readLiteral ⟨text :: rest⟩ absent given = .ok (given n, 1) := by
  rw [readLiteral, TokenStream.nextLiteral_cons, if_pos hwrites.isLiteral, hwrites.parse_eq]
  rfl

namespace Phrase

variable {n : Int} {text head : String}

/-- A verb that takes a literal acts by the integer written behind it. -/
theorem apply_of_writes {absent : Action} (given : Int → Action)
    (hread : ∀ s, (Verb.lookup head).read s = Verb.readLiteral s absent given)
    (hwrites : Literal.Writes n text) (p : Precision) (x : Noun) :
    (application head [text]).apply p x = (given n).apply p x :=
  apply_of_read ((hread _).trans (Verb.readLiteral_of_writes hwrites _ _ _))

theorem complete_take (hwrites : Literal.Writes n text) :
    (application "\x7b." [text]).Complete :=
  complete_of_literal (by decide) (by decide) hwrites.isLiteral

theorem complete_drop (hwrites : Literal.Writes n text) :
    (application "\x7d." [text]).Complete :=
  complete_of_literal (by decide) (by decide) hwrites.isLiteral

theorem complete_reverse : (application "|." []).Complete := by
  decide

theorem apply_take (hwrites : Literal.Writes n text) (p : Precision) (x : Noun) :
    (application "\x7b." [text]).apply p x = .list <$> Noun.takeItems n x.items :=
  apply_of_writes .take (fun _ => rfl) hwrites p x

theorem apply_drop (hwrites : Literal.Writes n text) (p : Precision) (x : Noun) :
    (application "\x7d." [text]).apply p x = .ok (.list (Noun.dropItems n x.items)) :=
  apply_of_writes .drop (fun _ => rfl) hwrites p x

theorem apply_reverse (p : Precision) (x : Noun) :
    (application "|." []).apply p x = .ok (.list x.items.reverse) :=
  rfl

/-- A phrase written between two reversals is applied to the reversed items, and what it gives is
reversed. -/
theorem Complete.evaluateTexts_between_reversals {operands : List String}
    (h : (application head operands).Complete) (p : Precision) (given : Datum) :
    evaluateTexts p ("|." :: head :: operands ++ ["|."]) given =
      given.toNoun nounRoot >>= fun x =>
        (fun y : Noun => .list y.items.reverse) <$>
          (application head operands).apply p (.list x.items.reverse) := by
  have hreverse := complete_reverse.whole
  have hwhole : ∀ q ∈ [application "|." [], application head operands, application "|." []],
      q.Whole :=
    List.forall_mem_cons.2 ⟨hreverse,
      List.forall_mem_cons.2 ⟨h.whole, List.forall_mem_singleton.2 hreverse⟩⟩
  refine (evaluateTexts_flatMap_written hwhole p given).trans ?_
  refine congrArg (given.toNoun nounRoot >>= ·) (funext fun x => ?_)
  rw [applyPhrases_cons, applyPhrases_cons, applyPhrases_singleton, apply_reverse]
  rfl

end Phrase

variable {n : Int} {text : String}

theorem evaluateTexts_take (hwrites : Literal.Writes n text) (p : Precision) (given : Datum) :
    evaluateTexts p ["\x7b.", text] given =
      given.toNoun nounRoot >>= fun x => .list <$> Noun.takeItems n x.items := by
  rw [(Phrase.complete_take hwrites).evaluateTexts_eq_apply]
  congr 1
  funext x
  exact Phrase.apply_take hwrites p x

theorem evaluateTexts_drop (hwrites : Literal.Writes n text) (p : Precision) (given : Datum) :
    evaluateTexts p ["\x7d.", text] given =
      given.toNoun nounRoot >>= fun x => .ok (.list (Noun.dropItems n x.items)) := by
  rw [(Phrase.complete_drop hwrites).evaluateTexts_eq_apply]
  congr 1
  funext x
  exact Phrase.apply_drop hwrites p x

/-- Taking and dropping by one count divide the items between them. Where the count is larger than
the number of items, dropping leaves nothing, and taking gives all items with zeros in place of
those that are missing, unless a list cannot have that many zeros. -/
theorem take_and_drop_divide_items {p : Precision} {given : Datum} {x : Noun}
    (hwrites : Literal.Writes n text) (haccepted : given.toNoun nounRoot = .ok x) :
    (n.natAbs ≤ x.items.length → ∃ taken dropped,
        evaluateTexts p ["\x7b.", text] given = .ok (.list taken) ∧
        evaluateTexts p ["\x7d.", text] given = .ok (.list dropped) ∧
        taken.length = n.natAbs ∧ x.items = Noun.fromEnd n taken dropped) ∧
      (x.items.length < n.natAbs →
        let padding := n.natAbs - x.items.length
        evaluateTexts p ["\x7d.", text] given = .ok (.list []) ∧
        evaluateTexts p ["\x7b.", text] given =
          if sizeLimit < padding then .error .sizeTooLarge
          else .ok (.list (Noun.fromEnd n x.items (List.replicate padding (.atom (.int 0)))))) := by
  have htake : evaluateTexts p ["\x7b.", text] given = .list <$> Noun.takeItems n x.items := by
    rw [evaluateTexts_take hwrites, haccepted]
    rfl
  have hdrop : evaluateTexts p ["\x7d.", text] given = .ok (.list (Noun.dropItems n x.items)) := by
    rw [evaluateTexts_drop hwrites, haccepted]
    rfl
  rw [htake, hdrop]
  refine ⟨fun hle => ?_, fun hlt => ⟨?_, ?_⟩⟩
  · obtain ⟨taken, htaken, hlength, hall⟩ := Noun.exists_takeItems_of_le hle
    refine ⟨taken, _, ?_, rfl, hlength, hall⟩
    rw [htaken]
    rfl
  · rw [Noun.dropItems_of_lt hlt]
  · rw [Noun.takeItems_of_lt hlt]
    split_ifs <;> rfl

theorem take_and_drop_divide_items_missing_front :
    let given : Datum := .list [.leaf (.int 5), .list [.leaf (.int 6), .list []]]
    let x : Noun := .list [.atom (.int 5), .list [.atom (.int 6), .list []]]
    evaluateTexts .double ["\x7d.", "_004"] given = .ok (.list []) ∧
      evaluateTexts .double ["\x7b.", "_004"] given =
        .ok (.list (.atom (.int 0) :: .atom (.int 0) :: x.items)) := by
  intro given x
  have haccepted : given.toNoun nounRoot = .ok x := by
    decide +kernel
  have hdigits : Literal.Digits 4 ['0', '0', '4'] := by
    decide +kernel
  exact (take_and_drop_divide_items (p := .double) (.negated rfl hdigits) haccepted).2 (by decide)

/-- A negative count takes and drops what the positive count takes and drops of the reversed noun,
reversed again. Two drops from the same end are one drop of the sum. -/
theorem negative_counts_mirror (p : Precision) (given : Datum) :
    (∀ (n : Int) (text negated : String), Literal.Writes n text → Literal.Writes (-n) negated →
      evaluateTexts p ["\x7b.", negated] given =
          evaluateTexts p ["|.", "\x7b.", text, "|."] given ∧
        evaluateTexts p ["\x7d.", negated] given =
          evaluateTexts p ["|.", "\x7d.", text, "|."] given) ∧
    ∀ (a b : Int) (first second sum : String), (0 ≤ a ∧ 0 ≤ b ∨ a ≤ 0 ∧ b ≤ 0) →
      Literal.Writes a first → Literal.Writes b second → Literal.Writes (a + b) sum →
      evaluateTexts p ["\x7d.", first, "\x7d.", second] given =
        evaluateTexts p ["\x7d.", sum] given := by
  constructor
  · intro n text negated htext hnegated
    have htaken := (Phrase.complete_take htext).evaluateTexts_between_reversals p given
    have hdropped := (Phrase.complete_drop htext).evaluateTexts_between_reversals p given
    refine ⟨Eq.trans ?_ htaken.symm, Eq.trans ?_ hdropped.symm⟩
    · rw [evaluateTexts_take hnegated]
      congr 1
      funext x
      rw [Phrase.apply_take htext, Noun.takeItems_mirror, Int.neg_neg, ← comp_map, ← comp_map]
      rfl
    · rw [evaluateTexts_drop hnegated]
      congr 1
      funext x
      rw [Phrase.apply_drop htext, Noun.dropItems_mirror, Int.neg_neg]
      rfl
  · intro a b first second sum hsign hfirst hsecond hsum
    have hwhole : ∀ q ∈ [Phrase.application "\x7d." [second]], q.Whole :=
      List.forall_mem_singleton.2 (Phrase.complete_drop hsecond).whole
    calc evaluateTexts p ["\x7d.", first, "\x7d.", second] given
        = evaluateTexts p ["\x7d.", second] given >>=
            (Phrase.application "\x7d." [first]).apply p :=
          (Phrase.complete_drop hfirst).evaluateTexts_cons hwhole p given
      _ = given.toNoun nounRoot >>= fun x => .ok (.list (Noun.dropItems (a + b) x.items)) := by
          rw [evaluateTexts_drop hsecond, bind_assoc]
          congr 1
          funext x
          rw [← Noun.dropItems_dropItems hsign]
          exact Phrase.apply_drop hfirst p _
      _ = evaluateTexts p ["\x7d.", sum] given := (evaluateTexts_drop hsum p given).symm

theorem negative_counts_mirror_last_two :
    let given : Datum := .list [.leaf (.int 5), .list [.leaf (.int 6)], .leaf (.int 7)]
    let evaluated := fun texts => evaluateTexts .double texts given
    evaluated ["\x7b.", "_2"] = evaluated ["|.", "\x7b.", "02", "|."] ∧
      evaluated ["\x7d.", "_2"] = evaluated ["|.", "\x7d.", "02", "|."] ∧
      evaluated ["\x7d.", "_2", "\x7d.", "_0"] = evaluated ["\x7d.", "_2"] := by
  intro given evaluated
  have hdigits : Literal.Digits 2 ['2'] ∧ Literal.Digits 2 ['0', '2'] ∧
      Literal.Digits 0 ['0'] := by
    decide +kernel
  have hlast : Literal.Writes (-2) "_2" := .negated rfl hdigits.1
  obtain ⟨hends, hsum⟩ := negative_counts_mirror .double given
  obtain ⟨htaken, hdropped⟩ := hends 2 "02" "_2" (.plain hdigits.2.1) hlast
  refine ⟨htaken, hdropped, hsum (-2) 0 "_2" "_0" "_2" (.inr ⟨by decide, by decide⟩) hlast ?_ hlast⟩
  exact Literal.Writes.negated rfl hdigits.2.2

end ArrayPhrase
