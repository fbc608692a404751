import Mathlib.Data.List.Infix
import ArrayPhrase.Proofs.InsertOrder
import ArrayPhrase.Proofs.TypedFaults

/-! Inserted verbs on flat lists of integers. The fold goes from the last integer backwards, so at
each step it has come to the exact sum or product of a suffix. When all of these are in range it
gives that of the whole list; otherwise it ends at the shortest suffix that is out of range. An
integer in front, a zero or one of the other sign, does not help. -/

namespace ArrayPhrase

open Outcome

/-- A list of integers as a noun. -/
def Noun.flat (ns : List Int) : Noun :=
  .list (ns.map fun n => .atom (.int n))

namespace Dyad

/-- The exact sum or product of integers. -/
def overall : Dyad → List Int → Int
  | add, ns => ns.sum
  | mul, ns => ns.prod

/-- The sum or product of every suffix of two integers or more is in range. -/
def SuffixesInRange (d : Dyad) (ns : List Int) : Prop :=
  ∀ suffix, suffix <:+ ns → 2 ≤ suffix.length → InRange (d.overall suffix)

/-- The suffix is the shortest one whose sum or product is out of range. -/
structure OverflowsFrom (d : Dyad) (ns suffix : List Int) : Prop where
  isSuffix : suffix <:+ ns
  two_le_length : 2 ≤ suffix.length
  out : ¬ InRange (d.overall suffix)
  shortest : ∀ shorter, shorter <:+ ns → shorter.length < suffix.length →
    InRange (d.overall shorter)

variable {d : Dyad} {n m : Int} {ns rest suffix : List Int}

/-! ### Suffixes -/

@[simp] theorem overall_nil (d : Dyad) : d.overall [] = d.identity := by
  cases d <;> rfl

@[simp] theorem overall_cons (d : Dyad) (n : Int) (ns : List Int) :
    d.overall (n :: ns) = d.onInts n (d.overall ns) := by
  cases d with
  | add => exact List.sum_cons
  | mul => exact List.prod_cons

theorem overall_singleton (d : Dyad) (n : Int) : d.overall [n] = n := by
  cases d with
  | add => exact Int.add_zero n
  | mul => exact Int.mul_one n

theorem inRange_overall_of_length_lt_two (hns : ∀ n ∈ ns, InRange n) (hlen : ns.length < 2) :
    InRange (d.overall ns) := by
  rcases ns with _ | ⟨n, _ | ⟨m, ns⟩⟩
  · rw [overall_nil]
    cases d <;> decide
  · rw [overall_singleton]
    exact hns n List.mem_cons_self
  · exact absurd hlen (by simp)

theorem SuffixesInRange.tail (h : d.SuffixesInRange (n :: ns)) : d.SuffixesInRange ns :=
  fun suffix hsuffix => h suffix (hsuffix.trans (List.suffix_cons n ns))

theorem OverflowsFrom.tail (h : d.OverflowsFrom (n :: ns) suffix) (hsuffix : suffix <:+ ns) :
    d.OverflowsFrom ns suffix where
  isSuffix := hsuffix
  two_le_length := h.two_le_length
  out := h.out
  shortest shorter hshorter := h.shortest shorter (hshorter.trans (List.suffix_cons n ns))

/-- When the whole list is the shortest suffix out of range, the others are in range. -/
theorem OverflowsFrom.suffixesInRange_tail (h : d.OverflowsFrom (n :: ns) (n :: ns)) :
    d.SuffixesInRange ns := by
  intro suffix hsuffix _
  refine h.shortest suffix (hsuffix.trans (List.suffix_cons n ns)) ?_
  exact Nat.lt_succ_of_le hsuffix.length_le

/-- Integers in range whose sums or products are not all in range have a shortest suffix where
they are not. -/
theorem exists_overflowsFrom (hns : ∀ n ∈ ns, InRange n) (h : ¬ d.SuffixesInRange ns) :
    ∃ suffix, d.OverflowsFrom ns suffix := by
  induction ns with
  | nil =>
    refine absurd (fun suffix hsuffix hlen => ?_) h
    rw [List.suffix_nil.1 hsuffix] at hlen
    simp at hlen
  | cons n ns ih =>
    rw [List.forall_mem_cons] at hns
    by_cases htail : d.SuffixesInRange ns
    · -- Only the whole list is left to be out of range.
      unfold SuffixesInRange at h
      push Not at h
      obtain ⟨suffix, hsuffix, hlen, hout⟩ := h
      obtain rfl : suffix = n :: ns := by
        rcases List.suffix_cons_iff.1 hsuffix with heq | hsuffix
        · exact heq
        · exact absurd (htail suffix hsuffix hlen) hout
      refine ⟨n :: ns, List.suffix_rfl, hlen, hout, fun shorter hshorter hlt => ?_⟩
      rcases List.suffix_cons_iff.1 hshorter with rfl | hshorter
      · exact absurd hlt (lt_irrefl _)
      · by_cases htwo : 2 ≤ shorter.length
        · exact htail shorter hshorter htwo
        · refine inRange_overall_of_length_lt_two (fun k hk => ?_) (not_le.1 htwo)
          exact hns.2 k (hshorter.subset hk)
    · obtain ⟨suffix, hsuffix, hlen, hout, hshortest⟩ := ih hns.2 htail
      refine ⟨suffix, hsuffix.trans (List.suffix_cons n ns), hlen, hout, fun shorter hs hlt => ?_⟩
      rcases List.suffix_cons_iff.1 hs with rfl | hs
      · have hle := hsuffix.length_le
        simp only [List.length_cons] at hlt
        omega
      · exact hshortest shorter hs hlt

/-- The number that tells an overflow is short enough to be written. -/
theorem OverflowsFrom.isWritable (h : d.OverflowsFrom ns suffix) (hns : ∀ n ∈ ns, InRange n) :
    isWritable (d.overall suffix) = true := by
  obtain ⟨n, rest, rfl⟩ : ∃ n rest, suffix = n :: rest := by
    refine List.exists_cons_of_ne_nil fun hnil => ?_
    have hlen := h.two_le_length
    simp [hnil] at hlen
  rw [overall_cons]
  have hn : InRange n := hns n (h.isSuffix.subset List.mem_cons_self)
  have hrest : InRange (d.overall rest) :=
    h.shortest rest ((List.suffix_cons n rest).trans h.isSuffix) (Nat.lt_succ_self _)
  exact isWritable_of_natAbs_le (natAbs_onInts_le hn hrest)

end Dyad

/-! ### Folds -/

namespace Noun

variable {d : Dyad} {ns suffix : List Int}

theorem fold_flat_cons (d : Dyad) (n : Int) (hns : ns ≠ []) :
    fold d (flat (n :: ns)).items =
      fold d (flat ns).items >>= combine d.onAtoms (atom (.int n)) := by
  cases ns with
  | nil => exact absurd rfl hns
  | cons m rest => rfl

theorem combine_onAtoms_ints (d : Dyad) (m n : Int) :
    combine d.onAtoms (atom (.int m)) (atom (.int n)) =
      (fun k => atom (.int k)) <$> checkRange d.name (d.onInts m n) := by
  rw [combine, mapLeaves_atom, Dyad.onAtoms]
  cases checkRange d.name (d.onInts m n) <;> rfl

/-- One more integer in front of some whose sums or products are all in range. -/
theorem fold_flat_cons_of_ok (n : Int) (hns : ns ≠ [])
    (h : fold d (flat ns).items = .ok (atom (.int (d.overall ns)))) :
    fold d (flat (n :: ns)).items =
      (fun k => atom (.int k)) <$> checkRange d.name (d.overall (n :: ns)) := by
  rw [fold_flat_cons d n hns, h, Dyad.overall_cons]
  exact combine_onAtoms_ints d n (d.overall ns)

theorem fold_flat_of_suffixesInRange (h : d.SuffixesInRange ns) :
    fold d (flat ns).items = .ok (atom (.int (d.overall ns))) := by
  induction ns with
  | nil =>
    rw [Dyad.overall_nil]
    rfl
  | cons n ns ih =>
    by_cases hns : ns = []
    · subst hns
      rw [Dyad.overall_singleton]
      rfl
    · have hlen : 2 ≤ (n :: ns).length := Nat.succ_le_succ (List.length_pos_iff.2 hns)
      rw [fold_flat_cons_of_ok n hns (ih h.tail), checkRange, if_pos (h _ List.suffix_rfl hlen)]
      rfl

theorem fold_flat_of_overflowsFrom (h : d.OverflowsFrom ns suffix) :
    fold d (flat ns).items = .error (.integerOverflow d.name (d.overall suffix)) := by
  induction ns with
  | nil =>
    have hlen := h.two_le_length.trans h.isSuffix.length_le
    simp at hlen
  | cons n ns ih =>
    have hns : ns ≠ [] := by
      rintro rfl
      have hlen := h.two_le_length.trans h.isSuffix.length_le
      simp at hlen
    rcases List.suffix_cons_iff.1 h.isSuffix with rfl | hsuffix
    · have htail := fold_flat_of_suffixesInRange h.suffixesInRange_tail
      rw [fold_flat_cons_of_ok n hns htail, checkRange, if_neg h.out]
      rfl
    · rw [fold_flat_cons d n hns, ih (h.tail hsuffix)]
      rfl

end Noun

/-! ### Commands -/

theorem evaluate_insert (d : Dyad) (p : Precision) (given : Datum) :
    evaluate p ("/" ++ d.follower) given = given.toNoun nounRoot >>= Noun.insert d := by
  have htokens : tokenTexts ("/" ++ d.follower) = ["/", d.follower] := by
    cases d <;> decide +kernel
  rw [evaluate, htokens, evaluateTexts_insert]

/-- An inserted verb on a flat list of integers gives their exact sum or product precisely when
that of every suffix of two or more is in range. Otherwise it fails and tells the one of the
shortest suffix that is out of range. -/
theorem insertion_decided_by_suffixes {d : Dyad} {p : Precision} {given : Datum} {ns : List Int}
    (hgiven : given.toNoun nounRoot = .ok (.flat ns)) :
    (evaluate p ("/" ++ d.follower) given = .ok (.flat [d.overall ns]) ↔ d.SuffixesInRange ns) ∧
      (¬ d.SuffixesInRange ns → ∃ suffix fault, d.OverflowsFrom ns suffix ∧
        evaluate p ("/" ++ d.follower) given = .error fault ∧ fault.kind = .evaluation ∧
        fault.message = "integer overflow in " ++ d.name ++ ": " ++ toString (d.overall suffix) ++
          " is outside the int64 range") := by
  have heval : evaluate p ("/" ++ d.follower) given =
      Noun.box <$> Noun.fold d (Noun.flat ns).items := by
    rw [evaluate_insert, hgiven]
    rfl
  have hns : ∀ n ∈ ns, InRange n := by
    intro n hn
    refine Datum.canonical_of_toNoun hgiven n ?_
    rw [Noun.flat, Noun.leaves_list, List.mem_flatMap]
    exact ⟨.atom (.int n), List.mem_map_of_mem hn, by simp⟩
  have hfails : ¬ d.SuffixesInRange ns → ∃ suffix, d.OverflowsFrom ns suffix ∧
      evaluate p ("/" ++ d.follower) given =
        .error (.integerOverflow d.name (d.overall suffix)) := by
    intro h
    obtain ⟨suffix, hsuffix⟩ := Dyad.exists_overflowsFrom hns h
    refine ⟨suffix, hsuffix, ?_⟩
    rw [heval, Noun.fold_flat_of_overflowsFrom hsuffix]
    rfl
  refine ⟨⟨fun hok => ?_, fun h => ?_⟩, fun h => ?_⟩
  · by_contra h
    obtain ⟨suffix, -, hfault⟩ := hfails h
    rw [hok] at hfault
    cases hfault
  · rw [heval, Noun.fold_flat_of_suffixesInRange h]
    rfl
  · obtain ⟨suffix, hsuffix, hfault⟩ := hfails h
    have hwritable := hsuffix.isWritable hns
    refine ⟨suffix, _, hsuffix, hfault, ?_, ?_⟩
    · exact Fault.kind_integerOverflow hwritable
    · exact Fault.message_integerOverflow hwritable

/-- A zero in front does not help. -/
theorem insertion_decided_by_suffixes_zero_in_front :
    let ns := [0, 4611686018427387904, 2, 3]
    let given : Datum := .list (ns.map fun n => .leaf (.int n))
    (given.toNoun nounRoot = .ok (.flat ns) ∧ ¬ Dyad.mul.SuffixesInRange ns) ∧
      evaluate .double "/*" given ≠ .ok (.flat [0]) ∧
      ∃ suffix fault, Dyad.mul.OverflowsFrom ns suffix ∧
        evaluate .double "/*" given = .error fault ∧ fault.kind = .evaluation ∧
        fault.message = "integer overflow in " ++ "mul" ++ ": " ++
          toString (Dyad.mul.overall suffix) ++ " is outside the int64 range" := by
  intro ns given
  have hgiven : given.toNoun nounRoot = .ok (.flat ns) := by
    decide +kernel
  have hout : ¬ Dyad.mul.SuffixesInRange ns := fun h =>
    absurd (h [4611686018427387904, 2, 3] (by decide) (by decide)) (by decide)
  obtain ⟨hok, hfails⟩ :=
    insertion_decided_by_suffixes (d := .mul) (p := .double) hgiven
  exact ⟨⟨hgiven, hout⟩, fun h => hout (hok.1 h), hfails hout⟩

end ArrayPhrase
