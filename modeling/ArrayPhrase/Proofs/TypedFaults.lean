import ArrayPhrase.Proofs.Canonical
import ArrayPhrase.Proofs.Faults
import ArrayPhrase.Proofs.Literals
import ArrayPhrase.Proofs.Operands
import ArrayPhrase.Proofs.Rounding

/-! Typed faults, those of the kinds that failures of evaluation have. Evaluation of an accepted
noun ends with another fault exactly when it comes to a verb that is given too much: a literal with
too many digits, a list longer than lists can be, or an addend for which neither a sum nor the fault
of a sum out of range can be written. -/

namespace ArrayPhrase

open Outcome State

/-- The fault is a failure of evaluation or of a more special kind. -/
def Fault.Typed (fault : Fault) : Prop :=
  Kind.evaluation ∈ fault.kind.lineage

instance : DecidablePred Fault.Typed := fun fault =>
  inferInstanceAs (Decidable (Fault.Kind.evaluation ∈ fault.kind.lineage))

theorem Fault.typed_iff {fault : Fault} : fault.Typed ↔
    match fault with
    | integerOverflow _ n | outsideRange _ n => isWritable n = true
    | missingFollower .. | lengthMismatch .. | negativeDimension | emptyNoun | unsupported .. => True
    | _ => False := by
  cases fault with
  | integerOverflow site n => cases h : isWritable n <;> simp [Typed, kind, Kind.lineage, h]
  | outsideRange place n => cases h : isWritable n <;> simp [Typed, kind, Kind.lineage, h]
  | _ => simp [Typed, kind, Kind.lineage]

/-! ### Results that are untyped faults -/

/-- The result is a fault that is not typed. -/
def Escapes {α : Type} (result : Except Fault α) : Prop :=
  ∃ fault, result = .error fault ∧ ¬ fault.Typed

section Escapes

variable {α β : Type} {result : Except Fault α} {fault : Fault} {f : α → Except Fault β}
  {xs : List α}

@[simp] theorem not_escapes_ok (a : α) : ¬ Escapes (.ok a : Except Fault α) := by
  rintro ⟨_, h, -⟩
  cases h

@[simp] theorem escapes_error : Escapes (.error fault : Except Fault α) ↔ ¬ fault.Typed := by
  simp [Escapes]

@[simp] theorem escapes_map (g : α → β) : Escapes (g <$> result) ↔ Escapes result := by
  simp only [Escapes, map_eq_error]

theorem escapes_bind :
    Escapes (result >>= f) ↔ Escapes result ∨ ∃ a, result = .ok a ∧ Escapes (f a) := by
  cases result <;> simp [bind, Except.bind]

/-- An untyped fault of a list of computations comes after successes only. -/
theorem escapes_mapM_iff : Escapes (xs.mapM f) ↔ ∃ before x after, xs = before ++ x :: after ∧
    (∀ b ∈ before, ∃ c, f b = .ok c) ∧ Escapes (f x) := by
  simp only [Escapes, mapM_eq_error]
  constructor
  · rintro ⟨fault, ⟨before, x, after, hxs, hbefore, hx⟩, hfault⟩
    exact ⟨before, x, after, hxs, hbefore, fault, hx, hfault⟩
  · rintro ⟨before, x, after, hxs, hbefore, fault, hx, hfault⟩
    exact ⟨fault, ⟨before, x, after, hxs, hbefore, hx⟩, hfault⟩

/-- Where no fault is typed it does not matter which computation fails first. -/
theorem escapes_mapM_iff_exists (h : ∀ x ∈ xs, ∀ fault, f x = .error fault → ¬ fault.Typed) :
    Escapes (xs.mapM f) ↔ ∃ x ∈ xs, Escapes (f x) := by
  induction xs with
  | nil => simp [pure, Except.pure]
  | cons x xs ih =>
    rw [List.forall_mem_cons] at h
    rw [List.mapM_cons, escapes_bind, List.exists_mem_cons_iff, ← ih h.2]
    cases hx : f x with
    | error fault => simp [h.1 fault hx]
    | ok y => simp [escapes_bind, pure, Except.pure]

end Escapes

/-! ### Literals -/

namespace Literal

theorem countP_isDigit_of_split? {cs digits : List Char} {negative : Bool}
    (h : split? cs = some (negative, digits)) : cs.countP isDigit = digits.length := by
  obtain ⟨-, hall, rfl⟩ := split?_eq_some_iff.1 h
  have hsign : (if negative then ['_'] else []).countP isDigit = 0 := by
    cases negative <;> rfl
  rw [List.countP_append, hsign, Nat.zero_add]
  exact List.countP_eq_length.2 hall

/-- A literal cannot be read when it has too many digits. -/
theorem escapes_parse_iff {token : String} (h : isLiteral token = true) :
    Escapes (parse token) ↔ digitLimit < token.toList.countP isDigit := by
  obtain ⟨⟨negative, digits⟩, hsplit⟩ := Option.isSome_iff_exists.1 h
  rw [countP_isDigit_of_split? hsplit, parse, hsplit]
  by_cases hlong : digitLimit < digits.length
  · simp [hlong, Fault.typed_iff]
  · simp [hlong]

end Literal

namespace Verb

variable {v : Verb} {s : TokenStream}

theorem escapes_readLiterals_iff (given : List Int → Action) :
    Escapes (readLiterals s given) ↔
      ∃ token ∈ s.remaining.take (Consumption.literals.operandCount s.remaining),
        digitLimit < token.toList.countP Literal.isDigit := by
  have htake : s.remaining.take (Consumption.literals.operandCount s.remaining) =
      s.remaining.takeWhile Literal.isLiteral :=
    (List.prefix_iff_eq_take.1 (List.takeWhile_prefix _)).symm
  have hliteral : ∀ token ∈ s.remaining.takeWhile Literal.isLiteral, Literal.isLiteral token :=
    fun token htoken => List.mem_takeWhile_imp htoken
  have huntyped : ∀ token ∈ s.remaining.takeWhile Literal.isLiteral, ∀ fault,
      Literal.parse token = .error fault → ¬ fault.Typed := by
    intro token htoken fault hfault
    obtain ⟨digits, rfl⟩ := Literal.parse_eq_error (hliteral token htoken) hfault
    simp [Fault.typed_iff]
  rw [htake, readLiterals, escapes_bind]
  simp only [TokenStream.integerArgs, escapes_map, escapes_mapM_iff_exists huntyped, pure,
    Except.pure, not_escapes_ok, and_false, exists_false, or_false]
  exact exists_congr fun token => and_congr_right fun htoken =>
    Literal.escapes_parse_iff (hliteral token htoken)

theorem escapes_readLiteral_iff (absent : Action) (given : Int → Action) :
    Escapes (readLiteral s absent given) ↔
      ∃ token ∈ s.remaining.take (Consumption.literal.operandCount s.remaining),
        digitLimit < token.toList.countP Literal.isDigit := by
  have hnext : Escapes (readLiteral s absent given) ↔ Escapes s.nextLiteral := by
    rw [readLiteral, escapes_bind, or_iff_left]
    rintro ⟨_ | n, -, h⟩
    · exact not_escapes_ok _ h
    · exact not_escapes_ok _ h
  rw [hnext]
  rcases s with ⟨_ | ⟨token, rest⟩⟩
  · simp [TokenStream.nextLiteral, TokenStream.peek]
  · rw [TokenStream.nextLiteral_cons, Consumption.operandCount_literal_cons]
    split_ifs with hliteral
    · simp [Literal.escapes_parse_iff hliteral]
    · simp

/-- A verb fails to read its operands with an untyped fault exactly when it takes literals and one
of them is too long. -/
theorem escapes_read_iff : Escapes (v.read s) ↔ v.consumption ≠ .follower ∧
    ∃ token ∈ s.remaining.take (v.consumption.operandCount s.remaining),
      digitLimit < token.toList.countP Literal.isDigit := by
  have hfollower : ¬ Escapes (v.readFollower s) := by
    rintro ⟨fault, hfault, huntyped⟩
    simp [readFollower_eq_error hfault, Fault.typed_iff] at huntyped
  cases v with
  | plus | reshape => simpa [read, consumption] using escapes_readLiterals_iff _
  | take | drop | reverseRotate => simpa [read, consumption] using escapes_readLiteral_iff _ _
  | tilde | insert => simpa [read, consumption] using hfollower
  | _ => simp [read, consumption, Consumption.operandCount]

end Verb

/-! ### Arithmetic -/

/-- Neither sums nor products of integers in range have too many digits. -/
theorem isWritable_of_natAbs_le {n : Int} (h : n.natAbs ≤ 2 ^ 126) : isWritable n = true := by
  have hpow : ∀ k, 39 ≤ k → 10 ^ 39 ≤ Nat.pow 10 k := fun k hk =>
    Nat.pow_le_pow_right (by decide) hk
  exact decide_eq_true (lt_of_le_of_lt h (lt_of_lt_of_le (by norm_num) (hpow _ (by decide))))

theorem Fault.kind_integerOverflow {site : String} {n : Int} (h : isWritable n = true) :
    (integerOverflow site n).kind = .evaluation := by
  simp only [kind, h, if_true]

theorem Fault.message_integerOverflow {site : String} {n : Int} (h : isWritable n = true) :
    (integerOverflow site n).message =
      "integer overflow in " ++ site ++ ": " ++ toString n ++ " is outside the int64 range" := by
  unfold message
  simp only [h, if_true]

theorem escapes_checkRange_iff {site : String} {n : Int} :
    Escapes (checkRange site n) ↔ isWritable n = false := by
  unfold checkRange
  split_ifs with h
  · simp [isWritable_of_natAbs_le (n := n) (by omega)]
  · simp [Fault.typed_iff]

theorem not_escapes_checkRange {site : String} {n : Int} (h : n.natAbs ≤ 2 ^ 126) :
    ¬ Escapes (checkRange site n) := by
  rw [escapes_checkRange_iff, isWritable_of_natAbs_le h]
  decide

theorem Atom.escapes_toReal_int_iff {n : Int} :
    Escapes (int n).toReal ↔ 2 ^ 1024 - 2 ^ 970 ≤ n.natAbs := by
  constructor
  · rintro ⟨fault, hfault, -⟩
    exact (toReal_int_eq_error_iff.1 hfault).2
  · intro h
    exact ⟨.integerTooLarge, toReal_int_eq_error_iff.2 ⟨rfl, h⟩, by decide⟩

theorem Atom.Canonical.not_escapes_toReal {a : Atom} (ha : a.Canonical) : ¬ Escapes a.toReal := by
  cases a with
  | real r => exact not_escapes_ok _
  | int n =>
    have hn := ha n rfl
    have hlimit : 2 ^ 64 ≤ 2 ^ 1024 - 2 ^ 970 := by decide +kernel
    rw [escapes_toReal_int_iff]
    omega

theorem Dyad.natAbs_onInts_le {d : Dyad} {m n : Int} (hm : InRange m) (hn : InRange n) :
    (d.onInts m n).natAbs ≤ 2 ^ 126 := by
  cases d with
  | add =>
    rw [onInts]
    omega
  | mul =>
    rw [onInts, Int.natAbs_mul]
    calc m.natAbs * n.natAbs ≤ 2 ^ 63 * 2 ^ 63 := Nat.mul_le_mul (by omega) (by omega)
      _ = 2 ^ 126 := by norm_num

theorem Dyad.not_escapes_onAtoms {d : Dyad} {a b : Atom} (ha : a.Canonical) (hb : b.Canonical) :
    ¬ Escapes (d.onAtoms a b) := by
  unfold onAtoms
  split
  next m n =>
    rw [escapes_map]
    exact not_escapes_checkRange (natAbs_onInts_le (ha m rfl) (hb n rfl))
  next =>
    simp [escapes_bind, ha.not_escapes_toReal, hb.not_escapes_toReal, pure, Except.pure]

theorem Scalar.natAbs_onInt?_le {s : Scalar} {m n : Int} (hn : InRange n)
    (h : s.onInt? n = some m) : m.natAbs ≤ 2 ^ 126 := by
  cases s with
  | square =>
    obtain rfl := Option.some.inj h
    exact Dyad.natAbs_onInts_le (d := .mul) hn hn
  | sign =>
    obtain rfl := Option.some.inj h
    rw [Int.natAbs_sign]
    split_ifs <;> norm_num
  | halve | exponential | reciprocal => cases h
  | _ =>
    obtain rfl := Option.some.inj h
    omega

theorem Scalar.not_escapes_onAtom {p : Precision} {s : Scalar} {a : Atom} (ha : a.Canonical) :
    ¬ Escapes (s.onAtom p a) := by
  cases a with
  | real r => exact not_escapes_ok _
  | int n =>
    rw [onAtom]
    split
    next m hm =>
      rw [escapes_map]
      exact not_escapes_checkRange (natAbs_onInt?_le (ha n rfl) hm)
    next =>
      rw [escapes_map]
      exact ha.not_escapes_toReal

/-! ### Sums with addends -/

namespace Atom

variable {a : Atom} {n : Int}

/-- The atom and an integer have a sum: one in range, or a real if the integer has a nearest one. -/
def HasSum : Atom → Int → Prop
  | int m, n => InRange (m + n)
  | real _, n => n.natAbs < 2 ^ 1024 - 2 ^ 970

/-- The integer is too large to be added: the sum has too many digits to be told as one out of
range, or the integer has no nearest real. -/
def SumTooLarge : Atom → Int → Prop
  | int m, n => isWritable (m + n) = false
  | real _, n => 2 ^ 1024 - 2 ^ 970 ≤ n.natAbs

theorem add_real_int (r : Binary64) :
    Dyad.add.onAtoms (real r) (int n) = (fun y => real (r.add y)) <$> (int n).toReal := by
  rw [map_eq_pure_bind]
  rfl

theorem hasSum_iff : a.HasSum n ↔ ∃ c, Dyad.add.onAtoms a (int n) = .ok c := by
  cases a with
  | int m => simp [HasSum, Dyad.onAtoms, Dyad.onInts, map_eq_ok, checkRange_eq_ok]
  | real r =>
    rw [HasSum, ← not_le, ← escapes_toReal_int_iff, add_real_int]
    cases h : (int n).toReal with
    | error fault => simp [(toReal_int_eq_error_iff.1 h).1, Fault.typed_iff]
    | ok y => simp

theorem sumTooLarge_iff : a.SumTooLarge n ↔ Escapes (Dyad.add.onAtoms a (int n)) := by
  cases a with
  | int m => simp [SumTooLarge, Dyad.onAtoms, Dyad.onInts, escapes_checkRange_iff]
  | real r => rw [SumTooLarge, add_real_int, escapes_map, escapes_toReal_int_iff]

end Atom

namespace Noun

variable {p : Precision} {x : Noun}

/-- Every atom of an item with the addend of the item, in the order they are added. -/
def sums (addends : List Int) (x : Noun) : List (Atom × Int) :=
  (x.items.zip addends).flatMap fun pair => pair.1.leaves.map fun a => (a, pair.2)

/-- The first sum that there is not is one of an addend too large. -/
def PlusTooLarge (addends : List Int) (x : Noun) : Prop :=
  ∃ before q after, x.sums addends = before ++ q :: after ∧ (∀ r ∈ before, r.1.HasSum r.2) ∧
    q.1.SumTooLarge q.2

theorem map_leaves_plus {addends : List Int} (h : addends ≠ []) :
    leaves <$> x.plus addends =
      (x.sums addends).mapM fun q => Dyad.add.onAtoms q.1 (.int q.2) := by
  have hpairs : ∀ pair ∈ x.items.zip addends,
      leaves <$> combine Dyad.add.onAtoms pair.1 (atom (.int pair.2)) =
        (pair.1.leaves.map fun a => (a, pair.2)).mapM fun q => Dyad.add.onAtoms q.1 (.int q.2) := by
    intro pair _
    rw [combine_atom_right, map_leaves_mapLeaves, List.mapM_map]
    rfl
  have hplus : x.plus addends = list <$> (x.items.zip addends).mapM fun pair =>
      combine Dyad.add.onAtoms pair.1 (atom (.int pair.2)) := by
    cases addends with
    | nil => exact absurd rfl h
    | cons n ns => rfl
  rw [sums, mapM_flatMap, ← mapM_congr hpairs, ← mapM_map_comm, hplus]
  cases (x.items.zip addends).mapM fun pair =>
      combine Dyad.add.onAtoms pair.1 (atom (.int pair.2)) with
  | error fault => rfl
  | ok ys => exact congrArg Except.ok (leaves_list ys)

theorem escapes_plus_iff {addends : List Int} :
    Escapes (x.plus addends) ↔ x.PlusTooLarge addends := by
  rcases eq_or_ne addends [] with rfl | h
  · simp [plus, PlusTooLarge, sums]
  · rw [← escapes_map leaves, map_leaves_plus h, escapes_mapM_iff]
    simp only [PlusTooLarge, Atom.hasSum_iff, Atom.sumTooLarge_iff]

/-! ### Actions -/

theorem escapes_takePadded_iff {xs : List Noun} {count : Nat} :
    Escapes (takePadded xs count) ↔ sizeLimit < count - xs.length := by
  unfold takePadded
  dsimp only
  split_ifs with h
  · simpa [Fault.typed_iff] using h
  · simpa using h

theorem escapes_takeItems_iff {xs : List Noun} {count : Int} :
    Escapes (takeItems count xs) ↔ sizeLimit < count.natAbs - xs.length := by
  unfold takeItems
  split_ifs with h
  · rw [escapes_takePadded_iff, show count.toNat = count.natAbs by omega]
  · rw [escapes_map, escapes_takePadded_iff, List.length_reverse,
      show (-count).toNat = count.natAbs by omega]

theorem not_escapes_combine {d : Dyad} {y : Noun} (hx : x.All Atom.Canonical)
    (hy : y.All Atom.Canonical) : ¬ Escapes (combine d.onAtoms x y) := by
  rintro ⟨fault, hfault, huntyped⟩
  rcases exists_of_combine_error hfault with ⟨a, ha, b, hb, hab⟩ | ⟨m, n, rfl⟩
  · exact Dyad.not_escapes_onAtoms (hx a ha) (hy b hb) ⟨fault, hab, huntyped⟩
  · simp [Fault.typed_iff] at huntyped

theorem not_escapes_fold {d : Dyad} {xs : List Noun} (hxs : ∀ x ∈ xs, x.All Atom.Canonical) :
    ¬ Escapes (fold d xs) := by
  fun_induction fold d xs with
  | case1 => exact not_escapes_ok _
  | case2 => exact not_escapes_ok _
  | case3 x x' rest ih =>
    rw [List.forall_mem_cons] at hxs
    rw [escapes_bind]
    rintro (h | ⟨y, hy, h⟩)
    · exact ih hxs.2 h
    · exact not_escapes_combine hxs.1 (all_fold Atom.lasting_canonical hxs.2 hy) h

theorem not_escapes_reshape {dims : List Int} : ¬ Escapes (x.reshape dims) := by
  unfold reshape
  split_ifs
  · simp [Fault.typed_iff]
  · dsimp only
    split
    · split_ifs <;> simp [Fault.typed_iff]
    · exact not_escapes_ok _

end Noun

namespace Action

variable {p : Precision} {x : Noun}

/-- What an action is given is too much for it. -/
def TooLarge (x : Noun) : Action → Prop
  | tally | gradeUp | gradeDown => sizeLimit < x.items.length
  | take count => sizeLimit < count.natAbs - x.items.length
  | plus addends => x.PlusTooLarge addends
  | _ => False

theorem escapes_counted_iff {result : Noun} :
    Escapes (counted x result) ↔ sizeLimit < x.items.length := by
  unfold counted
  split_ifs with h
  · simpa using h
  · simpa [Fault.typed_iff] using h

theorem escapes_apply_iff {action : Action} (hx : x.Canonical) :
    Escapes (action.apply p x) ↔ action.TooLarge x := by
  rw [Noun.canonical_iff_all] at hx
  cases action with
  | scalar s =>
    refine iff_of_false ?_ not_false
    rintro ⟨fault, hfault, huntyped⟩
    obtain ⟨a, ha, hs⟩ := Noun.exists_of_mapLeaves_error hfault
    exact Scalar.not_escapes_onAtom (hx a ha) ⟨fault, hs, huntyped⟩
  | tally | gradeUp | gradeDown => exact escapes_counted_iff
  | plus addends => exact Noun.escapes_plus_iff
  | take count => exact (escapes_map _).trans Noun.escapes_takeItems_iff
  | insert d =>
    exact iff_of_false ((escapes_map _).not.2 (Noun.not_escapes_fold hx.items)) not_false
  | reshape dims => exact iff_of_false Noun.not_escapes_reshape not_false
  | _ => exact iff_of_false (not_escapes_ok _) not_false

end Action

/-! ### Verbs and runs -/

/-- A literal that the verb takes has too many digits to be read, or what it then does is given too
much. -/
def Verb.TooLarge (v : Verb) (x : Noun) (s : TokenStream) : Prop :=
  (v.consumption ≠ .follower ∧
    ∃ token ∈ s.remaining.take (v.consumption.operandCount s.remaining),
      digitLimit < token.toList.countP Literal.isDigit) ∨
  ∃ action used, v.read s = .ok (action, used) ∧ action.TooLarge x

/-- The verb at the front is given too much. -/
def State.TooLarge (b : State) : Prop :=
  ∃ token rest, b.stream = ⟨token :: rest⟩ ∧ (Verb.lookup token).TooLarge b.noun ⟨rest⟩

variable {p : Precision} {x : Noun}

theorem Verb.escapes_run_iff {v : Verb} {s : TokenStream} (hx : x.Canonical) :
    Escapes (v.run p x s).1 ↔ v.TooLarge x s := by
  rw [TooLarge, ← escapes_read_iff, run]
  cases hread : v.read s with
  | error fault => simp
  | ok result =>
    obtain ⟨action, used⟩ := result
    simp [Action.escapes_apply_iff hx]

theorem escapes_applyAll_iff {s : TokenStream} (hx : x.Canonical) :
    Escapes (applyAll p x s).1 ↔ ∃ b, Reaches p ⟨x, s⟩ b ∧ b.TooLarge := by
  simp only [Escapes, fst_applyAll_eq_error_iff, State.TooLarge]
  constructor
  · rintro ⟨fault, ⟨b, token, rest, hreach, hb, hfault⟩, huntyped⟩
    have hb' : b.noun.Canonical := hx.reaches hreach
    exact ⟨b, hreach, token, rest, hb, (Verb.escapes_run_iff hb').1 ⟨fault, hfault, huntyped⟩⟩
  · rintro ⟨b, hreach, token, rest, hb, hlarge⟩
    have hb' : b.noun.Canonical := hx.reaches hreach
    obtain ⟨fault, hfault, huntyped⟩ := (Verb.escapes_run_iff (p := p) hb').2 hlarge
    exact ⟨fault, ⟨b, token, rest, hreach, hb, hfault⟩, huntyped⟩

/-- A command on an accepted noun gives a noun or a typed fault unless it comes to a verb that is
given too much, and only then. -/
theorem evaluation_fault_typed_iff {command : String} {given : Datum}
    (hx : given.toNoun nounRoot = .ok x) :
    (∀ fault, evaluate p command given = .error fault → fault.Typed) ↔
      ∀ b, Reaches p ⟨x, .ofTexts (tokenTexts command)⟩ b → ¬ b.TooLarge := by
  have hrun : evaluate p command given = (applyAll p x (.ofTexts (tokenTexts command))).1 := by
    rw [evaluate, evaluateTexts, fst_evaluateOn, hx]
    rfl
  have hcanonical : x.Canonical := Datum.canonical_of_toNoun hx
  have h := (escapes_applyAll_iff (p := p) (s := .ofTexts (tokenTexts command)) hcanonical).not
  rw [← hrun, Escapes] at h
  simpa using h

theorem evaluation_fault_typed_iff_sum_out_of_range :
    evaluate .double "+ 9223372036854775807" (.leaf (.int 1)) =
        .error (.integerOverflow "add" 9223372036854775808) ∧
      ∀ b, Reaches .double ⟨.atom (.int 1), .ofTexts (tokenTexts "+ 9223372036854775807")⟩ b →
        ¬ b.TooLarge := by
  have hevaluate : evaluate .double "+ 9223372036854775807" (.leaf (.int 1)) =
      .error (.integerOverflow "add" 9223372036854775808) := by
    decide +kernel
  have haccepted : (Datum.leaf (.int 1)).toNoun nounRoot = .ok (.atom (.int 1)) := by
    decide +kernel
  refine ⟨hevaluate, (evaluation_fault_typed_iff haccepted).1 fun fault hfault => ?_⟩
  rw [hevaluate] at hfault
  rw [← Except.error.inj hfault]
  decide +kernel

theorem padding_of_take_escapes :
    evaluate .double "\x7b. 9223372036854775809" (.list [.leaf (.int 1)]) = .error .sizeTooLarge ∧
      ¬ Fault.sizeTooLarge.Typed := by
  decide +kernel

end ArrayPhrase
