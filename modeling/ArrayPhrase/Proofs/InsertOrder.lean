import Mathlib.Data.List.Perm.Basic
import ArrayPhrase.Proofs.Faults
import ArrayPhrase.Proofs.Merging
import ArrayPhrase.Proofs.PhraseSemantics

/-! Inserted verbs and the order of the items. Without a range the items of a noun of integers have
one total, whatever order they stand in, or none when their lists do not fit together. Insertion
within the range gives that total, unless an integer on the way to it is out of range, and that
does depend on the order. -/

namespace ArrayPhrase

open Outcome

/-! ### Exact arithmetic -/

/-- The integer that an atom is, with zero standing for reals. -/
def Atom.toInt : Atom → Int
  | int n => n
  | real _ => 0

namespace Dyad

variable {d : Dyad} {a b c : Atom}

/-- The result on integers, in range or not. -/
def exact (d : Dyad) (a b : Atom) : Atom :=
  .int (d.onInts a.toInt b.toInt)

instance : Std.Commutative d.exact where
  comm a b := congrArg Atom.int (d.onInts_comm a.toInt b.toInt)

instance : Std.Associative d.exact where
  assoc a b c := by
    cases d with
    | add => exact congrArg Atom.int (Int.add_assoc _ _ _)
    | mul => exact congrArg Atom.int (Int.mul_assoc _ _ _)

theorem exact_identity (ha : a.IsInt) : d.exact a (.int d.identity) = a := by
  obtain ⟨n, rfl⟩ := ha
  cases d with
  | add => exact congrArg Atom.int (Int.add_zero n)
  | mul => exact congrArg Atom.int (Int.mul_one n)

theorem eq_exact_of_onAtoms (ha : a.IsInt) (hb : b.IsInt) (h : d.onAtoms a b = .ok c) :
    c = d.exact a b := by
  obtain ⟨m, rfl⟩ := ha
  obtain ⟨n, rfl⟩ := hb
  obtain ⟨k, hk, rfl⟩ := map_eq_ok.1 h
  rw [← (checkRange_eq_ok.1 hk).2]
  rfl

end Dyad

/-! ### Totals -/

namespace Noun

variable {d : Dyad} {x y z : Noun} {xs ys : List Noun} {fault : Fault}

/-- What items come to without a range; none when their lists do not fit together. -/
def total (d : Dyad) (xs : List Noun) : Option Noun :=
  xs.foldr (fun x rest => rest.bind (merge d.exact x)) (some (atom (.int d.identity)))

theorem total_cons (d : Dyad) (x : Noun) (xs : List Noun) :
    total d (x :: xs) = (total d xs).bind (merge d.exact x) :=
  rfl

instance : LeftCommutative fun (x : Noun) (rest : Option Noun) =>
    rest.bind (merge d.exact x) where
  left_comm x y rest := by
    cases rest with
    | none => rfl
    | some z => exact merge_left_comm x y z

/-- The total is the same in any order. -/
theorem total_perm (hperm : xs.Perm ys) : total d xs = total d ys :=
  hperm.foldr_eq _

theorem total_singleton (hx : x.Integral) : total d [x] = some x := by
  have hsame : ∀ a ∈ x.leaves, d.exact a (.int d.identity) = id a := fun a ha =>
    Dyad.exact_identity (hx a ha)
  rw [total_cons, total, List.foldr_nil, Option.bind_some, merge_atom_right, map_congr hsame,
    map_id]

theorem merge_of_combine (hx : x.Integral) (hy : y.Integral)
    (hz : combine d.onAtoms x y = .ok z) : merge d.exact x y = some z :=
  merge_of_combine_eq_ok
    (fun a ha b hb _ h => Dyad.eq_exact_of_onAtoms (hx a ha) (hy b hb) h) hz

/-- A fold that succeeds gives the total. -/
theorem total_of_fold_eq_ok (hxs : ∀ x ∈ xs, x.Integral) (h : fold d xs = .ok y) :
    total d xs = some y := by
  fun_induction fold d xs generalizing y with
  | case1 => cases h; rfl
  | case2 x =>
    cases h
    exact total_singleton (hxs _ List.mem_cons_self)
  | case3 x x' rest ih =>
    rw [List.forall_mem_cons] at hxs
    obtain ⟨z, hz, h⟩ := bind_eq_ok.1 h
    have hint : z.Integral := all_fold Atom.lasting_isInt hxs.2 hz
    rw [total_cons, ih hxs.2 hz, Option.bind_some, merge_of_combine hxs.1 hint h]

/-- Where a fold fails for the shape of the items, they have no total. -/
theorem total_of_fold_eq_error (hxs : ∀ x ∈ xs, x.Integral) (hshape : fault.kind = .shape)
    (h : fold d xs = .error fault) : total d xs = none := by
  fun_induction fold d xs with
  | case1 => cases h
  | case2 => cases h
  | case3 x x' rest ih =>
    rw [List.forall_mem_cons] at hxs
    rw [total_cons]
    rcases bind_eq_error.1 h with h | ⟨z, hz, h⟩
    · rw [ih hxs.2 h, Option.bind_none]
    · have hatoms : ∀ a b, d.onAtoms a b ≠ .error fault := fun _ _ h =>
        Dyad.kind_ne_shape_of_onAtoms h hshape
      rw [total_of_fold_eq_ok hxs.2 hz, Option.bind_some, merge_of_combine_eq_error hatoms h]

theorem insert_eq_ok (hx : x.Integral) (h : x.insert d = .ok y) :
    (total d x.items).map box = some y := by
  obtain ⟨z, hz, rfl⟩ := map_eq_ok.1 h
  rw [total_of_fold_eq_ok hx.items hz, Option.map_some]

theorem insert_eq_error (hx : x.Integral) (hshape : fault.kind = .shape)
    (h : x.insert d = .error fault) : total d x.items = none :=
  total_of_fold_eq_error hx.items hshape (map_eq_error.1 h)

end Noun

/-! ### Commands -/

theorem apply_insert {follower : String} (d : Dyad)
    (h : Verb.insert.followers.lookup follower = some (.insert d)) (p : Precision) :
    (Phrase.application "/" [follower]).apply p = Noun.insert d := by
  funext x
  have hlookup : Verb.lookup "/" = .insert := by decide
  have hread : (Verb.lookup "/").read ⟨[follower].reverse⟩ = .ok (.insert d, 1) := by
    rw [hlookup, List.reverse_singleton]
    simp only [Verb.read, Verb.readFollower, TokenStream.peek, List.head?_cons, h]
  exact Phrase.apply_of_read hread

/-- The follower that makes the inserted verb of an operation. -/
def Dyad.follower : Dyad → String
  | add => "+"
  | mul => "*"

/-- What the two inserted verbs mean. -/
theorem evaluateTexts_insert (d : Dyad) (p : Precision) (given : Datum) :
    evaluateTexts p ["/", d.follower] given = given.toNoun nounRoot >>= Noun.insert d := by
  have hcomplete : (Phrase.application "/" [d.follower]).Complete := by
    cases d <;> decide
  rw [hcomplete.evaluateTexts_eq_apply, apply_insert d (by cases d <;> decide)]

theorem exists_dyad_of_follower {follower : String} (hfollower : follower = "+" ∨ follower = "*") :
    ∃ d : Dyad, ∀ p given, evaluateTexts p ["/", follower] given =
      given.toNoun nounRoot >>= Noun.insert d := by
  rcases hfollower with rfl | rfl
  · exact ⟨.add, evaluateTexts_insert .add⟩
  · exact ⟨.mul, evaluateTexts_insert .mul⟩

/-- Insertion into integers, whatever their nesting, gives the same for every order of the items
when it succeeds for both; and when the shapes of the items make it fail for one order, it succeeds
for none. -/
theorem insertion_in_any_order {follower : String} (hfollower : follower = "+" ∨ follower = "*")
    {p : Precision} {given given' : Datum} {x y : Noun} (hx : given.toNoun nounRoot = .ok x)
    (hy : given'.toNoun nounRoot = .ok y) (hint : x.Integral) (hperm : x.items.Perm y.items) :
    (∀ z w, evaluateTexts p ["/", follower] given = .ok z →
        evaluateTexts p ["/", follower] given' = .ok w → z = w) ∧
      (∀ fault, fault.kind = .shape → evaluateTexts p ["/", follower] given = .error fault →
        ∀ w, evaluateTexts p ["/", follower] given' ≠ .ok w) ∧
      ∀ fault, fault.kind = .shape → evaluateTexts p ["/", follower] given' = .error fault →
        ∀ z, evaluateTexts p ["/", follower] given ≠ .ok z := by
  obtain ⟨d, heval⟩ := exists_dyad_of_follower hfollower
  have hint' : y.Integral := by
    intro a ha
    rw [← Noun.leaves_list_items] at ha
    exact hint.list_of_subset hperm.symm.subset a ha
  have htotal : Noun.total d x.items = Noun.total d y.items := Noun.total_perm hperm
  rw [heval, heval, hx, hy]
  refine ⟨fun z w hz hw => ?_, fun fault hshape hz w hw => ?_, fun fault hshape hw z hz => ?_⟩
  · have hz := Noun.insert_eq_ok hint hz
    rw [htotal, Noun.insert_eq_ok hint' hw] at hz
    exact (Option.some.inj hz).symm
  · have hw := Noun.insert_eq_ok hint' hw
    rw [← htotal, Noun.insert_eq_error hint hshape hz] at hw
    cases hw
  · have hz := Noun.insert_eq_ok hint hz
    rw [htotal, Noun.insert_eq_error hint' hshape hw] at hz
    cases hz

theorem insertion_in_any_order_number_among_lists :
    let lists : List Datum :=
      [.list [.leaf (.int 1), .leaf (.int 2)], .list [.leaf (.int 4), .list [.leaf (.int 5)]]]
    let result : Noun := .list [.atom (.int 8), .list [.atom (.int 10)]]
    evaluateTexts .single ["/", "+"] (.list (.leaf (.int 3) :: lists)) = .ok result ∧
      ∀ w, evaluateTexts .single ["/", "+"] (.list (lists ++ [.leaf (.int 3)])) = .ok w →
        result = w := by
  intro lists result
  let nouns : List Noun :=
    [.list [.atom (.int 1), .atom (.int 2)], .list [.atom (.int 4), .list [.atom (.int 5)]]]
  have hx : (Datum.list (.leaf (.int 3) :: lists)).toNoun nounRoot =
      .ok (.list (.atom (.int 3) :: nouns)) := by
    decide +kernel
  have hy : (Datum.list (lists ++ [.leaf (.int 3)])).toNoun nounRoot =
      .ok (.list (nouns ++ [.atom (.int 3)])) := by
    decide +kernel
  have hint : (Noun.list (.atom (.int 3) :: nouns)).Integral := by
    simp [nouns, Noun.Integral, Noun.all_list, Atom.IsInt]
  have hperm : (Noun.atom (.int 3) :: nouns).Perm (nouns ++ [.atom (.int 3)]) :=
    (List.perm_append_singleton _ _).symm
  have hresult : evaluateTexts .single ["/", "+"] (.list (.leaf (.int 3) :: lists)) =
      .ok result := by
    decide +kernel
  exact ⟨hresult, fun w => (insertion_in_any_order (.inl rfl) hx hy hint hperm).1 _ w hresult⟩

/-- Whether a sum on the way is out of range does depend on the order. -/
example :
    let greatest : Datum := .leaf (.int 9223372036854775807)
    evaluateTexts .double ["/", "+"] (.list [greatest, .leaf (.int 1), .leaf (.int (-1))]) =
        .ok (.list [.atom (.int 9223372036854775807)]) ∧
      evaluateTexts .double ["/", "+"] (.list [.leaf (.int (-1)), greatest, .leaf (.int 1)]) =
        .error (.integerOverflow "add" 9223372036854775808) := by
  decide +kernel

end ArrayPhrase
