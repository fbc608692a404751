import ArrayPhrase.Proofs.Leaves
import ArrayPhrase.Proofs.PhraseSemantics

/-! Verbs that move items about do not look at atoms. Mapping all atoms of a noun and then moving
its items gives what moving them and then mapping gives, whenever the mapping succeeds; moved first,
some atoms need not be mapped at all. -/

namespace ArrayPhrase

open Outcome

namespace Noun

variable {f : Atom → Except Fault Atom} {x y : Noun} {xs ys zs : List Noun}

/-- Mapping the atoms of one noun gives the other. -/
def Maps (f : Atom → Except Fault Atom) (x y : Noun) : Prop :=
  x.mapLeaves f = .ok y

theorem maps_list_iff : Maps f (list xs) y ↔ ∃ ys, List.Forall₂ (Maps f) xs ys ∧ y = list ys := by
  rw [Maps, mapLeaves_list, map_eq_ok]
  exact exists_congr fun ys => and_congr mapM_eq_ok eq_comm

theorem maps_atom_iff {a : Atom} : Maps f (atom a) y ↔ ∃ b, f a = .ok b ∧ y = atom b := by
  rw [Maps, mapLeaves_atom, map_eq_ok]
  exact exists_congr fun b => and_congr_right fun _ => eq_comm

theorem maps_atom {a b : Atom} (h : f a = .ok b) : Maps f (atom a) (atom b) :=
  maps_atom_iff.2 ⟨b, h, rfl⟩

theorem maps_list (h : List.Forall₂ (Maps f) xs ys) : Maps f (list xs) (list ys) :=
  maps_list_iff.2 ⟨ys, h, rfl⟩

theorem Maps.items (h : Maps f x y) : List.Forall₂ (Maps f) x.items y.items := by
  cases x with
  | atom a =>
    obtain ⟨b, -, rfl⟩ := maps_atom_iff.1 h
    exact .cons h .nil
  | list xs =>
    obtain ⟨ys, hys, rfl⟩ := maps_list_iff.1 h
    exact hys

theorem Maps.leaves (h : Maps f x y) : List.Forall₂ (fun a b => f a = .ok b) x.leaves y.leaves := by
  rw [← mapM_eq_ok, ← map_leaves_mapLeaves, h]
  rfl

/-! ### Items -/

theorem forall₂_lastItem (h : List.Forall₂ (Maps f) xs ys) :
    List.Forall₂ (Maps f) (lastItem xs) (lastItem ys) := by
  rw [lastItem, lastItem, h.length_eq]
  exact List.forall₂_drop _ h

theorem forall₂_dropLast (h : List.Forall₂ (Maps f) xs ys) :
    List.Forall₂ (Maps f) xs.dropLast ys.dropLast := by
  rw [List.dropLast_eq_take, List.dropLast_eq_take, h.length_eq]
  exact List.forall₂_take _ h

theorem forall₂_dropItems (count : Int) (h : List.Forall₂ (Maps f) xs ys) :
    List.Forall₂ (Maps f) (dropItems count xs) (dropItems count ys) := by
  unfold dropItems
  rw [h.length_eq]
  split_ifs
  · exact List.forall₂_drop _ h
  · exact List.forall₂_take _ h

theorem forall₂_rotateItems (count : Int) (h : List.Forall₂ (Maps f) xs ys) :
    List.Forall₂ (Maps f) (rotateItems count xs) (rotateItems count ys) := by
  unfold rotateItems
  rw [h.length_eq]
  exact List.rel_append (List.forall₂_drop _ h) (List.forall₂_take _ h)

theorem takePadded_of_le {count : Nat} (h : count ≤ xs.length) :
    takePadded xs count = .ok (xs.take count) := by
  unfold takePadded
  rw [Nat.sub_eq_zero_of_le h]
  simp

/-- Where there are enough items, only items are taken. -/
theorem takeItems_of_le {count : Int} (h : count.natAbs ≤ xs.length) : takeItems count xs =
    .ok (if 0 ≤ count then xs.take count.toNat else (xs.reverse.take (-count).toNat).reverse) := by
  unfold takeItems
  split_ifs with hcount
  · exact takePadded_of_le (by omega)
  · rw [takePadded_of_le (by rw [List.length_reverse]; omega)]
    rfl

theorem forall₂_takeItems {count : Int} (hcount : count.natAbs ≤ xs.length)
    (h : List.Forall₂ (Maps f) xs ys) (htake : takeItems count ys = .ok zs) :
    ∃ ws, takeItems count xs = .ok ws ∧ List.Forall₂ (Maps f) ws zs := by
  rw [takeItems_of_le (h.length_eq ▸ hcount), Except.ok.injEq] at htake
  rw [takeItems_of_le hcount, ← htake]
  refine ⟨_, rfl, ?_⟩
  split_ifs
  · exact List.forall₂_take _ h
  · exact List.rel_reverse (List.forall₂_take _ (List.rel_reverse h))

/-! ### Leaves -/

theorem maps_fill {element element' : Nat → Noun}
    (h : ∀ rank, Maps f (element rank) (element' rank)) (dims : List Nat) (rank : Nat) :
    Maps f (fill element dims rank) (fill element' dims rank) := by
  induction dims generalizing rank with
  | nil => exact h rank
  | cons dim dims ih =>
    rw [fill, fill]
    apply maps_list
    rw [List.forall₂_map_left_iff, List.forall₂_map_right_iff, List.forall₂_same]
    exact fun i _ => ih _

theorem maps_reshape {dims : List Int} {x' y' : Noun} (h : Maps f x x')
    (hreshape : x'.reshape dims = .ok y') : ∃ y, x.reshape dims = .ok y ∧ Maps f y y' := by
  have hleaves := h.leaves
  unfold reshape at hreshape ⊢
  split_ifs at hreshape ⊢
  dsimp only at hreshape ⊢
  generalize x.leaves = as at hleaves ⊢
  generalize x'.leaves = bs at hleaves hreshape
  cases hleaves with
  | nil =>
    dsimp only at hreshape ⊢
    split_ifs at hreshape ⊢
    cases hreshape
    exact ⟨_, rfl, maps_fill (fun _ => maps_list .nil) _ _⟩
  | @cons a b as bs hab htail =>
    cases hreshape
    refine ⟨_, rfl, maps_fill (fun rank => maps_atom ?_) _ _⟩
    have hall : List.Forall₂ (fun a b => f a = .ok b) (a :: as) (b :: bs) := .cons hab htail
    have hlt : rank % (b :: bs).length < (b :: bs).length := Nat.mod_lt _ (Nat.succ_pos _)
    rw [hall.length_eq, List.getD_eq_getElem _ _ hlt,
      List.getD_eq_getElem _ _ (hall.length_eq ▸ hlt)]
    exact hall.get _ hlt

end Noun

/-! ### Actions -/

open Noun

variable {f : Atom → Except Fault Atom} {x x' y' : Noun} {head : String} {operands : List String}

/-- The action makes its result of items or leaves of the noun only. -/
def Action.Rearranges (x : Noun) : Action → Prop
  | tail | curtail | drop _ | reverse | rotate _ | reshape _ => True
  | take count => count.natAbs ≤ x.items.length
  | _ => False

theorem Action.Rearranges.maps {action : Action} {p : Precision} (h : action.Rearranges x)
    (hx : Maps f x x') (happly : action.apply p x' = .ok y') :
    ∃ y, action.apply p x = .ok y ∧ Maps f y y' := by
  have hitems := hx.items
  cases action with
  | tail =>
    cases happly
    exact ⟨_, rfl, maps_list (forall₂_lastItem hitems)⟩
  | curtail =>
    cases happly
    exact ⟨_, rfl, maps_list (forall₂_dropLast hitems)⟩
  | drop count =>
    cases happly
    exact ⟨_, rfl, maps_list (forall₂_dropItems count hitems)⟩
  | reverse =>
    cases happly
    exact ⟨_, rfl, maps_list (List.rel_reverse hitems)⟩
  | rotate count =>
    cases happly
    exact ⟨_, rfl, maps_list (forall₂_rotateItems count hitems)⟩
  | take count =>
    obtain ⟨zs, htake, rfl⟩ := map_eq_ok.1 happly
    obtain ⟨ws, hws, hmaps⟩ := forall₂_takeItems h hitems htake
    exact ⟨list ws, map_eq_ok.2 ⟨ws, hws, rfl⟩, maps_list hmaps⟩
  | reshape dims => exact maps_reshape hx happly
  | _ => exact h.elim

/-! ### Phrases -/

/-- The phrases that rearrange a noun, by their heads and operands. Where items are taken, there
have to be enough of them. -/
inductive Structural (x : Noun) : (head : String) → (operands : List String) → Prop where
  | reverse : Structural x "|." []
  | rotate {count : String} (literal : Literal.isLiteral count = true) : Structural x "|." [count]
  | drop {count : String} (literal : Literal.isLiteral count = true) : Structural x "\x7d." [count]
  | tail : Structural x "\x7b:" []
  | curtail : Structural x "\x7d:" []
  | reshape {dims : List String} (literals : ∀ d ∈ dims, Literal.isLiteral d = true) :
    Structural x "$" dims
  | take {count : String} (literal : Literal.isLiteral count = true)
    (enough : ∀ n, Literal.parse count = .ok n → n.natAbs ≤ x.items.length) :
    Structural x "\x7b." [count]

namespace Phrase

theorem complete_scalar (s : Scalar) : (application s.rep []).Complete := by
  cases s <;> decide

/-- The scalar verbs map atoms. -/
theorem apply_scalar (s : Scalar) (p : Precision) (x : Noun) :
    (application s.rep []).apply p x = x.mapLeaves (s.onAtom p) := by
  show ((Verb.lookup s.rep).run p x ⟨[]⟩).1 = x.mapLeaves (s.onAtom p)
  rw [Verb.lookup_rep_scalar]
  rfl

/-- Two complete phrases make a command that applies the second and then the first. -/
theorem Complete.evaluateTexts_append {head' : String} {operands' : List String}
    (h : (application head operands).Complete) (h' : (application head' operands').Complete)
    (p : Precision) {given : Datum} (haccepted : given.toNoun nounRoot = .ok x) :
    evaluateTexts p (head :: operands ++ head' :: operands') given =
      (application head' operands').apply p x >>= (application head operands).apply p := by
  have hcons := h.evaluateTexts_cons (List.forall_mem_singleton.2 h'.whole) p given
  rw [List.flatMap_singleton] at hcons
  refine hcons.trans ?_
  rw [Phrase.written, h'.evaluateTexts_of_accepted p haccepted]

end Phrase

namespace Structural

theorem complete (h : Structural x head operands) :
    (Phrase.application head operands).Complete := by
  cases h with
  | reverse | tail | curtail => decide
  | rotate literal | drop literal | take literal _ =>
    exact Phrase.complete_of_literal (by decide) (by decide) literal
  | reshape literals =>
    have hverb : Verb.lookup "$" = .reshape := by
      decide
    refine ⟨by decide, ?_, by rw [hverb]; exact nofun⟩
    rw [hverb]
    exact ⟨literals, startsPlain_nil⟩

theorem rearranges_of_read (h : Structural x head operands) {action : Action} {used : Nat}
    (hread : (Verb.lookup head).read ⟨operands.reverse⟩ = .ok (action, used)) :
    action.Rearranges x := by
  have hturn : Verb.lookup "|." = .reverseRotate := by decide
  have hdrop : Verb.lookup "\x7d." = .drop := by decide
  have htake : Verb.lookup "\x7b." = .take := by decide
  have hshape : Verb.lookup "$" = .reshape := by decide
  cases h with
  | reverse =>
    rw [hturn] at hread
    cases hread
    trivial
  | rotate literal =>
    rw [hturn] at hread
    obtain ⟨n, -, rfl⟩ := Verb.exists_of_readLiteral literal hread
    trivial
  | drop literal =>
    rw [hdrop] at hread
    obtain ⟨n, -, rfl⟩ := Verb.exists_of_readLiteral literal hread
    trivial
  | tail =>
    cases hread
    trivial
  | curtail =>
    cases hread
    trivial
  | reshape _ =>
    rw [hshape] at hread
    obtain ⟨args, rfl⟩ := Verb.exists_of_readLiterals hread
    trivial
  | take literal enough =>
    rw [htake] at hread
    obtain ⟨n, hn, rfl⟩ := Verb.exists_of_readLiteral literal hread
    exact enough n hn

/-- A mapped noun rearranged is the rearranged noun mapped. -/
theorem maps_of_apply {p : Precision} (h : Structural x head operands) (hx : Maps f x x')
    (hok : (Phrase.application head operands).apply p x' = .ok y') :
    ∃ y, (Phrase.application head operands).apply p x = .ok y ∧ Maps f y y' := by
  unfold Phrase.apply Verb.run at hok ⊢
  dsimp only at hok ⊢
  -- What a verb reads does not depend on the noun, so both times it is the same action.
  cases hread : (Verb.lookup head).read ⟨operands.reverse⟩ with
  | error fault =>
    rw [hread] at hok
    cases hok
  | ok result =>
    rw [hread] at hok
    exact (h.rearranges_of_read hread).maps hx hok

end Structural

/-- A scalar verb and a phrase that rearranges the noun may change places: when mapping the atoms
first and then rearranging succeeds, the other order succeeds with the same result. -/
theorem scalar_commutes_with_structural {p : Precision} {s : Scalar} {given : Datum} {y : Noun}
    (haccepted : given.toNoun nounRoot = .ok x) (hstructural : Structural x head operands)
    (hok : evaluateTexts p (head :: operands ++ [s.rep]) given = .ok y) :
    evaluateTexts p (s.rep :: head :: operands) given = .ok y := by
  have hphrase := hstructural.complete
  have hscalar := Phrase.complete_scalar s
  rw [hphrase.evaluateTexts_append hscalar p haccepted] at hok
  obtain ⟨x', hx, happly⟩ := bind_eq_ok.1 hok
  rw [Phrase.apply_scalar] at hx
  obtain ⟨z, hz, hmaps⟩ := hstructural.maps_of_apply hx happly
  have hother := hscalar.evaluateTexts_append hphrase p haccepted
  rw [List.cons_append, List.nil_append] at hother
  rw [hother]
  refine bind_eq_ok.2 ⟨z, hz, ?_⟩
  rw [Phrase.apply_scalar]
  exact hmaps

theorem scalar_commutes_with_structural_last_two_squares :
    let given : Datum :=
      .list [.leaf (.int 7), .list [.leaf (.int 2), .leaf (.int 3)], .leaf (.int 4)]
    let squares : Noun := .list [.list [.atom (.int 4), .atom (.int 9)], .atom (.int 16)]
    evaluateTexts .double ["\x7b.", "_2", "*:"] given = .ok squares ∧
      evaluateTexts .double ["*:", "\x7b.", "_2"] given = .ok squares := by
  intro given squares
  let x : Noun := .list [.atom (.int 7), .list [.atom (.int 2), .atom (.int 3)], .atom (.int 4)]
  have haccepted : given.toNoun nounRoot = .ok x := by
    decide +kernel
  have hparse : Literal.parse "_2" = .ok (-2) := by
    decide +kernel
  have hstructural : Structural x "\x7b." ["_2"] := by
    refine .take (by decide) fun n hn => ?_
    cases hparse.symm.trans hn
    decide
  have hok : evaluateTexts .double ["\x7b.", "_2", "*:"] given = .ok squares := by
    decide +kernel
  exact ⟨hok, scalar_commutes_with_structural (s := .square) haccepted hstructural hok⟩

/-- The other order may succeed alone, since it does not map the atoms that are not taken. -/
example :
    let given : Datum := .list [.leaf (.int 3), .leaf (.int 4294967296)]
    evaluateTexts .double ["*:", "\x7b.", "1"] given = .ok (.list [.atom (.int 9)]) ∧
      evaluateTexts .double ["\x7b.", "1", "*:"] given ≠ .ok (.list [.atom (.int 9)]) := by
  decide +kernel

end ArrayPhrase
