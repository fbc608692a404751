import Mathlib.Algebra.BigOperators.Group.List.Basic
import Mathlib.Tactic.Ring
import ArrayPhrase.Proofs.Numerals
import ArrayPhrase.Proofs.Shapes

/-! Shapes filled from a supply of leaves that begins again when it comes to its end. Taking the
leaves one by one, depth first, puts at every place of the shape the leaf of the row-major rank of
the place. The supply fails only if it is empty and the shape has room for an element. -/

namespace ArrayPhrase

open Outcome

namespace Noun

/-- The row-major rank of indices: each one passes over as many elements as the dimensions behind
its own have room for. -/
def rank : (dims indices : List Nat) → Nat
  | _ :: dims, i :: indices => i * dims.prod + rank dims indices
  | _, _ => 0

/-- The next leaf of a supply that goes round; the state is the number of leaves taken. -/
def nextLeaf (supply : List Atom) : StateT Nat (Except Fault) Noun := fun taken =>
  match supply[taken % supply.length]? with
  | some a => .ok (atom a, taken + 1)
  | none => .error .emptyNoun

/-- A shape filled with the next leaves of a supply. -/
def fillNext (supply : List Atom) : (dims : List Nat) → StateT Nat (Except Fault) Noun
  | [] => nextLeaf supply
  | dim :: dims => list <$> (List.replicate dim ()).mapM fun _ => fillNext supply dims

variable {element : Nat → Noun} {supply : List Atom} {dims outer indices : List Nat} {x : Noun}
  {r : Nat}

/-! ### Places of a filled shape -/

/-- At each place of a filled shape stands the element of its rank. -/
theorem at?_fill (h : List.Forall₂ (· < ·) indices dims) :
    (fill element dims r).at? indices = some (element (r * dims.prod + rank dims indices)) := by
  induction h generalizing r with
  | nil => simp [fill, rank]
  | @cons i dim indices dims hi _ ih =>
    have hrank : (r * dim + i) * dims.prod + rank dims indices =
        r * (dim :: dims).prod + rank (dim :: dims) (i :: indices) := by
      rw [rank, List.prod_cons]
      ring
    rw [fill, at?_list_cons, List.getElem?_map, List.getElem?_range hi, Option.map_some,
      Option.bind_some, ih, hrank]

/-- Where dimensions are left, a filled shape has a list as long as the next one. -/
theorem listAt_fill (h : List.Forall₂ (· < ·) indices outer) (dim : Nat) (inner : List Nat) :
    (fill element (outer ++ dim :: inner) r).ListAt indices dim := by
  induction h generalizing r with
  | nil => simp [fill]
  | @cons i first indices outer hi _ ih =>
    rw [List.cons_append, fill, listAt_list_cons]
    exact ⟨_, by rw [List.getElem?_map, List.getElem?_range hi, Option.map_some], ih⟩

/-! ### Leaves one by one -/

/-- A step repeated passes through its states in order. -/
theorem run_mapM_replicate {step : StateT Nat (Except Fault) Noun} {g : Nat → Noun}
    {state : Nat → Nat} (h : ∀ s, step.run (state s) = .ok (g s, state (s + 1))) (s k : Nat) :
    ((List.replicate k ()).mapM fun _ => step).run (state s) =
      .ok ((List.range' s k).map g, state (s + k)) := by
  induction k generalizing s with
  | zero => rfl
  | succ k ih =>
    rw [List.replicate_succ, List.mapM_cons, StateT.run_bind, h, List.range'_succ, List.map_cons]
    have hrest := ih (s + 1)
    rw [Nat.succ_add_eq_add_succ] at hrest
    change StateT.run ((List.replicate k ()).mapM (fun _ => step) >>= fun xs =>
      pure (g s :: xs)) (state (s + 1)) = _
    rw [StateT.run_bind, hrest]
    rfl

theorem fill_cons (element : Nat → Noun) (dim : Nat) (dims : List Nat) (r : Nat) :
    fill element (dim :: dims) r = list ((List.range' (r * dim) dim).map (fill element dims)) := by
  rw [fill, List.range'_eq_map_range, List.map_map]
  rfl

/-- Rows of one shape filled in turn make up the shape with the number of rows in front. -/
theorem run_fillNext_cons (state : Nat → Nat)
    (h : ∀ s, (fillNext supply dims).run (state s) = .ok (fill element dims s, state (s + 1)))
    (dim r : Nat) : (fillNext supply (dim :: dims)).run (state (r * dim)) =
      .ok (fill element (dim :: dims) r, state ((r + 1) * dim)) := by
  rw [fillNext, StateT.run_map, run_mapM_replicate h, fill_cons, Nat.succ_mul]
  rfl

/-- A shape that is reached when whole shapes have been filled before it takes the leaves from the
rank of its first place on. -/
theorem run_fillNext (helement : ∀ s, supply[s % supply.length]?.map atom = some (element s))
    (dims : List Nat) (r : Nat) : (fillNext supply dims).run (r * dims.prod) =
      .ok (fill element dims r, (r + 1) * dims.prod) := by
  induction dims generalizing r with
  | nil =>
    obtain ⟨a, ha, helem⟩ := Option.map_eq_some_iff.1 (helement r)
    simp only [List.prod_nil, Nat.mul_one, fillNext, fill, ← helem]
    show nextLeaf supply r = _
    rw [nextLeaf, ha]
  | cons dim dims ih =>
    have hrows := run_fillNext_cons (· * dims.prod) ih dim r
    simpa only [List.prod_cons, Nat.mul_assoc] using hrows

/-- Without leaves a shape can be filled when it has no room for an element. -/
theorem run_fillNext_nil (dims : List Nat) (r taken : Nat) : (fillNext [] dims).run taken =
      if dims.prod = 0 then .ok (fill (fun _ => list []) dims r, taken)
      else .error .emptyNoun := by
  induction dims generalizing r taken with
  | nil => rfl
  | cons dim dims ih =>
    rw [List.prod_cons]
    by_cases hprod : dims.prod = 0
    · have hrow : ∀ s, (fillNext [] dims).run taken =
          .ok (fill (fun _ => list []) dims s, taken) := by
        intro s
        rw [ih s, if_pos hprod]
      rw [if_pos (by rw [hprod, Nat.mul_zero])]
      exact run_fillNext_cons (fun _ => taken) hrow dim r
    · cases dim with
      | zero =>
        rw [if_pos (Nat.zero_mul _)]
        rfl
      | succ dim =>
        rw [if_neg (Nat.mul_ne_zero (Nat.succ_ne_zero dim) hprod), fillNext, List.replicate_succ,
          List.mapM_cons]
        simp only [StateT.run_map, StateT.run_bind, ih 0, if_neg hprod]
        rfl

/-! ### Reshaping -/

theorem reshape_of_neg {dims : List Int} (h : ∃ dim ∈ dims, dim < 0) (x : Noun) :
    x.reshape dims = .error .negativeDimension := by
  rw [reshape, if_pos (by simpa using h)]

theorem reshape_of_nonneg (dims : List Nat) (x : Noun) : x.reshape (dims.map Nat.cast) =
    match x.leaves with
    | [] => if dims.prod = 0 then .ok (fill (fun _ => list []) dims 0) else .error .emptyNoun
    | first :: rest =>
      let supply := first :: rest
      .ok (fill (fun s => atom (supply.getD (s % supply.length) first)) dims 0) := by
  have hdims : (dims.map (Nat.cast : Nat → Int)).map Int.toNat = dims := by
    simp [Function.comp_def]
  rw [reshape, if_neg (by simp)]
  dsimp only
  rw [hdims]
  rfl

theorem reshape_of_no_leaves (h : x.leaves = []) (dims : List Nat) :
    x.reshape (dims.map Nat.cast) =
      if dims.prod = 0 then .ok (fill (fun _ => list []) dims 0) else .error .emptyNoun := by
  rw [reshape_of_nonneg, h]

theorem reshape_of_leaves (h : x.leaves ≠ []) (dims : List Nat) : ∃ element : Nat → Noun,
    (∀ s, x.leaves[s % x.leaves.length]?.map atom = some (element s)) ∧
      x.reshape (dims.map Nat.cast) = .ok (fill element dims 0) := by
  obtain ⟨first, rest, hleaves⟩ := List.exists_cons_of_ne_nil h
  rw [reshape_of_nonneg, hleaves]
  refine ⟨_, fun s => ?_, rfl⟩
  have hlt : s % (first :: rest).length < (first :: rest).length := Nat.mod_lt _ (Nat.succ_pos _)
  rw [List.getD_eq_getElem _ _ hlt, List.getElem?_eq_getElem hlt, Option.map_some]

/-- Reshaping takes the leaves of the noun one by one, from the first on. -/
theorem reshape_eq_fillNext (dims : List Nat) (x : Noun) :
    x.reshape (dims.map Nat.cast) = (fillNext x.leaves dims).run' 0 := by
  rw [StateT.run'_eq]
  by_cases h : x.leaves = []
  · rw [reshape_of_no_leaves h, h, run_fillNext_nil dims 0]
    split_ifs <;> rfl
  · obtain ⟨element, helement, hreshape⟩ := reshape_of_leaves h dims
    have hrun := run_fillNext helement dims 0
    rw [Nat.zero_mul] at hrun
    rw [hreshape, hrun]
    rfl

theorem prod_pos_of_indices (h : List.Forall₂ (· < ·) indices dims) : 0 < dims.prod := by
  induction h with
  | nil => simp
  | cons hi _ ih =>
    rw [List.prod_cons]
    exact Nat.mul_pos (Nat.zero_lt_of_lt hi) ih

/-- Where there is a leaf or no room for one, reshaping gives the shape with the leaf of its rank
at each place. -/
theorem exists_reshape (h : x.leaves = [] → dims.prod = 0) :
    ∃ z, x.reshape (dims.map Nat.cast) = .ok z ∧
      (∀ outer dim inner indices, dims = outer ++ dim :: inner →
        List.Forall₂ (· < ·) indices outer → z.ListAt indices dim) ∧
      ∀ indices, List.Forall₂ (· < ·) indices dims →
        ∃ a, x.leaves[rank dims indices % x.leaves.length]? = some a ∧
          z.at? indices = some (atom a) := by
  have hlists (element : Nat → Noun) : ∀ outer dim inner indices, dims = outer ++ dim :: inner →
      List.Forall₂ (· < ·) indices outer → (fill element dims 0).ListAt indices dim := by
    rintro outer dim inner indices rfl hindices
    exact listAt_fill hindices dim inner
  by_cases hleaves : x.leaves = []
  · have hprod := h hleaves
    refine ⟨_, by rw [reshape_of_no_leaves hleaves, if_pos hprod], hlists _, fun indices hind => ?_⟩
    exact absurd hprod (prod_pos_of_indices hind).ne'
  · obtain ⟨element, helement, hreshape⟩ := reshape_of_leaves hleaves dims
    refine ⟨_, hreshape, hlists element, fun indices hind => ?_⟩
    obtain ⟨a, ha, helem⟩ := Option.map_eq_some_iff.1 (helement (rank dims indices))
    refine ⟨a, ha, ?_⟩
    rw [at?_fill hind, Nat.zero_mul, Nat.zero_add, helem]

end Noun

/-! ### Commands -/

theorem Phrase.apply_reshape {dims : List Int} {texts : List String}
    (hwrites : List.Forall₂ Literal.Writes dims texts) (p : Precision) (x : Noun) :
    (application "$" texts).apply p x = x.reshape dims :=
  apply_of_integers .reshape (.inr rfl) (fun _ => rfl) hwrites p x

theorem evaluateTexts_reshape {p : Precision} {dims : List Int} {texts : List String}
    {given : Datum} {x : Noun} (hwrites : List.Forall₂ Literal.Writes dims texts)
    (haccepted : given.toNoun nounRoot = .ok x) :
    evaluateTexts p ("$" :: texts) given = x.reshape dims := by
  have hcomplete := Phrase.complete_of_integers (.inr rfl) hwrites
  rw [hcomplete.evaluateTexts_of_accepted p haccepted, Phrase.apply_reshape hwrites]

/-- Reshaping refuses a negative dimension, and a noun without leaves where there is room for one.
Otherwise it gives a noun of exactly the shape that is written, truncated where a dimension is
zero, and at each place the leaf whose number is the row-major rank of the place, counted round the
leaves. The leaves are taken one after the other. -/
theorem reshape_fills_by_rank {p : Precision} {command : String} {dims : List Int}
    {texts : List String} {given : Datum} {x : Noun} (hcommand : tokenTexts command = "$" :: texts)
    (hwrites : List.Forall₂ Literal.Writes dims texts) (haccepted : given.toNoun nounRoot = .ok x) :
    ((∃ dim ∈ dims, dim < 0) → ∃ fault, evaluate p command given = .error fault ∧
        fault.kind = .shape ∧ fault.message = "Reshape dimensions must be non-negative") ∧
      ∀ shape : List Nat, dims = shape.map Nat.cast →
        evaluate p command given = (Noun.fillNext x.leaves shape).run' 0 ∧
        (x.leaves = [] → 0 < shape.prod → ∃ fault, evaluate p command given = .error fault ∧
          fault.kind = .shape ∧
          fault.message = "Cannot reshape an empty noun into a non-empty shape") ∧
        ((x.leaves = [] → shape.prod = 0) → ∃ z, evaluate p command given = .ok z ∧
          (∀ outer dim inner indices, shape = outer ++ dim :: inner →
            List.Forall₂ (· < ·) indices outer → z.ListAt indices dim) ∧
          ∀ indices, List.Forall₂ (· < ·) indices shape →
            ∃ a, x.leaves[Noun.rank shape indices % x.leaves.length]? = some a ∧
              z.at? indices = some (.atom a)) := by
  rw [evaluate, hcommand, evaluateTexts_reshape hwrites haccepted]
  refine ⟨fun hneg => ?_, ?_⟩
  · exact ⟨.negativeDimension, Noun.reshape_of_neg hneg x, rfl, rfl⟩
  · rintro shape rfl
    refine ⟨Noun.reshape_eq_fillNext shape x, fun hleaves hprod => ?_, Noun.exists_reshape⟩
    refine ⟨.emptyNoun, ?_, rfl, rfl⟩
    rw [Noun.reshape_of_no_leaves hleaves, if_neg hprod.ne']

theorem reshape_fills_by_rank_round_three_leaves :
    let given : Datum :=
      .list [.leaf (.int 5), .list [.list [.leaf (.int 1)], .list []], .leaf (.int 7)]
    tokenTexts "$ 2 03 2" = ["$", "2", "03", "2"] ∧
      ∃ z, evaluate .double "$ 2 03 2" given = .ok z ∧ z.ListAt [1] 3 ∧
        z.at? [1, 2, 0] = some (.atom (.int 1)) := by
  intro given
  let x : Noun :=
    .list [.atom (.int 5), .list [.list [.atom (.int 1)], .list []], .atom (.int 7)]
  have haccepted : given.toNoun nounRoot = .ok x := by
    decide +kernel
  have hcommand : tokenTexts "$ 2 03 2" = ["$", "2", "03", "2"] := by
    decide +kernel
  have hdigits : Literal.Digits 2 ['2'] ∧ Literal.Digits 3 ['0', '3'] := by
    decide +kernel
  have hwrites : List.Forall₂ Literal.Writes [2, 3, 2] ["2", "03", "2"] :=
    .cons (.plain hdigits.1) (.cons (.plain hdigits.2) (.cons (.plain hdigits.1) .nil))
  have hleaves : x.leaves ≠ [] := by
    simp [x]
  obtain ⟨-, -, hfilled⟩ :=
    (reshape_fills_by_rank (p := .double) hcommand hwrites haccepted).2 [2, 3, 2] rfl
  obtain ⟨z, hz, hlists, hplaces⟩ := hfilled fun h => absurd h hleaves
  refine ⟨hcommand, z, hz, hlists [2] 3 [2] [1] rfl (.cons (by decide) .nil), ?_⟩
  obtain ⟨a, ha, hat⟩ :=
    hplaces [1, 2, 0] (.cons (by decide) (.cons (by decide) (.cons (by decide) .nil)))
  have hleaf : x.leaves[Noun.rank [2, 3, 2] [1, 2, 0] % x.leaves.length]? = some (.int 1) := by
    decide +kernel
  rw [hleaf] at ha
  cases ha
  exact hat

/-- A dimension of zero leaves no room, so no leaf is needed. -/
example : evaluate .double "$ 2 0 5" (.list []) = .ok (.list [.list [], .list []]) := by
  decide +kernel

end ArrayPhrase
