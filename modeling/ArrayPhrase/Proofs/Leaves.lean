import Mathlib.Data.List.GetD
import ArrayPhrase.Action
import ArrayPhrase.Proofs.Grade
import ArrayPhrase.Proofs.NounTree

/-! Properties of all atoms of a noun. When integers in range have a property and arithmetic keeps
it, whatever is done to a noun keeps it for all atoms: they come from the atoms there were, from
sums and products of them, or are zeros, counts and positions. -/

namespace ArrayPhrase

open Outcome

/-! ### Arithmetic -/

theorem checkRange_eq_ok {site : String} {m n : Int} :
    checkRange site m = .ok n ↔ InRange m ∧ m = n := by
  unfold checkRange
  split_ifs with h
  · rw [Except.ok.injEq, and_iff_right h]
  · simp only [false_iff, not_and]
    exact fun hm => absurd hm h

theorem Dyad.onInts_comm (d : Dyad) (m n : Int) : d.onInts m n = d.onInts n m := by
  cases d with
  | add => exact Int.add_comm m n
  | mul => exact Int.mul_comm m n

/-- A property that integers in range have and that sums and products keep. An addend is any
integer, out of range even. -/
structure Atom.Lasting (P : Atom → Prop) : Prop where
  int {n : Int} (inRange : InRange n) : P (.int n)
  plus {a c : Atom} {n : Int} (left : P a) (sum : Dyad.add.onAtoms a (.int n) = .ok c) : P c
  dyad {d : Dyad} {a b c : Atom} (left : P a) (right : P b) (result : d.onAtoms a b = .ok c) : P c

namespace Noun

variable {P : Atom → Prop} {p : Precision} {x y z : Noun} {xs ys : List Noun}

/-- All atoms of the noun have the property. -/
def All (P : Atom → Prop) (x : Noun) : Prop :=
  ∀ a ∈ x.leaves, P a

@[simp] theorem all_atom {a : Atom} : (atom a).All P ↔ P a := by
  simp [All]

theorem all_list : (list xs).All P ↔ ∀ x ∈ xs, x.All P := by
  simp only [All, leaves_list, List.mem_flatMap]
  exact ⟨fun h x hx a ha => h a ⟨x, hx, ha⟩, fun h a ⟨x, hx, ha⟩ => h x hx a ha⟩

theorem All.items (h : x.All P) : ∀ y ∈ x.items, y.All P := by
  rw [← all_list]
  exact fun a ha => h a (leaves_list_items x ▸ ha)

/-- A list of some of the items, in any order. -/
theorem All.list_of_subset (h : x.All P) (hxs : xs ⊆ x.items) : (list xs).All P :=
  all_list.2 fun y hy => h.items y (hxs hy)

theorem All.box (h : x.All P) : x.box.All P := by
  cases x with
  | atom a => exact all_list.2 (by simpa using h)
  | list xs => exact h

/-! ### Elementwise -/

theorem All.mapLeaves {f : Atom → Except Fault Atom} (hx : x.All P)
    (hf : ∀ a b, P a → f a = .ok b → P b) (h : x.mapLeaves f = .ok y) : y.All P := by
  intro b hb
  obtain ⟨a, ha, hab⟩ := exists_of_mem_mapLeaves h b hb
  exact hf a b (hx a ha) hab

theorem All.combine {d : Dyad} (hP : Atom.Lasting P) (hx : x.All P) (hy : y.All P)
    (h : combine d.onAtoms x y = .ok z) : z.All P := by
  intro c hc
  obtain ⟨a, ha, b, hb, hab⟩ := exists_of_mem_combine h c hc
  exact hP.dyad (hx a ha) (hy b hb) hab

theorem All.plus {addends : List Int} (hP : Atom.Lasting P) (hx : x.All P)
    (h : x.plus addends = .ok y) : y.All P := by
  unfold Noun.plus at h
  split at h
  · exact Except.ok.inj h ▸ hx
  · obtain ⟨ys, hys, rfl⟩ := map_eq_ok.1 h
    rw [all_list]
    intro z hz c hc
    obtain ⟨⟨item, n⟩, hpair, hsum⟩ := exists_of_mem_mapM hys hz
    obtain ⟨a, ha, b, hb, hab⟩ := exists_of_mem_combine hsum c hc
    obtain rfl := List.mem_singleton.1 (leaves_atom _ ▸ hb)
    exact hP.plus (hx.items item (List.of_mem_zip hpair).1 a ha) hab

theorem all_fold {d : Dyad} (hP : Atom.Lasting P) (hxs : ∀ x ∈ xs, x.All P)
    (h : fold d xs = .ok y) : y.All P := by
  fun_induction fold d xs generalizing y with
  | case1 =>
    cases h
    cases d <;> exact all_atom.2 (hP.int (by decide))
  | case2 x => exact Except.ok.inj h ▸ hxs x (by simp)
  | case3 x x' rest ih =>
    rw [List.forall_mem_cons] at hxs
    obtain ⟨z, hz, h⟩ := bind_eq_ok.1 h
    exact hxs.1.combine hP (ih hxs.2 hz) h

theorem All.insert {d : Dyad} (hP : Atom.Lasting P) (hx : x.All P) (h : x.insert d = .ok y) :
    y.All P := by
  obtain ⟨z, hz, rfl⟩ := map_eq_ok.1 h
  exact (all_fold hP hx.items hz).box

/-! ### Rearrangements -/

theorem takePadded_subset {count : Nat} (h : takePadded xs count = .ok ys) :
    ∀ y ∈ ys, y ∈ xs ∨ y = atom (.int 0) := by
  unfold takePadded at h
  dsimp only at h
  split_ifs at h
  cases h
  intro y hy
  rcases List.mem_append.1 hy with hy | hy
  · exact .inl (List.mem_of_mem_take hy)
  · exact .inr (List.eq_of_mem_replicate hy)

theorem takeItems_subset {count : Int} (h : takeItems count xs = .ok ys) :
    ∀ y ∈ ys, y ∈ xs ∨ y = atom (.int 0) := by
  unfold takeItems at h
  split_ifs at h
  · exact takePadded_subset h
  · obtain ⟨zs, hzs, rfl⟩ := map_eq_ok.1 h
    intro y hy
    simpa using takePadded_subset hzs y (List.mem_reverse.1 hy)

theorem dropItems_subset (count : Int) (xs : List Noun) : dropItems count xs ⊆ xs := by
  unfold dropItems
  split_ifs
  · exact List.drop_subset _ _
  · exact List.take_subset _ _

theorem rotateItems_subset (count : Int) (xs : List Noun) : rotateItems count xs ⊆ xs :=
  List.append_subset.2 ⟨List.drop_subset _ _, List.take_subset _ _⟩

theorem select_subset (xs : List Noun) (positions : List Nat) : select xs positions ⊆ xs := by
  intro y hy
  obtain ⟨i, -, hi⟩ := List.mem_filterMap.1 hy
  exact List.mem_of_getElem? (List.getElem?_toArray .. ▸ hi)

theorem All.reshape {dims : List Int} (hx : x.All P) (h : x.reshape dims = .ok y) : y.All P := by
  unfold Noun.reshape at h
  split_ifs at h
  dsimp only at h
  split at h
  · split_ifs at h
    cases h
    intro a ha
    obtain ⟨r, hr⟩ := exists_of_mem_fill ha
    simp at hr
  · rename_i first rest hleaves
    cases h
    intro a ha
    obtain ⟨r, hr⟩ := exists_of_mem_fill ha
    rw [leaves_atom, List.mem_singleton] at hr
    apply hx a
    rw [hleaves, hr]
    have hlt : r % (first :: rest).length < (first :: rest).length :=
      Nat.mod_lt _ (Nat.succ_pos _)
    rw [List.getD_eq_getElem _ _ hlt]
    exact List.getElem_mem hlt

end Noun

/-! ### Actions -/

namespace Action

variable {P : Atom → Prop} {p : Precision} {x y : Noun}

theorem counted_eq_ok {result : Noun} :
    counted x result = .ok y ↔ x.items.length ≤ sizeLimit ∧ result = y := by
  unfold counted
  split_ifs with h
  · rw [Except.ok.injEq, and_iff_right h]
  · simp only [false_iff, not_and]
    exact fun hx => absurd hx h

theorem all_positions {indices : List Nat} (hP : Atom.Lasting P)
    (h : ∀ i ∈ indices, i ≤ sizeLimit) : (positions indices).All P := by
  rw [positions, Noun.all_list]
  intro x hx
  obtain ⟨i, hi, rfl⟩ := List.mem_map.1 hx
  have := h i hi
  exact Noun.all_atom.2 (hP.int (by unfold sizeLimit at this; omega))

/-- What is done to a noun keeps a lasting property of its atoms. The verbs on single atoms have to
keep it too. -/
theorem all_apply {action : Action} (hP : Atom.Lasting P)
    (hscalar : ∀ s, action = .scalar s → ∀ a b, P a → s.onAtom p a = .ok b → P b)
    (hx : x.All P) (h : action.apply p x = .ok y) : y.All P := by
  cases action with
  | scalar s => exact hx.mapLeaves (hscalar s rfl) h
  | tally =>
    obtain ⟨hlen, rfl⟩ := counted_eq_ok.1 h
    have hint : P (.int x.items.length) := hP.int (by unfold sizeLimit at hlen; omega)
    simpa [Noun.all_list] using hint
  | tail =>
    obtain rfl := Except.ok.inj h
    exact hx.list_of_subset (List.drop_subset _ _)
  | curtail =>
    obtain rfl := Except.ok.inj h
    exact hx.list_of_subset (List.dropLast_subset _)
  | plus addends => exact hx.plus hP h
  | take count =>
    obtain ⟨ys, hys, rfl⟩ := map_eq_ok.1 h
    rw [Noun.all_list]
    intro z hz
    rcases Noun.takeItems_subset hys z hz with hz | rfl
    · exact hx.items z hz
    · exact Noun.all_atom.2 (hP.int (by decide))
  | drop count =>
    obtain rfl := Except.ok.inj h
    exact hx.list_of_subset (Noun.dropItems_subset _ _)
  | reverse =>
    obtain rfl := Except.ok.inj h
    exact hx.list_of_subset (List.reverse_subset.2 (List.Subset.refl _))
  | rotate count =>
    obtain rfl := Except.ok.inj h
    exact hx.list_of_subset (Noun.rotateItems_subset _ _)
  | gradeUp =>
    obtain ⟨hlen, rfl⟩ := counted_eq_ok.1 h
    refine all_positions hP fun i hi => ?_
    have hi := Noun.lt_of_mem_gradeUp hi
    omega
  | gradeDown =>
    obtain ⟨hlen, rfl⟩ := counted_eq_ok.1 h
    refine all_positions hP fun i hi => ?_
    have hi := Noun.lt_of_mem_gradeUp (List.mem_reverse.1 hi)
    omega
  | sort descending =>
    obtain rfl := Except.ok.inj h
    exact hx.list_of_subset (Noun.select_subset _ _)
  | insert d => exact hx.insert hP h
  | reshape dims => exact hx.reshape h
  | nothing =>
    obtain rfl := Except.ok.inj h
    exact hx

end Action
end ArrayPhrase
