import Mathlib.Data.Fin.VecNotation
import Mathlib.Data.List.OfFn
import ArrayPhrase.Proofs.InsertOrder

/-! Inserted verbs on rows of one length. Combination of rows goes entry by entry, so a fold over
the rows is made of one fold over each column. Their faults need not be the same: the rows are
combined from the last one backwards, each of them over all columns, so that a column may fail
before one to its left does. -/

namespace ArrayPhrase

open Outcome

namespace Noun

variable {d : Dyad} {z : Noun} {m k : Nat}

/-- The list of the entries of a row or of a column. -/
def vector {n : Nat} (entry : Fin n → Noun) : Noun :=
  list (List.ofFn entry)

/-- The list of the rows of a matrix. -/
def matrix (entry : Fin m → Fin k → Noun) : Noun :=
  vector fun i => vector (entry i)

theorem forall₂_ofFn_iff {R : Noun × Noun → Noun → Prop} {g : Fin k → Noun × Noun}
    {zs : List Noun} : List.Forall₂ R (List.ofFn g) zs ↔
      ∃ w : Fin k → Noun, zs = List.ofFn w ∧ ∀ j, R (g j) (w j) := by
  rw [List.forall₂_iff_get]
  constructor
  · rintro ⟨hlen, hR⟩
    rw [List.length_ofFn] at hlen
    subst hlen
    refine ⟨zs.get, (List.ofFn_get zs).symm, fun j => ?_⟩
    simpa using hR j (by simp) j.isLt
  · rintro ⟨w, rfl, hR⟩
    exact ⟨by simp, fun i hi _ => by simpa using hR ⟨i, by simpa using hi⟩⟩

theorem zip_ofFn (u v : Fin k → Noun) :
    (List.ofFn u).zip (List.ofFn v) = List.ofFn fun j => (u j, v j) := by
  apply List.ext_getElem
  · simp
  · intro i h₁ h₂
    simp

/-- Vectors of one length are combined entry by entry. -/
theorem combine_vectors_eq_ok {f : Atom → Atom → Except Fault Atom} {u v : Fin k → Noun} :
    combine f (vector u) (vector v) = .ok z ↔
      ∃ w : Fin k → Noun, z = vector w ∧ ∀ j, combine f (u j) (v j) = .ok (w j) := by
  rw [vector, vector, combine_lists, if_pos (by simp), map_eq_ok, zip_ofFn]
  simp only [mapM_eq_ok, forall₂_ofFn_iff]
  constructor
  · rintro ⟨_, ⟨w, rfl, hw⟩, rfl⟩
    exact ⟨w, rfl, hw⟩
  · rintro ⟨w, rfl, hw⟩
    exact ⟨_, ⟨w, rfl, hw⟩, rfl⟩

theorem fold_ofFn_succ (d : Dyad) (x : Fin (m + 2) → Noun) :
    fold d (List.ofFn x) =
      fold d (List.ofFn fun i : Fin (m + 1) => x i.succ) >>= combine d.onAtoms (x 0) := by
  rw [List.ofFn_succ, List.ofFn_succ, fold]

/-- The rows of a matrix give the vector of what its columns give. -/
theorem fold_rows_eq_ok (entry : Fin (m + 1) → Fin k → Noun) :
    fold d (List.ofFn fun i => vector (entry i)) = .ok z ↔
      ∃ w : Fin k → Noun, z = vector w ∧
        ∀ j, fold d (List.ofFn fun i => entry i j) = .ok (w j) := by
  induction m generalizing z with
  | zero =>
    simp only [List.ofFn_succ, List.ofFn_zero, fold, Except.ok.injEq]
    constructor
    · rintro rfl
      exact ⟨entry 0, rfl, fun j => rfl⟩
    · rintro ⟨w, rfl, hw⟩
      rw [← funext hw]
  | succ m ih =>
    simp only [fold_ofFn_succ, bind_eq_ok, ih]
    constructor
    · rintro ⟨_, ⟨v, rfl, hv⟩, hz⟩
      obtain ⟨w, rfl, hw⟩ := combine_vectors_eq_ok.1 hz
      exact ⟨w, rfl, fun j => ⟨v j, hv j, hw j⟩⟩
    · rintro ⟨w, rfl, hw⟩
      choose v hv hw using hw
      exact ⟨_, ⟨v, rfl, hv⟩, combine_vectors_eq_ok.2 ⟨w, rfl, hw⟩⟩

theorem insert_vector (d : Dyad) (x : Fin m → Noun) :
    insert d (vector x) = box <$> fold d (List.ofFn x) :=
  rfl

/-- Insertion into a matrix gives a vector, and each of its entries boxed is what insertion into
the column gives. -/
theorem insert_matrix_eq_ok (entry : Fin (m + 1) → Fin k → Noun) :
    insert d (matrix entry) = .ok z ↔
      ∃ w : Fin k → Noun, z = vector w ∧
        ∀ j, fold d (List.ofFn fun i => entry i j) = .ok (w j) := by
  rw [matrix, insert_vector, map_eq_ok]
  simp only [fold_rows_eq_ok]
  constructor
  · rintro ⟨_, ⟨w, rfl, hw⟩, rfl⟩
    exact ⟨w, rfl, hw⟩
  · rintro ⟨w, rfl, hw⟩
    exact ⟨_, ⟨w, rfl, hw⟩, rfl⟩

theorem insert_column_eq_ok {x : Fin m → Noun} {y : Noun} (h : fold d (List.ofFn x) = .ok y) :
    insert d (vector x) = .ok y.box := by
  rw [insert_vector, h]
  rfl

end Noun

/-- An inserted verb on rows of one length succeeds exactly when it succeeds on each column, and
then it gives a list as long as the rows, whose entries boxed are the results on the columns. -/
theorem insertion_by_columns {follower : String} (hfollower : follower = "+" ∨ follower = "*")
    {p : Precision} {m k : Nat} (hm : 1 ≤ m) {entry : Fin m → Fin k → Noun} {given : Datum}
    {column : Fin k → Datum} (hgiven : given.toNoun nounRoot = .ok (.matrix entry))
    (hcolumn : ∀ j, (column j).toNoun nounRoot = .ok (.vector fun i => entry i j)) :
    ((∃ z, evaluateTexts p ["/", follower] given = .ok z) ↔
        ∀ j, ∃ y, evaluateTexts p ["/", follower] (column j) = .ok y) ∧
      ∀ z, evaluateTexts p ["/", follower] given = .ok z →
        ∃ w : Fin k → Noun, z = .vector w ∧
          ∀ j, evaluateTexts p ["/", follower] (column j) = .ok (w j).box := by
  obtain ⟨d, heval⟩ := exists_dyad_of_follower hfollower
  obtain ⟨m, rfl⟩ := Nat.exists_eq_add_of_le' hm
  have hrows : evaluateTexts p ["/", follower] given = Noun.insert d (.matrix entry) := by
    rw [heval, hgiven]
    rfl
  have hcolumns : ∀ j, evaluateTexts p ["/", follower] (column j) =
      Noun.insert d (.vector fun i => entry i j) := by
    intro j
    rw [heval, hcolumn]
    rfl
  simp only [hrows, hcolumns, Noun.insert_matrix_eq_ok]
  constructor
  · constructor
    · rintro ⟨_, w, -, hw⟩ j
      exact ⟨_, Noun.insert_column_eq_ok (hw j)⟩
    · intro h
      have hfold : ∀ j, ∃ y, Noun.fold d (List.ofFn fun i => entry i j) = .ok y := by
        intro j
        obtain ⟨y, hy⟩ := h j
        obtain ⟨x, hx, -⟩ := map_eq_ok.1 hy
        exact ⟨x, hx⟩
      choose w hw using hfold
      exact ⟨_, w, rfl, hw⟩
  · rintro z ⟨w, rfl, hw⟩
    exact ⟨w, rfl, fun j => Noun.insert_column_eq_ok (hw j)⟩

theorem insertion_by_columns_numbers_and_lists :
    let entry : Fin 2 → Fin 3 → Noun :=
      ![![.atom (.int 1), .list [.atom (.int 2), .list []], .atom (.int 4)],
        ![.list [.atom (.int 10), .atom (.int 20)], .atom (.int 5), .atom (.int (-6))]]
    let result : Noun :=
      .list [.list [.atom (.int 11), .atom (.int 21)], .list [.atom (.int 7), .list []],
        .atom (.int (-2))]
    evaluateTexts .double ["/", "+"] (Noun.matrix entry).toDatum = .ok result ∧
      ∃ w : Fin 3 → Noun, result = .vector w ∧ ∀ j,
        evaluateTexts .double ["/", "+"] (Noun.vector fun i => entry i j).toDatum =
          .ok (w j).box := by
  intro entry result
  have hgiven : (Noun.matrix entry).toDatum.toNoun nounRoot = .ok (.matrix entry) := by
    decide +kernel
  have hcolumn : ∀ j, (Noun.vector fun i => entry i j).toDatum.toNoun nounRoot =
      .ok (.vector fun i => entry i j) := by
    decide +kernel
  have hresult : evaluateTexts .double ["/", "+"] (Noun.matrix entry).toDatum = .ok result := by
    decide +kernel
  exact ⟨hresult, (insertion_by_columns (.inl rfl) (by decide) hgiven hcolumn).2 _ hresult⟩

end ArrayPhrase
