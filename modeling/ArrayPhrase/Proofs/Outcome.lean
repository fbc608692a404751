import Mathlib.Data.List.Forall2

/-! Computations that may fail, taken apart: what a bind or a map gave came from its parts, and a
list of computations fails with its first failure. Results that can be compared make closed runs
decidable. -/

namespace ArrayPhrase.Outcome

variable {ε ε' α β γ : Type} {e : ε}

instance decideEq [DecidableEq ε] [DecidableEq α] : DecidableEq (Except ε α)
  | .ok a, .ok b => decidable_of_iff (a = b) (by simp)
  | .error a, .error b => decidable_of_iff (a = b) (by simp)
  | .ok _, .error _ => isFalse (by simp)
  | .error _, .ok _ => isFalse (by simp)

theorem bind_eq_ok {x : Except ε α} {f : α → Except ε β} {b : β} :
    x >>= f = .ok b ↔ ∃ a, x = .ok a ∧ f a = .ok b := by
  cases x <;> simp [bind, Except.bind]

theorem bind_eq_error {x : Except ε α} {f : α → Except ε β} :
    x >>= f = .error e ↔ x = .error e ∨ ∃ a, x = .ok a ∧ f a = .error e := by
  cases x <;> simp [bind, Except.bind]

theorem map_eq_ok {x : Except ε α} {f : α → β} {b : β} :
    f <$> x = .ok b ↔ ∃ a, x = .ok a ∧ f a = b := by
  cases x <;> simp [Functor.map, Except.map]

theorem map_eq_error {x : Except ε α} {f : α → β} : f <$> x = .error e ↔ x = .error e := by
  cases x <;> simp [Functor.map, Except.map]

theorem mapM_congr {f g : α → Except ε β} {xs : List α} (h : ∀ x ∈ xs, f x = g x) :
    xs.mapM f = xs.mapM g := by
  induction xs with
  | nil => rfl
  | cons x xs ih =>
    rw [List.forall_mem_cons] at h
    rw [List.mapM_cons, List.mapM_cons, h.1, ih h.2]

theorem mapM_map_comm (f : α → Except ε β) (g : β → γ) (xs : List α) :
    List.map g <$> xs.mapM f = xs.mapM fun x => g <$> f x := by
  induction xs with
  | nil => rfl
  | cons x xs ih =>
    rw [List.mapM_cons, List.mapM_cons, ← ih]
    cases f x with
    | error => rfl
    | ok => cases xs.mapM f <;> rfl

theorem mapError_map (s : ε → ε') (g : α → β) (x : Except ε α) :
    (g <$> x).mapError s = g <$> x.mapError s := by
  cases x <;> rfl

theorem mapError_mapM (s : ε → ε') (f : α → Except ε β) (xs : List α) :
    (xs.mapM f).mapError s = xs.mapM fun x => (f x).mapError s := by
  induction xs with
  | nil => rfl
  | cons x xs ih =>
    rw [List.mapM_cons, List.mapM_cons, ← ih]
    cases f x with
    | error => rfl
    | ok => cases xs.mapM f <;> rfl

theorem mapM_flatMap (f : α → Except ε β) (g : γ → List α) (zs : List γ) :
    (zs.flatMap g).mapM f = List.flatten <$> zs.mapM fun z => (g z).mapM f := by
  induction zs with
  | nil => rfl
  | cons z zs ih =>
    rw [List.flatMap_cons, List.mapM_append, List.mapM_cons, ih]
    cases (g z).mapM f with
    | error => rfl
    | ok => cases zs.mapM fun z => (g z).mapM f <;> rfl

theorem mapM_eq_ok {f : α → Except ε β} {xs : List α} {ys : List β} :
    xs.mapM f = .ok ys ↔ List.Forall₂ (fun x y => f x = .ok y) xs ys := by
  induction xs generalizing ys with
  | nil => cases ys <;> simp [pure, Except.pure]
  | cons x xs ih =>
    simp only [List.mapM_cons, bind_eq_ok, pure, Except.pure, Except.ok.injEq, ih]
    constructor
    · rintro ⟨y, hy, ys, hys, rfl⟩
      exact .cons hy hys
    · rintro (_ | ⟨hy, hys⟩)
      exact ⟨_, hy, _, hys, rfl⟩

theorem mapM_eq_error {f : α → Except ε β} {xs : List α} :
    xs.mapM f = .error e ↔ ∃ before x after, xs = before ++ x :: after ∧
      (∀ b ∈ before, ∃ c, f b = .ok c) ∧ f x = .error e := by
  induction xs with
  | nil => simp [pure, Except.pure]
  | cons x xs ih =>
    simp only [List.mapM_cons, bind_eq_error, pure, Except.pure, reduceCtorEq, and_false,
      exists_false, or_false, ih]
    constructor
    · rintro (hx | ⟨y, hy, before, z, after, rfl, hbefore, hz⟩)
      · exact ⟨[], x, xs, rfl, by simp, hx⟩
      · exact ⟨x :: before, z, after, rfl, List.forall_mem_cons.2 ⟨⟨y, hy⟩, hbefore⟩, hz⟩
    · rintro ⟨_ | ⟨w, before⟩, z, after, hxs, hbefore, hz⟩
      · obtain ⟨rfl, rfl⟩ := List.cons.inj hxs
        exact .inl hz
      · obtain ⟨rfl, rfl⟩ := List.cons.inj hxs
        rw [List.forall_mem_cons] at hbefore
        obtain ⟨⟨y, hy⟩, hbefore⟩ := hbefore
        exact .inr ⟨y, hy, before, z, after, rfl, hbefore, hz⟩

/-- Results that can only be the images of what they are computed from. -/
theorem eq_map_of_mapM {f : α → Except ε β} {g : α → β} {xs : List α} {ys : List β}
    (hf : ∀ x ∈ xs, ∀ y, f x = .ok y → y = g x) (h : xs.mapM f = .ok ys) : ys = xs.map g := by
  rw [mapM_eq_ok] at h
  induction h with
  | nil => rfl
  | cons hx _ ih =>
    rw [List.forall_mem_cons] at hf
    rw [List.map_cons, hf.1 _ hx, ih hf.2]

/-- Each result of a list of computations is the result of one of them. -/
theorem exists_of_mem_mapM {f : α → Except ε β} {xs : List α} {ys : List β}
    (h : xs.mapM f = .ok ys) {y : β} (hy : y ∈ ys) : ∃ x ∈ xs, f x = .ok y := by
  rw [mapM_eq_ok] at h
  induction h with
  | nil => simp at hy
  | cons hx _ ih =>
    rcases List.mem_cons.1 hy with rfl | hy
    · exact ⟨_, by simp, hx⟩
    · obtain ⟨x, hmem, hx⟩ := ih hy
      exact ⟨x, by simp [hmem], hx⟩

/-- Where a list of computations succeeds, each of them does. -/
theorem exists_of_mapM_ok {f : α → Except ε β} {xs : List α} {ys : List β}
    (h : xs.mapM f = .ok ys) {x : α} (hx : x ∈ xs) : ∃ y, f x = .ok y := by
  have hall := (mapM_eq_ok.1 h).imp fun x y hxy => And.intro (Exists.intro y hxy) hxy
  exact ((List.forall₂_and_left _ _).1 hall).1 x hx

theorem exists_of_mapM_error {f : α → Except ε β} {xs : List α} (h : xs.mapM f = .error e) :
    ∃ x ∈ xs, f x = .error e := by
  obtain ⟨before, x, after, rfl, -, hx⟩ := mapM_eq_error.1 h
  exact ⟨x, by simp, hx⟩

end ArrayPhrase.Outcome
