import ArrayPhrase.Proofs.FirstFault
import ArrayPhrase.Proofs.Reading
import ArrayPhrase.Proofs.Shapes

/-! Data from outside by paths. A path leads through lists, tuples and arrays alike, to a single
thing or to a container; in an array that is the single thing the array holds. The noun that is
read has lists for the containers and an atom for each single thing. Where some of these cannot be
converted, reading ends with the fault of the first of them, depth first and from left to right,
and a fault about the noun tells its path. -/

namespace ArrayPhrase

open Outcome

namespace Given

/-- It is no number, an integer out of range, or a ratio that is too large for a binary64 value:
from the middle on between the greatest of them and the power of two behind it. -/
def Offends : Given → Prop
  | other _ => True
  | int n => ¬ InRange n
  | ratio q => ((2 ^ 1024 - 2 ^ 970 : Nat) : Rat) ≤ |q|
  | bool _ | real _ => False

end Given

/-- What a path leads to: a single thing, or a container of so many items. -/
inductive Entry where
  | single (given : Given)
  | items (count : Nat)

/-- The same in an array, which may hold single things in a form of its own. -/
def Entry.held (element : Given → Given) : Entry → Entry
  | single given => single (element given)
  | items count => items count

namespace Datum

/-- The path leads from the datum to the entry. An array adds no index of its own. -/
inductive Leads : Datum → List Nat → Entry → Prop where
  | leaf (given : Given) : Leads (.leaf given) [] (.single given)
  | container {x : Datum} {xs : List Datum} (holds : x.Holds xs) : Leads x [] (.items xs.length)
  | item {x y : Datum} {xs : List Datum} {i : Nat} {path : List Nat} {entry : Entry}
    (holds : x.Holds xs) (item : xs[i]? = some y) (inside : Leads y path entry) :
    Leads x (i :: path) entry
  | array {kind : ElementKind} {content : Datum} {path : List Nat} {entry : Entry}
    (inside : Leads content path entry) :
    Leads (.array kind content) path (entry.held kind.element)

/-- The path leads to a single thing that is refused with the fault. -/
def Refuses (element : Given → Given) (place : Place) (x : Datum) (path : List Nat)
    (fault : Fault) : Prop :=
  ∃ given, x.Leads path (.single given) ∧
    (element given).Refused ⟨place.root, place.path ++ path⟩ fault

end Datum

/-- The text begins with the place. -/
def Place.Heads (place : Place) (text : String) : Prop :=
  ∃ words, text = place.text ++ " " ++ words

/-! ### Single things -/

namespace Given

variable {given : Given} {place : Place} {fault : Fault}

theorem Refused.offends (h : given.Refused place fault) : given.Offends := by
  cases h with
  | other typeName => trivial
  | int out => exact out
  | ratio large => exact large

theorem Offends.exists_refused (h : given.Offends) (place : Place) :
    ∃ fault, given.Refused place fault := by
  cases given with
  | int n => exact ⟨_, .int h⟩
  | ratio q => exact ⟨_, .ratio h⟩
  | other typeName => exact ⟨_, .other typeName⟩
  | bool b => exact h.elim
  | real x => exact h.elim

/-- A fault about the noun begins with the place. -/
theorem Refused.heads_message (h : given.Refused place fault) (hkind : fault.kind = .noun) :
    place.Heads fault.message := by
  cases h with
  | other typeName =>
    refine ⟨"has unsupported runtime type " ++ typeName, ?_⟩
    have hwords : " has unsupported runtime type " = " " ++ "has unsupported runtime type " := rfl
    unfold Fault.message
    simp only [hwords, String.append_assoc]
  | @int n out =>
    have hn : isWritable n = true := by
      unfold Fault.kind at hkind
      by_contra hlong
      simp only [hlong] at hkind
      cases hkind
    refine ⟨"integer " ++ toString n ++ " is outside the int64 range", ?_⟩
    have hwords : " integer " = " " ++ "integer " := rfl
    unfold Fault.message
    simp only [hn, if_true, hwords, String.append_assoc]
  | ratio large => cases hkind

end Given

/-! ### Paths -/

@[simp] theorem Entry.held_eq_items {element : Given → Given} {entry : Entry} {n : Nat} :
    entry.held element = .items n ↔ entry = .items n := by
  cases entry <;> simp [held]

@[simp] theorem Entry.held_eq_single {element : Given → Given} {entry : Entry} {given : Given} :
    entry.held element = .single given ↔
      ∃ inner, entry = .single inner ∧ element inner = given := by
  cases entry <;> simp [held]

namespace Datum

variable {x y : Datum} {xs : List Datum} {given : Given} {kind : ElementKind} {content : Datum}
  {path : List Nat} {i : Nat} {entry entry' : Entry} {element : Given → Given} {place : Place}
  {fault fault' : Fault} {z : Noun} {zs : List Noun}

theorem leads_leaf : (leaf given).Leads path entry ↔ path = [] ∧ .single given = entry := by
  constructor
  · rintro (_ | ⟨⟨⟩⟩ | ⟨⟨⟩, _, _⟩ | _)
    exact ⟨rfl, rfl⟩
  · rintro ⟨rfl, rfl⟩
    exact .leaf given

theorem leads_array : (array kind content).Leads path entry ↔
    ∃ inner, content.Leads path inner ∧ inner.held kind.element = entry := by
  constructor
  · rintro (_ | ⟨⟨⟩⟩ | ⟨⟨⟩, _, _⟩ | inside)
    exact ⟨_, inside, rfl⟩
  · rintro ⟨inner, inside, rfl⟩
    exact .array inside

namespace Holds

theorem leads_nil (h : x.Holds xs) : x.Leads [] entry ↔ .items xs.length = entry := by
  constructor
  · intro hlead
    cases hlead with
    | leaf => cases h
    | container holds => rw [h.unique holds]
    | array => cases h
  · rintro rfl
    exact .container h

theorem leads_cons (h : x.Holds xs) :
    x.Leads (i :: path) entry ↔ ∃ y, xs[i]? = some y ∧ y.Leads path entry := by
  constructor
  · intro hlead
    cases hlead with
    | item holds item inside => exact ⟨_, h.unique holds ▸ item, inside⟩
    | array => cases h
  · rintro ⟨y, item, inside⟩
    exact .item h item inside

end Holds

/-- A path leads to one entry at most. -/
theorem Leads.unique (h : x.Leads path entry) (h' : x.Leads path entry') : entry = entry' := by
  induction h generalizing entry' with
  | leaf given => exact (leads_leaf.1 h').2
  | container holds => exact holds.leads_nil.1 h'
  | item holds item _ ih =>
    obtain ⟨y, hy, inside⟩ := holds.leads_cons.1 h'
    rw [item, Option.some.injEq] at hy
    exact ih (hy ▸ inside)
  | array _ ih =>
    obtain ⟨inner, inside, rfl⟩ := leads_array.1 h'
    rw [ih inside]

/-! ### Reading -/

/-- What is read has lists where the datum has containers. -/
theorem listAt_of_toNounAt (h : x.toNounAt element place = .ok z) :
    ∀ path n, z.ListAt path n ↔ x.Leads path (.items n) := by
  refine toNounAt_induction
    (motive := fun _ x z => ∀ path n, z.ListAt path n ↔ x.Leads path (.items n))
    ?leaf ?container ?array h
  case leaf =>
    intro element given a _ path n
    simp [leads_leaf]
  case container =>
    intro element x xs zs holds hitems path n
    cases path with
    | nil => simp [holds.leads_nil, hitems.length_eq]
    | cons i path =>
      rw [Noun.listAt_list_cons, holds.leads_cons]
      exact exists_getElem?_iff hitems (fun _ _ _ hw => hw path n) i
  case array =>
    intro element kind content z hcontent path n
    simp [leads_array, hcontent]

/-- What is read has the atoms that the single things become. -/
theorem at?_of_toNounAt (h : x.toNounAt element place = .ok z) : ∀ path a,
    z.at? path = some (.atom a) ↔
      ∃ given, x.Leads path (.single given) ∧ (element given).Converts a := by
  refine toNounAt_induction
    (motive := fun element x z => ∀ path a, z.at? path = some (.atom a) ↔
      ∃ given, x.Leads path (.single given) ∧ (element given).Converts a)
    ?leaf ?container ?array h
  case leaf =>
    intro element given a hconverts path b
    cases path with
    | nil =>
      have hunique : a = b ↔ (element given).Converts b :=
        ⟨fun hab => hab ▸ hconverts, hconverts.unique⟩
      simpa [leads_leaf] using hunique
    | cons i path => simp [leads_leaf]
  case container =>
    intro element x xs zs holds hitems path a
    cases path with
    | nil => simp [holds.leads_nil]
    | cons i path =>
      simp only [Noun.at?_list_cons, Option.bind_eq_some_iff, holds.leads_cons]
      rw [exists_getElem?_iff hitems (fun _ _ _ hw => hw path a) i]
      constructor
      · rintro ⟨y, hy, given, hleads, hconverts⟩
        exact ⟨given, ⟨y, hy, hleads⟩, hconverts⟩
      · rintro ⟨given, ⟨y, hy, hleads⟩, hconverts⟩
        exact ⟨y, hy, given, hleads, hconverts⟩
  case array =>
    intro element kind content z hcontent path a
    simp [leads_array, hcontent]

theorem Holds.refuses_iff (h : x.Holds xs) (path : List Nat) (fault : Fault) :
    OfItems xs.zipIdx (fun entry => entry.1.Refuses element (place.item entry.2)) path fault ↔
      x.Refuses element place path fault := by
  cases path with
  | nil => simp [OfItems, Refuses, h.leads_nil]
  | cons i path =>
    have hplace : place.path ++ i :: path = (place.path ++ [i]) ++ path := by simp
    constructor
    · rintro ⟨⟨y, j⟩, hentry, given, hleads, hrefused⟩
      obtain ⟨hy, rfl⟩ : xs[i]? = some y ∧ i = j := by simpa [List.getElem?_zipIdx] using hentry
      exact ⟨given, h.leads_cons.2 ⟨y, hy, hleads⟩, hplace ▸ hrefused⟩
    · rintro ⟨given, hleads, hrefused⟩
      obtain ⟨y, hy, hleads⟩ := h.leads_cons.1 hleads
      exact ⟨(y, i), by simp [List.getElem?_zipIdx, hy], given, hleads, hplace ▸ hrefused⟩

/-- Reading ends with the first refusal, if there is one. -/
theorem reports_toNounAt (element : Given → Given) (place : Place) (x : Datum) :
    Reports (x.Refuses element place) (x.toNounAt element place) := by
  induction x generalizing element place with
  | leaf given =>
    rw [toNounAt]
    refine Reports.map ?_ _
    cases h : (element given).toAtom place with
    | ok a =>
      refine .ok ?_
      rintro path fault ⟨given', hleads, hrefused⟩
      obtain ⟨rfl, hgiven⟩ := leads_leaf.1 hleads
      cases hgiven
      exact hrefused.not_converts (Given.toAtom_eq_ok.1 h)
    | error fault =>
      refine .error ⟨given, .leaf given, ?_⟩
      rw [List.append_nil]
      exact Given.toAtom_eq_error.1 h
  | @container x xs holds ih =>
    rw [holds.toNounAt_eq]
    refine Reports.map (Reports.congr (Reports.mapM fun entry hentry => ?_) holds.refuses_iff) _
    exact ih entry.1 (List.fst_mem_of_mem_zipIdx hentry) element (place.item entry.2)
  | array kind content ih =>
    rw [toNounAt]
    refine (ih (element ∘ kind.element) place).congr fun path fault => ?_
    simp [Refuses, leads_array]

/-- A path has one refusal at most. -/
theorem Refuses.unique (h : x.Refuses element place path fault)
    (h' : x.Refuses element place path fault') : fault = fault' := by
  obtain ⟨given, hleads, hrefused⟩ := h
  obtain ⟨given', hleads', hrefused'⟩ := h'
  cases hleads.unique hleads'
  exact hrefused.unique hrefused'

end Datum

/-! ### Places in messages -/

namespace Place

theorem toList_text (place : Place) : place.text.toList =
    place.root.toList ++ place.path.flatMap fun i => '[' :: (Nat.toDigits 10 i ++ [']']) := by
  simp [text, String.toList_join, List.flatMap_map]

/-- An index ends at the bracket behind it. -/
theorem takeWhile_isDigit_toDigits (i : Nat) (rest : List Char) :
    (Nat.toDigits 10 i ++ ']' :: rest).takeWhile Char.isDigit = Nat.toDigits 10 i := by
  have hdigits : ∀ c ∈ Nat.toDigits 10 i, c.isDigit = true := fun c hc =>
    Nat.isDigit_of_mem_toDigits (by decide) (by decide) hc
  rw [List.takeWhile_append_of_pos hdigits, List.takeWhile_cons_of_neg (by decide),
    List.append_nil]

theorem eq_of_brackets_append {path path' : List Nat} {words words' : List Char}
    (h : (path.flatMap fun i => '[' :: (Nat.toDigits 10 i ++ [']'])) ++ ' ' :: words =
      (path'.flatMap fun i => '[' :: (Nat.toDigits 10 i ++ [']'])) ++ ' ' :: words') :
    path = path' := by
  induction path generalizing path' with
  | nil =>
    cases path' with
    | nil => rfl
    | cons j path' => simp at h
  | cons i path ih =>
    cases path' with
    | nil => simp at h
    | cons j path' =>
      simp only [List.flatMap_cons, List.cons_append, List.append_assoc, List.nil_append,
        List.cons.injEq, true_and] at h
      have hdigits : Nat.toDigits 10 i = Nat.toDigits 10 j := by
        simpa only [takeWhile_isDigit_toDigits] using congrArg (List.takeWhile Char.isDigit) h
      have hij : i = j := by
        simpa only [Nat.ofDigitChars_ten_toDigits] using congrArg (Nat.ofDigitChars 10 · 0) hdigits
      rw [hdigits, List.append_cancel_left_eq, List.cons.injEq] at h
      rw [hij, ih h.2]

/-- The places of one root that a text can begin with are all the same. -/
theorem Heads.unique {root text : String} {path path' : List Nat}
    (h : (⟨root, path⟩ : Place).Heads text) (h' : (⟨root, path'⟩ : Place).Heads text) :
    path = path' := by
  obtain ⟨words, rfl⟩ := h
  obtain ⟨words', h'⟩ := h'
  have hlist := congrArg String.toList h'
  simp only [String.toList_append, toList_text, List.append_assoc,
    List.append_cancel_left_eq] at hlist
  exact eq_of_brackets_append hlist

end Place

/-- Reading succeeds exactly when no single thing offends. It then gives the same nesting, with a
list for each container and every single thing converted. Otherwise it ends with the fault of the
first one that offends, depth first and from left to right. The message of a fault about the noun
begins with the name of the whole and with the path to that thing, and with no other path. -/
theorem reading_ends_at_first_offender (x : Datum) (root : String) :
    ((∃ z, x.toNoun root = .ok z) ↔
        ∀ path given, x.Leads path (.single given) → ¬ given.Offends) ∧
      (∀ z, x.toNoun root = .ok z →
        (∀ path n, z.ListAt path n ↔ x.Leads path (.items n)) ∧
          ∀ path a, z.at? path = some (.atom a) ↔
            ∃ given, x.Leads path (.single given) ∧ given.Converts a) ∧
      ∀ fault, x.toNoun root = .error fault ↔
        ∃ path given, x.Leads path (.single given) ∧ given.Refused ⟨root, path⟩ fault ∧
          (∀ before < path, ∀ other, x.Leads before (.single other) → ¬ other.Offends) ∧
          (fault.kind = .noun →
            ∀ other, (⟨root, other⟩ : Place).Heads fault.message ↔ other = path) := by
  have hreports := Datum.reports_toNounAt id ⟨root, []⟩ x
  have hoffends : ∀ path, (∀ fault, ¬ x.Refuses id ⟨root, []⟩ path fault) ↔
      ∀ given, x.Leads path (.single given) → ¬ given.Offends := by
    intro path
    constructor
    · intro hnone given hleads hoffends
      obtain ⟨fault, hrefused⟩ := hoffends.exists_refused ⟨root, path⟩
      exact hnone fault ⟨given, hleads, hrefused⟩
    · rintro hnone fault ⟨given, hleads, hrefused⟩
      exact hnone given hleads hrefused.offends
  refine ⟨?_, fun z hz => ⟨Datum.listAt_of_toNounAt hz, Datum.at?_of_toNounAt hz⟩, fun fault => ?_⟩
  · exact hreports.exists_ok_iff.trans (forall_congr' hoffends)
  · refine (hreports.eq_error_iff Datum.Refuses.unique).trans (exists_congr fun path => ?_)
    constructor
    · rintro ⟨⟨given, hleads, hrefused⟩, hfirst⟩
      refine ⟨given, hleads, hrefused,
        fun before hlt => (hoffends before).1 (hfirst before hlt), fun hkind other => ?_⟩
      have hheads := hrefused.heads_message hkind
      exact ⟨fun hother => hother.unique hheads, fun hother => hother ▸ hheads⟩
    · rintro ⟨given, hleads, hrefused, hfirst, -⟩
      exact ⟨⟨given, hleads, hrefused⟩, fun before hlt => (hoffends before).2 (hfirst before hlt)⟩

example : (Datum.list [.leaf (.int 1), .tuple [.list [], .array .complex (.list [.leaf (.int 2)]),
    .leaf (.other "str")]]).toNoun "noun" = .error (.unsupported ⟨"noun", [1, 1, 0]⟩ "complex") := by
  decide +kernel

end ArrayPhrase
