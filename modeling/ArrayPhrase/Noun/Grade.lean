import ArrayPhrase.Noun.Basic

/-! The order of nouns and the stable grades. Numbers come first, by their exact values, then NaN,
then lists lexicographically. In double precision, items that are all integers or all reals are
graded among themselves, and among reals the subnormal numbers count as zero. -/

namespace ArrayPhrase

/-- What a number is ordered by. -/
inductive Extended where
  | minusInfinity
  | finite (value : Rat)
  | plusInfinity
  | notANumber
deriving DecidableEq

namespace Extended

/-- The place of a value among the four sorts of values. -/
def sort : Extended → Nat
  | minusInfinity => 0
  | finite _ => 1
  | plusInfinity => 2
  | notANumber => 3

def compare : Extended → Extended → Ordering
  | finite u, finite v => if u < v then .lt else if v < u then .gt else .eq
  | x, y => Ord.compare x.sort y.sort

end Extended

def Floating.extended {f : Format} : Floating f → Extended
  | nan => .notANumber
  | infinity negative => if negative then .minusInfinity else .plusInfinity
  | zero _ => .finite 0
  | finite value _ => .finite value

def Atom.extended : Atom → Extended
  | int n => .finite n
  | real x => x.extended

namespace Noun

mutual

def compare : Noun → Noun → Ordering
  | atom a, atom b => a.extended.compare b.extended
  | atom _, list _ => .lt
  | list _, atom _ => .gt
  | list xs, list ys => compareLists xs ys

/-- The first items that differ decide; a list comes after its beginnings. -/
def compareLists : List Noun → List Noun → Ordering
  | [], [] => .eq
  | [], _ :: _ => .lt
  | _ :: _, [] => .gt
  | x :: xs, y :: ys => (compare x y).then (compareLists xs ys)

end

/-- The positions of a list in ascending order of what stands there, equal ones as they were. -/
def stableOrder {α : Type} (compare : α → α → Ordering) (xs : List α) : List Nat :=
  (xs.zipIdx.mergeSort fun a b => (compare a.1 b.1).isLE).map (·.2)

def gradeNouns (xs : List Noun) : List Nat :=
  stableOrder compare xs

def gradeInts (ns : List Int) : List Nat :=
  stableOrder Ord.compare ns

def gradeReals (xs : List Binary64) : List Nat :=
  stableOrder (fun x y => x.flush.extended.compare y.flush.extended) xs

def int? : Noun → Option Int
  | atom (.int n) => some n
  | _ => none

def real? : Noun → Option Binary64
  | atom (.real x) => some x
  | _ => none

/-- The positions of the items in ascending order. -/
def gradeUp (p : Precision) (xs : List Noun) : List Nat :=
  match p, xs.mapM int?, xs.mapM real? with
  | .double, some ns, _ => gradeInts ns
  | .double, none, some rs => gradeReals rs
  | _, _, _ => gradeNouns xs

def gradeDown (p : Precision) (xs : List Noun) : List Nat :=
  (gradeUp p xs).reverse

/-- The items at the given positions. -/
def select (xs : List Noun) (positions : List Nat) : List Noun :=
  let cells := xs.toArray
  positions.filterMap (cells[·]?)

end Noun
end ArrayPhrase
