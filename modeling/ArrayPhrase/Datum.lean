import ArrayPhrase.Noun.Basic

/-! Data from outside, and the nouns they stand for. Tuples and arrays become lists, truth values
and ratios become numbers. What is not a number in range is refused, the first one depth first,
with its place. -/

namespace ArrayPhrase

/-- A single thing from outside. -/
inductive Given where
  | int (n : Int)
  | bool (b : Bool)
  | real (x : Binary64)
  | ratio (q : Rat)
  /-- Something that is not a real number. -/
  | other (typeName : String)
deriving DecidableEq

/-- What all elements of an array are: integers of a width in bits, truth values, binary32 reals
or complex numbers. -/
inductive ElementKind where
  | integer (width : Nat) (signed : Bool)
  | truth
  | single
  | complex
deriving DecidableEq, Repr

inductive Datum where
  | leaf (given : Given)
  | list (items : List Datum)
  | tuple (items : List Datum)
  | array (kind : ElementKind) (content : Datum)

namespace Given

/-- The nearest real. -/
def toReal? : Given → Option Binary64
  | int n => some (.ofRat n)
  | bool b => some (.ofRat (if b then 1 else 0))
  | real x => some x
  | ratio q => some (.ofRat q)
  | other _ => none

/-- The part before the point; a real without one has zero. -/
def toInt? : Given → Option Int
  | int n => some n
  | bool b => some (if b then 1 else 0)
  | real x => some (x.value?.elim 0 fun q : Rat => q.num.tdiv q.den)
  | ratio q => some (q.num.tdiv q.den)
  | other _ => none

/-- Only zeros are false. -/
def toBool? : Given → Option Bool
  | int n => some (n ≠ 0)
  | bool b => some b
  | real x => some (x.value? ≠ some 0)
  | ratio q => some (q ≠ 0)
  | other _ => none

def toAtom (place : Place) : Given → Except Fault Atom
  | int n => if InRange n then .ok (.int n) else .error (.outsideRange place n)
  | bool b => .ok (.int (if b then 1 else 0))
  | real x => .ok (.real x)
  | ratio q =>
    match (Floating.ofRat q : Binary64) with
    | .infinity _ => .error .ratioTooLarge
    | x => .ok (.real x)
  | other typeName => .error (.unsupported place typeName)

end Given

namespace ElementKind

/-- An integer modulo its width. -/
def wrap (width : Nat) (signed : Bool) (n : Int) : Int :=
  let count := 1 <<< width
  if signed then n.bmod count else n % (count : Int)

/-- What an array holds for a given element. -/
def element : ElementKind → Given → Given
  | integer width signed, given => given.toInt?.elim given fun n => .int (wrap width signed n)
  | truth, given => given.toBool?.elim given .bool
  | single, given =>
    given.toReal?.elim given fun x => .real (Precision.single.widen (Precision.single.narrow x))
  | complex, _ => .other "complex"

end ElementKind

namespace Datum

mutual

/-- The noun of a datum that stands at a place, its single things held by `element`. -/
def toNounAt (element : Given → Given) (place : Place) : Datum → Except Fault Noun
  | leaf given => .atom <$> (element given).toAtom place
  | list xs => .list <$> toNounsAt element place 0 xs
  | tuple xs => .list <$> toNounsAt element place 0 xs
  | array kind content => toNounAt (element ∘ kind.element) place content

/-- The nouns of consecutive items of the datum at a place, from the given index on. -/
def toNounsAt (element : Given → Given) (place : Place) (index : Nat) :
    List Datum → Except Fault (List Noun)
  | [] => .ok []
  | x :: xs => do
    return (← toNounAt element (place.item index) x) :: (← toNounsAt element place (index + 1) xs)

end

/-- The noun a datum stands for; faults name places from the root on. -/
def toNoun (root : String) (x : Datum) : Except Fault Noun :=
  toNounAt id ⟨root, []⟩ x

end Datum

def Atom.toGiven : Atom → Given
  | int n => .int n
  | real x => .real x

namespace Noun

mutual

/-- A noun as a datum. -/
def toDatum : Noun → Datum
  | atom a => .leaf a.toGiven
  | list xs => .list (toData xs)

def toData : List Noun → List Datum
  | [] => []
  | x :: xs => toDatum x :: toData xs

end

end Noun
end ArrayPhrase
