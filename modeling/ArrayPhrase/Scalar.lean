import ArrayPhrase.Atom
import ArrayPhrase.Floating.Exponential

/-! The verbs that act on single atoms. Eight of them are exact on integers and refuse a result
out of range; the others round an integer to a real first. On reals they compute in the format of
the precision, where subnormal arguments and results count as zeros. Ceiling, floor and sign give
an integer whenever the result is one in range. -/

namespace ArrayPhrase

inductive Scalar where
  | ceiling | floor | complement | decrement | increment | double | halve | square
  | exponential | reciprocal | sign
deriving DecidableEq, Repr

namespace Scalar

def all : List Scalar :=
  [ceiling, floor, complement, decrement, increment, double, halve, square, exponential,
   reciprocal, sign]

def rep : Scalar → String
  | ceiling => ">."
  | floor => "<."
  | complement => "-."
  | decrement => "<:"
  | increment => ">:"
  | double => "+:"
  | halve => "-:"
  | square => "*:"
  | exponential => "^"
  | reciprocal => "%"
  | sign => "*"

def name : Scalar → String
  | ceiling => "Ceil"
  | floor => "Floor"
  | complement => "Complement"
  | decrement => "Decrement"
  | increment => "Increment"
  | double => "Double"
  | halve => "Halve"
  | square => "Square"
  | exponential => "Exp"
  | reciprocal => "Reciprocal"
  | sign => "Sign"

/-- The exact result on an integer, for the verbs that have one. -/
def onInt? : Scalar → Int → Option Int
  | ceiling, n => some n
  | floor, n => some n
  | complement, n => some (1 - n)
  | decrement, n => some (n - 1)
  | increment, n => some (n + 1)
  | double, n => some (n * 2)
  | square, n => some (n * n)
  | sign, n => some n.sign
  | halve, _ | exponential, _ | reciprocal, _ => none

variable {f : Format}

/-- The integer result on a real, for the verbs that have one; only integers in range count. -/
def whole? (s : Scalar) (x : Floating f) : Option Int :=
  let result := match s, x with
    | ceiling, x => x.value?.map Rat.ceil
    | floor, x => x.value?.map Rat.floor
    | sign, .infinity negative => some (if negative then -1 else 1)
    | sign, x => x.value?.map fun q : Rat => q.num.sign
    | _, _ => none
  result.filter fun n => InRange n

/-- The real result. Where ceiling, floor and sign have no integer in range to give, their argument
is infinite, NaN or so large that it is whole already, and stays. -/
def onFloating : Scalar → Floating f → Floating f
  | ceiling, x => x
  | floor, x => x
  | sign, x => x
  | _, .nan => .nan
  | complement, .infinity negative => .infinity !negative
  | complement, .zero _ => .ofRatNormal 1
  | complement, .finite q _ => .ofRatNormal (1 - q)
  | decrement, .infinity negative => .infinity negative
  | decrement, .zero _ => .ofRatNormal (-1)
  | decrement, .finite q _ => .ofRatNormal (q - 1)
  | increment, .infinity negative => .infinity negative
  | increment, .zero _ => .ofRatNormal 1
  | increment, .finite q _ => .ofRatNormal (q + 1)
  | double, .finite q _ => .ofRatNormal (q * 2)
  | double, x => x
  | halve, .finite q _ => .ofRatNormal (q / 2)
  | halve, x => x
  | square, .infinity _ => .infinity false
  | square, .zero _ => .zero false
  | square, .finite q _ => .ofRatNormal (q * q)
  | exponential, x => x.exp
  | reciprocal, .infinity negative => .zero negative
  | reciprocal, .zero negative => .infinity negative
  | reciprocal, .finite q _ => .ofRatNormal (1 / q)

def onReal (p : Precision) (s : Scalar) (x : Binary64) : Atom :=
  let argument := (p.narrow x).flush
  match s.whole? argument with
  | some n => .int n
  | none => .real (p.widen (s.onFloating argument))

def onAtom (p : Precision) (s : Scalar) : Atom → Except Fault Atom
  | .int n =>
    match s.onInt? n with
    | some result => .int <$> checkRange s.rep result
    | none => s.onReal p <$> (Atom.int n).toReal
  | .real x => .ok (s.onReal p x)

/-- The result of the verb with the given representation. An integer is rounded, where it has to
be, before the verb is looked for. -/
def onAtomByRep (p : Precision) (rep : String) (a : Atom) : Except Fault Atom :=
  match all.find? fun s => s.rep = rep with
  | some s => s.onAtom p a
  | none => do
    let _ ← a.toReal
    .error (.unknownScalar rep)

end Scalar
end ArrayPhrase
