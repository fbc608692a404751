import ArrayPhrase.Fault
import ArrayPhrase.Floating.Arithmetic

/-! Atoms: exact integers and reals. Integer results have to be in the 64-bit range; where an
integer meets a real, the integer is rounded to the nearest real first. -/

namespace ArrayPhrase

/-- The signed 64-bit integers. -/
abbrev InRange (n : Int) : Prop :=
  -9223372036854775808 ≤ n ∧ n ≤ 9223372036854775807

/-- An exact integer result of the operation named `site`. -/
def checkRange (site : String) (n : Int) : Except Fault Int :=
  if InRange n then .ok n else .error (.integerOverflow site n)

inductive Atom where
  | int (n : Int)
  | real (x : Binary64)
deriving DecidableEq

namespace Atom

/-- The real nearest an atom. -/
def toReal : Atom → Except Fault Binary64
  | real x => .ok x
  | int n =>
    match (Floating.ofRat n : Binary64) with
    | .infinity _ => .error .integerTooLarge
    | x => .ok x

end Atom

/-- The operations of two arguments. -/
inductive Dyad where
  | add | mul
deriving DecidableEq, Repr

namespace Dyad

def name : Dyad → String
  | add => "add"
  | mul => "mul"

/-- The argument that leaves the other one as it is. -/
def identity : Dyad → Int
  | add => 0
  | mul => 1

def onInts : Dyad → Int → Int → Int
  | add, m, n => m + n
  | mul, m, n => m * n

def onReals : Dyad → Binary64 → Binary64 → Binary64
  | add, x, y => x.add y
  | mul, x, y => x.mul y

def onAtoms (d : Dyad) : Atom → Atom → Except Fault Atom
  | .int m, .int n => .int <$> checkRange d.name (d.onInts m n)
  | a, b => do return .real (d.onReals (← a.toReal) (← b.toReal))

end Dyad
end ArrayPhrase
