import ArrayPhrase.Atom

/-! Nouns: atoms and lists of nouns, nested in any way. An atom has a single item, itself. -/

namespace ArrayPhrase

inductive Noun where
  | atom (a : Atom)
  | list (items : List Noun)

namespace Noun

mutual

def decideEq : (x y : Noun) → Decidable (x = y)
  | atom a, atom b => decidable_of_iff (a = b) (by simp)
  | atom _, list _ => isFalse (by simp)
  | list _, atom _ => isFalse (by simp)
  | list xs, list ys =>
    match decideEqAll xs ys with
    | isTrue h => isTrue (by rw [h])
    | isFalse h => isFalse (by simpa using h)

def decideEqAll : (xs ys : List Noun) → Decidable (xs = ys)
  | [], [] => isTrue rfl
  | [], _ :: _ => isFalse (by simp)
  | _ :: _, [] => isFalse (by simp)
  | x :: xs, y :: ys =>
    match decideEq x y, decideEqAll xs ys with
    | isTrue h, isTrue hs => isTrue (by rw [h, hs])
    | isFalse h, _ => isFalse (by simp [h])
    | _, isFalse hs => isFalse (by simp [hs])

end

instance : DecidableEq Noun :=
  decideEq

def isLeaf : Noun → Bool
  | atom _ => true
  | list _ => false

def items : Noun → List Noun
  | atom a => [atom a]
  | list xs => xs

def box : Noun → Noun
  | atom a => list [atom a]
  | list xs => list xs

mutual

/-- The atoms of a noun, depth first. -/
def leaves : Noun → List Atom
  | atom a => [a]
  | list xs => leavesOf xs

def leavesOf : List Noun → List Atom
  | [] => []
  | x :: xs => leaves x ++ leavesOf xs

end

mutual

/-- The noun with every atom replaced, depth first; the first failure ends it. -/
def mapLeaves (f : Atom → Except Fault Atom) : Noun → Except Fault Noun
  | atom a => atom <$> f a
  | list xs => list <$> mapLeavesOf f xs

def mapLeavesOf (f : Atom → Except Fault Atom) : List Noun → Except Fault (List Noun)
  | [] => .ok []
  | x :: xs => do return (← mapLeaves f x) :: (← mapLeavesOf f xs)

end

end Noun
end ArrayPhrase
