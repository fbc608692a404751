import ArrayPhrase.Noun.Basic

/-! Elementwise combination of two nouns. Lists are combined item by item and have to be equally
long; an atom is combined with every atom of the noun it meets. `fold` combines the items of a
noun from the last one backwards. -/

namespace ArrayPhrase.Noun

mutual

def combine (f : Atom → Atom → Except Fault Atom) : Noun → Noun → Except Fault Noun
  | atom a, y => mapLeaves (f a) y
  | list xs, atom b => mapLeaves (f · b) (list xs)
  | list xs, list ys =>
    if xs.length = ys.length then list <$> combineAll f xs ys
    else .error (.lengthMismatch xs.length ys.length)

def combineAll (f : Atom → Atom → Except Fault Atom) :
    List Noun → List Noun → Except Fault (List Noun)
  | [], _ => .ok []
  | _ :: _, [] => .ok []
  | x :: xs, y :: ys => do return (← combine f x y) :: (← combineAll f xs ys)

end

/-- Each item with its addend, as far as both go; without addends the noun as it is. -/
def plus (addends : List Int) (x : Noun) : Except Fault Noun :=
  match addends with
  | [] => .ok x
  | _ :: _ =>
    let pairs := x.items.zip addends
    list <$> pairs.mapM fun pair => combine Dyad.add.onAtoms pair.1 (atom (.int pair.2))

/-- A list combined from its last item backwards: each item is the left argument, what the items
after it give is the right one. -/
def fold (d : Dyad) : List Noun → Except Fault Noun
  | [] => .ok (atom (.int d.identity))
  | [x] => .ok x
  | x :: y :: rest => do combine d.onAtoms x (← fold d (y :: rest))

def insert (d : Dyad) (x : Noun) : Except Fault Noun :=
  box <$> fold d x.items

end ArrayPhrase.Noun
