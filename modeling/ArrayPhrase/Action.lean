import ArrayPhrase.Scalar
import ArrayPhrase.Noun.Combine
import ArrayPhrase.Noun.Grade
import ArrayPhrase.Noun.Items
import ArrayPhrase.Noun.Reshape

/-! What a verb with its operands does to a noun. -/

namespace ArrayPhrase

inductive Action where
  | scalar (s : Scalar)
  | tally | tail | curtail
  | plus (addends : List Int)
  | take (count : Int)
  | drop (count : Int)
  | reverse
  | rotate (count : Int)
  | gradeUp | gradeDown
  | sort (descending : Bool)
  | insert (d : Dyad)
  | reshape (dims : List Int)
  | nothing
deriving DecidableEq, Repr

namespace Action

/-- Positions as a noun. -/
def positions (indices : List Nat) : Noun :=
  .list (indices.map fun index : Nat => .atom (.int index))

/-- A result that holds the number of items or their positions. That number has to be one that a
list can have. -/
def counted (x : Noun) (result : Noun) : Except Fault Noun :=
  if x.items.length ≤ sizeLimit then .ok result else .error .sizeTooLarge

def apply (p : Precision) (x : Noun) : Action → Except Fault Noun
  | scalar s => x.mapLeaves (s.onAtom p)
  | tally => counted x (.list [.atom (.int x.items.length)])
  | tail => .ok (.list (Noun.lastItem x.items))
  | curtail => .ok (.list x.items.dropLast)
  | plus addends => x.plus addends
  | take count => .list <$> Noun.takeItems count x.items
  | drop count => .ok (.list (Noun.dropItems count x.items))
  | reverse => .ok (.list x.items.reverse)
  | rotate count => .ok (.list (Noun.rotateItems count x.items))
  | gradeUp => counted x (positions (Noun.gradeUp p x.items))
  | gradeDown => counted x (positions (Noun.gradeDown p x.items))
  | sort descending =>
    let grade := if descending then Noun.gradeDown else Noun.gradeUp
    .ok (.list (Noun.select x.items (grade p x.items)))
  | insert d => x.insert d
  | reshape dims => x.reshape dims
  | nothing => .ok x

end Action
end ArrayPhrase
