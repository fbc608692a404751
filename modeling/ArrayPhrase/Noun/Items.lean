import ArrayPhrase.Noun.Basic

/-! Rearrangements of items. Counts may be any integers: a negative count is counted from the other
end. -/

namespace ArrayPhrase.Noun

/-- The first items, followed by zeros where there are too few. -/
def takePadded (xs : List Noun) (count : Nat) : Except Fault (List Noun) :=
  let padding := count - xs.length
  if padding > sizeLimit then .error .sizeTooLarge
  else .ok (xs.take count ++ List.replicate padding (atom (.int 0)))

def takeItems (count : Int) (xs : List Noun) : Except Fault (List Noun) :=
  if 0 ≤ count then takePadded xs count.toNat
  else List.reverse <$> takePadded xs.reverse (-count).toNat

def dropItems (count : Int) (xs : List Noun) : List Noun :=
  if 0 ≤ count then xs.drop count.toNat else xs.take (xs.length - (-count).toNat)

/-- The items moved `count` places to the left, round the end. -/
def rotateItems (count : Int) (xs : List Noun) : List Noun :=
  let shift := (count.fmod xs.length).toNat
  xs.drop shift ++ xs.take shift

def lastItem (xs : List Noun) : List Noun :=
  xs.drop (xs.length - 1)

end ArrayPhrase.Noun
