import ArrayPhrase.Noun.Basic

/-! Nouns of a rectangular shape, filled in row-major order by going round the leaves of another
noun. -/

namespace ArrayPhrase.Noun

/-- The noun of a shape whose element of row-major rank `r` is `element r`. The ranks of the noun
go on from `rank`, the rank of its first index among all rows of that length. -/
def fill (element : Nat → Noun) : (dims : List Nat) → (rank : Nat) → Noun
  | [], rank => element rank
  | dim :: dims, rank => list ((List.range dim).map fun i => fill element dims (rank * dim + i))

/-- The number of elements of a shape. -/
def volume (dims : List Nat) : Nat :=
  dims.foldr (· * ·) 1

/-- Without dimensions the result is the first leaf. -/
def reshape (dims : List Int) (x : Noun) : Except Fault Noun :=
  if dims.any (· < 0) then .error .negativeDimension
  else
    let dims := dims.map Int.toNat
    match x.leaves with
    | [] => if volume dims = 0 then .ok (fill (fun _ => list []) dims 0) else .error .emptyNoun
    | first :: rest =>
      let leaves := first :: rest
      .ok (fill (fun rank => atom (leaves.getD (rank % leaves.length) first)) dims 0)

end ArrayPhrase.Noun
