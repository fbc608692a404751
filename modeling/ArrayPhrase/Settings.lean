import ArrayPhrase.Floating.Basic
import ArrayPhrase.Text.Integer

/-! Settings, read from the texts of three variables that may be absent. -/

namespace ArrayPhrase

structure Settings where
  precision : Precision
  /-- Whether leaf verbs are compiled; it makes no difference to their results. -/
  compiled : Bool
  cacheCapacity : Nat
deriving DecidableEq, Repr

/-- Only the text `0` turns double precision off, and only `1` turns compilation off. A cache has
room for at least one entry. -/
def Settings.ofTexts (doublePrecision compilationOff cacheCapacity : Option String) :
    Except Fault Settings := do
  let capacity ← match cacheCapacity with
    | none => pure 256
    | some text => Text.parseInteger text
  if capacity > sizeLimit then .error .sizeTooLarge
  return {
    precision := if doublePrecision = some "0" then .single else .double
    compiled := compilationOff ≠ some "1"
    cacheCapacity := max 1 capacity.toNat }

end ArrayPhrase
