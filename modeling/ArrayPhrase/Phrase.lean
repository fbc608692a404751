import ArrayPhrase.Operator

/-! Phrases of a command: an operator with the operands it takes from its right, or a token that is
no operator. Phrases are applied last-written first, and a literal that no operator takes is
dropped, so that it cannot become an operand of the phrase applied after it. -/

namespace ArrayPhrase

inductive Phrase where
  /-- A head with its operands as written. -/
  | application (head : String) (operands : List String)
  /-- A literal that no operator takes. -/
  | stray (literal : String)
deriving DecidableEq, Repr

namespace Phrase

/-- The tokens of a phrase as they were written. -/
def written : Phrase → List String
  | application head operands => head :: operands
  | stray literal => [literal]

/-- The tokens of a phrase in the order they are applied in: operands follow their head last
written first. -/
def applied : Phrase → List String
  | application head operands => head :: operands.reverse
  | stray _ => []

end Phrase

/-- The phrases of a token sequence, left to right. -/
def phrases (registry : Registry) : List String → List Phrase
  | [] => []
  | head :: rest =>
    match registry.find? head with
    | some operator =>
      let count := operator.consumption.operandCount rest
      .application head (rest.take count) :: phrases registry (rest.drop count)
    | none =>
      if Literal.isLiteral head then .stray head :: phrases registry rest
      else .application head [] :: phrases registry rest
termination_by texts => texts.length
decreasing_by all_goals (simp only [List.length_cons, List.length_drop]; omega)

/-- The tokens of a command in the order they are applied in. -/
def applicationOrder (registry : Registry) (texts : List String) : List String :=
  (phrases registry texts).reverse.flatMap Phrase.applied

end ArrayPhrase
