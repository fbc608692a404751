import ArrayPhrase.Literal

/-! Operators as a table lists them, and tables of operators with distinct representations. -/

namespace ArrayPhrase

/-- The operands an operator takes from the tokens written to its right. -/
inductive Consumption where
  | nothing | literal | literals | follower
deriving DecidableEq, Repr

namespace Consumption

def text : Consumption → String
  | nothing => "none"
  | literal => "literal"
  | literals => "literals"
  | follower => "follower"

def ofText (name : String) : Except Fault Consumption :=
  match [nothing, literal, literals, follower].find? fun consumption => consumption.text = name with
  | some consumption => .ok consumption
  | none => .error (.invalidConsumption name)

/-- How many of the following tokens are operands: at most one literal, the longest run of
literals, or any one token. -/
def operandCount : Consumption → List String → Nat
  | nothing, _ => 0
  | literal, following => ((following.take 1).takeWhile Literal.isLiteral).length
  | literals, following => (following.takeWhile Literal.isLiteral).length
  | follower, following => (following.take 1).length

end Consumption

structure Operator where
  rep : String
  name : String
  consumption : Consumption
  followers : List String
deriving DecidableEq, Repr

/-- An operator whose representation an earlier one has already, after that earlier one. The
`seen` operators stand before the others. -/
def firstDuplicate (seen : List Operator) : List Operator → Option (Operator × Operator)
  | [] => none
  | operator :: rest =>
    match seen.find? fun earlier => earlier.rep = operator.rep with
    | some earlier => some (earlier, operator)
    | none => firstDuplicate (seen ++ [operator]) rest

theorem nodup_of_firstDuplicate_eq_none {seen operators : List Operator}
    (hseen : (seen.map Operator.rep).Nodup) (h : firstDuplicate seen operators = none) :
    ((seen ++ operators).map Operator.rep).Nodup := by
  induction operators generalizing seen with
  | nil => simpa using hseen
  | cons operator rest ih =>
    rw [firstDuplicate] at h
    split at h
    · contradiction
    · rename_i hfresh
      have hnodup : ((seen ++ [operator]).map Operator.rep).Nodup := by
        simp only [List.find?_eq_none, decide_eq_true_eq] at hfresh
        simp only [List.map_append, List.map_cons, List.map_nil, List.nodup_append]
        refine ⟨hseen, by simp, ?_⟩
        intro rep hrep other hother
        obtain ⟨earlier, hearlier, rfl⟩ := List.mem_map.1 hrep
        rw [List.mem_singleton.1 hother]
        exact hfresh earlier hearlier
      simpa using ih hnodup h

/-- Operators in the order of their declaration. -/
structure Registry where
  operators : List Operator
  distinct : (operators.map Operator.rep).Nodup

namespace Registry

def build (operators : List Operator) : Except Fault Registry :=
  match h : firstDuplicate [] operators with
  | some (earlier, later) => .error (.duplicateOperator later.rep earlier.name later.name)
  | none => .ok ⟨operators, @nodup_of_firstDuplicate_eq_none [] _ List.nodup_nil h⟩

def find? (registry : Registry) (token : String) : Option Operator :=
  registry.operators.find? fun operator => operator.rep = token

end Registry
end ArrayPhrase
