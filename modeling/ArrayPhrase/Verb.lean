import ArrayPhrase.Action
import ArrayPhrase.Phrase
import ArrayPhrase.TokenStream

/-! The verbs and the table that lists them. A verb reads its operands from the front of a stream:
`Verb.read` says what it then does and how many tokens it has used, and a reading that fails uses
none. Every token that is no verb of the table stands for the one that does nothing. -/

namespace ArrayPhrase

inductive Verb where
  | scalar (s : Scalar)
  | tally | tail | curtail | plus | take | drop | reverseRotate | gradeUp | gradeDown | tilde
  | insert | reshape | noOp
deriving DecidableEq, Repr

namespace Verb

/-- All verbs in the order of the table. -/
def table : List Verb :=
  Scalar.all.map scalar ++
    [tally, tail, curtail, plus, take, drop, reverseRotate, gradeUp, gradeDown, tilde, insert,
     reshape, noOp]

def rep : Verb → String
  | scalar s => s.rep
  | tally => "#"
  | tail => "\x7b:"
  | curtail => "\x7d:"
  | plus => "+"
  | take => "\x7b."
  | drop => "\x7d."
  | reverseRotate => "|."
  | gradeUp => "/:"
  | gradeDown => "\\:"
  | tilde => "~"
  | insert => "/"
  | reshape => "$"
  | noOp => ""

def name : Verb → String
  | scalar s => s.name
  | tally => "Tally"
  | tail => "Tail"
  | curtail => "Curtail"
  | plus => "Plus"
  | take => "Take"
  | drop => "Drop"
  | reverseRotate => "ReverseRotate"
  | gradeUp => "GradeUp"
  | gradeDown => "GradeDown"
  | tilde => "Tilde"
  | insert => "Insert"
  | reshape => "Shape"
  | noOp => "NoOp"

def consumption : Verb → Consumption
  | plus | reshape => .literals
  | take | drop | reverseRotate => .literal
  | tilde | insert => .follower
  | _ => .nothing

/-- The followers of a compound verb, each with what the two do together. -/
def followers : Verb → List (String × Action)
  | tilde => [("/:", .sort false), ("\\:", .sort true)]
  | insert => [("+", .insert .add), ("*", .insert .mul)]
  | _ => []

def operator (v : Verb) : Operator :=
  ⟨v.rep, v.name, v.consumption, v.followers.map Prod.fst⟩

def lookup (token : String) : Verb :=
  (table.find? fun v => v.rep = token).getD noOp

/-- What a compound verb does with the follower at the front of the stream. -/
def readFollower (v : Verb) (s : TokenStream) : Except Fault (Action × Nat) :=
  let missing := Fault.missingFollower v.rep (v.followers.map Prod.fst) s.peek
  match s.peek with
  | none => .error missing
  | some token =>
    match v.followers.lookup token with
    | none => .error missing
    | some action => .ok (action, 1)

/-- What a verb does with the literal at the front of the stream, or without one. -/
def readLiteral (s : TokenStream) (absent : Action) (given : Int → Action) :
    Except Fault (Action × Nat) := do
  match ← s.nextLiteral with
  | none => return (absent, 0)
  | some n => return (given n, 1)

/-- What a verb does with all the literals at the front of the stream. -/
def readLiterals (s : TokenStream) (given : List Int → Action) : Except Fault (Action × Nat) := do
  let args ← s.integerArgs
  return (given args, args.length)

/-- What a verb does with its operands at the front of the stream, and their number. -/
def read : Verb → TokenStream → Except Fault (Action × Nat)
  | scalar f, _ => .ok (.scalar f, 0)
  | tally, _ => .ok (.tally, 0)
  | tail, _ => .ok (.tail, 0)
  | curtail, _ => .ok (.curtail, 0)
  | plus, s => readLiterals s .plus
  | take, s => readLiteral s (.take 1) .take
  | drop, s => readLiteral s (.drop 1) .drop
  | reverseRotate, s => readLiteral s .reverse .rotate
  | gradeUp, _ => .ok (.gradeUp, 0)
  | gradeDown, _ => .ok (.gradeDown, 0)
  | tilde, s => readFollower tilde s
  | insert, s => readFollower insert s
  | reshape, s => readLiterals s .reshape
  | noOp, _ => .ok (.nothing, 0)

/-- The noun a verb gives, and the stream after the operands it has read. -/
def run (p : Precision) (v : Verb) (x : Noun) (s : TokenStream) : Except Fault Noun × TokenStream :=
  match v.read s with
  | .error fault => (.error fault, s)
  | .ok (action, used) => (action.apply p x, s.drop used)

theorem length_run_le (p : Precision) (v : Verb) (x : Noun) (s : TokenStream) :
    (v.run p x s).2.length ≤ s.length := by
  unfold run
  split
  · exact Nat.le_refl _
  · simp [TokenStream.length, TokenStream.drop]

/-- The table as a registry of operators. -/
def registry : Registry :=
  ⟨table.map operator, by decide⟩

end Verb
end ArrayPhrase
