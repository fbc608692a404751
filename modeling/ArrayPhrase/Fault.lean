import ArrayPhrase.Text.Quoted

/-! What can go wrong, as causes. `Fault.kind` sorts the causes, `Fault.Kind.lineage` says which
kinds are special cases of which, and `Fault.message` is the only place where their wording
stands. -/

namespace ArrayPhrase

/-- Where a value stands inside outside data: the name of the whole, then indices inwards. -/
structure Place where
  root : String
  path : List Nat
deriving DecidableEq, Repr

namespace Place

def item (place : Place) (index : Nat) : Place :=
  { place with path := place.path ++ [index] }

def text (place : Place) : String :=
  place.root ++ String.join (place.path.map fun index => "[" ++ toString index ++ "]")

end Place

inductive Fault where
  /-- Two operators of one table have the same representation. -/
  | duplicateOperator (rep first second : String)
  /-- An exact result outside the 64-bit range. -/
  | integerOverflow (site : String) (value : Int)
  /-- A compound operator is not followed by one of its followers. -/
  | missingFollower (operator : String) (expected : List String) (found : Option String)
  | lengthMismatch (left right : Nat)
  | negativeDimension
  /-- A shape with room for elements and a noun with none. -/
  | emptyNoun
  | unsupported (place : Place) (typeName : String)
  /-- An integer given from outside that is not in the 64-bit range. -/
  | outsideRange (place : Place) (value : Int)
  | invalidLiteral (text : String)
  | literalTooLong (digits : Nat)
  | invalidConsumption (text : String)
  | invalidInteger (text : String)
  | negativeAdvance
  /-- An integer whose nearest binary64 value is infinite. -/
  | integerTooLarge
  /-- A ratio whose nearest binary64 value is infinite. -/
  | ratioTooLarge
  /-- More places than a list can have. -/
  | sizeTooLarge
  | unknownScalar (rep : String)
deriving DecidableEq, Repr

/-- Integers are read and written with at most this many digits. -/
def digitLimit : Nat := 4300

/-- The most places that a list or a cache can have. -/
def sizeLimit : Nat := 9223372036854775807

/-- Whether an integer has few enough digits to be written. -/
def isWritable (n : Int) : Bool :=
  n.natAbs < Nat.pow 10 digitLimit

namespace Fault

inductive Kind where
  | base | registry | evaluation | malformedCommand | shape | noun | value | overflow | key
deriving DecidableEq, Repr

/-- A kind with the more general kinds it belongs to, most special first. -/
def Kind.lineage : Kind → List Kind
  | .malformedCommand => [.malformedCommand, .evaluation, .base]
  | .shape => [.shape, .evaluation, .base]
  | .noun => [.noun, .evaluation, .base]
  | .evaluation => [.evaluation, .base]
  | .registry => [.registry, .base]
  | kind => [kind]

/-- An integer that is too long to be written turns the fault into one about its length. -/
def kind : Fault → Kind
  | duplicateOperator .. => .registry
  | integerOverflow _ n => if isWritable n then .evaluation else .value
  | missingFollower .. => .malformedCommand
  | lengthMismatch .. | negativeDimension | emptyNoun => .shape
  | unsupported .. => .noun
  | outsideRange _ n => if isWritable n then .noun else .value
  | invalidLiteral _ | literalTooLong _ | invalidConsumption _ | invalidInteger _
  | negativeAdvance => .value
  | integerTooLarge | ratioTooLarge | sizeTooLarge => .overflow
  | unknownScalar _ => .key

/-- The limit on digits, as told for a text to read with its number of digits and for an integer
to write without. -/
def digitLimitText (digits : Option Nat) : String :=
  "Exceeds the limit (" ++ toString digitLimit ++ " digits) for integer string conversion"
    ++ (match digits with
      | some n => ": value has " ++ toString n ++ " digits"
      | none => "")
    ++ "; use sys.set_int_max_str_digits() to increase the limit"

/-- What was expected, left out when nothing was. -/
def expectedText : List String → String
  | [] => ""
  | expected => "; expected " ++ ", ".intercalate (expected.map Text.quoted)

def foundText : Option String → String
  | none => "end of command"
  | some token => Text.quoted token

def message : Fault → String
  | duplicateOperator rep first second =>
    "Duplicate operator representation " ++ Text.quoted rep ++ ": " ++ first ++ " and " ++ second
  | integerOverflow site n =>
    if isWritable n then
      "integer overflow in " ++ site ++ ": " ++ toString n ++ " is outside the int64 range"
    else digitLimitText none
  | missingFollower operator expected found =>
    Text.quoted operator ++ " is missing its follower" ++ expectedText expected ++ "; found "
      ++ foundText found
  | lengthMismatch left right =>
    "length error: cannot combine lists of length " ++ toString left ++ " and " ++ toString right
  | negativeDimension => "Reshape dimensions must be non-negative"
  | emptyNoun => "Cannot reshape an empty noun into a non-empty shape"
  | unsupported place typeName => place.text ++ " has unsupported runtime type " ++ typeName
  | outsideRange place n =>
    if isWritable n then
      place.text ++ " integer " ++ toString n ++ " is outside the int64 range"
    else digitLimitText none
  | invalidLiteral text => "Invalid numeric literal " ++ Text.quoted text
  | literalTooLong digits => digitLimitText (some digits)
  | invalidConsumption text => Text.quoted text ++ " is not a valid Consumption"
  | invalidInteger text =>
    "invalid literal for int() with base 10: " ++ String.ofList ((Text.quote text.toList).take 200)
  | negativeAdvance => "TokenStream cannot advance by a negative amount"
  | integerTooLarge => "int too large to convert to float"
  | ratioTooLarge => "integer division result too large for a float"
  | sizeTooLarge => "cannot fit \x27int\x27 into an index-sized integer"
  | unknownScalar rep => Text.quoted rep

end Fault
end ArrayPhrase
