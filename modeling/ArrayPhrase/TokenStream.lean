import ArrayPhrase.Literal

/-! Tokens not yet applied, taken strictly from the front. A stream only ever shrinks. Reading a
literal does not take it: the reader advances by what it has used. -/

namespace ArrayPhrase

structure TokenStream where
  remaining : List String
deriving DecidableEq, Repr

namespace TokenStream

variable (s : TokenStream)

def length : Nat :=
  s.remaining.length

def isEmpty : Bool :=
  s.remaining.isEmpty

def peek : Option String :=
  s.remaining.head?

def drop (n : Nat) : TokenStream :=
  ⟨s.remaining.drop n⟩

/-- Advancing past the end leaves an empty stream. -/
def advance (n : Int) : Except Fault TokenStream :=
  if n < 0 then .error .negativeAdvance else .ok (s.drop n.toNat)

/-- The value of the front token when that is a literal. -/
def nextLiteral : Except Fault (Option Int) :=
  match s.peek with
  | none => .ok none
  | some token => if Literal.isLiteral token then some <$> Literal.parse token else .ok none

/-- The values of the leading literals, reversed into the order they were written in. -/
def integerArgs : Except Fault (List Int) :=
  List.reverse <$> (s.remaining.takeWhile Literal.isLiteral).mapM Literal.parse

def text : String :=
  "TokenStream(" ++ Text.quotedList s.remaining ++ ")"

/-- What a stream can be asked. -/
inductive Call where
  | peek | advance (n : Int) | isEmpty | hasMore | length | remaining | nextLiteral | integerArgs
  | text
deriving DecidableEq, Repr

inductive Answer where
  | done
  | token (front : Option String)
  | flag (value : Bool)
  | count (n : Nat)
  | tokens (texts : List String)
  | literal (value : Option Int)
  | integers (values : List Int)
  | text (value : String)
deriving DecidableEq, Repr

/-- The answer to a call, and the stream after it. -/
def call : Call → Except Fault Answer × TokenStream
  | .peek => (.ok (.token s.peek), s)
  | .advance n =>
    match s.advance n with
    | .ok rest => (.ok .done, rest)
    | .error fault => (.error fault, s)
  | .isEmpty => (.ok (.flag s.isEmpty), s)
  | .hasMore => (.ok (.flag !s.isEmpty), s)
  | .length => (.ok (.count s.length), s)
  | .remaining => (.ok (.tokens s.remaining), s)
  | .nextLiteral => (.literal <$> s.nextLiteral, s)
  | .integerArgs => (.integers <$> s.integerArgs, s)
  | .text => (.ok (.text s.text), s)

/-- The answers to calls made one after the other, each with the stream after it. -/
def calls : TokenStream → List Call → List (Except Fault Answer × TokenStream)
  | _, [] => []
  | s, c :: rest => s.call c :: calls (s.call c).2 rest

end TokenStream
end ArrayPhrase
