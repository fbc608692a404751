import ArrayPhrase.Literal

/-! Words of a command. A number is a numeric literal, a name is an ASCII letter followed by
letters, digits and underscores, and a primitive is any other character followed by a run of the
inflections `.` and `:`. Each word is as long as it can be; only white space separates words. -/

namespace ArrayPhrase

inductive Token.Kind where
  | number | name | primitive
deriving DecidableEq, Repr

/-- A word of a source text, with the positions of its first character and of the one after its
last. -/
structure Token where
  kind : Token.Kind
  text : String
  start : Nat
  stop : Nat
deriving DecidableEq, Repr

namespace Token

def isBlank (c : Char) : Bool :=
  c = ' ' || c = '\t' || c = '\n' || c = '\r' || c = '\x0c' || c = '\x0b'

def isLetter (c : Char) : Bool :=
  ('A' ≤ c && c ≤ 'Z') || ('a' ≤ c && c ≤ 'z')

def isNamePart (c : Char) : Bool :=
  isLetter c || Literal.isDigit c || c = '_'

def isInflection (c : Char) : Bool :=
  c = '.' || c = ':'

/-- An underscore begins a number only before a digit. -/
def startsNumber (c : Char) (rest : List Char) : Bool :=
  Literal.isDigit c || (c = '_' && rest.head?.any Literal.isDigit)

/-- The kind of the word that begins with the character `c`, which is not blank. -/
def kindAt (c : Char) (rest : List Char) : Kind :=
  if startsNumber c rest then .number else if isLetter c then .name else .primitive

/-- The characters that a word of a kind goes on with. -/
def Kind.continues : Kind → Char → Bool
  | .number => Literal.isDigit
  | .name => isNamePart
  | .primitive => isInflection

end Token

/-- The words of a text whose first character stands at `start`. -/
def tokensFrom (start : Nat) : List Char → List Token
  | [] => []
  | c :: rest =>
    if Token.isBlank c then tokensFrom (start + 1) rest
    else
      let kind := Token.kindAt c rest
      let tail := rest.takeWhile kind.continues
      let stop := start + 1 + tail.length
      ⟨kind, String.ofList (c :: tail), start, stop⟩ :: tokensFrom stop (rest.drop tail.length)
termination_by source => source.length
decreasing_by all_goals (simp only [List.length_cons, List.length_drop]; omega)

def tokenize (source : String) : List Token :=
  tokensFrom 0 source.toList

def tokenTexts (source : String) : List String :=
  (tokenize source).map Token.text

end ArrayPhrase
