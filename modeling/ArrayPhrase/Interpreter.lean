import ArrayPhrase.Datum
import ArrayPhrase.Token
import ArrayPhrase.Verb

/-! Commands applied to nouns. The tokens of a command, in application order, form one stream; each
step takes a verb from its front and lets it read its operands there. Tokens taken before a fault
stay taken. -/

namespace ArrayPhrase

/-- The stream of a command with the given token texts. -/
def TokenStream.ofTexts (texts : List String) : TokenStream :=
  ⟨applicationOrder Verb.registry texts⟩

/-- The noun after all verbs of the stream, and what a fault has left of the stream. -/
def applyAll (p : Precision) (x : Noun) : TokenStream → Except Fault Noun × TokenStream
  | ⟨[]⟩ => (.ok x, ⟨[]⟩)
  | ⟨token :: rest⟩ =>
    let outcome := (Verb.lookup token).run p x ⟨rest⟩
    match outcome.1 with
    | .ok y => applyAll p y outcome.2
    | .error fault => (.error fault, outcome.2)
termination_by s => s.length
decreasing_by
  exact Nat.lt_of_le_of_lt (Verb.length_run_le ..) (Nat.lt_succ_self _)

/-- One step: the verb's token, the number of tokens left after it, and what it gave. -/
structure Step where
  token : String
  left : Nat
  outcome : Except Fault Noun

/-- The steps of `applyAll`. -/
def steps (p : Precision) (x : Noun) : TokenStream → List Step
  | ⟨[]⟩ => []
  | ⟨token :: rest⟩ =>
    let outcome := (Verb.lookup token).run p x ⟨rest⟩
    let step := ⟨token, outcome.2.length, outcome.1⟩
    match outcome.1 with
    | .ok y => step :: steps p y outcome.2
    | .error _ => [step]
termination_by s => s.length
decreasing_by
  exact Nat.lt_of_le_of_lt (Verb.length_run_le ..) (Nat.lt_succ_self _)

/-- The name of the whole in the places of faults. -/
def nounRoot : String :=
  "noun"

/-- The verbs of a stream applied to a datum. A datum that is no noun leaves the stream alone. -/
def evaluateOn (p : Precision) (given : Datum) (s : TokenStream) :
    Except Fault Noun × TokenStream :=
  match given.toNoun nounRoot with
  | .ok x => applyAll p x s
  | .error fault => (.error fault, s)

def evaluateTexts (p : Precision) (texts : List String) (given : Datum) : Except Fault Noun :=
  (evaluateOn p given (.ofTexts texts)).1

def evaluate (p : Precision) (command : String) (given : Datum) : Except Fault Noun :=
  evaluateTexts p (tokenTexts command) given

/-- The results of commands applied one after the other, each to the latest noun there is. -/
def session (p : Precision) : Datum → List String → List (Except Fault Noun)
  | _, [] => []
  | given, command :: rest =>
    let result := evaluate p command given
    result :: session p (match result with | .ok x => x.toDatum | .error _ => given) rest

end ArrayPhrase
