import ArrayPhrase.Fault
import ArrayPhrase.Text.DecimalDigit

/-! Integers in a setting's text: a sign may come first, single underscores may stand between the
digits, and white space around it all. -/

namespace ArrayPhrase.Text

/-- The digits of a run of digits and underscores. No underscore stands at an end of the run or
beside another one. -/
def digitsOfRun? (run : List Char) : Option (List Nat) :=
  let fenced := '_' :: run ++ ['_']
  if (fenced.zip fenced.tail).any fun pair => pair.1 = '_' && pair.2 = '_' then none
  else some (run.filterMap digitValue?)

/-- Too many digits are told before anything wrong behind them. -/
def parseInteger (text : String) : Except Fault Int :=
  let unspaced := text.toList.dropWhile isSpace
  let (negative, unsigned) := match unspaced with
    | '-' :: rest => (true, rest)
    | '+' :: rest => (false, rest)
    | rest => (false, rest)
  let inRun := fun c => c = '_' || (digitValue? c).isSome
  match digitsOfRun? (unsigned.takeWhile inRun) with
  | none => .error (.invalidInteger text)
  | some digits =>
    if digits.length > digitLimit then .error (.literalTooLong digits.length)
    else if (unsigned.dropWhile inRun).all isSpace then
      let value : Nat := digits.foldl (fun value digit => 10 * value + digit) 0
      .ok (if negative then -(value : Int) else value)
    else .error (.invalidInteger text)

end ArrayPhrase.Text
