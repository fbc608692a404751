import ArrayPhrase.Text.Printable

/-! Quoted texts. A text stands between apostrophes, or between double quotes when it holds an
apostrophe and no double quote. Inside, a backslash precedes a backslash and the mark in use, and
a character that is not printable is written as an escape of fixed length. -/

namespace ArrayPhrase.Text

def apostrophe : Char := '\x27'

/-- The mark a text is quoted with. -/
def quoteMark (text : List Char) : Char :=
  if text.contains apostrophe && !text.contains '"' then '"' else apostrophe

/-- The last `width` hexadecimal digits of a number, lower case. -/
def hexDigits : (width : Nat) → Nat → List Char
  | 0, _ => []
  | width + 1, n => hexDigits width (n / 16) ++ [Nat.digitChar (n % 16)]

/-- One character as it is written inside the given mark. -/
def escape (mark c : Char) : List Char :=
  if c = '\\' then ['\\', '\\']
  else if c = mark then ['\\', c]
  else if c = '\n' then ['\\', 'n']
  else if c = '\r' then ['\\', 'r']
  else if c = '\t' then ['\\', 't']
  else if isPrintable c then [c]
  else if c.toNat < 0x100 then '\\' :: 'x' :: hexDigits 2 c.toNat
  else if c.toNat < 0x10000 then '\\' :: 'u' :: hexDigits 4 c.toNat
  else '\\' :: 'U' :: hexDigits 8 c.toNat

def quote (text : List Char) : List Char :=
  let mark := quoteMark text
  mark :: text.flatMap (escape mark) ++ [mark]

def quoted (text : String) : String :=
  String.ofList (quote text.toList)

/-- Quoted texts in brackets, separated by commas. -/
def quotedList (texts : List String) : String :=
  "[" ++ ", ".intercalate (texts.map quoted) ++ "]"

end ArrayPhrase.Text
