import ArrayPhrase.Floating.Basic

/-! Addition and multiplication, each the exact result rounded once, with subnormal numbers kept. -/

namespace ArrayPhrase.Floating

variable {f : Format}

/-- A sum of two zeros is negative when both are; any other exact sum of zero is positive. -/
def add : Floating f → Floating f → Floating f
  | nan, _ => .nan
  | _, nan => .nan
  | infinity a, infinity b => if a = b then .infinity a else .nan
  | infinity a, _ => .infinity a
  | _, infinity b => .infinity b
  | zero a, zero b => .zero (a && b)
  | zero _, y => y
  | x, zero _ => x
  | finite u _, finite v _ => ofRat (u + v)

/-- The sign of a product is negative when the signs differ. -/
def mul : Floating f → Floating f → Floating f
  | nan, _ => .nan
  | _, nan => .nan
  | infinity _, zero _ => .nan
  | zero _, infinity _ => .nan
  | infinity a, y => .infinity (a != y.isNegative)
  | x, infinity b => .infinity (x.isNegative != b)
  | zero a, y => .zero (a != y.isNegative)
  | x, zero b => .zero (x.isNegative != b)
  | finite u _, finite v _ => ofRat (u * v)

end ArrayPhrase.Floating
