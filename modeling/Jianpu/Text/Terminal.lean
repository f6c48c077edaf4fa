import Jianpu.Text.Hex

/-!
# Text for a terminal

Some control characters make a terminal do something: escape, bell, backspace, form feed and delete,
and the controls from U+0080 to U+009F. In text for a terminal they are written out by their
numbers.
-/

namespace Jianpu.Text

/-- The commands among the ASCII characters. -/
def isShortCommand (c : Char) : Bool := c.toNat ∈ [0x07, 0x08, 0x0C, 0x1B, 0x7F]

/-- The commands beyond the ASCII characters. -/
def isLongCommand (c : Char) : Bool := 0x80 ≤ c.toNat && c.toNat ≤ 0x9F

/-- The character as it is printed. -/
def spell (c : Char) : List Char :=
  if isShortCommand c then '\\' :: 'x' :: hexByte c.toNat
  else if isLongCommand c then '\\' :: 'u' :: '\x7b' :: hexByte c.toNat ++ ['\x7d']
  else [c]

/-- The text as it is printed. -/
def printable (s : String) : String := String.ofList (s.toList.flatMap spell)

end Jianpu.Text
