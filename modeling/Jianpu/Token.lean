import Jianpu.Text.Position

/-!
# Tokens

A token is a piece of the source with its kind, its span, and whether blanks or a comment stood
before it. The end of the source is a token too. `Token.display` writes a token back: a blank is
printed as one space, and a parameter placeholder as nothing.
-/

namespace Jianpu

/-- What a token is. A placeholder carries its number, if it has one. -/
inductive Token.Kind where
  | eof
  | control
  | param (number : Option Nat)
  | opening
  | closing
  | other
  deriving DecidableEq, Repr, Inhabited

/-- A piece of the source. -/
structure Token where
  kind : Token.Kind
  text : String
  span : Span := {}
  /-- Whether blanks or a comment stood before the token. -/
  spaced : Bool := false
  deriving DecidableEq, Repr, Inhabited

namespace Token

/-- The mark of the end of the source. -/
def eof (p : Position) (spaced : Bool) : Token := ⟨.eof, "", .empty p, spaced⟩

/-- Whether the token is an end mark. -/
def isEof (t : Token) : Bool := t.kind = .eof

/-- Whether the token is a placeholder. -/
def isParam (t : Token) : Bool :=
  match t.kind with
  | .param _ => true
  | _ => false

/-- The token as it is written out. -/
def display (t : Token) : String :=
  let text := if t.isParam then "" else t.text
  if t.spaced then " " ++ text else text

/-- The text of a list of tokens. -/
def displayAll (ts : List Token) : String := String.join (ts.map display)

/-- The character of an ordinary token that holds just one. -/
def single? (t : Token) : Option Char :=
  match t.kind, t.text.toList with
  | .other, [c] => some c
  | _, _ => none

/-- Whether the token divides the branches of a group. -/
def isSeparator (t : Token) : Bool :=
  t.single? = some '|' || t.single? = some ','

end Token

end Jianpu
