import Jianpu.Token

/-!
# Scanning

`Token.scan` cuts a text into tokens. Blanks and comments divide tokens and are noted on the token
that follows. A control sequence is the escape character with a name after it, a placeholder the
parameter character with a digit after it; every other character is a token of its own. Carriage
returns are folded to line feeds beforehand, so a line ends in one way only.
-/

namespace Jianpu

/-- The characters with a role in the source. Where two roles share a character, the earlier field
wins, and blanks and comments come before all roles. -/
structure Alphabet where
  escape : Char
  param : Char
  comment : Char
  opening : Char
  closing : Char
  deriving DecidableEq, Repr

namespace Alphabet

/-- The usual characters of a macro language. -/
def tex : Alphabet := ⟨'\\', '#', '%', '{', '}'⟩

/-- The characters for music, where `#` is a sharp. -/
def music : Alphabet := { tex with param := '$' }

end Alphabet

namespace Token

/-- Line ends in one form: a carriage return, with the line feed after it if any, is a line feed. -/
def foldLineEnds : List Char → List Char
  | [] => []
  | '\r' :: '\n' :: cs => '\n' :: foldLineEnds cs
  | '\r' :: cs => '\n' :: foldLineEnds cs
  | c :: cs => c :: foldLineEnds cs

/-- The characters that divide tokens. -/
def isBlank (c : Char) : Bool := c = ' ' || c = '\t' || c = '\r' || c = '\n'

/-- The characters that can follow the first one of a name. -/
def isNameChar (c : Char) : Bool := c.isAlphanum || c = '$' || c = '_'

/-- What is left of a text after the blanks and comments at its start. -/
structure Gap where
  spaced : Bool
  position : Position
  rest : List Char

/-- Skips blanks and comments. A comment runs up to the end of its line. -/
def skip (a : Alphabet) (comment spaced : Bool) (p : Position) : List Char → Gap
  | [] => ⟨spaced, p, []⟩
  | c :: cs =>
    if comment && c != '\n' then skip a true true (p.advance c) cs
    else if isBlank c then skip a false true (p.advance c) cs
    else if c = a.comment then skip a true true (p.advance c) cs
    else ⟨spaced, p, c :: cs⟩

theorem length_rest_skip_le (a : Alphabet) (comment spaced : Bool) (p : Position) (cs : List Char) :
    (skip a comment spaced p cs).rest.length ≤ cs.length := by
  induction cs generalizing comment spaced p with
  | nil => simp [skip]
  | cons c cs ih =>
    unfold skip
    split
    · exact Nat.le_succ_of_le (ih ..)
    · split
      · exact Nat.le_succ_of_le (ih ..)
      · split
        · exact Nat.le_succ_of_le (ih ..)
        · simp

/-- The characters after the first one that belong to the token that it starts, and the token's
kind. -/
def shape (a : Alphabet) (c : Char) (cs : List Char) : Kind × List Char :=
  let plain : Kind := if c = a.opening then .opening else if c = a.closing then .closing else .other
  if c = a.escape then
    if cs.head?.any Char.isAlpha then
      (.control, cs.takeWhile fun d => isNameChar d && d != a.param)
    else (plain, [])
  else if c = a.param then
    match cs with
    | d :: _ => if d.isDigit then (.param (some (d.toNat - '0'.toNat)), [d]) else (plain, [])
    | [] => (plain, [])
  else (plain, [])

/-- The tokens of a text whose lines end in line feeds, with the end mark as the last one. -/
def scanFrom (a : Alphabet) (p : Position) (cs : List Char) : List Token :=
  let gap := skip a false false p cs
  match h : gap.rest with
  | [] => [eof gap.position gap.spaced]
  | c :: rest =>
    have hlt : rest.length < cs.length := by
      have hle := length_rest_skip_le a false false p cs
      rwa [show (skip a false false p cs).rest = c :: rest from h] at hle
    let (kind, more) := shape a c rest
    let stop := gap.position.advanceAll (c :: more)
    ⟨kind, String.ofList (c :: more), ⟨gap.position, stop⟩, gap.spaced⟩ ::
      scanFrom a stop (rest.drop more.length)
termination_by cs.length
decreasing_by
  rw [List.length_drop]
  omega

/-- The tokens of a text, with the end mark as the last one. -/
def scan (a : Alphabet) (text : String) : List Token :=
  scanFrom a {} (foldLineEnds text.toList)

end Token

end Jianpu
