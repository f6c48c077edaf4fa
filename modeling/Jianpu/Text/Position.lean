/-!
# Positions in a text

A position is a line and a column, both counted from one. `Position.advance` says how a
character moves it: a line feed starts the next line, and a character from U+007F on takes two
columns, since the scripts found there are printed at double width. A span runs from the position
of its first character to the one after its last.
-/

namespace Jianpu

/-- A place in a text, by line and column from one. -/
structure Position where
  line : Nat := 1
  column : Nat := 1
  deriving DecidableEq, Repr, Inhabited

namespace Position

/-- The number of columns that a character other than a line feed takes. -/
def width (c : Char) : Nat := if c.toNat < 0x7F then 1 else 2

/-- The position after a character. -/
def advance (p : Position) (c : Char) : Position :=
  if c = '\n' then ⟨p.line + 1, 1⟩ else ⟨p.line, p.column + width c⟩

/-- The position as it is shown to a reader. -/
def display (p : Position) : String := p.line.repr ++ ":" ++ p.column.repr

/-- The position after a run of characters. -/
def advanceAll (p : Position) (cs : List Char) : Position := cs.foldl advance p

@[simp] theorem advanceAll_nil (p : Position) : p.advanceAll [] = p := rfl

@[simp] theorem advanceAll_cons (p : Position) (c : Char) (cs : List Char) :
    p.advanceAll (c :: cs) = (p.advance c).advanceAll cs := rfl

theorem advanceAll_append (p : Position) (cs ds : List Char) :
    p.advanceAll (cs ++ ds) = (p.advanceAll cs).advanceAll ds := by
  simp [advanceAll]

end Position

/-- The part of a text from `start` up to, and without, `stop`. -/
structure Span where
  start : Position := {}
  stop : Position := {}
  deriving DecidableEq, Repr, Inhabited

namespace Span

/-- The empty span at a position. -/
def empty (p : Position) : Span := ⟨p, p⟩

/-- From the start of one span to the end of another. -/
def between (first last : Span) : Span := ⟨first.start, last.stop⟩

end Span

end Jianpu
