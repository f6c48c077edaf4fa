/-!
# Lines

A text as a list of lines. A line ends with a line feed, of which a carriage return before it is a
part. The last line need not end; a carriage return alone ends no line.
-/

namespace Jianpu.Text

/-- A line without the carriage return at its end. -/
def chomp (cs : List Char) : List Char :=
  if cs.getLast? = some '\r' then cs.dropLast else cs

/-- The lines of a text, where `line` is what stands before it in its first line, reversed. -/
def linesFrom (line : List Char) : List Char → List (List Char)
  | [] => if line.isEmpty then [] else [line.reverse]
  | c :: cs => if c = '\n' then chomp line.reverse :: linesFrom [] cs else linesFrom (c :: line) cs

/-- The lines of a text. -/
def lines (s : String) : List String := (linesFrom [] s.toList).map String.ofList

end Jianpu.Text
