import Jianpu.Diagnostic

/-!
# Excerpts

The lines of the source that a diagnostic is about, each with a line of marks below it. Within one
line the marks stand under the columns of the span. Of a longer span, the first line is marked from
where the span starts, the lines between as far as they go, and the last up to where the span ends.
-/

namespace Jianpu.Excerpt

/-- A number of marks, at least one. -/
def marks (marker : Char) (n : Nat) : String := String.ofList (List.replicate (max n 1) marker)

/-- Marks from a column on. -/
def marksFrom (marker : Char) (column n : Nat) : String :=
  String.ofList (List.replicate (column - 1) ' ') ++ marks marker n

/-- The lines of a span and the marks below them. Line `n` of the source is `line n`. -/
def ofSpan (line : Nat → String) (s : Span) (marker : Char) : List String :=
  let first := line s.start.line
  if s.start.line = s.stop.line then
    [first, marksFrom marker s.start.column (s.stop.column - s.start.column)]
  else
    let between := List.range' (s.start.line + 1) (s.stop.line - (s.start.line + 1))
    [first, marksFrom marker s.start.column (first.length - (s.start.column - 1))] ++
      between.flatMap (fun n => [line n, marks marker (line n).length]) ++
      [line s.stop.line, marks marker (s.stop.column - 1)]

/-- The line with a number from one; lines that do not exist are empty. -/
def lineOf (lines : List String) (n : Nat) : String :=
  match n with
  | 0 => ""
  | n + 1 => lines.getD n ""

/-- A message with the lines that it is about. -/
def renderMessage (lines : List String) (message : String) (s : Span) : List String :=
  (s.start.display ++ ": " ++ message) :: ofSpan (lineOf lines) s '^'

/-- A diagnostic with the lines that it is about. -/
def render (lines : List String) (d : Diagnostic) : List String :=
  renderMessage lines d.message d.span

end Jianpu.Excerpt
