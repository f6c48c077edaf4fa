import Jianpu.Diagnostic.Excerpt
import Jianpu.Proofs.Text.Columns
import Mathlib.Data.List.Basic

/-!
# Marks below a line

An excerpt shows every line of its span with one line of marks below it (`ofSpan_eq_flatMap`). The
marks stand under the columns that the span has of the line, and under one column where it has none.
Lines on which the span goes on are the exception: as many columns as they have characters of double
width are left without a mark at their end, since the marks for them are counted by characters
(`ofSpan_underlines`).
-/

namespace Jianpu

namespace Text

/-- The number of characters that take two columns. -/
def wide (cs : List Char) : Nat := cs.countP fun c => 1 < Position.width c

theorem length_add_wide (cs : List Char) : cs.length + wide cs = width cs := by
  induction cs with
  | nil => rfl
  | cons c cs ih =>
    have hc : 1 + (if 1 < Position.width c then 1 else 0) = Position.width c := by
      unfold Position.width
      split <;> rfl
    rw [wide] at ih ⊢
    rw [List.length_cons, List.countP_cons, width, ← ih]
    simp only [decide_eq_true_eq]
    omega

theorem placed_replicate (column n : Nat) {c : Char} (hc : Position.width c = 1) :
    placed column (List.replicate n c) = (List.range' column n).map (·, c) := by
  induction n generalizing column with
  | zero => rfl
  | succ n ih => rw [List.replicate_succ, placed, hc, ih, List.range'_succ, List.map_cons]

theorem width_replicate (n : Nat) {c : Char} (hc : Position.width c = 1) :
    width (List.replicate n c) = n := by
  induction n with
  | zero => rfl
  | succ n ih => rw [List.replicate_succ, width, hc, ih, Nat.add_comm]

end Text

namespace Excerpt

/-- The marks stand in the columns from `start` up to, and without, `stop`, or in the column `start`
if there are none. Blanks stand before them, and nothing after them. -/
def Underlines (marker : Char) (start stop : Nat) (mark : String) : Prop :=
  Text.placed 1 mark.toList =
    (List.range' 1 (start - 1)).map (·, ' ') ++
      (List.range' start (max (stop - start) 1)).map (·, marker)

/-- The first column that the span has of a line. -/
def firstColumn (s : Span) (n : Nat) : Nat := if n = s.start.line then s.start.column else 1

/-- The column after the last one that the span has of a line. -/
def endColumn (line : Nat → String) (s : Span) (n : Nat) : Nat :=
  if n = s.stop.line then s.stop.column else 1 + Text.width (line n).toList

/-- The columns at the end of a line that are left without marks: none where the span ends, and else
one for every character of double width. -/
def unmarked (line : Nat → String) (s : Span) (n : Nat) : Nat :=
  if n = s.stop.line then 0 else Text.wide (line n).toList

theorem endColumn_sub_unmarked (line : Nat → String) (s : Span) (n : Nat) :
    endColumn line s n - unmarked line s n =
      if n = s.stop.line then s.stop.column else 1 + (line n).length := by
  unfold endColumn unmarked
  split
  · rfl
  · rw [← Text.length_add_wide, String.length_toList]
    omega

/-- What stands below line `n` of a span. -/
def markBelow (line : Nat → String) (s : Span) (marker : Char) (n : Nat) : String :=
  marksFrom marker (firstColumn s n) (endColumn line s n - unmarked line s n - firstColumn s n)

theorem marksFrom_one (marker : Char) (n : Nat) : marksFrom marker 1 n = marks marker n := by
  rw [marksFrom, Nat.sub_self, List.replicate_zero, String.ofList_nil, String.empty_append]

theorem markBelow_between (line : Nat → String) {s : Span} (marker : Char) {n : Nat}
    (hstart : n ≠ s.start.line) (hstop : n ≠ s.stop.line) :
    markBelow line s marker n = marks marker (line n).length := by
  rw [markBelow, endColumn_sub_unmarked, firstColumn, if_neg hstart, if_neg hstop, marksFrom_one,
    Nat.add_sub_cancel_left]

/-- An excerpt has every line of its span, with marks below it. -/
theorem ofSpan_eq_flatMap (line : Nat → String) {s : Span} (marker : Char)
    (hcolumn : 1 ≤ s.start.column) (hle : s.start ≤ s.stop) :
    ofSpan line s marker =
      (List.range' s.start.line (s.stop.line + 1 - s.start.line)).flatMap fun n =>
        [line n, markBelow line s marker n] := by
  rcases Position.le_iff.1 hle with hlt | ⟨heq, -⟩
  · obtain ⟨k, hk⟩ := Nat.exists_eq_add_of_le hlt
    have hfirst : markBelow line s marker s.start.line =
        marksFrom marker s.start.column ((line s.start.line).length - (s.start.column - 1)) := by
      rw [markBelow, endColumn_sub_unmarked, firstColumn, if_pos rfl, if_neg hlt.ne]
      congr 1
      omega
    have hlast : markBelow line s marker s.stop.line = marks marker (s.stop.column - 1) := by
      rw [markBelow, endColumn_sub_unmarked, firstColumn, if_pos rfl, if_neg hlt.ne', marksFrom_one]
    have hbetween : (List.range' (s.start.line + 1) k).flatMap
          (fun n => [line n, markBelow line s marker n]) =
        (List.range' (s.start.line + 1) k).flatMap fun n =>
          [line n, marks marker (line n).length] := by
      refine List.flatMap_congr fun n hn => ?_
      have hn := List.mem_range'_1.1 hn
      rw [markBelow_between line marker (by omega) (by omega)]
    have hlines : List.range' s.start.line (s.stop.line + 1 - s.start.line) =
        s.start.line :: (List.range' (s.start.line + 1) k ++ [s.stop.line]) := by
      rw [show s.stop.line + 1 - s.start.line = k + 1 + 1 by omega, List.range'_succ,
        List.range'_1_concat, hk]
    rw [ofSpan, if_neg hlt.ne, hlines, List.flatMap_cons, List.flatMap_append, hbetween,
      List.flatMap_singleton, hfirst, hlast, show s.stop.line - (s.start.line + 1) = k by omega,
      List.append_assoc]
  · have hlines : s.stop.line + 1 - s.start.line = 1 := by omega
    rw [ofSpan, if_pos heq, hlines, List.range'_one, List.flatMap_singleton, markBelow,
      endColumn_sub_unmarked, firstColumn, if_pos rfl, if_pos heq]

theorem underlines_marksFrom {marker : Char} (hmarker : Position.width marker = 1) {start : Nat}
    (hstart : 1 ≤ start) (stop : Nat) :
    Underlines marker start stop (marksFrom marker start (stop - start)) := by
  have hblank : Position.width ' ' = 1 := rfl
  rw [Underlines, marksFrom, marks, String.toList_append, String.toList_ofList,
    String.toList_ofList, Text.placed_append, Text.placed_replicate _ _ hblank,
    Text.placed_replicate _ _ hmarker, Text.width_replicate _ hblank, Nat.add_sub_cancel' hstart]

/-- **Marks stand under the columns of the span.** Every line of the span is shown with one line of
marks below it, from the first column that the span has of the line up to the last, and short of
that by the characters of double width on the lines where the span does not end. -/
theorem ofSpan_underlines (lines : List String) (s : Span) (marker : Char)
    (hmarker : Position.width marker = 1) (hcolumn : 1 ≤ s.start.column) (hle : s.start ≤ s.stop) :
    ∃ mark : Nat → String,
      ofSpan (lineOf lines) s marker =
        (List.range' s.start.line (s.stop.line + 1 - s.start.line)).flatMap
          (fun n => [lineOf lines n, mark n]) ∧
      ∀ n, Underlines marker (firstColumn s n)
        (endColumn (lineOf lines) s n - unmarked (lineOf lines) s n) (mark n) := by
  refine ⟨markBelow (lineOf lines) s marker, ofSpan_eq_flatMap _ marker hcolumn hle, fun n => ?_⟩
  refine underlines_marksFrom hmarker ?_ _
  unfold firstColumn
  split
  · exact hcolumn
  · exact Nat.le_refl 1

/-- A span over three lines, the second of them empty, that ends after a wide character. -/
theorem ofSpan_underlines_bracket :
    let line := lineOf ["ab\x7bé", "", "é\x7d h"]
    let s : Span := ⟨⟨1, 3⟩, ⟨3, 4⟩⟩
    s.start ≤ s.stop ∧
      [1, 2, 3].map (firstColumn s) = [3, 1, 1] ∧ [1, 2, 3].map (endColumn line s) = [6, 1, 4] ∧
      [1, 2, 3].map (unmarked line s) = [1, 0, 0] ∧
      ofSpan line s '^' = ["ab\x7bé", "  ^^", "", "^", "é\x7d h", "^^^"] ∧
      ∃ mark : Nat → String,
        ofSpan line s '^' = [1, 2, 3].flatMap (fun n => [line n, mark n]) ∧
          ∀ n, Underlines '^' (firstColumn s n) (endColumn line s n - unmarked line s n)
            (mark n) := by
  intro line s
  have hle : s.start ≤ s.stop := Position.le_iff.2 (.inl (by decide))
  exact ⟨hle, by decide, by decide, by decide, by decide,
    ofSpan_underlines _ s '^' (by decide) (by decide) hle⟩

/-- The span has the third to the fifth column of its first line, and the fifth is left unmarked. -/
theorem exists_column_unmarked :
    let line := lineOf ["ab\x7bé", "h\x7d"]
    let s : Span := ⟨⟨1, 3⟩, ⟨2, 3⟩⟩
    ofSpan line s '^' = ["ab\x7bé", "  ^^", "h\x7d", "^^"] ∧
      firstColumn s 1 = 3 ∧ endColumn line s 1 = 6 ∧ ¬Underlines '^' 3 6 "  ^^" := by
  refine ⟨by decide, by decide, by decide, ?_⟩
  unfold Underlines
  decide

end Excerpt

end Jianpu
