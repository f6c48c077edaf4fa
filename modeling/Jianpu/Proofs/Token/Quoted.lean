import Jianpu.Proofs.Text.Columns
import Jianpu.Proofs.Token.Places
import Jianpu.Text.Lines

/-!
# The line of a token

A token that is reported is shown with the line that it stands on, so the lines of the text have to
be counted as scanning counts them. With line ends in one form they are: the line with the token's
number has the token in the token's columns. With line ends as they stand, this holds of every token
before which each carriage return has its line feed (`Token.scan_quoted`). A carriage return alone
is a line end for scanning only, so that after one the lines are counted differently:
`Token.exists_unquoted`.
-/

namespace Jianpu

namespace Text

variable {line cs rest : List Char}

/-! ## Lines -/

theorem linesFrom_append (h : '\n' ∉ cs) :
    linesFrom line (cs ++ rest) = linesFrom (cs.reverse ++ line) rest := by
  induction cs generalizing line with
  | nil => rfl
  | cons c cs ih =>
    rw [List.mem_cons, not_or] at h
    rw [List.cons_append, linesFrom, if_neg (Ne.symm h.1), ih h.2, List.reverse_cons,
      List.append_assoc, List.singleton_append]

/-- A line end takes nothing off a line but a carriage return. -/
theorem exists_chomp_append (h : line.getLast? ≠ some '\r') (cs : List Char) :
    ∃ post, chomp (line ++ cs) = line ++ post := by
  unfold chomp
  split
  · rename_i hlast
    cases cs with
    | nil =>
      rw [List.append_nil] at hlast
      exact absurd hlast h
    | cons c cs => exact ⟨(c :: cs).dropLast,
        List.dropLast_append_of_ne_nil (List.cons_ne_nil c cs)⟩
  · exact ⟨cs, rfl⟩

/-- What a line starts with is kept, up to a carriage return at its end. -/
theorem exists_head_linesFrom (hne : line ≠ []) (hlast : line.getLast? ≠ some '\r')
    (cs : List Char) : ∃ post, (linesFrom line.reverse cs)[0]? = some (line ++ post) := by
  by_cases h : '\n' ∈ cs
  · obtain ⟨ds, rest, rfl, hds⟩ := List.eq_append_cons_of_mem h
    obtain ⟨post, hpost⟩ := exists_chomp_append hlast ds
    refine ⟨post, ?_⟩
    rw [linesFrom_append hds, linesFrom, if_pos rfl, List.reverse_append, List.reverse_reverse,
      List.reverse_reverse, hpost]
    rfl
  · refine ⟨cs, ?_⟩
    have hlines : linesFrom line.reverse (cs ++ []) = linesFrom (cs.reverse ++ line.reverse) [] :=
      linesFrom_append h
    rw [List.append_nil] at hlines
    rw [hlines, linesFrom, if_neg (by simp [hne]), List.reverse_append, List.reverse_reverse,
      List.reverse_reverse]
    rfl

/-- Whether every carriage return has a line feed after it. -/
def paired : List Char → Bool
  | [] => true
  | c :: cs => (c != '\r' || cs.head? == some '\n') && paired cs

theorem paired_of_forall (h : ∀ c ∈ cs, c ≠ '\r') : paired cs = true := by
  induction cs with
  | nil => rfl
  | cons c cs ih =>
    obtain ⟨hc, hcs⟩ := List.forall_mem_cons.1 h
    simp [paired, hc, ih hcs]

/-- Where each carriage return has its line feed, the position after a text says which of its lines
comes next, and how much of that line there is. -/
theorem exists_line {before word : List Char} (h : paired before = true) (hne : word ≠ [])
    (hword : ∀ c ∈ word, c ≠ '\n' ∧ c ≠ '\r') (after : List Char) (n : Nat) (line : List Char) :
    ∃ k pre post,
      (linesFrom line.reverse (before ++ (word ++ after)))[k]? = some (pre ++ (word ++ post)) ∧
      (⟨n, 1 + width line⟩ : Position).advanceAll (Token.foldLineEnds before) =
        ⟨n + k, 1 + width pre⟩ := by
  induction before using Token.foldLineEnds.induct generalizing n line with
  | case1 =>
    have hlast : (line ++ word).getLast? ≠ some '\r' := by
      rw [List.getLast?_append, List.getLast?_eq_some_getLast hne]
      simpa using (hword _ (List.getLast_mem hne)).2
    obtain ⟨post, hpost⟩ := exists_head_linesFrom (by simp [hne]) hlast after
    have hnewline : '\n' ∉ word := fun hmem => (hword _ hmem).1 rfl
    refine ⟨0, line, post, ?_, rfl⟩
    rw [List.nil_append, linesFrom_append hnewline, ← List.reverse_append, hpost, List.append_assoc]
  | case2 before ih =>
    have hbefore : paired before = true := by simpa [paired] using h
    obtain ⟨k, pre, post, hline, hposition⟩ := ih hbefore (n + 1) []
    refine ⟨k + 1, pre, post, ?_, ?_⟩
    · exact hline
    · rw [Token.foldLineEnds, Position.advanceAll_cons, Position.advance, if_pos rfl]
      rw [show n + (k + 1) = n + 1 + k by omega]
      exact hposition
  | case3 before hnot ih =>
    exfalso
    cases before with
    | nil => simp [paired] at h
    | cons c cs =>
      refine hnot cs ?_
      simp [paired] at h
      rw [h.1]
  | case4 c before hcrlf hcr ih =>
    have hc : c ≠ '\r' := fun heq => hcr heq
    have hbefore : paired before = true := by
      simp only [paired, Bool.and_eq_true] at h
      exact h.2
    rw [Token.foldLineEnds_cons hc, Position.advanceAll_cons, Position.advance]
    by_cases hnewline : c = '\n'
    · obtain ⟨k, pre, post, hline, hposition⟩ := ih hbefore (n + 1) []
      refine ⟨k + 1, pre, post, ?_, ?_⟩
      · rw [List.cons_append, linesFrom, if_pos hnewline]
        exact hline
      · rw [if_pos hnewline, show n + (k + 1) = n + 1 + k by omega]
        exact hposition
    · obtain ⟨k, pre, post, hline, hposition⟩ := ih hbefore n (line ++ [c])
      refine ⟨k, pre, post, ?_, ?_⟩
      · rw [List.cons_append, linesFrom, if_neg hnewline, ← hline, List.reverse_append]
        rfl
      · rw [if_neg hnewline, ← hposition, width_append, ← Nat.add_assoc]
        rfl

end Text

namespace Token

variable {a : Alphabet} {t : Token} {cs us vs : List Char}

/-! ## Line ends in one form -/

theorem foldLineEnds_return (h : ∀ ds, cs ≠ '\n' :: ds) :
    foldLineEnds ('\r' :: cs) = '\n' :: foldLineEnds cs := by
  rw [foldLineEnds]
  exact h

/-- A text whose line ends have one form is cut where the text itself can be cut. -/
theorem exists_append_of_foldLineEnds (h : foldLineEnds cs = us ++ vs) :
    ∃ bs ds, cs = bs ++ ds ∧ foldLineEnds bs = us ∧ foldLineEnds ds = vs := by
  induction cs using foldLineEnds.induct generalizing us with
  | case1 =>
    obtain ⟨rfl, rfl⟩ := List.append_eq_nil_iff.1 h.symm
    exact ⟨[], [], rfl, rfl, rfl⟩
  | case2 cs ih =>
    cases us with
    | nil => exact ⟨[], _, rfl, rfl, h⟩
    | cons u us =>
      rw [foldLineEnds] at h
      obtain ⟨rfl, htail⟩ := List.cons.inj h
      obtain ⟨bs, ds, rfl, rfl, hds⟩ := ih htail
      exact ⟨'\r' :: '\n' :: bs, ds, rfl, rfl, hds⟩
  | case3 cs hnot ih =>
    cases us with
    | nil => exact ⟨[], _, rfl, rfl, h⟩
    | cons u us =>
      rw [foldLineEnds_return hnot] at h
      obtain ⟨rfl, htail⟩ := List.cons.inj h
      obtain ⟨bs, ds, rfl, rfl, hds⟩ := ih htail
      refine ⟨'\r' :: bs, ds, rfl, foldLineEnds_return fun cs heq => ?_, hds⟩
      exact hnot (cs ++ ds) (by rw [heq]; rfl)
  | case4 c cs hcrlf hcr ih =>
    have hc : c ≠ '\r' := fun heq => hcr heq
    cases us with
    | nil => exact ⟨[], _, rfl, rfl, h⟩
    | cons u us =>
      rw [foldLineEnds_cons hc] at h
      obtain ⟨rfl, htail⟩ := List.cons.inj h
      obtain ⟨bs, ds, rfl, rfl, hds⟩ := ih htail
      exact ⟨c :: bs, ds, rfl, foldLineEnds_cons hc bs, hds⟩

/-- Within a line there is nothing to fold. -/
theorem foldLineEnds_eq_self (h : '\n' ∉ foldLineEnds cs) : foldLineEnds cs = cs := by
  induction cs using foldLineEnds.induct with
  | case1 => rfl
  | case2 cs ih => simp [foldLineEnds] at h
  | case3 cs hnot ih => simp [foldLineEnds_return hnot] at h
  | case4 c cs hcrlf hcr ih =>
    have hc : c ≠ '\r' := fun heq => hcr heq
    rw [foldLineEnds_cons hc, List.mem_cons, not_or] at h
    rw [foldLineEnds_cons hc, ih h.2]

/-! ## Tokens and lines -/

/-- The token stands in a text between `before` and `after`. -/
structure FoundIn (t : Token) (text : String) (before after : List Char) : Prop where
  text : text.toList = before ++ (t.text.toList ++ after)
  start : t.span.start = Position.advanceAll {} (foldLineEnds before)

/-- The line with the token's number is there, and in the token's columns it has the token. -/
structure QuotedBy (t : Token) (lines : List String) : Prop where
  line : t.span.stop.line = t.span.start.line
  shown : ∃ n line, t.span.start.line = n + 1 ∧ lines[n]? = some line ∧
    Text.occupying t.span.start.column t.span.stop.column line.toList = t.text.toList

theorem exists_foundIn {text : String} (ht : t ∈ scan a text) :
    ∃ before after, t.FoundIn text before after := by
  obtain ⟨before, after, htext, hspan, hblank, -⟩ := exists_place ht
  obtain ⟨bs, rest, hbs, rfl, hrest⟩ := exists_append_of_foldLineEnds htext
  obtain ⟨ws, ds, rfl, hws, -⟩ := exists_append_of_foldLineEnds hrest
  have hnewline : '\n' ∉ foldLineEnds ws := by
    rw [hws]
    exact fun hmem => absurd (hblank _ hmem) (by decide)
  rw [foldLineEnds_eq_self hnewline] at hws
  exact ⟨bs, ds, by rw [hbs, hws], by rw [hspan]⟩

theorem quotedBy_lines {text : String} {before after : List Char}
    (hfound : t.FoundIn text before after)
    (hstop : t.span.stop = t.span.start.advanceAll t.text.toList) (hne : t.text.toList ≠ [])
    (hblank : ∀ c ∈ t.text.toList, isBlank c = false) (hpaired : Text.paired before = true) :
    t.QuotedBy (Text.lines text) := by
  have hword : ∀ c ∈ t.text.toList, c ≠ '\n' ∧ c ≠ '\r' := by
    intro c hc
    constructor <;> rintro rfl <;> exact absurd (hblank _ hc) (by decide)
  obtain ⟨k, pre, post, hline, hposition⟩ := Text.exists_line hpaired hne hword after 1 []
  have hstart : t.span.start = ⟨1 + k, 1 + Text.width pre⟩ := hfound.start.trans hposition
  have hnewline : '\n' ∉ t.text.toList := fun hmem => (hword _ hmem).1 rfl
  rw [hstart, Position.advanceAll_of_notMem _ hnewline] at hstop
  refine ⟨by rw [hstop, hstart], k, String.ofList (pre ++ (t.text.toList ++ post)), ?_, ?_, ?_⟩
  · rw [hstart, Nat.add_comm]
  · rw [Text.lines, List.getElem?_map, hfound.text, ← List.reverse_nil, hline]
    rfl
  · rw [hstop, hstart, String.toList_ofList, Nat.add_assoc, ← Text.width_append]
    exact Text.occupying_append pre t.text.toList post

/-- **Every token is quoted by the line that it is on**, where line ends have one form, and in the
text itself if every carriage return before the token has its line feed. -/
theorem scan_quoted (a : Alphabet) (text : String) {t : Token} (ht : t ∈ scan a text)
    (heof : t.isEof = false) :
    t.QuotedBy (Text.lines (String.ofList (foldLineEnds text.toList))) ∧
      (∃ before after, t.FoundIn text before after) ∧
      ∀ before after, t.FoundIn text before after → Text.paired before = true →
        t.QuotedBy (Text.lines text) := by
  obtain ⟨before, after, hplace⟩ := exists_place ht
  have hne := hplace.ne_nil heof
  have hstop : t.span.stop = t.span.start.advanceAll t.text.toList := by
    rw [hplace.span, Position.advanceAll_append]
  refine ⟨?_, exists_foundIn ht, fun before after hfound =>
    quotedBy_lines hfound hstop hne hplace.blank⟩
  have hreturn : ∀ c ∈ before, c ≠ '\r' := fun c hc =>
    forall_foldLineEnds text.toList c (by rw [hplace.text]; exact List.mem_append_left _ hc)
  have hfound : t.FoundIn (String.ofList (foldLineEnds text.toList)) before after := by
    have hfold := foldLineEnds_append hreturn []
    rw [List.append_nil, foldLineEnds, List.append_nil] at hfold
    refine ⟨?_, ?_⟩
    · rw [String.toList_ofList, hplace.text]
    · rw [hplace.span, hfold]
  exact quotedBy_lines hfound hstop hne hplace.blank (Text.paired_of_forall hreturn)

/-- A wide character, a comment, a line end of each form before a token and a carriage return alone
after it. -/
theorem scan_quoted_named :
    let text := "é\r\n%é\n \\ab$1\r2"
    let t : Token := ⟨.control, "\\ab", ⟨⟨3, 2⟩, ⟨3, 5⟩⟩, true⟩
    t ∈ scan .music text ∧ t.FoundIn text "é\r\n%é\n ".toList "$1\r2".toList ∧
      Text.lines text = ["é", "%é", " \\ab$1\r2"] ∧ t.QuotedBy (Text.lines text) := by
  intro text t
  have hmem : t ∈ scan .music text := by decide +kernel
  have hfound : t.FoundIn text "é\r\n%é\n ".toList "$1\r2".toList := ⟨by decide, by decide⟩
  exact ⟨hmem, hfound, by decide +kernel,
    (scan_quoted .music text hmem (by decide)).2.2 _ _ hfound (by decide)⟩

/-- After a carriage return alone, a token is on a line that the text does not have. -/
theorem exists_unquoted : ∃ t ∈ scan .music "1\rx", t.isEof = false ∧
    ¬t.QuotedBy (Text.lines "1\rx") := by
  refine ⟨⟨.other, "x", ⟨⟨2, 1⟩, ⟨2, 2⟩⟩, true⟩, by decide +kernel, by decide, ?_⟩
  rintro ⟨-, n, line, hn, hline, -⟩
  have hlines : Text.lines "1\rx" = ["1\rx"] := by decide +kernel
  obtain rfl : n = 1 := Nat.succ.inj hn.symm
  rw [hlines] at hline
  cases hline

end Token

end Jianpu
