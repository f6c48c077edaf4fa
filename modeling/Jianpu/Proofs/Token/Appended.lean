import Jianpu.Proofs.Token.Scanned

/-!
# Scanning texts piece by piece

A piece of a text that ends with its line is scanned as if it were alone, whatever comes after it:
`Token.exists_scanFrom_line`. The kinds and the texts of tokens depend neither on the place of a
piece nor on the blanks before it (`Token.map_scanFrom_congr`). Line ends are folded piece by piece
too, and a carriage return at the end of a piece goes with the line feed after it.
-/

namespace Jianpu.Token

variable {a : Alphabet} {p q : Position} {cs ds gap rest : List Char} {c : Char}

/-! ## One token -/

theorem scanFrom_of_nil (h : (skip a false false p cs).rest = []) :
    scanFrom a p cs =
      [eof (skip a false false p cs).position (skip a false false p cs).spaced] := by
  rw [scanFrom]
  split
  · rfl
  · rename_i heq
    rw [h] at heq
    cases heq

theorem scanFrom_of_cons (h : (skip a false false p cs).rest = c :: rest) :
    scanFrom a p cs =
      ⟨(shape a c rest).1, String.ofList (c :: (shape a c rest).2),
        ⟨(skip a false false p cs).position,
          (skip a false false p cs).position.advanceAll (c :: (shape a c rest).2)⟩,
        (skip a false false p cs).spaced⟩ ::
      scanFrom a ((skip a false false p cs).position.advanceAll (c :: (shape a c rest).2))
        (rest.drop (shape a c rest).2.length) := by
  rw [scanFrom]
  split
  · rename_i heq
    rw [h] at heq
    cases heq
  · rename_i heq
    rw [h] at heq
    obtain ⟨rfl, rfl⟩ := List.cons.inj heq
    rfl

/-! ## Blanks -/

/-- If a character is skipped, whether it stands in a comment that goes on. -/
def skipped? (a : Alphabet) (comment : Bool) (c : Char) : Option Bool :=
  if comment && c != '\n' then some true
  else if isBlank c then some false
  else if c = a.comment then some true
  else none

theorem skip_cons (comment spaced : Bool) (p : Position) (c : Char) (cs : List Char) :
    skip a comment spaced p (c :: cs) =
      match skipped? a comment c with
      | some comment' => skip a comment' true (p.advance c) cs
      | none => ⟨spaced, p, c :: cs⟩ := by
  rw [skip, skipped?]
  split
  · rfl
  · split
    · rfl
    · split <;> rfl

theorem skipped?_of_isBlank (h : isBlank c = true) : skipped? a false c = some false := by
  simp [skipped?, h]

theorem skipped?_newline (comment : Bool) : skipped? a comment '\n' = some false := by
  simp [skipped?, isBlank]

/-- What ends a gap ends it also where more comes after. -/
theorem skip_append_of_cons {comment spaced : Bool}
    (h : (skip a comment spaced p cs).rest = c :: rest) (ds : List Char) :
    skip a comment spaced p (cs ++ ds) =
      { skip a comment spaced p cs with rest := c :: (rest ++ ds) } := by
  induction cs generalizing comment spaced p with
  | nil => cases h
  | cons d cs ih =>
    rw [skip_cons] at h
    rw [List.cons_append, skip_cons, skip_cons]
    split at h
    · exact ih h
    · obtain ⟨rfl, rfl⟩ := List.cons.inj h
      rfl

/-- A line end is skipped, also where it ends a comment. -/
theorem skip_append_of_nil {comment spaced : Bool} (h : (skip a comment spaced p cs).rest = [])
    (ds : List Char) : skip a comment spaced p (cs ++ '\n' :: ds) =
      skip a false true ((skip a comment spaced p cs).position.advance '\n') ds := by
  induction cs generalizing comment spaced p with
  | nil =>
    rw [List.nil_append, skip_cons, skipped?_newline]
    rfl
  | cons d cs ih =>
    rw [skip_cons] at h
    rw [List.cons_append, skip_cons, skip_cons]
    split at h
    · exact ih h
    · cases h

theorem rest_skip_congr (comment spaced spaced' : Bool) (p q : Position) (cs : List Char) :
    (skip a comment spaced p cs).rest = (skip a comment spaced' q cs).rest := by
  induction cs generalizing comment spaced spaced' p q with
  | nil => rfl
  | cons c cs ih =>
    rw [skip_cons, skip_cons]
    cases skipped? a comment c with
    | some comment' => exact ih ..
    | none => rfl

/-- Blanks at the start are skipped. -/
theorem rest_skip_blanks (hgap : ∀ c ∈ gap, isBlank c = true) (spaced : Bool) (p : Position)
    (cs : List Char) :
    (skip a false spaced p (gap ++ cs)).rest = (skip a false spaced p cs).rest := by
  induction gap generalizing spaced p with
  | nil => rfl
  | cons c gap ih =>
    obtain ⟨hc, hgap⟩ := List.forall_mem_cons.1 hgap
    rw [List.cons_append, skip_cons, skipped?_of_isBlank hc]
    exact (ih hgap true (p.advance c)).trans (rest_skip_congr ..)

/-- The token at the start, after blanks. -/
theorem exists_scanFrom_cons (hgap : ∀ c ∈ gap, isBlank c = true) (hc : skipped? a false c = none)
    (p : Position) (cs : List Char) :
    ∃ t q, scanFrom a p (gap ++ c :: cs) = t :: scanFrom a q (cs.drop (shape a c cs).2.length) ∧
      t.kind = (shape a c cs).1 ∧ t.text = String.ofList (c :: (shape a c cs).2) ∧
      (gap = [] → t.spaced = false) := by
  have hstop : skip a false false p (c :: cs) = ⟨false, p, c :: cs⟩ := by rw [skip_cons, hc]
  have hrest : (skip a false false p (gap ++ c :: cs)).rest = c :: cs := by
    rw [rest_skip_blanks hgap, hstop]
  refine ⟨_, _, scanFrom_of_cons hrest, rfl, rfl, ?_⟩
  rintro rfl
  rw [List.nil_append, hstop]

/-! ## Lines -/

/-- No token goes over the end of a line. -/
theorem shape_append_line (c : Char) (rest ds : List Char) :
    shape a c (rest ++ '\n' :: ds) = shape a c rest := by
  have htake : (rest ++ '\n' :: ds).takeWhile (fun d => isNameChar d && d != a.param) =
      rest.takeWhile fun d => isNameChar d && d != a.param := by
    have hend : isNameChar '\n' = false := by decide
    induction rest with
    | nil => exact List.takeWhile_cons_of_neg (by simp [hend])
    | cons d rest ih => rw [List.cons_append, List.takeWhile_cons, List.takeWhile_cons, ih]
  cases rest with
  | nil =>
    have halpha : ('\n' : Char).isAlpha = false := by decide
    have hdigit : ('\n' : Char).isDigit = false := by decide
    simp [shape, halpha, hdigit]
  | cons d rest =>
    unfold shape
    rw [htake]
    rfl

theorem length_shape_le (a : Alphabet) (c : Char) (rest : List Char) :
    (shape a c rest).2.length ≤ rest.length := by
  unfold shape
  generalize (if c = a.opening then Kind.opening else
    if c = a.closing then .closing else .other) = plain
  dsimp only
  split
  · split
    · exact (List.takeWhile_sublist _).length_le
    · exact Nat.zero_le _
  · split
    · cases rest with
      | nil => exact Nat.zero_le _
      | cons d rest =>
        dsimp only
        split
        · exact Nat.succ_le_succ (Nat.zero_le _)
        · exact Nat.zero_le _
    · exact Nat.zero_le _

theorem scanFrom_congr (h : skip a false false p cs = skip a false false q ds) :
    scanFrom a p cs = scanFrom a q ds := by
  cases hrest : (skip a false false p cs).rest with
  | nil =>
    rw [scanFrom_of_nil hrest, h]
    rw [h] at hrest
    rw [scanFrom_of_nil hrest]
  | cons c rest =>
    rw [scanFrom_of_cons hrest, h]
    rw [h] at hrest
    rw [scanFrom_of_cons hrest]

/-- **A line is scanned as if it were alone.** -/
theorem exists_scanFrom_line (a : Alphabet) (p : Position) (cs : List Char) :
    ∃ ts q spaced, scanFrom a p cs = ts ++ [eof q spaced] ∧
      ∀ ds, scanFrom a p (cs ++ '\n' :: ds) = ts ++ scanFrom a q ('\n' :: ds) := by
  fun_induction scanFrom a p cs with
  | case1 p cs gap h =>
    refine ⟨[], gap.position, gap.spaced, rfl, fun ds => scanFrom_congr ?_⟩
    rw [skip_append_of_nil h, skip_cons, skipped?_newline]
  | case2 p cs gap c rest h hlt kind more hshape stop ih =>
    obtain ⟨ts, q, spaced, hts, hline⟩ := ih
    refine ⟨_ :: ts, q, spaced, by rw [hts]; rfl, fun ds => ?_⟩
    have hskip := skip_append_of_cons h ('\n' :: ds)
    have hlength := length_shape_le a c rest
    rw [scanFrom_of_cons (by rw [hskip]), hskip]
    simp only [shape_append_line, hshape] at hlength ⊢
    rw [List.drop_append_of_le_length hlength, hline]
    rfl

/-- Kinds and texts of tokens depend on nothing that comes before. -/
theorem map_scanFrom_congr (h : (skip a false false p cs).rest = (skip a false false q ds).rest) :
    (scanFrom a p cs).map (fun t => (t.kind, t.text)) =
      (scanFrom a q ds).map fun t => (t.kind, t.text) := by
  fun_induction scanFrom a p cs generalizing q ds with
  | case1 p cs gap =>
    rename_i hrest
    rw [scanFrom_of_nil (h.symm.trans hrest)]
    rfl
  | case2 p cs gap c rest hrest hlt kind more hshape =>
    rename_i stop ih
    rw [scanFrom_of_cons (h.symm.trans hrest)]
    simp only [List.map_cons, hshape]
    rw [ih (rest_skip_congr ..)]

/-! ## Line ends -/

theorem foldLineEnds_cons (h : c ≠ '\r') (cs : List Char) :
    foldLineEnds (c :: cs) = c :: foldLineEnds cs := by
  rw [foldLineEnds]
  · simp [h]
  · simpa using h

/-- A text and its line end are folded before what comes after them. A carriage return at the end of
the text goes with the line end. -/
theorem exists_foldLineEnds_line (cs : List Char) :
    ∃ ds, (foldLineEnds cs = ds ∨ foldLineEnds cs = ds ++ ['\n']) ∧
      ∀ rest, foldLineEnds (cs ++ '\n' :: rest) = ds ++ '\n' :: foldLineEnds rest := by
  induction cs using foldLineEnds.induct with
  | case1 => exact ⟨[], .inl rfl, fun _ => rfl⟩
  | case2 cs ih =>
    obtain ⟨ds, hds, hrest⟩ := ih
    refine ⟨'\n' :: ds, ?_, fun rest => ?_⟩
    · rw [foldLineEnds]
      exact hds.imp (congrArg _) (congrArg _)
    · rw [List.cons_append, List.cons_append, foldLineEnds, hrest]
      rfl
  | case3 cs hcs ih =>
    obtain ⟨ds, hds, hrest⟩ := ih
    cases cs with
    | nil => exact ⟨[], .inr rfl, fun _ => rfl⟩
    | cons c cs =>
      have hc : c ≠ '\n' := fun heq => hcs cs (by rw [heq])
      have hfold : ∀ cs, foldLineEnds ('\r' :: c :: cs) = '\n' :: foldLineEnds (c :: cs) := by
        intro cs
        rw [foldLineEnds]
        simp [hc]
      refine ⟨'\n' :: ds, ?_, fun rest => ?_⟩
      · rw [hfold]
        exact hds.imp (congrArg _) (congrArg _)
      · rw [List.cons_append, List.cons_append, hfold, ← List.cons_append, hrest]
        rfl
  | case4 c cs h₁ h₂ ih =>
    obtain ⟨ds, hds, hrest⟩ := ih
    have hc : c ≠ '\r' := fun heq => h₂ heq
    refine ⟨c :: ds, ?_, fun rest => ?_⟩
    · rw [foldLineEnds_cons hc]
      exact hds.imp (congrArg _) (congrArg _)
    · rw [List.cons_append, foldLineEnds_cons hc, hrest]
      rfl

theorem foldLineEnds_append (h : ∀ c ∈ cs, c ≠ '\r') (ds : List Char) :
    foldLineEnds (cs ++ ds) = cs ++ foldLineEnds ds := by
  induction cs with
  | nil => rfl
  | cons c cs ih =>
    obtain ⟨hc, hcs⟩ := List.forall_mem_cons.1 h
    rw [List.cons_append, foldLineEnds_cons hc, ih hcs, List.cons_append]

/-! ## Pieces -/

theorem scanFrom_blanks (h : ∀ c ∈ cs, isBlank c = true) :
    scanFrom a p cs =
      [eof (skip a false false p cs).position (skip a false false p cs).spaced] := by
  have hrest := rest_skip_blanks (a := a) h false p []
  rw [List.append_nil] at hrest
  exact scanFrom_of_nil hrest

/-- Wherever the characters stand, and with blanks before them, they are scanned as tokens that
satisfy `W`, up to blanks at their end. -/
def Cuts (a : Alphabet) (cs : List Char) (W : List Token → Prop) : Prop :=
  ∃ ds, (∀ rest, foldLineEnds (cs ++ rest) = ds ++ foldLineEnds rest) ∧
    ∀ p gap rest, (∀ c ∈ gap, isBlank c = true) → ∃ ts q gap', (∀ c ∈ gap', isBlank c = true) ∧
      scanFrom a p (gap ++ (ds ++ rest)) = ts ++ scanFrom a q (gap' ++ rest) ∧ W ts

namespace Cuts

variable {V W : List Token → Prop}

theorem mono (h : Cuts a cs V) (hVW : ∀ ts, V ts → W ts) : Cuts a cs W := by
  obtain ⟨ds, hfold, hscan⟩ := h
  refine ⟨ds, hfold, fun p gap rest hgap => ?_⟩
  obtain ⟨ts, q, gap', hgap', hts, hV⟩ := hscan p gap rest hgap
  exact ⟨ts, q, gap', hgap', hts, hVW ts hV⟩

theorem append (h : Cuts a cs V) (h' : Cuts a ds W) :
    Cuts a (cs ++ ds) fun ts => ∃ us vs, ts = us ++ vs ∧ V us ∧ W vs := by
  obtain ⟨cs', hfold, hscan⟩ := h
  obtain ⟨ds', hfold', hscan'⟩ := h'
  refine ⟨cs' ++ ds', fun rest => ?_, fun p gap rest hgap => ?_⟩
  · rw [List.append_assoc, hfold, hfold', List.append_assoc]
  · obtain ⟨us, q, gap₁, hgap₁, hus, hV⟩ := hscan p gap (ds' ++ rest) hgap
    obtain ⟨vs, q', gap₂, hgap₂, hvs, hW⟩ := hscan' q gap₁ rest hgap₁
    refine ⟨us ++ vs, q', gap₂, hgap₂, ?_, us, vs, rfl, hV, hW⟩
    rw [List.append_assoc, hus, hvs, List.append_assoc]

theorem blanks (h : ∀ c ∈ cs, isBlank c = true) (hreturn : ∀ c ∈ cs, c ≠ '\r') :
    Cuts a cs (· = []) := by
  refine ⟨cs, foldLineEnds_append hreturn, fun p gap rest hgap => ?_⟩
  refine ⟨[], p, gap ++ cs, List.forall_mem_append.2 ⟨hgap, h⟩, ?_, rfl⟩
  rw [List.append_assoc, List.nil_append]

/-- A text with a line end after it. -/
theorem line (a : Alphabet) (text : String) : Cuts a (text.toList ++ ['\n']) fun ts =>
    ts.map (fun t => (t.kind, t.text)) =
      ((Token.scan a text).takeWhile fun t => !t.isEof).map fun t => (t.kind, t.text) := by
  obtain ⟨ds, hds, hfold⟩ := exists_foldLineEnds_line text.toList
  refine ⟨ds ++ ['\n'], fun rest => ?_, fun p gap rest hgap => ?_⟩
  · rw [List.append_assoc, List.singleton_append, hfold, List.append_assoc, List.singleton_append]
  obtain ⟨us, q, spaced, hus, hline⟩ := exists_scanFrom_line a {} ds
  have htext : ∃ q spaced, Token.scan a text = us ++ [eof q spaced] := by
    rcases hds with hds | hds
    · rw [Token.scan, hds]
      exact ⟨q, spaced, hus⟩
    · rw [Token.scan, hds, hline, scanFrom_blanks (List.forall_mem_singleton.2 rfl)]
      exact ⟨_, _, rfl⟩
  obtain ⟨q', spaced', htext⟩ := htext
  obtain ⟨ts, q, spaced, hts, hline⟩ := exists_scanFrom_line a p (gap ++ ds)
  refine ⟨ts, q, ['\n'], List.forall_mem_singleton.2 rfl, ?_, ?_⟩
  · rw [← List.append_assoc, ← List.append_assoc, List.append_assoc, List.singleton_append, hline]
  · have hcongr : (scanFrom a p (gap ++ ds)).map (fun t => (t.kind, t.text)) =
        (scanFrom a {} ds).map fun t => (t.kind, t.text) :=
      map_scanFrom_congr ((rest_skip_blanks hgap ..).trans (rest_skip_congr ..))
    rw [hts, hus, List.map_append, List.map_append] at hcongr
    rw [takeWhile_scan htext]
    exact List.append_cancel_right hcongr

/-- What a text that is one piece is scanned as. -/
theorem scan {text : String} (h : Cuts a text.toList W) :
    W ((Token.scan a text).takeWhile fun t => !t.isEof) := by
  obtain ⟨ds, hfold, hscan⟩ := h
  obtain ⟨ts, q, gap, hgap, hts, hW⟩ := hscan {} [] [] (by simp)
  have hfold := hfold []
  rw [List.append_nil, foldLineEnds, List.append_nil] at hfold
  rw [List.nil_append, List.append_nil, List.append_nil, ← hfold, scanFrom_blanks hgap] at hts
  rwa [takeWhile_scan hts]

end Cuts

end Jianpu.Token
