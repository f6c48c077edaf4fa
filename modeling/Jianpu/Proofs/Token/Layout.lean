import Jianpu.Proofs.Text.Order
import Jianpu.Proofs.Token.Appended
import Mathlib.Data.List.TakeWhile

/-!
# Where tokens stand

Scanning loses nothing and adds nothing. `Token.bare` is a text without its blanks and comments,
said without any tokens; the texts of the tokens, one after another, are just that. A token starts
at the position that everything before it leads to and stops at the one after its last character,
and it is noted as spaced where something stands between it and the token before:
`Token.scan_covers`.
-/

namespace Jianpu.Token

variable {a : Alphabet} {p : Position} {cs rest : List Char} {c : Char} {comment spaced : Bool}

/-- A text without its blanks and comments, from a place where a comment is going on or not. A
comment goes on up to the end of its line. -/
def bare (a : Alphabet) : Bool → List Char → List Char
  | _, [] => []
  | true, c :: cs => bare a (c != '\n') cs
  | false, c :: cs =>
    if c = ' ' ∨ c = '\t' ∨ c = '\n' then bare a false cs
    else if c = a.comment then bare a true cs
    else c :: bare a false cs

/-- The characters of tokens. -/
def texts (ts : List Token) : List Char := ts.flatMap (·.text.toList)

/-- Each token comes after the one before it, the first one after `p`, and is unspaced if it starts
where that one stops. -/
def InOrder : Position → List Token → Prop
  | _, [] => True
  | p, t :: ts => p ≤ t.span.start ∧ t.span.start ≤ t.span.stop ∧
      (t.spaced = false ↔ t.span.start = p) ∧ InOrder t.span.stop ts

/-- The token `t` after `us` and before `vs` stands in a text from `p` on: what is before it is `us`
with its blanks and comments, and what is after it is `vs` with its own. -/
def Stands (a : Alphabet) (p : Position) (cs : List Char) (us : List Token) (t : Token)
    (vs : List Token) : Prop :=
  ∃ before after, cs = before ++ (t.text.toList ++ after) ∧
    bare a false before = texts us ∧ bare a false after = texts vs ∧ (t.isEof = true → after = []) ∧
    t.span = ⟨p.advanceAll before, p.advanceAll (before ++ t.text.toList)⟩

/-- The tokens account for all of a text from `p` on. -/
structure Covers (a : Alphabet) (p : Position) (cs : List Char) (ts : List Token) : Prop where
  texts : texts (ts.takeWhile fun t => !t.isEof) = bare a false cs
  stands : ∀ us t vs, ts = us ++ t :: vs → Stands a p cs us t vs
  order : InOrder p ts

/-! ## Blanks and comments -/

/-- Outside comments, tokens are made of what is neither blank nor starts a comment. -/
theorem skipped?_eq_none_iff : skipped? a false c = none ↔ isBlank c = false ∧ c ≠ a.comment := by
  unfold skipped?
  cases isBlank c with
  | true => simp
  | false => simp

theorem bare_of_skipped {comment' : Bool} (h : skipped? a comment c = some comment')
    (hreturn : c ≠ '\r') (cs : List Char) : bare a comment (c :: cs) = bare a comment' cs := by
  cases comment with
  | true =>
    rw [bare]
    by_cases hc : c = '\n'
    · rw [hc, skipped?_newline] at h
      rw [hc, ← Option.some.inj h]
      rfl
    · have hne : (c != '\n') = true := by simpa using hc
      rw [skipped?, hne] at h
      rw [hne, ← Option.some.inj h]
  | false =>
    by_cases hc : isBlank c = true
    · rw [skipped?_of_isBlank hc] at h
      simp only [isBlank, Bool.or_eq_true, decide_eq_true_eq] at hc
      rw [bare, if_pos (by tauto), ← Option.some.inj h]
    · by_cases hcomment : c = a.comment
      · simp only [skipped?, hc, Bool.false_and, if_pos hcomment] at h
        simp only [isBlank, Bool.or_eq_true, decide_eq_true_eq] at hc
        rw [bare, if_neg (by tauto), if_pos hcomment, ← Option.some.inj h]
      · rw [skipped?_eq_none_iff.2 ⟨by simpa using hc, hcomment⟩] at h
        cases h

/-- No comment goes on where a token starts. -/
theorem comment_eq_false (h : skipped? a comment c = none) : comment = false := by
  cases comment with
  | false => rfl
  | true =>
    by_cases hc : c = '\n'
    · rw [hc, skipped?_newline] at h
      cases h
    · simp [skipped?, hc] at h

theorem bare_of_kept (h : skipped? a false c = none) (cs : List Char) :
    bare a false (c :: cs) = c :: bare a false cs := by
  obtain ⟨hblank, hcomment⟩ := skipped?_eq_none_iff.1 h
  simp only [isBlank, Bool.or_eq_false_iff, decide_eq_false_iff_not] at hblank
  rw [bare, if_neg (by tauto), if_neg hcomment]

theorem bare_append_of_kept (h : ∀ c ∈ cs, skipped? a false c = none) (ds : List Char) :
    bare a false (cs ++ ds) = cs ++ bare a false ds := by
  induction cs with
  | nil => rfl
  | cons c cs ih =>
    obtain ⟨hc, hcs⟩ := List.forall_mem_cons.1 h
    rw [List.cons_append, bare_of_kept hc, ih hcs, List.cons_append]

/-- What is skipped before a token. -/
theorem exists_gap (hreturn : ∀ d ∈ cs, d ≠ '\r')
    (h : (skip a comment spaced p cs).rest = c :: rest) :
    ∃ gap, cs = gap ++ c :: rest ∧
      skip a comment spaced p cs = ⟨spaced || !gap.isEmpty, p.advanceAll gap, c :: rest⟩ ∧
      skipped? a false c = none ∧ bare a comment gap = [] ∧
      ∀ ds, bare a comment (gap ++ c :: ds) = c :: bare a false ds := by
  induction cs generalizing comment spaced p with
  | nil => cases h
  | cons d cs ih =>
    obtain ⟨hd, hcs⟩ := List.forall_mem_cons.1 hreturn
    rw [skip_cons] at h ⊢
    cases hk : skipped? a comment d with
    | none =>
      rw [hk] at h
      obtain ⟨rfl, rfl⟩ := List.cons.inj h
      obtain rfl := comment_eq_false hk
      exact ⟨[], rfl, by simp, hk, rfl, bare_of_kept hk⟩
    | some comment' =>
      rw [hk] at h
      obtain ⟨gap, rfl, hskip, hc, hgap, hbare⟩ := ih hcs h
      refine ⟨d :: gap, rfl, ?_, hc, ?_, fun ds => ?_⟩
      · refine hskip.trans ?_
        simp
      · rw [bare_of_skipped hk hd, hgap]
      · rw [List.cons_append, bare_of_skipped hk hd, hbare]

/-- What is skipped before the end. -/
theorem skip_of_nil (hreturn : ∀ d ∈ cs, d ≠ '\r') (h : (skip a comment spaced p cs).rest = []) :
    skip a comment spaced p cs = ⟨spaced || !cs.isEmpty, p.advanceAll cs, []⟩ ∧
      bare a comment cs = [] := by
  induction cs generalizing comment spaced p with
  | nil => exact ⟨by simp [skip], by cases comment <;> rfl⟩
  | cons d cs ih =>
    obtain ⟨hd, hcs⟩ := List.forall_mem_cons.1 hreturn
    rw [skip_cons] at h ⊢
    cases hk : skipped? a comment d with
    | none =>
      rw [hk] at h
      cases h
    | some comment' =>
      rw [hk] at h
      obtain ⟨hskip, hbare⟩ := ih hcs h
      refine ⟨hskip.trans ?_, by rw [bare_of_skipped hk hd, hbare]⟩
      simp

/-! ## One token -/

theorem isNameChar_of_isAlpha (h : c.isAlpha = true) : isNameChar c = true := by
  unfold isNameChar Char.isAlphanum
  rw [h]
  rfl

theorem isNameChar_of_isDigit (h : c.isDigit = true) : isNameChar c = true := by
  unfold isNameChar Char.isAlphanum
  rw [h, Bool.or_true]
  rfl

/-- The characters of a name are not skipped, and no digit is, where no comment starts with them. -/
theorem skipped?_of_isNameChar (h : isNameChar c = true) (ha : isNameChar a.comment = false) :
    skipped? a false c = none := by
  have hne : c ≠ a.comment := by
    rintro rfl
    rw [h] at ha
    cases ha
  have hblank : isBlank c = false := by
    by_contra hc
    rw [Bool.not_eq_false] at hc
    simp only [isBlank, Bool.or_eq_true, decide_eq_true_eq] at hc
    rcases hc with ((rfl | rfl) | rfl) | rfl <;> exact absurd h (by decide)
  exact skipped?_eq_none_iff.2 ⟨hblank, hne⟩

/-- The characters of a token after the first one come from the text and could stand in a name. -/
theorem shape_spec (a : Alphabet) (c : Char) (cs : List Char) :
    ∃ rest, cs = (shape a c cs).2 ++ rest ∧ ∀ d ∈ (shape a c cs).2, isNameChar d = true := by
  unfold shape
  generalize (if c = a.opening then Kind.opening else
    if c = a.closing then .closing else .other) = plain
  dsimp only
  split
  · split
    · refine ⟨_, List.takeWhile_append_dropWhile.symm, fun d hd => ?_⟩
      have hname := List.mem_takeWhile_imp (p := fun d => isNameChar d && d != a.param) hd
      exact (Bool.and_eq_true_iff.1 hname).1
    · exact ⟨cs, rfl, by simp⟩
  · split
    · cases cs with
      | nil => exact ⟨[], rfl, by simp⟩
      | cons d cs =>
        dsimp only
        split
        · rename_i hd
          exact ⟨cs, rfl, List.forall_mem_singleton.2 (isNameChar_of_isDigit hd)⟩
        · exact ⟨d :: cs, rfl, by simp⟩
    · exact ⟨cs, rfl, by simp⟩

/-! ## Whole texts -/

/-- A text from `p` on is cut into tokens, one after another: a gap in which there are blanks and
comments only, and then the token. -/
inductive Scans (a : Alphabet) : Position → List Char → List Token → Prop
  | last {p : Position} {gap : List Char} (hgap : bare a false gap = []) :
      Scans a p gap [eof (p.advanceAll gap) !gap.isEmpty]
  | token {p : Position} {gap more rest : List Char} {c : Char} {kind : Kind} {ts : List Token}
      (hgap : bare a false gap = [])
      (hbare : ∀ ds, bare a false (gap ++ c :: ds) = c :: bare a false ds)
      (hkept : ∀ d ∈ c :: more, skipped? a false d = none)
      (hshape : shape a c (more ++ rest) = (kind, more))
      (hrest : Scans a (p.advanceAll (gap ++ c :: more)) rest ts) :
      Scans a p (gap ++ c :: (more ++ rest))
        (⟨kind, String.ofList (c :: more), ⟨p.advanceAll gap, p.advanceAll (gap ++ c :: more)⟩,
          !gap.isEmpty⟩ :: ts)

theorem scans_scanFrom (ha : isNameChar a.comment = false) (hreturn : ∀ d ∈ cs, d ≠ '\r') :
    Scans a p cs (scanFrom a p cs) := by
  fun_induction scanFrom a p cs with
  | case1 p cs gap h =>
    obtain ⟨hskip, hbare⟩ := skip_of_nil hreturn h
    change Scans a p cs [eof (skip a false false p cs).position (skip a false false p cs).spaced]
    rw [hskip]
    exact .last hbare
  | case2 p cs gap c rest h hlt kind more hshape stop ih =>
    obtain ⟨before, rfl, hskip, hc, hgap, hbare⟩ := exists_gap hreturn h
    obtain ⟨rest, hrest, hnames⟩ := shape_spec a c rest
    rw [hshape] at hrest hnames
    obtain rfl := hrest
    have hkept : ∀ d ∈ c :: more, skipped? a false d = none :=
      List.forall_mem_cons.2 ⟨hc, fun d hd => skipped?_of_isNameChar (hnames d hd) ha⟩
    have hposition : gap.position = p.advanceAll before := congrArg Gap.position hskip
    have hstop : stop = p.advanceAll (before ++ c :: more) := by
      rw [Position.advanceAll_append, ← hposition]
    rw [show gap.spaced = !before.isEmpty from congrArg Gap.spaced hskip, hposition, hstop]
    rw [hstop, List.drop_left] at ih
    rw [List.drop_left]
    exact .token hgap hbare hkept hshape (ih fun d hd => hreturn d (by simp [hd]))

namespace Scans

variable {ts : List Token}

theorem texts (h : Scans a p cs ts) : texts ts = bare a false cs := by
  induction h with
  | last hgap =>
    rw [hgap]
    rfl
  | token hgap hbare hkept _ _ ih =>
    obtain ⟨hc, hmore⟩ := List.forall_mem_cons.1 hkept
    rw [hbare, bare_append_of_kept hmore, ← ih]
    simp [Token.texts]

theorem stands (h : Scans a p cs ts) {us vs : List Token} {t : Token} (hts : ts = us ++ t :: vs) :
    Stands a p cs us t vs := by
  induction h generalizing us with
  | @last p gap hgap =>
    cases us with
    | nil =>
      obtain ⟨rfl, rfl⟩ := List.cons.inj hts
      exact ⟨gap, [], by simp [eof], hgap, rfl, fun _ => rfl, by simp [eof, Span.empty]⟩
    | cons u us => simp at hts
  | @token p gap more rest c kind ts hgap hbare hkept hshape hrest ih =>
    obtain ⟨hc, hmore⟩ := List.forall_mem_cons.1 hkept
    cases us with
    | nil =>
      obtain ⟨rfl, rfl⟩ := List.cons.inj hts
      refine ⟨gap, rest, by simp, hgap, hrest.texts.symm, fun heof => ?_, by simp⟩
      have hkind := kind_shape_ne_eof a c (more ++ rest)
      rw [hshape] at hkind
      simp [isEof, hkind] at heof
    | cons u us =>
      obtain ⟨rfl, htail⟩ := List.cons.inj hts
      obtain ⟨before, after, rfl, hbefore, hafter, heof, hspan⟩ := ih htail
      refine ⟨gap ++ c :: (more ++ before), after, by simp, ?_, hafter, heof, ?_⟩
      · rw [hbare, bare_append_of_kept hmore, hbefore]
        simp [Token.texts]
      · rw [hspan]
        simp [Position.advanceAll_append]

theorem inOrder (h : Scans a p cs ts) : InOrder p ts := by
  induction h with
  | @last p gap hgap =>
    refine ⟨p.le_advanceAll gap, le_rfl, ?_, trivial⟩
    simp [eof, Span.empty, Position.advanceAll_eq_self]
  | @token p gap more rest c kind ts hgap hbare hkept hshape hrest ih =>
    refine ⟨p.le_advanceAll gap, ?_, ?_, ih⟩
    · rw [Position.advanceAll_append]
      exact Position.le_advanceAll ..
    · simp [Position.advanceAll_eq_self]

end Scans

theorem forall_foldLineEnds (cs : List Char) : ∀ d ∈ foldLineEnds cs, d ≠ '\r' := by
  fun_induction foldLineEnds cs with
  | case1 => simp
  | case2 cs ih => exact List.forall_mem_cons.2 ⟨by decide, ih⟩
  | case3 cs _ ih => exact List.forall_mem_cons.2 ⟨by decide, ih⟩
  | case4 c cs _ hc ih => exact List.forall_mem_cons.2 ⟨hc, ih⟩

/-- **Scanning loses nothing, adds nothing and says where everything stands.** -/
theorem scan_covers (a : Alphabet) (ha : a = .tex ∨ a = .music) (text : String) :
    Covers a {} (foldLineEnds text.toList) (scan a text) := by
  have hcomment : isNameChar a.comment = false := by rcases ha with rfl | rfl <;> decide
  have hscans : Scans a {} (foldLineEnds text.toList) (scan a text) :=
    scans_scanFrom hcomment (forall_foldLineEnds _)
  refine ⟨?_, fun _ _ _ => hscans.stands, hscans.inOrder⟩
  obtain ⟨ts, q, spaced, hts, -⟩ := exists_scan a text
  rw [takeWhile_scan hts, ← hscans.texts, hts]
  simp [texts, eof]

/-- A wide character, both kinds of carriage returns, and comments before a line end and before the
end of the text. -/
theorem scan_covers_folded :
    let text := "é\r\n\\ab$1 %x\r 2%é"
    Covers .music {} (foldLineEnds text.toList) (scan .music text) ∧
      (scan .music text).map (fun t => (t.text, t.span, t.spaced)) =
        [("é", ⟨⟨1, 1⟩, ⟨1, 3⟩⟩, false), ("\\ab", ⟨⟨2, 1⟩, ⟨2, 4⟩⟩, true),
          ("$1", ⟨⟨2, 4⟩, ⟨2, 6⟩⟩, false), ("2", ⟨⟨3, 2⟩, ⟨3, 3⟩⟩, true),
          ("", ⟨⟨3, 6⟩, ⟨3, 6⟩⟩, true)] :=
  ⟨scan_covers .music (.inr rfl) _, by decide +kernel⟩

end Jianpu.Token
