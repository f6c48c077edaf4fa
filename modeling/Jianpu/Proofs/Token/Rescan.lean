import Jianpu.Proofs.Token.Layout

/-!
# Scanning what was written out

Tokens are written out with one space where blanks or a comment stood before them. A scanner looks
one character ahead at most, and the space tells it no more and no less than what it stands for
(`Token.shape_congr`). So scanning what was written out gives the tokens again, at other places:
`Token.scan_displayAll`.
-/

namespace Jianpu.Token

variable {a : Alphabet} {p : Position} {cs ds more : List Char} {c : Char} {ts : List Token}

/-- What a token is, wherever it stands. -/
def sense (t : Token) : Kind × String × Bool := (t.kind, t.text, t.spaced)

/-- The characters of tokens as they are written out. -/
def written (ts : List Token) : List Char := ts.flatMap (·.display.toList)

theorem toList_displayAll (ts : List Token) : (displayAll ts).toList = written ts := by
  induction ts with
  | nil => rfl
  | cons t ts ih =>
    rw [displayAll, List.map_cons, String.join_cons, ← displayAll, String.toList_append, ih]
    rfl

/-- The space of a token that is written out. -/
def space (spaced : Bool) : List Char := if spaced then [' '] else []

theorem written_cons (t : Token) (h : t.isParam = false) (ts : List Token) :
    written (t :: ts) = space t.spaced ++ (t.text.toList ++ written ts) := by
  rw [written, List.flatMap_cons, ← written, display, h]
  cases t.spaced <;> simp [space]

/-! ## Looking ahead -/

/-- The first character, if it belongs to a token. -/
def lookahead (a : Alphabet) (cs : List Char) : Option Char :=
  cs.head?.filter fun c => skipped? a false c = none

theorem lookahead_of_skipped (h : skipped? a false c ≠ none) (cs : List Char) :
    lookahead a (c :: cs) = none := by
  rw [lookahead, List.head?_cons, Option.filter_some, if_neg (by simpa using h)]

theorem lookahead_space (cs : List Char) : lookahead a (' ' :: cs) = none :=
  lookahead_of_skipped (by simp [skipped?_of_isBlank, isBlank]) cs

/-- What no skipped character satisfies can be seen in the lookahead. -/
theorem any_head? {P : Char → Bool} (hP : ∀ c, P c = true → skipped? a false c = none)
    (cs : List Char) : cs.head?.any P = (lookahead a cs).any P := by
  cases cs with
  | nil => rfl
  | cons c cs =>
    have hkept := hP c
    rw [lookahead, List.head?_cons, Option.filter_some]
    cases hc : P c with
    | true => simp [hkept hc, hc]
    | false => split <;> simp [hc]

theorem takeWhile_append_eq_left {P : Char → Bool} :
    (cs ++ ds).takeWhile P = cs ↔ (∀ c ∈ cs, P c = true) ∧ ds.head?.any P = false := by
  induction cs with
  | nil => cases ds <;> simp [List.takeWhile_cons]
  | cons c cs ih =>
    rw [List.cons_append, List.takeWhile_cons, List.forall_mem_cons, and_assoc, ← ih]
    cases P c <;> simp

/-- Which characters make up a token depends on the lookahead after it only. -/
theorem shape_congr {kind : Kind} (ha : isNameChar a.comment = false)
    (h : shape a c (more ++ cs) = (kind, more)) (hahead : lookahead a ds = lookahead a cs) :
    shape a c (more ++ ds) = (kind, more) := by
  have hany : ∀ {P : Char → Bool}, (∀ c, P c = true → isNameChar c = true) →
      ds.head?.any P = cs.head?.any P := fun hP => by
    have hkept := fun c hc => skipped?_of_isNameChar (hP c hc) ha
    rw [any_head? hkept, any_head? hkept, hahead]
  have halpha : (more ++ ds).head?.any Char.isAlpha = (more ++ cs).head?.any Char.isAlpha := by
    cases more with
    | nil => exact hany fun c => isNameChar_of_isAlpha
    | cons d more => rfl
  unfold shape at h ⊢
  generalize (if c = a.opening then Kind.opening else
    if c = a.closing then .closing else .other) = plain at h ⊢
  dsimp only at h ⊢
  by_cases hescape : c = a.escape
  · rw [if_pos hescape] at h ⊢
    rw [halpha]
    by_cases hname : (more ++ cs).head?.any Char.isAlpha = true
    · -- a control sequence ends where its name does
      rw [if_pos hname] at h ⊢
      obtain ⟨hkind, htake⟩ := Prod.mk.inj h
      obtain ⟨hmore, hstop⟩ := takeWhile_append_eq_left.1 htake
      rw [← hany fun c hc => (Bool.and_eq_true_iff.1 hc).1] at hstop
      rw [hkind, takeWhile_append_eq_left.2 ⟨hmore, hstop⟩]
    · rw [if_neg hname] at h ⊢
      exact h
  · rw [if_neg hescape] at h ⊢
    by_cases hparam : c = a.param
    · rw [if_pos hparam] at h ⊢
      cases more with
      | cons d more => exact h
      | nil =>
        -- no digit follows the parameter character
        have hdigit := hany fun c => isNameChar_of_isDigit
        cases cs with
        | nil =>
          cases ds with
          | nil => exact h
          | cons d ds =>
            have hd : d.isDigit = false := hdigit
            simpa [hd] using h
        | cons e cs =>
          cases he : e.isDigit with
          | true => simp [he] at h
          | false =>
            have hplain : plain = kind := by simpa [he] using h
            rw [List.head?_cons, Option.any_some, he] at hdigit
            cases ds with
            | nil => rw [← hplain]; rfl
            | cons d ds =>
              have hd : d.isDigit = false := hdigit
              simp [hd, hplain]
    · rw [if_neg hparam] at h ⊢
      exact h

/-! ## Texts -/

theorem scanFrom_space (hkept : skipped? a false c = none) {kind : Kind}
    (hshape : shape a c (more ++ cs) = (kind, more)) (spaced : Bool) (p : Position) :
    ∃ t q, scanFrom a p (space spaced ++ c :: (more ++ cs)) = t :: scanFrom a q cs ∧
      t.sense = (kind, String.ofList (c :: more), spaced) := by
  have hskip : ∃ q, skip a false false p (space spaced ++ c :: (more ++ cs)) =
      ⟨spaced, q, c :: (more ++ cs)⟩ := by
    cases spaced with
    | false => exact ⟨p, by simp [space, skip_cons, hkept]⟩
    | true => exact ⟨p.advance ' ', by simp [space, skip_cons, skipped?_of_isBlank, hkept, isBlank]⟩
  obtain ⟨q, hskip⟩ := hskip
  have hscan := scanFrom_of_cons (congrArg Gap.rest hskip)
  rw [hskip, hshape, List.drop_left] at hscan
  exact ⟨_, _, hscan, rfl⟩

namespace Scans

theorem lookahead_written (h : Scans a p cs ts) (hparam : ∀ t ∈ ts, t.isParam = false) :
    lookahead a (written ts) = lookahead a cs := by
  -- what is skipped cannot be seen, and neither can a space
  have hgap : ∀ {gap rest : List Char} {d : Char}, bare a false (d :: gap) = [] →
      lookahead a (d :: rest) = none := by
    intro gap rest d hbare
    refine lookahead_of_skipped (fun hkept => ?_) rest
    rw [bare_of_kept hkept] at hbare
    cases hbare
  cases h with
  | last hbare =>
    rw [written_cons _ rfl]
    cases cs with
    | nil => rfl
    | cons d gap => exact (lookahead_space _).trans (hgap hbare).symm
  | @token _ gap more rest c kind ts hbare _ hkept =>
    rw [written_cons _ (hparam _ List.mem_cons_self)]
    cases gap with
    | nil => simp [lookahead, space]
    | cons d gap => exact (lookahead_space _).trans (hgap hbare).symm

theorem map_sense (ha : isNameChar a.comment = false) (h : Scans a p cs ts)
    (hparam : ∀ t ∈ ts, t.isParam = false) (q : Position) :
    (scanFrom a q (written ts)).map sense = ts.map sense := by
  induction h generalizing q with
  | @last p gap hgap =>
    have hblank : ∀ c ∈ space !gap.isEmpty, isBlank c = true := by
      cases gap <;> simp [space, isBlank]
    have hwritten : written [eof (p.advanceAll gap) !gap.isEmpty] = space !gap.isEmpty :=
      (written_cons _ rfl []).trans (List.append_nil _)
    rw [hwritten, scanFrom_blanks hblank]
    cases gap with
    | nil => rfl
    | cons d gap => simp [space, skip, isBlank, sense, eof]
  | @token p gap more rest c kind ts hgap hbare hkept hshape hrest ih =>
    obtain ⟨ht, hts⟩ := List.forall_mem_cons.1 hparam
    have hahead := hrest.lookahead_written hts
    obtain ⟨t, q', hscan, hsense⟩ := scanFrom_space (hkept c List.mem_cons_self)
      (shape_congr ha hshape hahead) (!gap.isEmpty) q
    rw [written_cons _ ht]
    simp only [String.toList_ofList, List.cons_append]
    rw [hscan, List.map_cons, List.map_cons, ih hts, hsense]
    rfl

/-- No line end is written out. -/
theorem forall_written (h : Scans a p cs ts) (hparam : ∀ t ∈ ts, t.isParam = false) :
    ∀ c ∈ written ts, c ≠ '\r' := by
  have hspace : ∀ {spaced : Bool}, ∀ c ∈ space spaced, c ≠ '\r' := by
    intro spaced
    cases spaced <;> simp [space]
  induction h with
  | @last p gap hgap =>
    rw [written_cons _ rfl]
    exact List.forall_mem_append.2 ⟨hspace, by simp [eof, written]⟩
  | @token p gap more rest c kind ts hgap hbare hkept hshape hrest ih =>
    obtain ⟨ht, hts⟩ := List.forall_mem_cons.1 hparam
    rw [written_cons _ ht]
    refine List.forall_mem_append.2 ⟨hspace, List.forall_mem_append.2 ⟨fun d hd => ?_, ih hts⟩⟩
    rw [String.toList_ofList] at hd
    rintro rfl
    have hblank := (skipped?_eq_none_iff.1 (hkept _ hd)).1
    simp [isBlank] at hblank

end Scans

/-- **Scanning what was written out gives the tokens again.** -/
theorem scan_displayAll (a : Alphabet) (ha : a = .tex ∨ a = .music) (text : String)
    (hparam : ∀ t ∈ scan a text, t.isParam = false) :
    (scan a (displayAll (scan a text))).map sense = (scan a text).map sense := by
  have hcomment : isNameChar a.comment = false := by rcases ha with rfl | rfl <;> decide
  have hscans : Scans a {} (foldLineEnds text.toList) (scan a text) :=
    scans_scanFrom hcomment (forall_foldLineEnds _)
  have hfold := foldLineEnds_append (hscans.forall_written hparam) []
  rw [List.append_nil, foldLineEnds, List.append_nil] at hfold
  rw [scan, toList_displayAll, hfold]
  exact hscans.map_sense hcomment hparam {}

/-- A lone escape and a lone parameter character before comments, and a name before a comment at the
end. -/
theorem scan_displayAll_lone :
    let text := "\\%a\n$\t1\\ab_1$b\r\n\\c%"
    (∀ t ∈ scan .music text, t.isParam = false) ∧
      displayAll (scan .music text) = "\\ $ 1\\ab_1$b \\c " ∧
      (scan .music (displayAll (scan .music text))).map sense = (scan .music text).map sense := by
  have hparam : ∀ t ∈ scan .music "\\%a\n$\t1\\ab_1$b\r\n\\c%", t.isParam = false := by
    decide +kernel
  exact ⟨hparam, by decide +kernel, scan_displayAll .music (.inr rfl) _ hparam⟩

end Jianpu.Token
