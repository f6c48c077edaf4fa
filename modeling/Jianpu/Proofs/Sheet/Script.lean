import Jianpu.Proofs.Sheet.Draft
import Jianpu.Proofs.Token.Appended
import Mathlib.Data.List.TakeWhile

/-!
# Texts of headings and bodies

`Heading.text` is a heading as it is written, and its tokens write the heading wherever the text
stands (`Heading.cuts`). `Sheet.Clean` says that a text has no control sequence and is read alone
without a report. Such a text is derived from the grammar, so it has a tree without directives, and
its tokens write that tree wherever it stands: `Sheet.Clean.exists_passage`.
-/

namespace Jianpu

open Token (Cuts)

/-! ## Names -/

section Names

variable {c : Char}

/-- Letters and digits have no role in the source. -/
theorem Token.ordinary_of_isAlphanum (h : c.isAlphanum = true) (cs : List Char) :
    skipped? .music false c = none ∧ shape .music c cs = (.other, []) := by
  have hne : ∀ d : Char, d.isAlphanum = false → c ≠ d := by
    rintro d hd rfl
    rw [h] at hd
    cases hd
  have hblank : isBlank c = false := by
    simp [isBlank, hne ' ' (by decide), hne '\t' (by decide), hne '\r' (by decide),
      hne '\n' (by decide)]
  constructor
  · simp [skipped?, hblank, Alphabet.music, Alphabet.tex, hne '%' (by decide)]
  · simp [shape, Alphabet.music, Alphabet.tex, hne '\\' (by decide), hne '$' (by decide),
      hne '\x7b' (by decide), hne '\x7d' (by decide)]

theorem Text.isBlank_of_isAlphanum (h : c.isAlphanum = true) : isBlank c = false := by
  unfold Char.isAlphanum Char.isAlpha Char.isUpper Char.isLower Char.isDigit at h
  simp only [Bool.or_eq_true, Bool.and_eq_true, decide_eq_true_eq, ge_iff_le,
    UInt32.le_iff_toNat_le] at h
  have hrange : 0x30 ≤ c.toNat ∧ c.toNat ≤ 0x7A := by
    show 0x30 ≤ c.val.toNat ∧ c.val.toNat ≤ 0x7A
    rcases h with (h | h) | h <;> exact ⟨Nat.le_trans (by decide) h.1, Nat.le_trans h.2 (by decide)⟩
  simp only [isBlank, Bool.or_eq_false_iff, Bool.and_eq_false_iff, decide_eq_false_iff_not]
  omega

theorem Text.trim_ofList {cs : List Char} (h : ∀ c ∈ cs, isBlank c = false) :
    trim (String.ofList cs) = String.ofList cs := by
  have hdrop : ∀ {cs : List Char}, (∀ c ∈ cs, isBlank c = false) → cs.dropWhile isBlank = cs := by
    intro cs hcs
    cases cs with
    | nil => rfl
    | cons c cs => exact List.dropWhile_cons_of_neg (by simp [hcs c List.mem_cons_self])
  rw [trim, String.toList_ofList, trimChars, hdrop h, hdrop (by simpa using h),
    List.reverse_reverse]

/-- The tokens of a name. -/
theorem Token.exists_scanFrom_name {cs : List Char} (h : ∀ c ∈ cs, c.isAlphanum = true)
    (p : Position) (ds : List Char) :
    ∃ ts q, scanFrom .music p (cs ++ ds) = ts ++ scanFrom .music q ds ∧
      (∀ t ∈ ts, t.kind = .other) ∧ displayAll ts = String.ofList cs := by
  induction cs generalizing p with
  | nil => exact ⟨[], p, rfl, by simp, rfl⟩
  | cons c cs ih =>
    obtain ⟨hc, hcs⟩ := List.forall_mem_cons.1 h
    obtain ⟨hskipped, hshape⟩ := ordinary_of_isAlphanum hc (cs ++ ds)
    obtain ⟨t, q, hscan, hkind, htext, hspaced⟩ :=
      exists_scanFrom_cons (List.forall_mem_nil _) hskipped p (cs ++ ds)
    rw [hshape] at hscan hkind htext
    obtain ⟨ts, q', hts, hkinds, hdisplay⟩ := ih hcs q
    refine ⟨t :: ts, q', ?_, List.forall_mem_cons.2 ⟨hkind, hkinds⟩, ?_⟩
    · rw [List.nil_append] at hscan
      rw [List.cons_append, hscan, List.length_nil, List.drop_zero, hts, List.cons_append]
    · have hdisplay' : t.display = String.ofList [c] := by
        simp [display, isParam, hkind, hspaced, htext]
      rw [displayAll, List.map_cons, String.join_cons, ← displayAll, hdisplay, hdisplay',
        ← String.ofList_append]
      rfl

end Names

/-! ## Headings -/

/-- A control sequence with a name in braces after it. -/
theorem Token.cuts_braced (word : List Char) {d : Directive} {name : String}
    (hword : ∀ rest, shape .music '\\' (word ++ '\x7b' :: rest) = (.control, word))
    (hreturn : ∀ c ∈ word, c ≠ '\r') (hd : (String.ofList ('\\' :: word), d) ∈ Directive.table)
    (hname : ∀ c ∈ name.toList, c.isAlphanum = true) :
    Cuts .music ('\\' :: (word ++ '\x7b' :: (name.toList ++ ['\x7d']))) fun ts =>
      ∃ t us, ts = t :: us ∧ t.Names d ∧ Bracketed name us := by
  refine ⟨_, foldLineEnds_append ?_, fun p gap rest hgap => ?_⟩
  · have hnames : ∀ c ∈ name.toList, c ≠ '\r' := by
      rintro c hc rfl
      exact absurd (hname _ hc) (by decide)
    simp only [List.mem_cons, List.mem_append, List.not_mem_nil, or_false]
    rintro c (rfl | hc | rfl | hc | rfl)
    · decide
    · exact hreturn c hc
    · decide
    · exact hnames c hc
    · decide
  · obtain ⟨t, q₁, ht, htkind, httext, -⟩ := exists_scanFrom_cons hgap
      (by decide : skipped? .music false '\\' = none) p
      (word ++ '\x7b' :: (name.toList ++ '\x7d' :: rest))
    obtain ⟨o, q₂, ho, hokind, -, -⟩ := exists_scanFrom_cons (List.forall_mem_nil _)
      (by decide : skipped? .music false '\x7b' = none) q₁ (name.toList ++ '\x7d' :: rest)
    obtain ⟨inner, q₃, hinner, hkinds, hdisplay⟩ :=
      exists_scanFrom_name hname q₂ ('\x7d' :: rest)
    obtain ⟨c, q₄, hc, hckind, -, -⟩ := exists_scanFrom_cons (List.forall_mem_nil _)
      (by decide : skipped? .music false '\x7d' = none) q₃ rest
    rw [hword] at ht htkind httext
    refine ⟨t :: o :: (inner ++ [c]), q₄, [], by simp, ?_, t, _, rfl, ⟨htkind, ?_⟩, o, inner, c,
      rfl, hokind, hckind, hkinds, ?_⟩
    · have ho : scanFrom .music q₁ ('\x7b' :: (name.toList ++ '\x7d' :: rest)) =
          o :: scanFrom .music q₂ (name.toList ++ '\x7d' :: rest) := ho
      have hc : scanFrom .music q₃ ('\x7d' :: rest) = c :: scanFrom .music q₄ rest := hc
      rw [List.drop_left, ho, hinner, hc] at ht
      simpa using ht
    · rwa [httext]
    · rw [hdisplay, Text.trim_ofList fun c hc => Text.isBlank_of_isAlphanum (hname c hc),
        String.ofList_toList]

namespace Heading

/-- What a heading is written with. -/
def text : Heading → String
  | track name => "\\track\x7b" ++ name ++ "\x7d"
  | voice name => "\\v\x7b" ++ name ++ "\x7d"

theorem cuts (x : Heading) (h : ∀ c ∈ x.name.toList, c.isAlphanum = true) :
    Cuts .music x.text.toList x.Written := by
  cases x with
  | track name =>
    have hcuts := Token.cuts_braced ['t', 'r', 'a', 'c', 'k'] (d := .track)
      (fun _ => rfl) (by simp) (by decide) h
    rw [text, String.toList_append, String.toList_append]
    exact hcuts
  | voice name =>
    have hcuts := Token.cuts_braced ['v'] (d := .voice) (fun _ => rfl) (by simp) (by decide) h
    rw [text, String.toList_append, String.toList_append]
    exact hcuts

end Heading

/-! ## Bodies -/

theorem exists_marks {ms : List Token} (h : Derives .modifiers ms) :
    ∃ marks, ms.map (·.lexeme) = Mark.render marks := by
  have hmarks := derives_modifiers_iff.1 h
  clear h
  induction ms with
  | nil => exact ⟨[], rfl⟩
  | cons t ms ih =>
    obtain ⟨⟨m, hm⟩, hms⟩ := List.forall_mem_cons.1 hmarks
    obtain ⟨marks, hmarks⟩ := ih hms
    refine ⟨m :: marks, ?_⟩
    rw [List.map_cons, hmarks, Token.lexeme_of_single? hm]
    rfl

/-- Tokens of a symbol have a tree without directives, and so have all tokens that are spelt like
them. -/
def HasTree : Symbol → List Token → Prop
  | .sequence, ts => ∃ p : Passage, p.Plain ∧
      ∀ us : List Token, us.map (·.lexeme) = ts.map (·.lexeme) → p.Written us
  | .group, ts => ∃ bs : Passages, bs.Plain ∧
      ∀ us : List Token, us.map (·.lexeme) = ts.map (·.lexeme) →
        ∃ o vs c, us = o :: (vs ++ [c]) ∧ o.kind = .opening ∧ bs.Written vs ∧ c.kind = .closing
  | .branches, ts => ∃ bs : Passages, bs.Plain ∧
      ∀ us : List Token, us.map (·.lexeme) = ts.map (·.lexeme) → bs.Written us
  | .modifiers, _ | .modifier, _ => True

section Trees

variable {t o c : Token} {ts ms gs bs : List Token}

theorem hasTree_note (ht : t.IsNote) (hms : Derives .modifiers ms) (hts : HasTree .sequence ts) :
    HasTree .sequence (t :: (ms ++ ts)) := by
  obtain ⟨degree, hdegree⟩ := ht.exists_degree
  obtain ⟨marks, hmarks⟩ := exists_marks hms
  obtain ⟨p, hp, hwritten⟩ := hts
  refine ⟨.note degree marks p, hp, fun us hus => ?_⟩
  obtain ⟨t', rest, rfl, ht', hrest⟩ := List.map_eq_cons_iff.1 hus
  rw [List.map_append] at hrest
  obtain ⟨ms', ts', rfl, hms', hts'⟩ := List.map_eq_append_iff.1 hrest
  exact ⟨t', ms', ts', rfl, ht'.trans (Token.lexeme_of_single? hdegree), hms'.trans hmarks,
    hwritten ts' hts'⟩

theorem hasTree_group (hgs : HasTree .group gs) (hms : Derives .modifiers ms)
    (hts : HasTree .sequence ts) : HasTree .sequence (gs ++ (ms ++ ts)) := by
  obtain ⟨marks, hmarks⟩ := exists_marks hms
  obtain ⟨branches, hbranches, hgroup⟩ := hgs
  obtain ⟨p, hp, hwritten⟩ := hts
  refine ⟨.group branches marks p, ⟨hbranches, hp⟩, fun us hus => ?_⟩
  rw [List.map_append, List.map_append] at hus
  obtain ⟨gs', rest, rfl, hgs', hrest⟩ := List.map_eq_append_iff.1 hus
  obtain ⟨ms', ts', rfl, hms', hts'⟩ := List.map_eq_append_iff.1 hrest
  obtain ⟨o, vs, c, rfl, ho, hvs, hc⟩ := hgroup gs' hgs'
  exact ⟨o, vs, c, ms', ts', by simp, ho, hvs, hc, hms'.trans hmarks, hwritten ts' hts'⟩

theorem hasTree_braces (ho : o.kind = .opening) (hbs : HasTree .branches bs)
    (hc : c.kind = .closing) : HasTree .group (o :: (bs ++ [c])) := by
  obtain ⟨branches, hbranches, hwritten⟩ := hbs
  refine ⟨branches, hbranches, fun us hus => ?_⟩
  obtain ⟨o', rest, rfl, ho', hrest⟩ := List.map_eq_cons_iff.1 hus
  rw [List.map_append] at hrest
  obtain ⟨bs', last, rfl, hbs', hlast⟩ := List.map_eq_append_iff.1 hrest
  obtain ⟨c', last, rfl, hc', hnil⟩ := List.map_eq_cons_iff.1 hlast
  obtain rfl := List.map_eq_nil_iff.1 hnil
  exact ⟨o', bs', c', rfl, (congrArg Prod.fst ho').trans ho, hwritten bs' hbs',
    (congrArg Prod.fst hc').trans hc⟩

theorem hasTree_more (hts : HasTree .sequence ts) (ht : t.IsOneOf ['|', ','])
    (hbs : HasTree .branches bs) : HasTree .branches (ts ++ t :: bs) := by
  obtain ⟨p, hp, hwritten⟩ := hts
  obtain ⟨branches, hbranches, hwritten'⟩ := hbs
  refine ⟨.more p branches, ⟨hp, hbranches⟩, fun us hus => ?_⟩
  rw [List.map_append] at hus
  obtain ⟨ts', rest, rfl, hts', hrest⟩ := List.map_eq_append_iff.1 hus
  obtain ⟨t', bs', rfl, ht', hbs'⟩ := List.map_eq_cons_iff.1 hrest
  obtain ⟨x, hx, hsingle⟩ := ht
  have hsingle' := Token.single?_of_lexeme (ht'.trans (Token.lexeme_of_single? hsingle))
  exact ⟨ts', t', bs', rfl, hwritten ts' hts', Token.isSeparator_iff.2 ⟨x, hx, hsingle'⟩,
    hwritten' bs' hbs'⟩

end Trees

/-- **What is derived from the grammar has a tree.** -/
theorem Derives.hasTree {x : Symbol} {ts : List Token} (h : Derives x ts) : HasTree x ts := by
  induction h with
  | nil => exact ⟨.nil, trivial, fun us hus => List.map_eq_nil_iff.1 hus⟩
  | note ht hms _ _ ih => exact hasTree_note ht hms ih
  | group _ hms _ ihg _ ih => exact hasTree_group ihg hms ih
  | braces ho _ hc ih => exact hasTree_braces ho ih hc
  | last _ ih =>
    obtain ⟨p, hp, hwritten⟩ := ih
    exact ⟨.last p, hp, hwritten⟩
  | more _ ht _ ih ihb => exact hasTree_more ih ht ihb
  | noModifier | modifiers | single | run => trivial

namespace Sheet

/-- The text has no control sequence, and nothing is reported when it is read alone. -/
structure Clean (limit : Nat) (text : String) : Prop where
  plain : ∀ t ∈ Token.scan .music text, t.kind ≠ .control
  accepted : ∃ fuel r, 2 * (Token.scan .music text).length + 1 ≤ fuel ∧
    parse fuel (.ofText .music text) limit = some r ∧ r.diagnostics = []

variable {limit : Nat} {text : String}

/-- Whether a text is clean can be found out by reading it. -/
theorem clean_of_parse (hplain : ∀ t ∈ Token.scan .music text, t.kind ≠ .control)
    (hparse : (parse (2 * (Token.scan .music text).length + 1) (.ofText .music text) limit).any
      (·.diagnostics = []) = true) : Clean limit text := by
  obtain ⟨r, hr, hdiagnostics⟩ := (Option.any_eq_true _ _).1 hparse
  exact ⟨hplain, _, r, le_rfl, hr, of_decide_eq_true hdiagnostics⟩

theorem Clean.derives (h : Clean limit text) :
    Derives .sequence ((Token.scan .music text).takeWhile fun t => !t.isEof) := by
  obtain ⟨fuel, r, hf, hparse, hdiagnostics⟩ := h.accepted
  obtain ⟨ends, endless, hsource, hends, hlength⟩ := Token.exists_source .music text
  have hplain : ∀ t ∈ (Token.scan .music text).takeWhile (fun t => !t.isEof),
      t.kind ≠ .control ∧ t.isEof = false := fun t ht =>
    ⟨h.plain t ((List.takeWhile_sublist _).subset ht), by simpa using List.mem_takeWhile_imp ht⟩
  have hahead := Macro.Expander.ahead_ofSource endless Directive.scopes limit rfl hplain hends
  rw [← hsource] at hahead
  have hplaced : Draft.Placed { input := .ofSource (.ofText .music text) Directive.scopes limit } :=
    fun _ hi => by cases hi
  obtain ⟨_, d, hall, hderives⟩ := Drafting.all_takesDerived hahead hplaced
    (fun n hn => (Option.some.inj hn).symm) (by omega : _ ≤ fuel)
  have hr := Option.some.inj (hparse.symm.trans (parse_of_all hall))
  rw [hr, Macro.Expander.diagnostics, List.reverse_eq_nil_iff] at hdiagnostics
  exact (hderives hdiagnostics).2

/-- A clean text writes a tree without directives, wherever it stands. -/
theorem Clean.exists_passage (h : Clean limit text) :
    ∃ p : Passage, p.Plain ∧ Cuts .music (text.toList ++ ['\n']) p.Written := by
  obtain ⟨p, hp, hwritten⟩ := h.derives.hasTree
  exact ⟨p, hp, (Cuts.line .music text).mono hwritten⟩

end Sheet

end Jianpu
