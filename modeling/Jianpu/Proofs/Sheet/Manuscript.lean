import Jianpu.Proofs.Sheet.Strip

/-!
# Manuscripts

A manuscript is a sheet as a tree: directives for the whole sheet, and then sections of music under
headings. `Manuscript.state` interprets it one section after another, handing what is ambient from
the end of a voice to the next section for that voice.

`Sheet.exists_draft` reads the tokens of a manuscript, and the draft is what the sheet state says.
So what is ambient is scoped as the text is: `Sheet.contents_lexical`. In a `Piece` there can be
music before the first heading too.
-/

namespace Jianpu

open Macro.Expander (Literal levelAfterAll levelAfterAll_append levelAfterAll_cons)
open Phrase (degree)

/-! ## Matching braces -/

/-- The braces among the tokens match, and all control sequences are directives. -/
structure Token.Tidy (ts : List Token) : Prop where
  literal : ∀ t ∈ ts, Literal Directive.scopes.global t
  level : ∀ n, levelAfterAll (ts.map (·.kind)) n = some n

namespace Token.Tidy

variable {t o c : Token} {ts us : List Token}

theorem nil : Tidy [] := ⟨by simp, fun _ => rfl⟩

theorem append (h : Tidy ts) (h' : Tidy us) : Tidy (ts ++ us) where
  literal := List.forall_mem_append.2 ⟨h.literal, h'.literal⟩
  level n := by
    rw [List.map_append, levelAfterAll_append, h.level]
    exact h'.level n

theorem other (ht : t.kind = .other) : Tidy [t] where
  literal u hu := by
    obtain rfl := List.mem_singleton.1 hu
    exact ⟨isEof_of_kind ht (by simp), by simp [ht]⟩
  level n := by
    rw [List.map_singleton, ht]
    rfl

theorem names {d : Directive} (ht : t.Names d) : Tidy [t] where
  literal u hu := by
    obtain rfl := List.mem_singleton.1 hu
    exact ⟨isEof_of_kind ht.1 (by simp), fun _ => ⟨d, Directive.lookup_scopes _ ht.2⟩⟩
  level n := by
    rw [List.map_singleton, ht.1]
    rfl

theorem braces (ho : o.kind = .opening) (h : Tidy ts) (hc : c.kind = .closing) :
    Tidy (o :: (ts ++ [c])) where
  literal := by
    refine List.forall_mem_cons.2 ⟨⟨isEof_of_kind ho (by simp), by simp [ho]⟩,
      List.forall_mem_append.2 ⟨h.literal, fun u hu => ?_⟩⟩
    obtain rfl := List.mem_singleton.1 hu
    exact ⟨isEof_of_kind hc (by simp), by simp [hc]⟩
  level n := by
    rw [List.map_cons, List.map_append, levelAfterAll_cons, ho]
    show levelAfterAll _ (n + 1) = _
    rw [levelAfterAll_append, h.level, List.map_singleton, hc]
    rfl

theorem others (h : ∀ t ∈ ts, t.kind = .other) : Tidy ts := by
  induction ts with
  | nil => exact nil
  | cons t ts ih =>
    obtain ⟨ht, hts⟩ := List.forall_mem_cons.1 h
    exact (other ht).append (ih hts)

theorem marks {ms : List Mark} (h : ts.map (·.lexeme) = Mark.render ms) : Tidy ts := by
  refine others fun t ht => ?_
  have hmem : t.lexeme ∈ Mark.render ms := h ▸ List.mem_map_of_mem ht
  obtain ⟨m, -, hm⟩ := List.mem_map.1 hmem
  exact congrArg Prod.fst hm.symm

theorem inTurn {α : Type} {W : α → List Token → Prop} (hW : ∀ x ts, W x ts → Tidy ts) {xs : List α}
    (h : InTurn W xs ts) : Tidy ts := by
  induction xs generalizing ts with
  | nil =>
    obtain rfl : ts = [] := h
    exact nil
  | cons x xs ih =>
    obtain ⟨us, vs, rfl, hus, hvs⟩ := h
    exact (hW x us hus).append (ih hvs)

end Token.Tidy

open Token (Tidy)

theorem Token.Bracketed.tidy {text : String} {ts : List Token} (h : Bracketed text ts) :
    Tidy ts := by
  obtain ⟨o, inner, c, rfl, ho, hc, hinner, -⟩ := h
  exact .braces ho (.others hinner) hc

theorem Change.Written.tidy {c : Change} {ts : List Token} (h : c.Written ts) : Tidy ts := by
  obtain ⟨t, us, rfl, ht, hus⟩ := h
  exact (Tidy.names ht).append (.inTurn (fun _ _ => Token.Bracketed.tidy) hus)

mutual

theorem Passage.Written.tidy : ∀ {p : Passage} {ts : List Token}, p.Written ts → Tidy ts
  | .nil, _, h => by
    obtain rfl := (h : _ = [])
    exact .nil
  | .note degree marks p, _, h => by
    obtain ⟨t, ms, us, rfl, ht, hms, hus⟩ := h
    exact (Tidy.other (congrArg Prod.fst ht)).append ((Tidy.marks hms).append hus.tidy)
  | .group bs marks p, _, h => by
    obtain ⟨o, ts, c, ms, us, rfl, ho, hts, hc, hms, hus⟩ := h
    have hgroup := (Tidy.braces ho hts.tidy hc).append ((Tidy.marks hms).append hus.tidy)
    rwa [List.cons_append, List.append_assoc] at hgroup
  | .change c p, _, h => by
    obtain ⟨us, vs, rfl, hus, hvs⟩ := h
    exact hus.tidy.append hvs.tidy

theorem Passages.Written.tidy : ∀ {bs : Passages} {ts : List Token}, bs.Written ts → Tidy ts
  | .last _, _, h => Passage.Written.tidy h
  | .more p bs, _, h => by
    obtain ⟨us, t, vs, rfl, hus, ht, hvs⟩ := h
    obtain ⟨c, -, hc⟩ := Token.isSeparator_iff.1 ht
    exact hus.tidy.append ((Tidy.other (Token.kind_of_single? hc)).append hvs.tidy)

end

theorem Section.Written.tidy {s : Section} {ts : List Token} (h : s.Written ts) : Tidy ts := by
  obtain ⟨_, vs, rfl, ⟨t, us, rfl, ht, hus⟩, hvs⟩ := h
  exact ((Tidy.names ht).append hus.tidy).append hvs.tidy

/-! ## Sections -/

theorem Section.halts_of_written {ss : List Section} {ts : List Token}
    (h : Token.InTurn Section.Written ss ts) : Halts ts := by
  cases ss with
  | nil =>
    obtain rfl : ts = [] := h
    exact .nil
  | cons s ss =>
    obtain ⟨_, _, rfl, ⟨_, _, rfl, ⟨t, us, rfl, ht, -⟩, -⟩, -⟩ := h
    refine .of_names ?_
    cases hs : s.heading with
    | track => exact .inl (by rwa [hs] at ht)
    | voice => exact .inr (by rwa [hs] at ht)

/-- The reader reads one section after another, up to the end. -/
theorem Drafting.all_sections {ss : List Section} {d : Draft} {k : SheetState} {h : Header}
    {log : List Diagnostic} {ts : List Token} {fuel : Nat} (hd : d.Follows k h)
    (hts : Token.InTurn Section.Written ss ts) (hserve : Serving log d.input ts)
    (hf : ts.length + 4 ≤ fuel) :
    Succeeds (all fuel) d fun _ d' => d'.Follows (ss.foldl SheetState.enter k) h ∧
      ((∀ s ∈ ss, s.music.Plain) → d'.input.reported = log) := by
  induction ss generalizing d k log ts fuel with
  | nil =>
    obtain rfl : ts = [] := hts
    obtain ⟨e, hall, h'⟩ := all_end hserve (by omega : 2 ≤ fuel)
    exact .of_eq hall ⟨hd.reads e d.started, fun _ => h'.steady.reported⟩
  | cons s ss ih =>
    obtain ⟨_, ws, rfl, ⟨us, vs, rfl, hus, hvs⟩, hws⟩ := hts
    rw [List.append_assoc] at hserve
    simp only [List.length_append] at hf
    obtain ⟨fuel, rfl⟩ : ∃ n, fuel = n + 1 := ⟨fuel - 1, by omega⟩
    have hlen : 1 ≤ us.length := by
      obtain ⟨t, us, rfl, -⟩ := hus
      simp
    refine all_heading hd hus hserve (by omega) fun d₁ hd₁ hstarted h₁ => ?_
    refine all_passage hd₁ (.inl hstarted) hvs h₁ (Section.halts_of_written hws)
      (by rw [List.length_append]; omega) fun d₂ log₂ fuel₂ hd₂ _ h₂ hlog hf₂ => ?_
    refine (ih hd₂ hws h₂ hf₂).mono fun _ d' hd' => ⟨hd'.1, fun hplain => ?_⟩
    obtain ⟨hs, hss⟩ := List.forall_mem_cons.1 hplain
    rw [hd'.2 hss, hlog hs]

/-! ## Manuscripts -/

/-- A sheet as a tree. -/
structure Manuscript where
  /-- What is said before the first heading. -/
  preamble : List Change := []
  sections : List Section

namespace Manuscript

def Written (m : Manuscript) (ts : List Token) : Prop :=
  ∃ us vs, ts = us ++ vs ∧ Token.InTurn Change.Written m.preamble us ∧
    Token.InTurn Section.Written m.sections vs

/-- What is ambient at the start of every voice. -/
def defaults (m : Manuscript) : Ambient := m.preamble.foldl Change.ambient {}

/-- What the sheet says of its tracks and voices. -/
def state (m : Manuscript) : SheetState := m.sections.foldl SheetState.enter (.start m.defaults)

/-- There are no directives in a manuscript but its headings. -/
def Plain (m : Manuscript) : Prop := m.preamble = [] ∧ ∀ s ∈ m.sections, s.music.Plain

def strip? (m : Manuscript) (ts : List Token) : Option (List Token) :=
  (Token.stripAll Change.strip? m.preamble ts).bind (Token.stripAll Section.strip? m.sections)

/-- Where nothing is left, the tokens write the manuscript. -/
theorem written_of_strip? {m : Manuscript} {ts : List Token}
    (h : m.strip? ts = some []) : m.Written ts := by
  obtain ⟨us, rfl, hus⟩ := (Token.strips_stripAll Change.strips_strip? m.preamble).bind
    (Token.strips_stripAll Section.strips_strip? m.sections) h
  rwa [List.append_nil]

end Manuscript

/-- A sheet as a tree, with music before the first heading. -/
structure Piece extends Manuscript where
  opening : Passage := .nil

namespace Piece

/-- Where there is music before the first heading, it starts with a note or a group: a directive is
for the whole sheet there. -/
def Written (m : Piece) (ts : List Token) : Prop :=
  ∃ us vs ws, ts = us ++ (vs ++ ws) ∧ Token.InTurn Change.Written m.preamble us ∧
    (m.opening = .nil ∨ m.opening.Leads) ∧ m.opening.Written vs ∧
    Token.InTurn Section.Written m.sections ws

/-- What the sheet says of its tracks and voices. -/
def state (m : Piece) : SheetState :=
  m.sections.foldl SheetState.enter ((SheetState.start m.defaults).play m.opening)

theorem Written.tidy {m : Piece} {ts : List Token} (h : m.Written ts) : Tidy ts := by
  obtain ⟨us, vs, ws, rfl, hus, -, hvs, hws⟩ := h
  exact (Tidy.inTurn (fun _ _ => Change.Written.tidy) hus).append
    (hvs.tidy.append (.inTurn (fun _ _ => Section.Written.tidy) hws))

/-- Where nothing is left, the tokens write the sheet. -/
theorem written_of_strip? {m : Piece} {ts : List Token}
    (hleads : m.opening = .nil ∨ m.opening.Leads)
    (h : (Token.stripAll Change.strip? m.preamble ts).bind (fun us =>
      (m.opening.strip? us).bind (Token.stripAll Section.strip? m.sections)) = some []) :
    m.Written ts := by
  obtain ⟨_, rfl, us, _, rfl, hus, vs, ws, rfl, hvs, hws⟩ :=
    (Token.strips_stripAll Change.strips_strip? m.preamble).bind
      (m.opening.strips_strip?.bind (Token.strips_stripAll Section.strips_strip? m.sections)) h
  exact ⟨us, vs, ws, List.append_nil _, hus, hleads, hvs, hws⟩

end Piece

theorem Draft.follows_start (input : Macro.Expander Directive) (h : Header) (a : Ambient) :
    Draft.Follows { input, header := h, defaults := a } (.start a) h :=
  ⟨rfl, rfl, rfl, rfl, by simp, by simp, .start a⟩

namespace Sheet

/-- A text that writes a sheet is read into a draft that is what the sheet state says. -/
theorem exists_draft_piece {m : Piece} {text : String} {fuel : Nat} (limit : Nat)
    (hm : m.Written ((Token.scan .music text).takeWhile fun t => !t.isEof))
    (hf : (Token.scan .music text).length + 3 ≤ fuel) :
    ∃ d h, Drafting.all fuel { input := .ofSource (.ofText .music text) Directive.scopes limit } =
        some ((), d) ∧ d.Follows m.state h ∧
      (m.Plain ∧ m.opening.Plain → h = {} ∧ d.input.reported = []) := by
  obtain ⟨ends, endless, hsource, hends, hlength⟩ := Token.exists_source .music text
  have hserve := Macro.Expander.serves_ofSource endless Directive.scopes limit rfl hm.tidy.literal
    hends (hm.tidy.level 0)
  rw [← hsource] at hserve
  obtain ⟨us, vs, ws, htokens, hus, hleads, hvs, hws⟩ := hm
  rw [htokens] at hserve hlength
  obtain ⟨_, d, hall, h, hd⟩ : Succeeds (Drafting.all fuel)
      { input := .ofSource (.ofText .music text) Directive.scopes limit } fun _ d =>
        ∃ h, d.Follows m.state h ∧
          (m.Plain ∧ m.opening.Plain → h = {} ∧ d.input.reported = []) := by
    refine Drafting.all_preamble (h := {}) (a := {}) hus hserve (by omega)
      fun e log h' fuel' hserve' hnone hf' => ?_
    have hstart := Draft.follows_start e h' m.defaults
    rcases hleads with hnil | hleads
    · rw [hnil] at hvs
      obtain rfl : vs = [] := hvs
      rw [Piece.state, hnil]
      refine (Drafting.all_sections hstart hws hserve' hf').mono fun _ d' hd' =>
        ⟨h', hd'.1, fun hplain => ?_⟩
      obtain ⟨rfl, rfl⟩ := hnone hplain.1.1
      exact ⟨rfl, hd'.2 hplain.1.2⟩
    · refine Drafting.all_passage hstart (.inr hleads) hvs hserve'
        (Section.halts_of_written hws) hf'
        fun d₁ log₁ fuel₁ hd₁ _ hserve₁ hlog hf₁ => ?_
      refine (Drafting.all_sections hd₁ hws hserve₁ hf₁).mono fun _ d' hd' =>
        ⟨h', hd'.1, fun hplain => ?_⟩
      obtain ⟨rfl, rfl⟩ := hnone hplain.1.1
      exact ⟨rfl, (hd'.2 hplain.1.2).trans (hlog hplain.2)⟩
  exact ⟨d, h, hall, hd⟩

/-- A text that writes a manuscript is read into a draft that is what the sheet state says. -/
theorem exists_draft {m : Manuscript} {text : String} {fuel : Nat} (limit : Nat)
    (hm : m.Written ((Token.scan .music text).takeWhile fun t => !t.isEof))
    (hf : (Token.scan .music text).length + 3 ≤ fuel) :
    ∃ d h, Drafting.all fuel { input := .ofSource (.ofText .music text) Directive.scopes limit } =
        some ((), d) ∧ d.Follows m.state h ∧ (m.Plain → h = {} ∧ d.input.reported = []) := by
  obtain ⟨us, vs, htokens, hus, hvs⟩ := hm
  have hpiece : Piece.Written { m with } ((Token.scan .music text).takeWhile fun t => !t.isEof) :=
    ⟨us, [], vs, htokens, hus, .inl rfl, rfl, hvs⟩
  obtain ⟨d, h, hall, hd, hplain⟩ := exists_draft_piece limit hpiece hf
  exact ⟨d, h, hall, hd, fun hm => hplain ⟨hm, trivial⟩⟩

/-- **What is ambient is scoped as the text is.** A text that writes a manuscript is read; its parts
and their voices are the tracks and voices of the sheet state, each voice ends with what is ambient
at its end, and the notes of a part have the pitches and velocities that they have in the sheet
state, where what is ambient is handed down the tree. -/
theorem contents_lexical (m : Manuscript) (text : String) (limit fuel : Nat)
    (hm : m.Written ((Token.scan .music text).takeWhile fun t => !t.isEof))
    (hf : (Token.scan .music text).length + 3 ≤ fuel) :
    ∃ r, parse fuel (.ofText .music text) limit = some r ∧
      r.sheet.parts.map (·.name) = m.state.tracks ∧
      ∀ p ∈ r.sheet.parts, p.score.contents = (m.state.trackState p.name).contents ∧
        p.voices.map (fun v => (v.name, v.ambient)) =
          (m.state.trackState p.name).voices.map fun v =>
            (v, (m.state.trackState p.name).ambient v) := by
  obtain ⟨d, h, hall, hd, -⟩ := exists_draft limit hm hf
  refine ⟨_, parse_of_all hall, hd.tracks, fun p hp => ?_⟩
  have hfollows := hd.parts p hp
  refine ⟨hfollows.contents, ?_⟩
  rw [← hfollows.voices, List.map_map]
  refine List.map_congr_left fun v hv => ?_
  rw [Function.comp_apply, hfollows.ambient v hv]

/-- Two voices and two tracks in turn, with directives in branches of branches, some of them without
sense. -/
def duets : Manuscript where
  preamble := [.velocity "70", .octave "3"]
  sections := [
    ⟨.track "A", .nil⟩,
    ⟨.voice "x", .note (degree 1) [] (.change (.velocity "90") (.group
      (.more (.note (degree 2) [] (.change (.octave "5") (.note (degree 3) [] .nil)))
        (.last (.change (.key true "D") (.note (degree 4) [] (.group
          (.more (.change (.velocity "200") (.note (degree 5) [] .nil))
            (.last (.change (.velocity "1") (.note (degree 6) [] .nil)))) [.dash] .nil))))) []
      (.note (degree 7) [] .nil)))⟩,
    ⟨.voice "y", .note (degree 1) [.octaveUp] (.change (.octave "12") (.note (degree 2) [] .nil))⟩,
    ⟨.track "B", .note (degree 3) [] (.change (.velocity "1") .nil)⟩,
    ⟨.track "A", .nil⟩,
    ⟨.voice "x", .note (degree 4) [] .nil⟩,
    ⟨.track "B", .nil⟩,
    ⟨.voice "1", .note (degree 5) [] .nil⟩]

def duetsText : String :=
  "\\vel\x7b70\x7d\\octave\x7b3\x7d\n" ++
  "\\track\x7bA\x7d\\v\x7bx\x7d 1 \\vel\x7b90\x7d\x7b2 \\octave\x7b5\x7d 3 | \\minor\x7bD\x7d 4" ++
  "\x7b\\vel\x7b200\x7d5, \\vel\x7b1\x7d6\x7d-\x7d 7 % to the end\n" ++
  "\\v\x7by\x7d 1' \\octave\x7b12\x7d 2\n" ++
  "\\track\x7bB\x7d 3 \\vel\x7b1\x7d\n" ++
  "\\track\x7bA\x7d\\v\x7bx\x7d 4 \\track\x7bB\x7d\\v\x7b1\x7d 5"

theorem contents_lexical_duets :
    duets.Written ((Token.scan .music duetsText).takeWhile fun t => !t.isEof) ∧
      ∃ r, parse 97 (.ofText .music duetsText) 100 = some r ∧
        r.sheet.parts.map (·.name) = ["A", "B"] ∧
        ∀ p ∈ r.sheet.parts,
          (p.name = "A" →
            p.score.contents = [.note 48 70, .note 50 90, .note 76 90, .key ⟨5, -1, true⟩,
              .note 58 90, .note 60 90, .note 62 1, .note 59 90, .note 48 70, .note 50 70,
              .note 53 90] ∧
            p.voices.map (fun v => (v.name, v.ambient)) = [("x", ⟨3, 90, 0⟩), ("y", ⟨3, 70, 0⟩)]) ∧
          (p.name = "B" →
            p.score.contents = [.note 52 70, .note 55 1] ∧
            p.voices.map (fun v => (v.name, v.ambient)) = [("1", ⟨3, 1, 0⟩)]) := by
  have hwritten : duets.Written ((Token.scan .music duetsText).takeWhile fun t => !t.isEof) :=
    Manuscript.written_of_strip? (by decide +kernel)
  obtain ⟨r, hparse, hnames, hparts⟩ := contents_lexical duets duetsText 100 97 hwritten
    (by decide +kernel)
  refine ⟨hwritten, r, hparse, hnames.trans (by decide +kernel), fun p hp => ?_⟩
  obtain ⟨hcontents, hvoices⟩ := hparts p hp
  constructor
  · intro hname
    rw [hname] at hcontents hvoices
    exact ⟨hcontents.trans (by decide +kernel), hvoices.trans (by decide +kernel)⟩
  · intro hname
    rw [hname] at hcontents hvoices
    exact ⟨hcontents.trans (by decide +kernel), hvoices.trans (by decide +kernel)⟩

end Sheet

end Jianpu
