import Jianpu.Proofs.Sheet.SheetState

/-!
# Drafts follow sheet states

`Draft.Follows` says that a draft is what a sheet state says. Every step of reading a sheet keeps it
so: a heading (`Drafting.all_heading`), music (`Drafting.all_passage`), and before any of these a
directive for the whole sheet (`Drafting.all_preamble`).
-/

namespace Jianpu

/-- The draft is what the sheet state says, and has the header `h`. -/
structure Draft.Follows (d : Draft) (k : SheetState) (h : Header) : Prop where
  header : d.header = h
  pending : d.pending = {}
  tracks : d.parts.map (·.name) = k.tracks
  selected : Chosen k.tracks d.selected k.track
  parts : ∀ p ∈ d.parts, p.Follows (k.trackState p.name)
  /-- A part that was made for music outside any track has the name for such. -/
  implicit : ∀ p ∈ d.parts, p.implicit = true → p.name = SheetState.unnamed
  formed : k.Formed d.defaults

namespace Draft.Follows

variable {d : Draft} {k : SheetState} {h : Header}

/-- What is left to read, and whether anything was, is not in the sheet state. -/
theorem reads (hd : d.Follows k h) (input : Macro.Expander Directive) (started : Bool) :
    Follows { d with input, started } k h :=
  ⟨hd.header, hd.pending, hd.tracks, hd.selected, hd.parts, hd.implicit, hd.formed⟩

/-- A part that is there is selected. -/
theorem choose (hd : d.Follows k h) {i : Nat} {p : Part} (hi : d.parts[i]? = some p) :
    Follows { d with selected := some i } (k.selectTrack p.name) h := by
  have hmem : p.name ∈ k.tracks := by
    rw [← hd.tracks]
    exact List.mem_map_of_mem (List.mem_of_getElem? hi)
  have henlist : (k.selectTrack p.name).tracks = k.tracks := enlist_of_mem hmem
  refine ⟨hd.header, hd.pending, henlist ▸ hd.tracks, ?_, hd.parts, hd.implicit,
    hd.formed.selectTrack p.name⟩
  show (some ((k.selectTrack p.name).tracks[i]?) : Option (Option String)) = some (some p.name)
  rw [henlist, ← hd.tracks, List.getElem?_map, hi]
  rfl

/-- A part is made and selected. -/
theorem addPart (hd : d.Follows k h) {name : String} (hname : name ∉ k.tracks) (implicit : Bool)
    (himplicit : implicit = true → name = SheetState.unnamed) :
    Follows { d with
      parts := d.parts ++ [{ name, settings := d.pending, implicit }]
      pending := {}
      selected := some d.parts.length } (k.selectTrack name) h := by
  have henlist : (k.selectTrack name).tracks = k.tracks ++ [name] := enlist_of_notMem hname
  refine ⟨hd.header, rfl, ?_, ?_, ?_, ?_, hd.formed.selectTrack name⟩
  · rw [henlist, List.map_append, hd.tracks]
    rfl
  · have hlength : d.parts.length = k.tracks.length := by rw [← hd.tracks, List.length_map]
    show (some ((k.selectTrack name).tracks[d.parts.length]?) : Option (Option String)) =
      some (some name)
    rw [henlist, hlength, List.getElem?_concat_length]
  · intro p hp
    rcases List.mem_append.1 hp with hp | hp
    · exact hd.parts p hp
    · obtain rfl := List.mem_singleton.1 hp
      show Part.Follows _ (k.trackState name)
      rw [hd.formed.fresh name hname, hd.pending]
      exact .start name implicit d.defaults
  · intro p hp
    rcases List.mem_append.1 hp with hp | hp
    · exact hd.implicit p hp
    · obtain rfl := List.mem_singleton.1 hp
      exact himplicit

/-- The part in use is changed. -/
theorem adapt (hd : d.Follows (k.selectTrack k.trackName) h) {i : Nat} {p p' : Part}
    {f : TrackState → TrackState} (hi : d.parts[i]? = some p) (hp : p.name = k.trackName)
    (hp' : p'.Follows (f (k.trackState k.trackName))) (hname : p'.name = p.name)
    (himplicit : p'.implicit = p.implicit) (hk : k.Formed d.defaults)
    (hf : ∀ s, s.Formed d.defaults → (f s).Formed d.defaults) :
    Follows { d with parts := d.parts.set i p' } (k.adapt f) h := by
  have hnodup : (d.parts.map (·.name)).Nodup := hd.tracks ▸ hd.formed.nodup
  refine ⟨hd.header, hd.pending, ?_, hd.selected, ?_, ?_, hk.adapt hf⟩
  · exact (map_set_of_name_eq hi hname).trans hd.tracks
  · intro q hq
    obtain ⟨j, hj⟩ := List.mem_iff_getElem?.1 hq
    rw [List.getElem?_set] at hj
    rw [SheetState.trackState_adapt]
    split at hj
    · split at hj
      · obtain rfl := Option.some.inj hj
        have hq := hname.trans hp
        rw [if_pos hq, hq]
        exact hp'
      · cases hj
    · rename_i hij
      have hne : q.name ≠ k.trackName := hp ▸ name_ne_of_ne hnodup hj hi (Ne.symm hij)
      rw [if_neg hne]
      exact hd.parts q (List.mem_of_getElem? hj)
  · intro q hq
    rcases List.mem_or_eq_of_mem_set hq with hq | rfl
    · exact hd.implicit q hq
    · rw [himplicit, hname]
      exact hd.implicit p (List.mem_of_getElem? hi)

end Draft.Follows

/-! ## Steps of the reader -/

namespace Drafting

variable {d : Draft} {k : SheetState} {h : Header} {log : List Diagnostic} {us rest : List Token}
  {name : String} {fuel : Nat}

theorem succeeds_selectTrack (hd : d.Follows k h) (hus : Token.Bracketed name us)
    (hserve : Serving log d.input (us ++ rest)) :
    Succeeds selectTrack d fun _ d' =>
      d'.Follows (k.selectTrack name) h ∧ d'.started = true ∧ Serving log d'.input rest := by
  obtain ⟨a, e, hread, rfl, hserve'⟩ := Reading.argumentRaw_bracketed hserve hus
  unfold selectTrack
  refine .bind (.of_modify (.bind (succeeds_read (.of_eq hread ?_))))
  refine .bind (.of_get ?_)
  have hd' := hd.reads e true
  rcases findIdx?_names hd.tracks a.text with ⟨i, p, hi, hp, hname, -⟩ | ⟨hi, hmem⟩
  · simp only [hi]
    rw [← hname]
    exact .bind (.of_pure (.of_modify ⟨hd'.choose hp, rfl, hserve'⟩))
  · simp only [hi]
    exact .bind (.of_eq rfl (.of_modify ⟨hd'.addPart hmem false (by simp), rfl, hserve'⟩))

theorem succeeds_currentPart_follows (hd : d.Follows k h) :
    Succeeds currentPart d fun i d' => d'.Follows (k.selectTrack k.trackName) h ∧
      d'.input = d.input ∧ d'.started = d.started ∧ d'.defaults = d.defaults ∧
      ∃ p, d'.parts[i]? = some p ∧ p.name = k.trackName := by
  unfold currentPart
  refine .bind (.of_get ?_)
  rcases hd.selected.cases with ⟨hi, htrack⟩ | ⟨i, name, hi, htrack, hname⟩
  · rw [hi]
    have htracks := hd.formed.none htrack
    have hparts : d.parts = [] := List.map_eq_nil_iff.1 (hd.tracks.trans htracks)
    have htrackName : k.trackName = SheetState.unnamed := by rw [SheetState.trackName, htrack]; rfl
    have hunnamed : "Track " ++ (d.parts.length + 1).repr = SheetState.unnamed := by
      rw [hparts]
      decide
    refine .bind (.of_eq rfl (.bind (.of_modify (.of_pure ?_))))
    rw [hunnamed, htrackName]
    have hmem : SheetState.unnamed ∉ k.tracks := by simp [htracks]
    exact ⟨hd.addPart hmem true fun _ => rfl, rfl, rfl, rfl, _, List.getElem?_concat_length, rfl⟩
  · rw [hi]
    rw [← hd.tracks, List.getElem?_map] at hname
    obtain ⟨p, hp, rfl⟩ := Option.map_eq_some_iff.1 hname
    have htrackName : k.trackName = p.name := by rw [SheetState.trackName, htrack]; rfl
    have hchoose := hd.choose hp
    rw [← hi] at hchoose
    rw [htrackName]
    exact .of_pure ⟨hchoose, rfl, rfl, rfl, p, hp, rfl⟩

theorem succeeds_selectVoice (hd : d.Follows k h) (hus : Token.Bracketed name us)
    (hserve : Serving log d.input (us ++ rest)) :
    Succeeds selectVoice d fun _ d' =>
      d'.Follows (k.select (.voice name)) h ∧ d'.started = true ∧ Serving log d'.input rest := by
  obtain ⟨a, e, hread, rfl, hserve'⟩ := Reading.argumentRaw_bracketed hserve hus
  unfold selectVoice
  refine .bind (.of_modify (.bind (succeeds_read (.of_eq hread ?_))))
  have hd' := hd.reads e true
  refine .bind ((succeeds_currentPart_follows hd').mono fun i d₁ hpart => .of_modify ?_)
  obtain ⟨hd₁, hinput, hstarted, hdefaults, p, hi, hname⟩ := hpart
  have hk : k.Formed d₁.defaults := hdefaults ▸ hd.formed
  have hp : p.Follows (k.trackState k.trackName) := hname ▸ hd₁.parts p (List.mem_of_getElem? hi)
  obtain ⟨j, p', voice, hselect, -, -, hname', himplicit, hp'⟩ :=
    hp.selectVoice (hk.trackState k.trackName) a.text
  have hmodify : d₁.parts.modify i (fun p => (p.selectVoice a.text d₁.defaults).2) =
      d₁.parts.set i p' := by
    rw [List.modify_eq_set_getElem?, hi]
    simp [hselect]
  rw [hmodify]
  exact ⟨hd₁.adapt hi hname hp' hname' himplicit hk fun s hs => hs.selectVoice a.text, hstarted,
    hinput ▸ hserve'⟩

theorem succeeds_music_follows (hd : d.Follows k h) {q : Passage} {ts : List Token}
    (hts : q.Written ts) (hserve : Serving log d.input (ts ++ rest)) (hrest : Halts rest)
    (hf : ts.length + 3 ≤ fuel) :
    Succeeds (music fuel) d fun _ d' => d'.Follows (k.adapt (·.play q)) h ∧ d'.started = true ∧
      ∃ log', Serving log' d'.input rest ∧ (q.Plain → log' = log) := by
  unfold music
  have hd' := hd.reads d.input true
  refine .bind (.of_modify (.bind ((succeeds_currentPart_follows hd').mono fun i d₁ hpart => ?_)))
  obtain ⟨hd₁, hinput, hstarted, hdefaults, p, hi, hname⟩ := hpart
  have hk : k.Formed d₁.defaults := hdefaults ▸ hd.formed
  have htrackState := hk.trackState k.trackName
  have hp : p.Follows (k.trackState k.trackName) := hname ▸ hd₁.parts p (List.mem_of_getElem? hi)
  obtain ⟨v, p', voice, hcurrent, hvoice, hvname, hname', himplicit, hp'⟩ :=
    hp.currentVoice htrackState
  have hserve₁ : Serving log d₁.input (ts ++ rest) := by
    rw [show d₁.input = d.input from hinput]
    exact hserve
  obtain ⟨strand, body, log', hseq, hserve', hlog, hp''⟩ :=
    hp'.addMusic (htrackState.selectVoice _) hvoice hts hserve₁ hrest hf
  refine .bind (.of_get ?_)
  simp only [hi, hcurrent, hvoice]
  have hlift : (liftM (Writing.sequence fuel none voice.ambient ⟨d₁.input, p'.score, p'.settings⟩) :
      Drafting _) d₁ = some (((strand, q.after voice.ambient), body), d₁) := by
    rw [hseq]
    rfl
  refine .bind (.of_eq hlift (.of_eq rfl ⟨?_, hstarted, log', hserve', hlog⟩))
  rw [show TrackState.add _ voice.name q = (k.trackState k.trackName).play q by
    rw [hvname]
    rfl] at hp''
  have hadapt := hd₁.adapt (f := (·.play q)) hi hname hp'' hname' himplicit hk fun s hs => hs.play q
  exact hadapt.reads _ _

/-- A directive before the music. -/
theorem heading_change (c : Change) (hus : Token.InTurn Token.Bracketed c.texts us)
    (hserve : Serving log d.input (us ++ rest)) (hf : us.length ≤ fuel) :
    ∃ log' e' h', heading fuel c.directive d =
      some ((), { d with input := e', header := h', defaults := c.ambient d.defaults }) ∧
      Serving log' e' rest := by
  cases c with
  | octave text =>
    obtain ⟨log', e', hread, h'⟩ :=
      Reading.takes_octave hserve (Token.inTurn_singleton.1 hus) hf
    refine ⟨log', e', d.header, ?_, h'⟩
    refine (bind_of_eq_some (read_of_eq_some hread)).trans ?_
    rw [Change.ambient]
    cases Change.octave? text <;> rfl
  | velocity text =>
    obtain ⟨log', e', hread, h'⟩ :=
      Reading.takes_sevenBits hserve (Token.inTurn_singleton.1 hus) hf .velocityTooLarge
    refine ⟨log', e', d.header, ?_, h'⟩
    refine (bind_of_eq_some (read_of_eq_some hread)).trans ?_
    rw [Change.ambient]
    cases Change.velocity? text <;> rfl
  | key minor text =>
    obtain ⟨log', e', hread, h'⟩ :=
      Reading.takes_key hserve (Token.inTurn_singleton.1 hus) hf minor
    refine ⟨log', e', { d.header with key := (Key.parse? text minor).getD d.header.key }, ?_, h'⟩
    rw [Change.ambient]
    cases minor <;>
    · refine (bind_of_eq_some (read_of_eq_some hread)).trans ?_
      cases Key.parse? text _ <;> rfl
  | tempo perMinute text =>
    obtain ⟨log', e', hread, h'⟩ :=
      Reading.takes_tempo hserve (Token.inTurn_singleton.1 hus) hf perMinute
    refine ⟨log', e',
      { d.header with tempo := (Change.tempo? perMinute text).getD d.header.tempo }, ?_, h'⟩
    cases perMinute <;>
    · refine (bind_of_eq_some (read_of_eq_some hread)).trans ?_
      cases Change.tempo? _ text <;> rfl
  | times numerator denominator =>
    obtain ⟨us, vs, rfl, hus, hvs⟩ := hus
    rw [List.length_append] at hf
    rw [List.append_assoc] at hserve
    obtain ⟨log', e', hread, h'⟩ := Reading.takes_timeSignature hserve hus
      (Token.inTurn_singleton.1 hvs) (by omega) (by omega : vs.length ≤ fuel)
    refine ⟨log', e', ((Reading.signature? numerator denominator).map fun p =>
      { d.header with numerator := p.1, denominator := p.2 }).getD d.header, ?_, h'⟩
    refine (bind_of_eq_some (read_of_eq_some hread)).trans ?_
    cases Reading.signature? numerator denominator <;> rfl

end Drafting

/-! ## Headings and sections -/

namespace Heading

def directive : Heading → Directive
  | track _ => .track
  | voice _ => .voice

def name : Heading → String
  | track name | voice name => name

/-- The control sequence of a heading, with the name in braces. -/
def Written (x : Heading) (ts : List Token) : Prop :=
  ∃ t us, ts = t :: us ∧ t.Names x.directive ∧ Token.Bracketed x.name us

end Heading

/-- A heading and the music under it. -/
structure Section where
  heading : Heading
  music : Passage

def Section.Written (s : Section) (ts : List Token) : Prop :=
  ∃ us vs, ts = us ++ vs ∧ s.heading.Written us ∧ s.music.Written vs

/-- What a sheet state is after a section. -/
def SheetState.enter (k : SheetState) (s : Section) : SheetState :=
  (k.select s.heading).play s.music

/-- A passage that starts with a note or a group. -/
def Passage.Leads : Passage → Prop
  | .note .. | .group .. => True
  | .nil | .change .. => False

/-- A passage that is not empty starts with a token that is music, or a directive. -/
theorem Passage.Written.head {p : Passage} {ts : List Token} (h : p.Written ts) :
    p = .nil ∧ ts = [] ∨ ∃ t us, ts = t :: us ∧ t.isEof = false ∧ t.kind ≠ .closing ∧
      t.isSeparator = false ∧
      (t.kind ≠ .control ∨ ¬p.Leads ∧ ∃ c : Change, t.Names c.directive) := by
  cases p with
  | nil => exact .inl ⟨rfl, h⟩
  | note degree marks p =>
    obtain ⟨t, ms, us, rfl, ht, -⟩ := h
    have hkind : t.kind = .other := congrArg Prod.fst ht
    exact .inr ⟨t, _, rfl, Token.isEof_of_kind hkind (by simp), by simp [hkind],
      Token.isSeparator_of_digit ht, .inl (by simp [hkind])⟩
  | group bs marks p =>
    obtain ⟨o, bs, c, ms, us, rfl, ho, -⟩ := h
    exact .inr ⟨o, _, rfl, Token.isEof_of_kind ho (by simp), by simp [ho],
      Token.isSeparator_of_kind (by simp [ho]), .inl (by simp [ho])⟩
  | change c p =>
    obtain ⟨_, us, rfl, ⟨t, vs, rfl, ht, -⟩, -⟩ := h
    exact .inr ⟨t, _, rfl, Token.isEof_of_kind ht.1 (by simp), by simp [ht.1],
      Token.isSeparator_of_kind (by simp [ht.1]), .inr ⟨id, c, ht⟩⟩

namespace Drafting

variable {d : Draft} {k : SheetState} {h : Header} {log : List Diagnostic} {ts rest : List Token}
  {fuel : Nat} {Q : Unit → Draft → Prop}

/-- The step of the reader for a heading. -/
theorem all_heading {x : Heading} (hd : d.Follows k h) (hts : x.Written ts)
    (hserve : Serving log d.input (ts ++ rest)) (hf : 1 ≤ fuel)
    (hrest : ∀ d' : Draft, d'.Follows (k.select x) h → d'.started = true →
      Serving log d'.input rest → Succeeds (all fuel) d' Q) :
    Succeeds (all (fuel + 1)) d Q := by
  obtain ⟨t, us, rfl, ht, hus⟩ := hts
  obtain ⟨e₁, hpeek, h₁⟩ := hserve.peek hf
  obtain ⟨e₂, hnext, h₂⟩ := h₁.next hf
  have hd₂ := hd.reads e₂ d.started
  have hdirective := ht.directive? h₁
  rw [all]
  refine .bind (succeeds_read (.of_eq hpeek ?_))
  rw [if_neg (by simp [Token.isEof_of_kind ht.1]), if_neg (by simp [ht.1]),
    if_neg (by simp [Token.isSeparator_of_kind (t := t) (by simp [ht.1])])]
  refine .bind (.of_get ?_)
  cases x with
  | track name =>
    simp only [hdirective, Heading.directive]
    refine .bind (succeeds_read (.of_eq hnext (.bind ?_)))
    refine (succeeds_selectTrack hd₂ hus h₂).mono fun _ d' hd' => ?_
    exact hrest d' hd'.1 hd'.2.1 hd'.2.2
  | voice name =>
    simp only [hdirective, Heading.directive]
    refine .bind (succeeds_read (.of_eq hnext (.bind ?_)))
    refine (succeeds_selectVoice hd₂ hus h₂).mono fun _ d' hd' => ?_
    exact hrest d' hd'.1 hd'.2.1 hd'.2.2

/-- The step of the reader for another directive: it is music, unless there was none before. -/
theorem all_change {c : Change} {t : Token} {e : Macro.Expander Directive}
    (hpeek : Reading.peek fuel d.input = some (t, e)) (hserve : Serving log e (t :: rest))
    (hf : 1 ≤ fuel) (ht : t.Names c.directive)
    (hmusic : d.started = true →
      Succeeds (music fuel) { d with input := e } fun _ d' => Succeeds (all fuel) d' Q)
    (hheading : d.started = false → ∀ e', Serving log e' rest →
      Succeeds (heading fuel c.directive) { d with input := e' } fun _ d' =>
        Succeeds (all fuel) d' Q) : Succeeds (all (fuel + 1)) d Q := by
  have hstep : Succeeds (if d.started then (do music fuel; all fuel) else (do
      let _ ← read (Reading.next fuel)
      heading fuel c.directive
      all fuel)) { d with input := e } Q := by
    split
    · rename_i hstarted
      exact .bind (hmusic hstarted)
    · rename_i hstarted
      obtain ⟨e', hnext, h'⟩ := hserve.next hf
      have hstarted : d.started = false := by simpa using hstarted
      exact .bind (succeeds_read (.of_eq hnext (.bind (hheading hstarted e' h'))))
  rw [all]
  refine .bind (succeeds_read (.of_eq hpeek ?_))
  rw [if_neg (by simp [Token.isEof_of_kind ht.1]), if_neg (by simp [ht.1]),
    if_neg (by simp [Token.isSeparator_of_kind (t := t) (by simp [ht.1])])]
  refine .bind (.of_get ?_)
  simp only [ht.directive? hserve]
  cases c with
  | octave | velocity | times => exact hstep
  | key minor => cases minor <;> exact hstep
  | tempo perMinute => cases perMinute <;> exact hstep

/-- The step of the reader for music. Where it is the first, it starts with a note or a group. -/
theorem all_passage {p : Passage} (hd : d.Follows k h) (hstarted : d.started = true ∨ p.Leads)
    (hts : p.Written ts) (hserve : Serving log d.input (ts ++ rest)) (hrest : Halts rest)
    (hf : (ts ++ rest).length + 4 ≤ fuel)
    (hnext : ∀ (d' : Draft) log' fuel', d'.Follows (k.play p) h → d'.started = true →
      Serving log' d'.input rest → (p.Plain → log' = log) → rest.length + 4 ≤ fuel' →
      Succeeds (all fuel') d' Q) : Succeeds (all fuel) d Q := by
  rw [List.length_append] at hf
  rcases hts.head with ⟨rfl, rfl⟩ | ⟨t, us, rfl, heof, hclosing, hseparator, hstart⟩
  · exact hnext d log fuel hd (hstarted.resolve_right id) hserve (fun _ => rfl) (by simpa using hf)
  · have hplay : k.play p = k.adapt (·.play p) := k.play_of_ne_nil fun heq => by
      rw [heq] at hts
      cases hts
    rw [List.length_cons] at hf
    obtain ⟨fuel, rfl⟩ : ∃ n, fuel = n + 1 := ⟨fuel - 1, by omega⟩
    obtain ⟨e₁, hpeek, h₁⟩ := hserve.peek (by omega : 1 ≤ fuel)
    have hd₁ := hd.reads e₁ d.started
    have hmusic : Succeeds (music fuel) { d with input := e₁ } fun _ d' =>
        Succeeds (all fuel) d' Q := by
      have hf' : (t :: us).length + 3 ≤ fuel := by
        rw [List.length_cons]
        omega
      refine (succeeds_music_follows hd₁ hts h₁ hrest hf').mono fun _ d' hd' => ?_
      obtain ⟨hd', hstarted', log', h', hlog⟩ := hd'
      exact hnext d' log' fuel (hplay ▸ hd') hstarted' h' hlog (by omega)
    rcases hstart with hkind | ⟨hleads, c, ht⟩
    · obtain ⟨_, d', hmusic, hreturns⟩ := hmusic
      rw [Succeeds, all_music hpeek heof hclosing hseparator hkind hmusic]
      exact hreturns
    · exact all_change hpeek h₁ (by omega) ht (fun _ => hmusic)
        (by simp [hstarted.resolve_right hleads])

/-- The steps of the reader for directives before any heading or music. -/
theorem all_preamble {cs : List Change} {e : Macro.Expander Directive} {a : Ambient}
    (hts : Token.InTurn Change.Written cs ts) (hserve : Serving log e (ts ++ rest))
    (hf : (ts ++ rest).length + 4 ≤ fuel)
    (hrest : ∀ e' log' h' fuel', Serving log' e' rest → (cs = [] → log' = log ∧ h' = h) →
      rest.length + 4 ≤ fuel' →
      Succeeds (all fuel') { input := e', header := h', defaults := cs.foldl Change.ambient a } Q) :
    Succeeds (all fuel) { input := e, header := h, defaults := a } Q := by
  induction cs generalizing e a h log ts fuel with
  | nil =>
    obtain rfl : ts = [] := hts
    exact hrest e log h fuel hserve (fun _ => ⟨rfl, rfl⟩) hf
  | cons c cs ih =>
    obtain ⟨_, vs, rfl, ⟨t, us, rfl, ht, hus⟩, hvs⟩ := hts
    simp only [List.cons_append, List.append_assoc, List.length_cons,
      List.length_append] at hserve hf
    obtain ⟨fuel, rfl⟩ : ∃ n, fuel = n + 1 := ⟨fuel - 1, by omega⟩
    obtain ⟨e₁, hpeek, h₁⟩ := hserve.peek (by omega : 1 ≤ fuel)
    refine all_change (d := { input := e, header := h, defaults := a }) hpeek h₁ (by omega) ht
      (by simp) fun _ e₂ h₂ => ?_
    obtain ⟨log₃, e₃, h', hheading, h₃⟩ := heading_change
      (d := { input := e₂, header := h, defaults := a }) c hus h₂ (by omega : us.length ≤ fuel)
    refine .of_eq hheading (ih hvs h₃ ?_ fun e' log' h' fuel' h'' _ hf' => ?_)
    · rw [List.length_append]
      omega
    · exact hrest e' log' h' fuel' h'' (by simp) hf'

end Drafting

end Jianpu
