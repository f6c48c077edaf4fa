import Jianpu.Proofs.Sheet.Acceptance
import Jianpu.Proofs.Sheet.Parts
import Jianpu.Proofs.Sheet.PassageReading

/-!
# Tracks and voices by name

A `SheetState` says what a sheet with headings means, without any score: which tracks there are and
which voices each of them has, in the order in which they come up, and for every voice by its name
what is ambient at its end and the pattern of its music. A heading selects, and music is interpreted
with what is ambient at the end of the voice in use.

`Part.Follows` says that a part is what a sheet state says about its track. The methods of a part
keep it so: `Part.Follows.selectVoice`, `Part.Follows.currentVoice` and `Part.Follows.addMusic`.
-/

namespace Jianpu

/-! ## Names in order -/

/-- A name put at the end of a list, unless it is there. -/
def enlist (name : String) (names : List String) : List String :=
  if name ∈ names then names else names ++ [name]

section Names

variable {name : String} {names : List String}

theorem enlist_of_mem (h : name ∈ names) : enlist name names = names := if_pos h

theorem enlist_of_notMem (h : name ∉ names) : enlist name names = names ++ [name] := if_neg h

theorem mem_enlist {x : String} : x ∈ enlist name names ↔ x ∈ names ∨ x = name := by
  unfold enlist
  split
  · constructor
    · exact .inl
    · rintro (hx | rfl)
      · exact hx
      · assumption
  · simp

theorem nodup_enlist (h : names.Nodup) : (enlist name names).Nodup := by
  unfold enlist
  split
  · exact h
  · rename_i hname
    exact List.nodup_append.2 ⟨h, List.nodup_singleton name, by
      rintro x hx _ hy rfl
      exact hname (List.mem_singleton.1 hy ▸ hx)⟩

/-- Where a name is, or that it is not there. -/
theorem findIdx?_names {α : Type} {f : α → String} {xs : List α} (hnames : xs.map f = names)
    (name : String) :
    (∃ i x, xs.findIdx? (f · = name) = some i ∧ xs[i]? = some x ∧ f x = name ∧ name ∈ names) ∨
      xs.findIdx? (f · = name) = none ∧ name ∉ names := by
  cases hi : xs.findIdx? (f · = name) with
  | none =>
    refine .inr ⟨rfl, fun hmem => ?_⟩
    rw [← hnames] at hmem
    obtain ⟨x, hx, rfl⟩ := List.mem_map.1 hmem
    have hne := List.findIdx?_eq_none_iff.1 hi x hx
    simp at hne
  | some i =>
    obtain ⟨hlt, hx, -⟩ := List.findIdx?_eq_some_iff_getElem.1 hi
    have hname : f xs[i] = name := by simpa using hx
    refine .inl ⟨i, xs[i], rfl, List.getElem?_eq_getElem hlt, hname, ?_⟩
    rw [← hnames, ← hname]
    exact List.mem_map_of_mem (List.getElem_mem hlt)

/-- Where no name comes twice, other places have other names. -/
theorem name_ne_of_ne {α : Type} {f : α → String} {xs : List α} (h : (xs.map f).Nodup) {i j : Nat}
    {x y : α} (hi : xs[i]? = some x) (hj : xs[j]? = some y) (hij : i ≠ j) : f x ≠ f y := by
  intro heq
  have hlt : i < (xs.map f).length := by
    rw [List.length_map]
    exact (List.getElem?_eq_some_iff.1 hi).1
  refine hij ((List.getElem?_inj hlt h).1 ?_)
  rw [List.getElem?_map, List.getElem?_map, hi, hj, Option.map_some, Option.map_some, heq]

/-- What takes the place of something of the same name leaves the names alone. -/
theorem map_set_of_name_eq {α β : Type} {f : α → β} {xs : List α} {i : Nat} {x y : α}
    (hi : xs[i]? = some x) (hxy : f y = f x) : (xs.set i y).map f = xs.map f := by
  obtain ⟨hlt, rfl⟩ := List.getElem?_eq_some_iff.1 hi
  rw [List.map_set, hxy, ← List.getElem_map f, List.set_getElem_self]
  simpa using hlt

end Names

/-! ## Sheet states -/

/-- What a track is. -/
structure TrackState where
  /-- The voice in use. -/
  voice : Option String := none
  voices : List String := []
  /-- What is ambient at the end of each voice. -/
  ambient : String → Ambient
  /-- The music of each voice. -/
  pattern : String → Shape ModifiedContent := fun _ => .nil
  /-- What stands at the nodes of the track, in the order in which they are written. -/
  contents : List Content := []

namespace TrackState

/-- A track without voices, where every voice starts with the same ambient. -/
def start (a : Ambient) : TrackState := { ambient := fun _ => a }

def selectVoice (s : TrackState) (name : String) : TrackState :=
  { s with voice := some name, voices := enlist name s.voices }

/-- The voice in use. The first one is called `1` if no name was given. -/
def voiceName (s : TrackState) : String := s.voice.getD "1"

/-- Music for a voice. -/
def add (s : TrackState) (name : String) (p : Passage) : TrackState :=
  let a := s.ambient name
  { s with
    ambient := Function.update s.ambient name (p.after a)
    pattern := Function.update s.pattern name (s.pattern name ++ p.pattern a [])
    contents := s.contents ++ p.contents a }

/-- Music for the voice in use. -/
def play (s : TrackState) (p : Passage) : TrackState :=
  (s.selectVoice s.voiceName).add s.voiceName p

theorem ambient_add (s : TrackState) (name : String) (p : Passage) (v : String) :
    (s.add name p).ambient v = if v = name then p.after (s.ambient v) else s.ambient v := by
  refine (Function.update_apply ..).trans (if_ctx_congr Iff.rfl (fun hv => ?_) fun _ => rfl)
  rw [hv]

theorem pattern_add (s : TrackState) (name : String) (p : Passage) (v : String) :
    (s.add name p).pattern v =
      if v = name then s.pattern v ++ p.pattern (s.ambient v) [] else s.pattern v := by
  refine (Function.update_apply ..).trans (if_ctx_congr Iff.rfl (fun hv => ?_) fun _ => rfl)
  rw [hv]

end TrackState

/-- A directive that says where the music goes. -/
inductive Heading where
  | track (name : String)
  | voice (name : String)
  deriving DecidableEq, Repr

/-- The tracks of a sheet. -/
structure SheetState where
  /-- The track in use. -/
  track : Option String := none
  tracks : List String := []
  trackState : String → TrackState

namespace SheetState

def start (a : Ambient) : SheetState := { trackState := fun _ => .start a }

/-- The name of a track for which there is none. -/
def unnamed : String := "Track 1"

def trackName (k : SheetState) : String := k.track.getD unnamed

def selectTrack (k : SheetState) (name : String) : SheetState :=
  { k with track := some name, tracks := enlist name k.tracks }

/-- Changes the track in use. -/
def adapt (k : SheetState) (f : TrackState → TrackState) : SheetState :=
  { k.selectTrack k.trackName with
    trackState := Function.update k.trackState k.trackName (f (k.trackState k.trackName)) }

def select (k : SheetState) : Heading → SheetState
  | .track name => k.selectTrack name
  | .voice name => k.adapt (·.selectVoice name)

/-- Music for the voice in use. Where there is no music, no track or voice is made for it. -/
def play (k : SheetState) : Passage → SheetState
  | .nil => k
  | p => k.adapt (·.play p)

theorem trackState_adapt (k : SheetState) (f : TrackState → TrackState) (t : String) :
    (k.adapt f).trackState t = if t = k.trackName then f (k.trackState t) else k.trackState t := by
  refine (Function.update_apply ..).trans (if_ctx_congr Iff.rfl (fun ht => ?_) fun _ => rfl)
  rw [ht]

theorem play_of_ne_nil (k : SheetState) {p : Passage} (h : p ≠ .nil) :
    k.play p = k.adapt (·.play p) := by
  cases p with
  | nil => exact absurd rfl h
  | _ => rfl

end SheetState

/-! ### What holds of every sheet state -/

/-- A voice that is not there has no music yet, and will start with what `a` says. -/
structure TrackState.Formed (s : TrackState) (a : Ambient) : Prop where
  nodup : s.voices.Nodup
  none : s.voice = none → s.voices = []
  some : ∀ v ∈ s.voice, v ∈ s.voices
  fresh : ∀ v, v ∉ s.voices → s.ambient v = a ∧ s.pattern v = .nil

namespace TrackState.Formed

variable {s : TrackState} {a : Ambient}

theorem start (a : Ambient) : (TrackState.start a).Formed a :=
  ⟨.nil, fun _ => rfl, by simp [TrackState.start], fun _ _ => ⟨rfl, rfl⟩⟩

theorem selectVoice (h : s.Formed a) (name : String) : (s.selectVoice name).Formed a := by
  refine ⟨nodup_enlist h.nodup, by simp [TrackState.selectVoice], ?_, fun v hv => h.fresh v ?_⟩
  · rintro v ⟨⟩
    exact mem_enlist.2 (.inr rfl)
  · exact fun hmem => hv (mem_enlist.2 (.inl hmem))

theorem add (h : s.Formed a) {name : String} (hname : name ∈ s.voices) (p : Passage) :
    (s.add name p).Formed a := by
  refine ⟨h.nodup, h.none, h.some, fun v hv => ?_⟩
  have hne : v ≠ name := fun heq => hv (heq ▸ hname)
  rw [TrackState.ambient_add, TrackState.pattern_add, if_neg hne, if_neg hne]
  exact h.fresh v hv

theorem play (h : s.Formed a) (p : Passage) : (s.play p).Formed a :=
  (h.selectVoice _).add (mem_enlist.2 (.inr rfl)) p

end TrackState.Formed

structure SheetState.Formed (k : SheetState) (a : Ambient) : Prop where
  nodup : k.tracks.Nodup
  none : k.track = none → k.tracks = []
  some : ∀ t ∈ k.track, t ∈ k.tracks
  fresh : ∀ t, t ∉ k.tracks → k.trackState t = .start a
  trackState : ∀ t, (k.trackState t).Formed a

namespace SheetState.Formed

variable {k : SheetState} {a : Ambient}

theorem start (a : Ambient) : (SheetState.start a).Formed a :=
  ⟨.nil, fun _ => rfl, by simp [SheetState.start], fun _ _ => rfl, fun _ => .start a⟩

theorem selectTrack (h : k.Formed a) (name : String) : (k.selectTrack name).Formed a := by
  refine ⟨nodup_enlist h.nodup, by simp [SheetState.selectTrack], ?_, fun t ht => h.fresh t ?_,
    h.trackState⟩
  · rintro t ⟨⟩
    exact mem_enlist.2 (.inr rfl)
  · exact fun hmem => ht (mem_enlist.2 (.inl hmem))

theorem adapt (h : k.Formed a) {f : TrackState → TrackState}
    (hf : ∀ s, s.Formed a → (f s).Formed a) :
    (k.adapt f).Formed a := by
  have hselected := h.selectTrack k.trackName
  refine ⟨hselected.nodup, hselected.none, hselected.some, fun t ht => ?_, fun t => ?_⟩
  · have hne : t ≠ k.trackName := fun heq => ht (mem_enlist.2 (.inr heq))
    rw [SheetState.trackState_adapt, if_neg hne]
    exact hselected.fresh t ht
  · rw [SheetState.trackState_adapt]
    split
    · exact hf _ (h.trackState _)
    · exact h.trackState t

end SheetState.Formed

/-! ## Parts -/

namespace Builder.Appends

variable {b b' : Builder} {i j : Nat} {slot : Option Slot} {l : Valuation}

theorem seen (h : b.Appends b' i j slot) (hl : b'.Seen l) : b.Seen l where
  content n c hc := hl.content n c ((h.content? n).trans hc)
  kinds k p hp := hl.kinds k p (by
    rw [h.slots, List.getElem?_append_left (List.getElem?_eq_some_iff.1 hp).1, hp])

/-- Nothing is in the slot of the whole. -/
theorem pattern (h : b.Appends b' i j slot) (hl : b'.Seen l) (outer : List Modifier.Kind) :
    (b'.line i).plan.pattern l outer =
      (b.line i).plan.pattern l outer ++ (b.line j).plan.pattern l outer := by
  have haround : l.around (slot.map fun _ => b.slots.length) outer = outer := by
    cases hslot : slot with
    | none => rfl
    | some slot =>
      have hslots : b'.slots = b.slots ++ [⟨slot, []⟩] := by rw [h.slots, hslot]; rfl
      have hkinds := hl.kinds b.slots.length ⟨slot, []⟩
        (by rw [hslots, List.getElem?_concat_length])
      rw [Valuation.around, Option.map_some, Option.map_some, Option.getD_some, hkinds]
      rfl
  rw [h.plan, Plan.pattern_seq, haround]

end Builder.Appends

/-- The place that is in use is that of the name that is in use. -/
def Chosen (names : List String) (i : Option Nat) (name : Option String) : Prop :=
  i.map (names[·]?) = name.map some

theorem Chosen.cases {names : List String} {i : Option Nat} {name : Option String}
    (h : Chosen names i name) :
    i = none ∧ name = none ∨ ∃ j n, i = some j ∧ name = some n ∧ names[j]? = some n := by
  cases i with
  | none =>
    cases name with
    | none => exact .inl ⟨rfl, rfl⟩
    | some n => cases h
  | some j =>
    cases name with
    | none => cases h
    | some n => exact .inr ⟨j, n, rfl, rfl, Option.some.inj h⟩

/-- The part is what the sheet state says of its track. -/
structure Part.Follows (p : Part) (s : TrackState) : Prop where
  settings : p.settings = {}
  voices : p.voices.map (·.name) = s.voices
  selected : Chosen s.voices p.selected s.voice
  ambient : ∀ v ∈ p.voices, v.ambient = s.ambient v.name
  contents : p.score.contents = s.contents
  builder : ∃ b, p.MadeBy b ∧ ∀ l, b.Seen l → ∀ i v, p.voices[i]? = some v →
    (b.line i).plan.pattern l [] = s.pattern v.name

namespace Part.Follows

variable {p : Part} {s : TrackState} {a : Ambient}

theorem start (name : String) (implicit : Bool) (a : Ambient) :
    Follows { name, settings := {}, implicit } (.start a) where
  settings := rfl
  voices := rfl
  selected := rfl
  ambient := by simp
  contents := rfl
  builder := ⟨{}, ⟨⟨[], rfl⟩, rfl, Builder.ready_start _, rfl, by simp⟩, by simp⟩

/-- A voice is selected. -/
theorem selectVoice (h : p.Follows s) (hs : s.Formed a) (name : String) :
    ∃ i p' voice, p.selectVoice name a = (i, p') ∧ p'.voices[i]? = some voice ∧
      voice.name = name ∧ p'.name = p.name ∧ p'.implicit = p.implicit ∧
      p'.Follows (s.selectVoice name) := by
  unfold Part.selectVoice
  rcases findIdx?_names h.voices name with ⟨i, voice, hi, hvoice, hname, hmem⟩ |
    ⟨hi, hmem⟩
  · rw [hi]
    have henlist : (s.selectVoice name).voices = s.voices := enlist_of_mem hmem
    refine ⟨i, _, voice, rfl, hvoice, hname, rfl, rfl, h.settings, henlist ▸ h.voices, ?_,
      h.ambient, h.contents, ?_⟩
    · show (some ((s.selectVoice name).voices[i]?) : Option (Option String)) = some (some name)
      rw [henlist, ← h.voices, List.getElem?_map, hvoice, Option.map_some, hname]
    · obtain ⟨b, hmade, hpattern⟩ := h.builder
      exact ⟨b, ⟨hmade.run, hmade.score, hmade.ready, hmade.empty, hmade.voices⟩, hpattern⟩
  · rw [hi]
    have henlist : (s.selectVoice name).voices = s.voices ++ [name] := enlist_of_notMem hmem
    obtain ⟨hambient, hnil⟩ := hs.fresh name hmem
    refine ⟨_, _, _, rfl, List.getElem?_concat_length, rfl, rfl, rfl, h.settings, ?_, ?_, ?_,
      h.contents, ?_⟩
    · rw [henlist, List.map_append, h.voices]
      rfl
    · show (some ((s.selectVoice name).voices[p.voices.length]?) : Option (Option String)) =
        some (some name)
      have hlength : p.voices.length = s.voices.length := by rw [← h.voices, List.length_map]
      rw [henlist, hlength, List.getElem?_concat_length]
    · intro v hv
      rcases List.mem_append.1 hv with hv | hv
      · exact h.ambient v hv
      · obtain rfl := List.mem_singleton.1 hv
        exact hambient.symm
    · obtain ⟨b, hmade, hpattern⟩ := h.builder
      refine ⟨b, hmade.addVoice rfl _, fun l hl i v hv => ?_⟩
      rcases Nat.lt_or_ge i p.voices.length with hlt | hge
      · rw [List.getElem?_append_left hlt] at hv
        exact hpattern l hl i v hv
      · obtain rfl : i = p.voices.length := by
          have hlt := (List.getElem?_eq_some_iff.1 hv).1
          rw [List.length_append, List.length_singleton] at hlt
          omega
        rw [List.getElem?_concat_length] at hv
        obtain rfl := Option.some.inj hv
        rw [hmade.empty]
        exact hnil.symm

/-- There is always a voice to go on with. -/
theorem currentVoice (h : p.Follows s) (hs : s.Formed a) :
    ∃ i p' voice, p.currentVoice a = (i, p') ∧ p'.voices[i]? = some voice ∧
      voice.name = s.voiceName ∧ p'.name = p.name ∧ p'.implicit = p.implicit ∧
      p'.Follows (s.selectVoice s.voiceName) := by
  unfold Part.currentVoice TrackState.voiceName
  rcases h.selected.cases with ⟨hi, hname⟩ | ⟨i, name, hi, hname, hvoice⟩
  · rw [hi, hname]
    exact h.selectVoice hs "1"
  · rw [hi, hname]
    rw [← h.voices, List.getElem?_map] at hvoice
    obtain ⟨voice, hvoice, heq⟩ := Option.map_eq_some_iff.1 hvoice
    have hsame : s.selectVoice name = s := by
      obtain ⟨v, names, _, _, _⟩ := s
      have hmem : name ∈ names := by
        rw [← show p.voices.map (·.name) = names from h.voices, ← heq]
        exact List.mem_map_of_mem (List.mem_of_getElem? hvoice)
      rw [TrackState.selectVoice, enlist_of_mem hmem]
      exact congrArg (TrackState.mk · _ _ _ _) hname.symm
    refine ⟨i, p, voice, rfl, hvoice, heq, rfl, rfl, ?_⟩
    rw [Option.getD_some, hsame]
    exact h

/-- Music is read to the end of a voice. -/
theorem addMusic (h : p.Follows s) (hs : s.Formed a) {v : Nat} {voice : Voice}
    (hv : p.voices[v]? = some voice) {q : Passage} {log : List Diagnostic}
    {e : Macro.Expander Directive} {ts rest : List Token} {fuel : Nat} (hts : q.Written ts)
    (hserve : Serving log e (ts ++ rest)) (hrest : Halts rest) (hf : ts.length + 3 ≤ fuel) :
    ∃ strand body log', Writing.sequence fuel none voice.ambient ⟨e, p.score, p.settings⟩ =
        some ((strand, q.after voice.ambient), body) ∧ Serving log' body.input rest ∧
      (q.Plain → log' = log) ∧
      Follows { p with
        score := (Strand.concat voice.strand strand body.score).2.2
        settings := body.settings
        voices := p.voices.set v { voice with
          strand := (Strand.concat voice.strand strand body.score).1
          ambient := q.after voice.ambient } } (s.add voice.name q) := by
  obtain ⟨b, hmade, hpattern⟩ := h.builder
  obtain ⟨b₁, e', log', hseq, h', hlog, hgrows⟩ :=
    Writing.readsPassage p.settings q (a := voice.ambient) hmade.ready hts hserve hrest hf
  obtain ⟨b', slot, happends, hmade'⟩ :=
    hmade.addMusic hv hgrows.ext p.settings (q.after voice.ambient)
  have hconcat := hmade.concat_eq hv hgrows.ext happends
  rw [hmade.empty, hmade.score] at hseq
  have hambient := h.ambient voice (List.mem_of_getElem? hv)
  have hlt := (List.getElem?_eq_some_iff.1 hv).1
  -- the other voices have other names
  have hnodup : (p.voices.map (·.name)).Nodup := h.voices ▸ hs.nodup
  have hothers : ∀ k w, k ≠ v → p.voices[k]? = some w → w.name ≠ voice.name :=
    fun k w hk hw => name_ne_of_ne hnodup hw hv hk
  refine ⟨_, _, log', hseq, h', hlog, ?_⟩
  dsimp only
  rw [hconcat]
  refine ⟨h.settings, ?_, h.selected, fun w hw => ?_, ?_, b', hmade', fun l hl k w hw => ?_⟩
  · rw [map_set_of_name_eq hv]
    · exact h.voices
    · rfl
  · obtain ⟨k, hw⟩ := List.mem_iff_getElem?.1 hw
    rw [List.getElem?_set] at hw
    rw [TrackState.ambient_add]
    split at hw
    · obtain rfl := Option.some.inj hw
      rw [if_pos rfl, hambient]
    · rename_i hk
      rw [if_neg (hothers k w (Ne.symm hk) hw)]
      exact h.ambient w (List.mem_of_getElem? hw)
  · rw [Score.contents_congr happends.content?, hgrows.contents, hmade.score, h.contents, hambient]
    rfl
  · have hl₁ := happends.seen hl
    have hl₀ := hgrows.ext.seen hl₁
    rw [List.getElem?_set] at hw
    rw [TrackState.pattern_add]
    split at hw
    · rename_i hk
      subst hk
      obtain rfl := Option.some.inj hw
      rw [if_pos rfl, happends.pattern hl, hgrows.pattern l hl₁, hgrows.ext.lower v hlt,
        hmade.empty, hpattern l hl₀ v voice hv, hambient]
      rfl
    · rename_i hk
      have hk' := (List.getElem?_eq_some_iff.1 hw).1
      rw [if_neg (hothers k w (Ne.symm hk) hw),
        happends.others k (Ne.symm hk) (Nat.ne_of_lt hk'), hgrows.ext.lower k hk']
      exact hpattern l hl₀ k w hw

end Part.Follows

end Jianpu
