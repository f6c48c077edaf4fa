import Jianpu.Proofs.Sheet.Draft

/-!
# Tracks with the same music

What is played of a draft only depends on what its sheet state says of the voices: in which order
the tracks and their voices come up, and the pattern of each voice. How the sheet was read, and in
which order its nodes were made, does not matter: `Draft.Follows.arrange_eq`.
-/

namespace Jianpu

/-! ## Parts -/

theorem Builder.Gathers.seen {b b' : Builder} {n : Nat} {js : List Nat} {l : Valuation}
    (h : b.Gathers b' n js) (hl : b'.Seen l) : b.Seen l where
  content m c hc := hl.content m c ((h.content? m).trans hc)
  kinds k p hp := hl.kinds k p (by rwa [h.slots])

theorem Plan.pattern_foldl_branch (l : Valuation) (outer : List Modifier.Kind) (ps : List Plan)
    (p : Plan) : (ps.foldl branch p).pattern l outer =
      (ps.map (·.pattern l outer)).foldl Shape.beside (p.pattern l outer) := by
  induction ps generalizing p with
  | nil => rfl
  | cons q ps ih => rw [List.foldl_cons, ih, pattern_branch, List.map_cons, List.foldl_cons]

namespace Part.Follows

variable {p p' : Part} {s s' : TrackState}

/-- The voices of a part, beside each other, have their patterns beside each other. -/
theorem exists_joined (h : p.Follows s) :
    ∃ (b : Builder) (owners : Ownership) (i : Nat), b.Sound ∧ b.Nested owners ∧
      ((b.line i).strand, b.score) = p.joined ∧
      (b.line i).plan.pattern b.valuation [] =
        (s.voices.map s.pattern).foldl Shape.beside .nil := by
  obtain ⟨b, hmade, hpattern⟩ := h.builder
  obtain ⟨-, b', owners, -, hsound, hnested, hgathers, hjoined⟩ := hmade.exists_nested
  refine ⟨b', owners, p.voices.length, hsound, hnested, hjoined, ?_⟩
  have hseen := hgathers.seen b'.seen_valuation
  have hlines : (List.range p.voices.length).map
      (fun j => (b.line j).plan.pattern b'.valuation []) = s.voices.map s.pattern := by
    rw [← h.voices, List.map_map]
    exact map_range_voices (hpattern b'.valuation hseen)
  rw [hgathers.plan, Plan.pattern_foldl_branch, List.map_map, Plan.pattern_empty, ← hlines]
  rfl

/-- Parts whose voices have the same patterns are played alike. -/
theorem play_eq (h : p.Follows s) (h' : p'.Follows s') (hvoices : s.voices = s'.voices)
    (hpattern : ∀ v ∈ s.voices, s.pattern v = s'.pattern v) (division channel : Nat) :
    Sheet.play p division channel = Sheet.play p' division channel := by
  obtain ⟨b, owners, i, hsound, hnested, hjoined, hshape⟩ := h.exists_joined
  obtain ⟨b', owners', i', hsound', hnested', hjoined', hshape'⟩ := h'.exists_joined
  have hshapes : (b.line i).plan.pattern b.valuation [] =
      (b'.line i').plan.pattern b'.valuation [] := by
    rw [hshape, hshape', ← hvoices, List.map_congr_left hpattern]
  have hplay : ∀ q : Part, Sheet.play q division channel = Overlap.merge
      (Queue.ofScore q.joined.2 (q.joined.1.map (·.head)) division channel).events := fun _ => rfl
  rw [hplay, hplay, ← hjoined, ← hjoined']
  exact congrArg Overlap.merge
    (Builder.events_of_pattern hsound hsound' hnested hnested' hshapes division channel)

end Part.Follows

/-! ## Sheets -/

/-- The parts make the same tracks. -/
structure Part.SameTrack (p p' : Part) : Prop where
  name : p.name = p'.name
  settings : p.settings = p'.settings
  implicit : p.implicit = p'.implicit
  play : ∀ division channel, Sheet.play p division channel = Sheet.play p' division channel

theorem Sheet.arrangeParts_congr {ps ps' : List Part} (h : List.Forall₂ Part.SameTrack ps ps')
    (division n : Nat) : arrangeParts division n ps = arrangeParts division n ps' := by
  induction h generalizing n with
  | nil => rfl
  | cons hp _ ih =>
    simp only [arrangeParts, hp.name, hp.settings, hp.implicit, hp.play, ih]

/-- The sheet states have the same tracks with the same voices, and the same music in each. -/
structure SheetState.Alike (k k' : SheetState) : Prop where
  tracks : k.tracks = k'.tracks
  voices : ∀ t ∈ k.tracks, (k.trackState t).voices = (k'.trackState t).voices
  pattern : ∀ t ∈ k.tracks, ∀ v ∈ (k.trackState t).voices,
    (k.trackState t).pattern v = (k'.trackState t).pattern v

namespace Draft.Follows

variable {d d' : Draft} {k k' : SheetState} {h : Header}

theorem implicit_eq_false (hd : d.Follows k h) {p : Part} (hp : p ∈ d.parts)
    (hname : p.name ≠ SheetState.unnamed) : p.implicit = false :=
  Bool.eq_false_iff.2 fun heq => hname (hd.implicit p hp heq)

/-- Parts for one track agree, if the track was given its name. -/
theorem sameTrack (hd : d.Follows k h) (hd' : d'.Follows k' h) (hk : k.Alike k')
    (hnamed : SheetState.unnamed ∉ k.tracks) {p p' : Part} (hp : p ∈ d.parts) (hp' : p' ∈ d'.parts)
    (hname : p.name = p'.name) : p.SameTrack p' := by
  have htrack : p.name ∈ k.tracks := by
    rw [← hd.tracks]
    exact List.mem_map_of_mem hp
  have hne : p.name ≠ SheetState.unnamed := fun heq => hnamed (heq ▸ htrack)
  have hfollows := hd.parts p hp
  have hfollows' := hd'.parts p' hp'
  rw [← hname] at hfollows'
  refine ⟨hname, hfollows.settings.trans hfollows'.settings.symm, ?_, ?_⟩
  · rw [hd.implicit_eq_false hp hne, hd'.implicit_eq_false hp' (hname ▸ hne)]
  · exact hfollows.play_eq hfollows' (hk.voices p.name htrack) (hk.pattern p.name htrack)

/-- **Drafts that follow sheet states with the same music make the same composition**, if every
track was given a name. -/
theorem arrange_eq (hd : d.Follows k h) (hd' : d'.Follows k' h) (hk : k.Alike k')
    (hnamed : SheetState.unnamed ∉ k.tracks) :
    Sheet.arrange ⟨d.header, d.parts⟩ = Sheet.arrange ⟨d'.header, d'.parts⟩ := by
  have hnames : d.parts.map (·.name) = d'.parts.map (·.name) := by
    rw [hd.tracks, hd'.tracks, hk.tracks]
  have hparts : List.Forall₂ Part.SameTrack d.parts d'.parts := by
    rw [List.forall₂_iff_get]
    have hlength : d.parts.length = d'.parts.length := by
      simpa using congrArg List.length hnames
    refine ⟨hlength, fun i hi hi' => ?_⟩
    have hname : (d.parts.get ⟨i, hi⟩).name = (d'.parts.get ⟨i, hi'⟩).name := by
      have hget := congrArg (·[i]?) hnames
      simpa [hi, hi'] using hget
    exact hd.sameTrack hd' hk hnamed (List.get_mem ..) (List.get_mem ..) hname
  unfold Sheet.arrange
  simp only [hd.header, hd'.header, Sheet.arrangeParts_congr hparts]

end Draft.Follows

end Jianpu
