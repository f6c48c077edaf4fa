import Jianpu.Compile
import Jianpu.Proofs.Schedule.Balance
import Jianpu.Proofs.Schedule.Gaps
import Jianpu.Proofs.Schedule.Turns
import Jianpu.Proofs.Sheet.Parts

/-!
# Tracks in exact ticks

What a part sounds like is a timeline, at ticks that no limit was put on: the events of its nodes at
the ticks where they start, in order (`Part.timeline`), and of these the ones that are heard
(`Part.heard`). A track has the distances between the latter, cut down to the largest that is kept:
`compile_tracks`.
-/

namespace Jianpu

theorem Score.channel_of_mem_soundsOf {g : Score} {division channel n t : Nat} {x : Nat × Event}
    (hx : x ∈ g.soundsOf division channel n t) {key : Nat × Nat} (hkey : x.2.note? = some key) :
    key.1 = channel := by
  unfold soundsOf at hx
  split at hx
  · cases hx
  · split at hx
    · rcases List.mem_cons.1 hx with rfl | hx
      · rw [← Option.some.inj hkey]
      · obtain rfl := List.mem_singleton.1 hx
        rw [← Option.some.inj hkey]
    · cases hx
    all_goals
      obtain rfl := List.mem_singleton.1 hx
      cases hkey

namespace Part

variable {p : Part}

/-- All events of a part on a channel, in order of their ticks. -/
def timeline (p : Part) (division channel : Nat) : Timeline :=
  Timeline.sort
    ((Queue.history p.joined.2 (p.joined.1.map (·.head)) division channel).flatMap (·.events))

/-- The events of a part on a channel that are heard. -/
def heard (p : Part) (division channel : Nat) : Timeline :=
  Overlap.audible [] (p.timeline division channel)

/-- The nodes of a part have start ticks, and every one brings its events at its tick. -/
def Paced (p : Part) (division channel : Nat) : Prop :=
  ∃ ns start, Timing p.joined.2 division (p.joined.1.map (·.head)) ns start ∧
    Queue.Performs p.joined.2 (p.joined.1.map (·.head)) ns division channel start

theorem Made.paced (h : p.Made) (division channel : Nat) : p.Paced division channel := by
  obtain ⟨ms, b, i, hrun, hjoined⟩ := h.exists_joined
  have hsound := Builder.Sound.start.run ms hrun
  obtain ⟨start, htiming⟩ := hsound.exists_timing i division
  have hperforms := hsound.performs htiming channel
  rw [Paced, ← hjoined]
  exact ⟨_, start, htiming, hperforms⟩

variable {division channel : Nat}

theorem sorted_timeline (p : Part) (division channel : Nat) :
    (p.timeline division channel).Sorted := Timeline.sorted_sort _

/-- Playing a part gives what is heard, with the distances cut down. -/
theorem Paced.play_eq (h : p.Paced division channel) :
    Sheet.play p division channel = Timeline.deltas 0 (p.heard division channel) := by
  obtain ⟨ns, start, -, hperforms⟩ := h
  have hplay : Sheet.play p division channel = Overlap.merge
      (Queue.ofScore p.joined.2 (p.joined.1.map (·.head)) division channel).events := rfl
  rw [hplay, hperforms.events]
  exact Overlap.merge_deltas (p.sorted_timeline division channel)

theorem Paced.balanced (h : p.Paced division channel) :
    Overlap.Balanced [] ((p.timeline division channel).map (·.2)) := by
  obtain ⟨ns, start, -, hperforms⟩ := h
  have hbalanced := hperforms.balanced
  rwa [hperforms.events, Timeline.map_deltas] at hbalanced

/-- The last event of a part is heard. -/
theorem Paced.getLast?_heard (h : p.Paced division channel) :
    (p.heard division channel).getLast? = (p.timeline division channel).getLast? :=
  Overlap.getLast?_audible h.balanced

/-- All notes of a part are on its channel. -/
theorem Paced.channel_eq (h : p.Paced division channel) {x : Nat × Event}
    (hx : x ∈ p.timeline division channel) {key : Nat × Nat} (hkey : x.2.note? = some key) :
    key.1 = channel := by
  obtain ⟨ns, start, -, hperforms⟩ := h
  obtain ⟨v, hv, hx⟩ := List.mem_flatMap.1 ((Timeline.sort_perm _).mem_iff.1 hx)
  rw [(hperforms.visits v hv).2] at hx
  exact Score.channel_of_mem_soundsOf hx hkey

end Part

/-- A track plays a part. -/
structure Track.Plays (division : Nat) (t : Track) (p : Part) : Prop where
  name : t.name = p.name
  channel : t.channel < Sheet.channels
  paced : p.Paced division t.channel
  /-- Nothing comes after the last event that is heard. -/
  last : (p.heard division t.channel).getLast? = (p.timeline division t.channel).getLast?
  events : t.events = Timeline.deltas 0 (p.heard division t.channel)

namespace Track.Plays

variable {division : Nat} {t : Track} {p : Part}

theorem events_eq (h : t.Plays division p) :
    t.events.map (·.event) = (p.heard division t.channel).map (·.2) := by
  rw [h.events, Timeline.map_deltas]

/-- In a track the notes of every pitch start and end in turn. -/
theorem sounded (h : t.Plays division p) :
    Sounded (fun _ => false) [] (t.events.map (·.event)) where
  count _ := rfl
  rest key := by
    rw [h.events_eq]
    exact Overlap.alternates_audible h.paced.balanced key

/-- What sounds in a track sounds on its channel. -/
theorem channel_of_sounds (h : t.Plays division p) {l : List Event}
    (hl : l <+: t.events.map (·.event)) {key : Nat × Nat} (hsounds : Overlap.Sounds key l) :
    key.1 = t.channel := by
  obtain ⟨e, he, hstarts⟩ := List.countP_pos_iff.1 (Nat.zero_lt_of_lt hsounds)
  have hmem := hl.subset he
  rw [h.events_eq] at hmem
  obtain ⟨x, hx, rfl⟩ := List.mem_map.1 hmem
  have hnote : x.2.note? = some key := by
    by_contra hne
    rw [(Event.startsNote_of_ne hne).1] at hstarts
    cases hstarts
  exact h.paced.channel_eq ((Overlap.audible_sublist _ _).subset hx) hnote

end Track.Plays

namespace Sheet

theorem arrangeParts_plays (division n : Nat) {ps : List Part} (h : ∀ p ∈ ps, p.Made) :
    ∃ qs, qs.Sublist ps ∧
      List.Forall₂ (Track.Plays division) (arrangeParts division n ps).1 qs := by
  induction ps generalizing n with
  | nil => exact ⟨[], .slnil, .nil⟩
  | cons p ps ih =>
    obtain ⟨hp, hps⟩ := List.forall_mem_cons.1 h
    rw [arrangeParts]
    dsimp only
    split
    · obtain ⟨qs, hqs, hplays⟩ := ih n hps
      exact ⟨qs, hqs.cons p, hplays⟩
    · obtain ⟨qs, hqs, hplays⟩ := ih (n + 1) hps
      have hpaced := hp.paced division (n % channels)
      exact ⟨p :: qs, hqs.cons_cons p,
        .cons ⟨rfl, Nat.mod_lt n (by decide), hpaced, hpaced.getLast?_heard, hpaced.play_eq⟩
          hplays⟩

end Sheet

/-- Every track of a composition plays a part of the sheet that was read, in the order of the parts.
-/
theorem compile_tracks {fuel : Nat} {o : Options} {text : String} {c : Compiled}
    (h : compile fuel o text = some c) :
    ∃ r ps, Sheet.parse fuel (.ofText o.alphabet text) o.limit = some r ∧
      ps.Sublist r.sheet.parts ∧
      List.Forall₂ (Track.Plays c.composition.division) c.composition.tracks ps := by
  obtain ⟨r, hparse, heq⟩ := Option.bind_eq_some_iff.1 h
  obtain rfl := Option.some.inj heq
  obtain ⟨ps, hps, hplays⟩ := Sheet.arrangeParts_plays r.sheet.header.division 0
    (Sheet.made_of_parse hparse)
  exact ⟨r, ps, hparse, hps, hplays⟩

end Jianpu
