import Jianpu.Proofs.Schedule.Notes
import Jianpu.Proofs.Sheet.Manuscript

/-!
# Changes of tempo and time move no note

`Passage.untimed` is the music without the directives for tempo and time inside it. A branch or a
group where there was nothing else is empty then, and stands where it stood. The pattern of the
music is the former pattern with the nodes of these directives erased (`Passage.pattern_untimed`),
and so it is for every voice of a sheet (`Piece.untimes_state`).

So the directives move no note: `Sheet.notes_untimed`.
-/

namespace Jianpu

open Phrase (degree)

/-! ## Music -/

/-- A change of tempo or time. -/
def Content.isTiming : Content → Bool
  | .tempo _ | .time _ _ => true
  | _ => false

/-- A pattern without the changes of tempo and time. -/
def Shape.untimed (w : Shape ModifiedContent) : Shape ModifiedContent :=
  w.erase fun x => !x.1.any Content.isTiming

theorem Shape.untimed_append (v w : Shape ModifiedContent) :
    (v ++ w).untimed = v.untimed ++ w.untimed :=
  erase_append v w

theorem Shape.Gives.untimed {w : Shape ModifiedContent} {division channel : Nat} {l l' : Timeline}
    (h : w.Gives division channel l) (h' : w.untimed.Gives division channel l') : l' = l := by
  refine Shape.Gives.erase (fun c => !c.any Content.isTiming) (fun c hc => ?_) h h'
  cases c with
  | note | rest | key => simp [Content.isTiming] at hc
  | tempo | time => rfl

/-- A directive for tempo or time. -/
def Change.isTiming : Change → Bool
  | .tempo .. | .times .. => true
  | _ => false

theorem Change.untimed_pattern (c : Change) (outer : List Modifier.Kind) :
    (c.pattern outer).untimed = if c.isTiming then .nil else c.pattern outer := by
  cases c with
  | octave | velocity => rfl
  | key minor text => cases h : Key.parse? text minor <;> simp only [pattern, content?, h] <;> rfl
  | tempo perMinute text =>
    cases h : tempo? perMinute text <;> simp only [pattern, content?, h] <;> rfl
  | times numerator denominator =>
    cases h : Reading.signature? numerator denominator <;> simp only [pattern, content?, h] <;> rfl

theorem Change.ambient_of_isTiming {c : Change} (h : c.isTiming = true) (a : Ambient) :
    c.ambient a = a := by
  cases c with
  | tempo | times => rfl
  | octave | velocity | key => simp [isTiming] at h

theorem Ambient.isTiming_content (a : Ambient) (degree : Nat) :
    (a.content degree).isTiming = false := by
  unfold Ambient.content
  split <;> rfl

mutual

/-- The music without the directives for tempo and time inside it. -/
def Passage.untimed : Passage → Passage
  | .nil => .nil
  | .note degree marks rest => .note degree marks rest.untimed
  | .group branches marks rest => .group branches.untimed marks rest.untimed
  | .change c rest => if c.isTiming then rest.untimed else .change c rest.untimed

def Passages.untimed : Passages → Passages
  | .last p => .last p.untimed
  | .more p rest => .more p.untimed rest.untimed

end

mutual

/-- The nodes of the directives are erased from the pattern. -/
theorem Passage.pattern_untimed : ∀ (p : Passage) (a : Ambient) (outer : List Modifier.Kind),
    p.untimed.pattern a outer = (p.pattern a outer).untimed
  | .nil, _, _ => rfl
  | .note degree marks rest, a, outer => by
    rw [Passage.untimed, Passage.pattern, Passage.pattern, rest.pattern_untimed, Shape.untimed,
      Shape.untimed, Shape.erase, if_pos (by simp [a.isTiming_content])]
  | .group branches marks rest, a, outer => by
    have hbranches := branches.pattern_untimed a (Mark.kinds marks ++ outer) .nil
    rw [Passage.untimed, Passage.pattern, Passage.pattern, rest.pattern_untimed,
      Shape.untimed_append, ← hbranches]
    rfl
  | .change c rest, a, outer => by
    rw [Passage.untimed, Passage.pattern, Shape.untimed_append, c.untimed_pattern]
    split
    · rename_i hc
      rw [rest.pattern_untimed, Change.ambient_of_isTiming hc, Shape.nil_append]
    · rw [Passage.pattern, rest.pattern_untimed]

theorem Passages.pattern_untimed : ∀ (bs : Passages) (a : Ambient) (outer : List Modifier.Kind)
    (w : Shape ModifiedContent),
    bs.untimed.pattern a outer w.untimed = (bs.pattern a outer w).untimed
  | .last p, a, outer, w => by
    rw [Passages.untimed, Passages.pattern, Passages.pattern, p.pattern_untimed]
    exact (Shape.erase_beside ..).symm
  | .more p rest, a, outer, w => by
    rw [Passages.untimed, Passages.pattern, Passages.pattern, p.pattern_untimed,
      ← rest.pattern_untimed]
    exact congrArg (rest.untimed.pattern a outer) (Shape.erase_beside ..).symm

end

theorem Passage.after_untimed : ∀ (p : Passage) (a : Ambient), p.untimed.after a = p.after a
  | .nil, _ => rfl
  | .note _ _ rest, a => rest.after_untimed a
  | .group _ _ rest, a => rest.after_untimed a
  | .change c rest, a => by
    rw [untimed]
    split
    · rename_i hc
      rw [rest.after_untimed, after, Change.ambient_of_isTiming hc]
    · exact rest.after_untimed _

/-! ## Sheet states -/

/-- The second track is the first one without changes of tempo and time. Which voices there are need
not be the same: where there was nothing else, there may be no voice. -/
structure TrackState.Untimes (s s' : TrackState) : Prop where
  voiceName : s'.voiceName = s.voiceName
  ambient : s'.ambient = s.ambient
  pattern : ∀ v, s'.pattern v = (s.pattern v).untimed

namespace TrackState.Untimes

variable {s s' : TrackState}

theorem selectVoice (h : s.Untimes s') (name : String) :
    (s.selectVoice name).Untimes (s'.selectVoice name) :=
  ⟨rfl, h.ambient, h.pattern⟩

theorem add (h : s.Untimes s') (name : String) (p : Passage) :
    (s.add name p).Untimes (s'.add name p.untimed) := by
  refine ⟨h.voiceName, funext fun v => ?_, fun v => ?_⟩
  · rw [TrackState.ambient_add, TrackState.ambient_add, h.ambient, p.after_untimed]
  · rw [TrackState.pattern_add, TrackState.pattern_add, h.ambient, h.pattern, p.pattern_untimed]
    split
    · exact (Shape.untimed_append ..).symm
    · rfl

theorem play (h : s.Untimes s') (p : Passage) : (s.play p).Untimes (s'.play p.untimed) := by
  unfold TrackState.play
  rw [h.voiceName]
  exact (h.selectVoice _).add _ p

/-- No music does not matter. -/
theorem of_play_nil (h : s.Untimes (s'.play .nil)) : s.Untimes s' := by
  refine ⟨h.voiceName, funext fun v => ?_, fun v => ?_⟩
  · rw [← h.ambient, TrackState.play, TrackState.ambient_add]
    split <;> rfl
  · rw [← h.pattern, TrackState.play, TrackState.pattern_add]
    split
    · exact (Shape.append_nil _).symm
    · rfl

end TrackState.Untimes

structure SheetState.Untimes (k k' : SheetState) : Prop where
  trackName : k'.trackName = k.trackName
  trackState : ∀ t, (k.trackState t).Untimes (k'.trackState t)

namespace SheetState.Untimes

variable {k k' : SheetState}

theorem start (a : Ambient) : (SheetState.start a).Untimes (.start a) :=
  ⟨rfl, fun _ => ⟨rfl, rfl, fun _ => rfl⟩⟩

theorem adapt (h : k.Untimes k') {f f' : TrackState → TrackState}
    (hf : ∀ s s' : TrackState, s.Untimes s' → (f s).Untimes (f' s')) :
    (k.adapt f).Untimes (k'.adapt f') := by
  refine ⟨h.trackName, fun t => ?_⟩
  rw [SheetState.trackState_adapt, SheetState.trackState_adapt, h.trackName]
  split
  · exact hf _ _ (h.trackState t)
  · exact h.trackState t

theorem select (h : k.Untimes k') (x : Heading) : (k.select x).Untimes (k'.select x) := by
  cases x with
  | track name => exact ⟨rfl, h.trackState⟩
  | voice name => exact h.adapt fun _ _ hs => hs.selectVoice name

theorem play (h : k.Untimes k') (p : Passage) : (k.play p).Untimes (k'.play p.untimed) := by
  by_cases hp : p = .nil
  · rw [hp]
    exact h
  · have hadapt : (k.adapt (·.play p)).Untimes (k'.adapt (·.play p.untimed)) :=
      h.adapt fun _ _ hs => hs.play p
    rw [SheetState.play_of_ne_nil k hp]
    by_cases hnil : p.untimed = .nil
    · -- there was nothing but such directives, so that there is no music
      rw [hnil] at hadapt ⊢
      refine ⟨h.trackName, fun t => ?_⟩
      have htrackState := hadapt.trackState t
      rw [SheetState.trackState_adapt k'] at htrackState
      split at htrackState
      · exact htrackState.of_play_nil
      · exact htrackState
    · rwa [SheetState.play_of_ne_nil k' hnil]

end SheetState.Untimes

/-! ## Sheets -/

namespace Piece

/-- The sheet without the directives for tempo and time inside its music. -/
def untimed (m : Piece) : Piece :=
  { m with
    opening := m.opening.untimed
    sections := m.sections.map fun s => { s with music := s.music.untimed } }

theorem untimes_state (m : Piece) : m.state.Untimes m.untimed.state := by
  have hsections : ∀ (ss : List Section) {k k' : SheetState}, k.Untimes k' →
      (ss.foldl SheetState.enter k).Untimes
        ((ss.map fun s => { s with music := s.music.untimed }).foldl SheetState.enter k') := by
    intro ss
    induction ss with
    | nil => exact id
    | cons s ss ih => exact fun h => ih ((h.select s.heading).play s.music)
  exact hsections m.sections ((SheetState.Untimes.start m.defaults).play m.opening)

end Piece

/-! ## Notes -/

/-- The notes of a voice, by its name. -/
def Part.notes (p : Part) (voice : String) (division channel : Nat) : Timeline :=
  ((p.voices.find? (·.name = voice)).map fun v =>
    (Queue.ofScore p.score (v.strand.map (·.head)) division channel).emitted.notes).getD []

/-- The notes of a voice, by the names of its track and its own. -/
def Sheet.notes (s : Sheet) (track voice : String) (division channel : Nat) : Timeline :=
  ((s.parts.find? (·.name = track)).map (·.notes voice division channel)).getD []

theorem Part.Follows.gives {p : Part} {s : TrackState} {a : Ambient} (h : p.Follows s)
    (hs : s.Formed a) (voice : String) (division channel : Nat) :
    (s.pattern voice).Gives division channel (p.notes voice division channel) := by
  unfold Part.notes
  cases hv : p.voices.find? (·.name = voice) with
  | none =>
    have hvoice : voice ∉ s.voices := by
      rw [← h.voices, List.mem_map]
      rintro ⟨v, hmem, hname⟩
      simpa [hname] using List.find?_eq_none.1 hv v hmem
    rw [(hs.fresh voice hvoice).2]
    exact .nil division channel
  | some v =>
    obtain ⟨b, hmade, hpattern⟩ := h.builder
    obtain ⟨owners, -, -, hnested, -⟩ := hmade.exists_nested
    obtain ⟨i, hi⟩ := List.mem_iff_getElem?.1 (List.mem_of_find?_eq_some hv)
    have hname : v.name = voice := by simpa using List.find?_some hv
    refine ⟨b, owners, i, hmade.ready.sound, hnested, ?_, ?_⟩
    · rw [hpattern b.valuation b.seen_valuation i v hi, hname]
    · rw [Builder.notes, hmade.voices i v hi, hmade.score]
      rfl

theorem Draft.Follows.gives {d : Draft} {k : SheetState} {h : Header} (hd : d.Follows k h)
    (track voice : String) (division channel : Nat) :
    ((k.trackState track).pattern voice).Gives division channel
      (Sheet.notes ⟨d.header, d.parts⟩ track voice division channel) := by
  unfold Sheet.notes
  cases hp : d.parts.find? (·.name = track) with
  | none =>
    have htrack : track ∉ k.tracks := by
      rw [← hd.tracks, List.mem_map]
      rintro ⟨p, hmem, hname⟩
      simpa [hname] using List.find?_eq_none.1 hp p hmem
    rw [hd.formed.fresh track htrack]
    exact .nil division channel
  | some p =>
    have hname : p.name = track := by simpa using List.find?_some hp
    rw [← hname]
    exact (hd.parts p (List.mem_of_find?_eq_some hp)).gives
      (hd.formed.trackState _) voice division channel

namespace Sheet

/-- **Changes of tempo and time inside the music move no note.** A text that writes a sheet and one
that writes the same sheet without the directives for tempo and time inside its music are both read,
and then a queue for a voice of the second one gives out the notes of the same voice of the first
one: the same starts and ends at the same ticks, in the same order, two for every note that is
written. -/
theorem notes_untimed (m : Piece) (text text' : String) (limit limit' fuel fuel' : Nat)
    (hm : m.Written ((Token.scan .music text).takeWhile fun t => !t.isEof))
    (hm' : m.untimed.Written ((Token.scan .music text').takeWhile fun t => !t.isEof))
    (hf : (Token.scan .music text).length + 3 ≤ fuel)
    (hf' : (Token.scan .music text').length + 3 ≤ fuel') :
    ∃ r r', parse fuel (.ofText .music text) limit = some r ∧
      parse fuel' (.ofText .music text') limit' = some r' ∧
      ∀ track voice division channel,
        r'.sheet.notes track voice division channel = r.sheet.notes track voice division channel ∧
        (r.sheet.notes track voice division channel).length =
          2 * ((m.state.trackState track).pattern voice).toList.countP ModifiedContent.isNote := by
  obtain ⟨d, h, hall, hd, -⟩ := exists_draft_piece limit hm hf
  obtain ⟨d', h', hall', hd', -⟩ := exists_draft_piece limit' hm' hf'
  refine ⟨_, _, parse_of_all hall, parse_of_all hall', fun track voice division channel => ?_⟩
  have hgives := hd.gives track voice division channel
  have hgives' := hd'.gives track voice division channel
  rw [(m.untimes_state.trackState track).pattern voice] at hgives'
  exact ⟨hgives.untimed hgives', hgives.length⟩

/-- Directives at the start and the end of branches, alone in a branch, alone in a group with marks,
and alone in a voice. -/
def etude : Piece where
  opening := .note (degree 1) [] (.change (.tempo false "500000") (.group
    (.more (.change (.tempo true "120") .nil)
      (.last (.note (degree 2) [] (.change (.times "3" "4") (.note (degree 3) [] .nil))))) [.dash]
    (.group (.last (.change (.times "6" "8") .nil)) [.underline] (.note (degree 4) [] .nil))))
  sections := [
    ⟨.voice "x", .change (.tempo true "90") (.group
      (.more (.group (.last (.change (.tempo false "9") .nil)) [] .nil)
        (.more (.note (degree 5) [.octaveUp] .nil) (.last (.change (.tempo true "60") .nil))))
      [.dot] (.note (degree 6) [] .nil))⟩,
    ⟨.track "B", .change (.times "2" "4") .nil⟩]

def etudeText : String :=
  "1\\tempo\x7b500000\x7d\x7b\\bpm\x7b120\x7d|2\\times\x7b3\x7d\x7b4\x7d3\x7d-" ++
  "\x7b\\times\x7b6\x7d\x7b8\x7d\x7d_4\n" ++
  "\\v\x7bx\x7d\\bpm\x7b90\x7d\x7b\x7b\\tempo\x7b9\x7d\x7d,5'|\\bpm\x7b60\x7d\x7d*6" ++
  "\\track\x7bB\x7d\\times\x7b2\x7d\x7b4\x7d"

def etudePlain : String :=
  "1\x7b|23\x7d-\x7b\x7d_4\n\\v\x7bx\x7d\x7b\x7b\x7d,5'|\x7d*6\\track\x7bB\x7d"

theorem notes_untimed_etude :
    etude.Written ((Token.scan .music etudeText).takeWhile fun t => !t.isEof) ∧
      etude.untimed.Written ((Token.scan .music etudePlain).takeWhile fun t => !t.isEof) ∧
      ∃ r r', parse 200 (.ofText .music etudeText) 100 = some r ∧
        parse 200 (.ofText .music etudePlain) 100 = some r' ∧
        (∀ track voice division channel,
          r'.sheet.notes track voice division channel =
            r.sheet.notes track voice division channel) ∧
        (r.sheet.notes "Track 1" "1" 480 0).length = 8 ∧
        (r.sheet.notes "Track 1" "x" 480 0).length = 4 ∧
        r.sheet.notes "B" "1" 480 0 = [] := by
  have hwritten : etude.Written ((Token.scan .music etudeText).takeWhile fun t => !t.isEof) :=
    Piece.written_of_strip? (.inr trivial) (by decide +kernel)
  have hplain : etude.untimed.Written
      ((Token.scan .music etudePlain).takeWhile fun t => !t.isEof) :=
    Piece.written_of_strip? (.inr trivial) (by decide +kernel)
  obtain ⟨r, r', hparse, hparse', hnotes⟩ :=
    notes_untimed etude etudeText etudePlain 100 100 200 200
    hwritten hplain (by decide +kernel) (by decide +kernel)
  refine ⟨hwritten, hplain, r, r', hparse, hparse', fun track voice division channel =>
    (hnotes track voice division channel).1, ?_, ?_, ?_⟩
  · rw [(hnotes ..).2]
    decide +kernel
  · rw [(hnotes ..).2]
    decide +kernel
  · rw [← List.length_eq_zero_iff, (hnotes ..).2]
    decide +kernel

end Sheet

end Jianpu
