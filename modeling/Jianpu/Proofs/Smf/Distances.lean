import Jianpu.Proofs.Sheet.Tracks
import Jianpu.Proofs.Smf.Files

/-!
# Distances in a file

A distance that is cut down is still too large for a file. So whether a composition can be written
depends on the exact distances between the events that are heard, those are what is read back, and
it is the first of them that does not fit that is reported: `compile_keepsGaps`.
-/

namespace Jianpu.Smf

open Timeline (gaps)

/-! ## The outcome of writing -/

/-- The first event of a track that is too far from the one before it. -/
def overflow? (t : Track) : Option Overflow :=
  (t.events.find? fun e => Quantity.largest < e.delta).map fun e => ⟨t.name, e.delta⟩

theorem overflow?_eq_none {t : Track} : overflow? t = none ↔ Writable t := by
  simp [overflow?, Writable]

theorem messages_of_overflow? {t : Track} {o : Overflow} (h : overflow? t = some o) :
    messages t = .error o := by
  obtain ⟨e, he, rfl⟩ := Option.map_eq_some_iff.1 h
  simp only [messages, he]
  rfl

/-- What is reported is the first event that is too far, of the first track with one. -/
theorem encode_eq_error_iff {c : Composition} {o : Overflow} :
    encode c = .error o ↔ c.tracks.findSome? overflow? = some o := by
  -- `mapM` stops at the first track that cannot be written, as `findSome?` does
  cases h : c.tracks.findSome? overflow? with
  | none =>
    rw [List.findSome?_eq_none_iff] at h
    rw [encode_ok fun t ht => overflow?_eq_none.1 (h t ht)]
    simp
  | some o' =>
    obtain ⟨before, t, after, hc, ht, hbefore⟩ := List.findSome?_eq_some_iff.1 h
    rw [encode_error hc (fun t' ht' => overflow?_eq_none.1 (hbefore t' ht'))
      (messages_of_overflow? ht)]
    simp

/-- There is a file unless something is reported. -/
theorem exists_encode_eq_ok_iff {c : Composition} :
    (∃ bytes, encode c = .ok bytes) ↔ ∀ t ∈ c.tracks, Writable t := by
  constructor
  · rintro ⟨bytes, hbytes⟩ t ht
    rw [← overflow?_eq_none]
    by_contra hne
    obtain ⟨o, ho⟩ : ∃ o, c.tracks.findSome? overflow? = some o := by
      rw [← Option.ne_none_iff_exists', ne_eq, List.findSome?_eq_none_iff]
      exact fun hall => hne (hall t ht)
    rw [encode_eq_error_iff.2 ho] at hbytes
    cases hbytes
  · exact fun h => ⟨_, encode_ok h⟩

/-! ## Exact distances -/

/-- A composition for which a file has room: names and tracks are not too long. -/
structure Contained (c : Composition) : Prop where
  names : ∀ t ∈ c.tracks, (Utf8.encode t.name).length ≤ 0x0FFFFFFF
  sizes : ∀ t ∈ c.tracks, ∀ ms, messages t = .ok ms → (encodeMessages none ms).length < 2 ^ 32

theorem eq_trackMessages_of_ok {t : Track} {ms : List TimedMessage} (h : messages t = .ok ms) :
    ms = trackMessages t := by
  cases ho : overflow? t with
  | none =>
    rw [messages_ok (overflow?_eq_none.1 ho)] at h
    exact (Except.ok.inj h).symm
  | some o =>
    rw [messages_of_overflow? ho] at h
    cases h

theorem contained_of_trackMessages {c : Composition}
    (h : ∀ t ∈ c.tracks, (Utf8.encode t.name).length ≤ 0x0FFFFFFF ∧
      (encodeMessages none (trackMessages t)).length < 2 ^ 32) : Contained c where
  names t ht := (h t ht).1
  sizes t ht ms hms := by
    rw [eq_trackMessages_of_ok hms]
    exact (h t ht).2

theorem Contained.decode_eq {c : Composition} (h : Contained c) {bytes : List UInt8}
    (hbytes : encode c = .ok bytes) :
    decode bytes = .ok ⟨1, .metrical (c.division % 0x8000),
      conductor c.toHeader :: c.tracks.map trackMessages⟩ := by
  have hwritable := exists_encode_eq_ok_iff.1 ⟨bytes, hbytes⟩
  obtain ⟨bytes', hbytes', hdecode⟩ := exists_decode hwritable h.names fun t ht =>
    h.sizes t ht (trackMessages t) (messages_ok (hwritable t ht))
  rw [hbytes] at hbytes'
  obtain rfl := Except.ok.inj hbytes'
  exact hdecode

/-- The first distance of a timeline that does not fit a file, cut down. -/
def overlong? (name : String) (l : Timeline) : Option Overflow :=
  ((gaps 0 l).find? (0x0FFFFFFF < ·)).map fun g => ⟨name, min g 0xFFFFFFFF⟩

/-- The messages of a track have the events of a timeline, at its exact distances. -/
def ReadAs (ms : List TimedMessage) (l : Timeline) : Prop :=
  ∃ start body, ms = start ++ body ++ [⟨1, .endOfTrack⟩] ∧ start.map (·.delta) = [0, 0, 0, 0] ∧
    body.map (·.delta) = gaps 0 l ∧ List.Forall₂ Conveys (l.map (·.2)) (body.map (·.message))

/-- What becomes of the distances of timelines, one for each track of a composition. -/
structure KeepsGaps (c : Composition) (ls : List Timeline) : Prop where
  /-- In the tracks they are cut down. -/
  tracks : List.Forall₂ (fun t l => t.events.map (·.event) = l.map (·.2) ∧
    t.events.map (·.delta) = (gaps 0 l).map (min · 0xFFFFFFFF)) c.tracks ls
  /-- There is a file if all of them fit. -/
  written : (∃ bytes, encode c = .ok bytes) ↔ ∀ l ∈ ls, ∀ g ∈ gaps 0 l, g ≤ 0x0FFFFFFF
  /-- In a file they are exact. -/
  read : Contained c → ∀ bytes, encode c = .ok bytes →
    ∃ file, decode bytes = .ok file ∧ List.Forall₂ ReadAs file.tracks.tail ls
  /-- Otherwise the first that does not fit is reported. -/
  reported : ∀ o, encode c = .error o ↔
    (c.tracks.zip ls).findSome? (fun x => overlong? x.1.name x.2) = some o

variable {t : Track} {l : Timeline}

/-- A distance is too large for a file if it is too large when cut down. -/
theorem find?_min (gs : List Nat) :
    (gs.map (min · TimedEvent.farthest)).find? (Quantity.largest < ·) =
      (gs.find? (0x0FFFFFFF < ·)).map (min · TimedEvent.farthest) := by
  rw [List.find?_map]
  congr 2
  funext g
  simp [Quantity.largest, TimedEvent.farthest]

theorem overflow?_eq_overlong? (h : t.events = Timeline.deltas 0 l) :
    overflow? t = overlong? t.name l := by
  have hfind : (t.events.find? fun e => Quantity.largest < e.delta).map (·.delta) =
      ((gaps 0 l).find? (0x0FFFFFFF < ·)).map (min · TimedEvent.farthest) := by
    rw [← find?_min, ← Timeline.map_delta_deltas, ← h, List.find?_map]
    rfl
  have hname := congrArg (Option.map fun d => (⟨t.name, d⟩ : Overflow)) hfind
  rw [Option.map_map, Option.map_map] at hname
  exact hname

theorem writable_iff (h : t.events = Timeline.deltas 0 l) :
    Writable t ↔ ∀ g ∈ gaps 0 l, g ≤ 0x0FFFFFFF := by
  rw [← overflow?_eq_none, overflow?_eq_overlong? h]
  simp [overlong?]

theorem readAs_trackMessages (h : t.events = Timeline.deltas 0 l) (hwritable : Writable t) :
    ReadAs (trackMessages t) l := by
  refine ⟨preamble t, t.events.map fun e => ⟨e.delta, ofEvent e.event⟩, rfl, rfl, ?_, ?_⟩
  · -- where every distance fits a file, none was cut down
    have hexact : (gaps 0 l).map (min · TimedEvent.farthest) = gaps 0 l := by
      conv_rhs => rw [← List.map_id (gaps 0 l)]
      refine List.map_congr_left fun g hg => Nat.min_eq_left ?_
      exact Nat.le_trans ((writable_iff h).1 hwritable g hg) (by decide)
    rw [List.map_map, ← hexact, ← Timeline.map_delta_deltas, ← h]
    rfl
  · rw [List.map_map, ← Timeline.map_deltas 0 l, ← h]
    exact List.forall₂_map_right_iff.2 (List.forall₂_map_left_iff.2
      (List.forall₂_same.2 fun e _ => conveys_ofEvent e.event))

/-- Tracks that have the distances of timelines, cut down. -/
theorem keepsGaps_of_forall₂ {c : Composition} {ls : List Timeline}
    (h : List.Forall₂ (fun t l => t.events = Timeline.deltas 0 l) c.tracks ls) :
    KeepsGaps c ls where
  tracks := h.imp fun t l ht => by
    rw [ht]
    exact ⟨Timeline.map_deltas 0 l, Timeline.map_delta_deltas 0 l⟩
  written := by
    rw [exists_encode_eq_ok_iff]
    generalize c.tracks = ts at h
    induction h with
    | nil => simp
    | cons ht _ ih => rw [List.forall_mem_cons, List.forall_mem_cons, writable_iff ht, ih]
  read hc bytes hbytes := by
    have hwritable := exists_encode_eq_ok_iff.1 ⟨bytes, hbytes⟩
    refine ⟨_, hc.decode_eq hbytes, List.forall₂_map_left_iff.2 ?_⟩
    generalize c.tracks = ts at h hwritable
    induction h with
    | nil => exact .nil
    | cons ht _ ih =>
      obtain ⟨hw, hws⟩ := List.forall_mem_cons.1 hwritable
      exact .cons (readAs_trackMessages ht hw) (ih hws)
  reported o := by
    rw [encode_eq_error_iff]
    generalize c.tracks = ts at h
    induction h with
    | nil => rfl
    | @cons t l _ _ ht _ ih =>
      rw [List.zip_cons_cons, List.findSome?_cons, List.findSome?_cons, overflow?_eq_overlong? ht]
      dsimp only
      cases overlong? t.name l with
      | none => exact ih
      | some o' => rfl

/-- The timelines of the tracks of a composition that play some parts. -/
def timelines (c : Composition) (ps : List Part) : List Timeline :=
  c.tracks.zipWith (fun t p => p.heard c.division t.channel) ps

theorem forall₂_timelines {division : Nat} {ts : List Track} {ps : List Part}
    (h : List.Forall₂ (Track.Plays division) ts ps) :
    List.Forall₂ (fun t l => t.events = Timeline.deltas 0 l) ts
      (ts.zipWith (fun t p => p.heard division t.channel) ps) := by
  induction h with
  | nil => exact .nil
  | cons ht _ ih => exact .cons ht.events ih

/-- **No distance that is too large is hidden.** Every track of a composition plays a part of the
sheet, and the exact distances between the events that are heard decide whether there is a file, and
are read back from it. -/
theorem compile_keepsGaps (fuel : Nat) (o : Options) (text : String) (c : Compiled)
    (h : compile fuel o text = some c) :
    ∃ r ps, Sheet.parse fuel (.ofText o.alphabet text) o.limit = some r ∧
      ps.Sublist r.sheet.parts ∧
      List.Forall₂ (Track.Plays c.composition.division) c.composition.tracks ps ∧
      KeepsGaps c.composition (timelines c.composition ps) := by
  obtain ⟨r, ps, hparse, hps, hplays⟩ := compile_tracks h
  exact ⟨r, ps, hparse, hps, hplays, keepsGaps_of_forall₂ (forall₂_timelines hplays)⟩

/-- Two notes of one pitch with the longest duration, where the second starts a plain note later. -/
def delayed : String :=
  "\\div\x7b32767\x7d\x7b" ++
    "\x7b\x7b\x7b\x7b\x7b\x7b1-------\x7d-------\x7d-------\x7d-------\x7d-------\x7d-------\x7d" ++
    "|0" ++
    "\x7b\x7b\x7b\x7b\x7b\x7b1-------\x7d-------\x7d-------\x7d-------\x7d-------\x7d-------\x7d" ++
    "\x7d"

/-- Neither the start nor the end in the middle is heard, and the distance from the first start to
the last end is reported, cut down. -/
theorem keepsGaps_delayed : ∃ c r ps, compile 100 {} delayed = some c ∧ c.diagnostics = [] ∧
    encode c.composition = .error ⟨"Track 1", 0xFFFFFFFF⟩ ∧
    Sheet.parse 100 (.ofText Alphabet.music delayed) ({} : Options).limit = some r ∧
    ps.Sublist r.sheet.parts ∧
    List.Forall₂ (Track.Plays c.composition.division) c.composition.tracks ps ∧
    KeepsGaps c.composition (timelines c.composition ps) := by
  have hcompile : (compile 100 {} delayed).any (fun c => c.diagnostics = [] ∧
      c.composition.tracks.findSome? overflow? = some ⟨"Track 1", 0xFFFFFFFF⟩) = true := by
    decide +kernel
  obtain ⟨c, hc, hfacts⟩ := (Option.any_eq_true _ _).1 hcompile
  obtain ⟨hdiagnostics, hoverflow⟩ := of_decide_eq_true hfacts
  obtain ⟨r, ps, hconclusion⟩ := compile_keepsGaps 100 {} delayed c hc
  exact ⟨c, r, ps, hc, hdiagnostics, encode_eq_error_iff.2 hoverflow, hconclusion⟩

end Jianpu.Smf
