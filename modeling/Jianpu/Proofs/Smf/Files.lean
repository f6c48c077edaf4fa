import Jianpu.Proofs.Smf.Messages
import Jianpu.Smf.Report
import Jianpu.Smf.Writer
import Mathlib.Data.List.Forall2

/-!
# Reading back a file

A composition is read back from its file (`decode_encode_conveysFile`): the header, the track that
conducts, and every track with its settings, its name and its events. Numbers that are too large for
the file were brought into range before, and `Conveys` says how. What has no place in the file at
all, an event too far from the one before it, keeps the file from being written (`encode_error`).
-/

namespace Jianpu.Smf

/-! ## Chunks -/

/-- A chunk is read back, whatever follows. -/
theorem read?_chunk {id data : List UInt8} (hid : id.length = 4) (hdata : data.length < 256 ^ 4)
    (bs : List UInt8) : Chunk.read? ofBigEndian (chunk id data ++ bs) = some ⟨id, data, bs⟩ := by
  obtain ⟨a, b, c, d, rfl⟩ : ∃ a b c d, id = [a, b, c, d] := by
    match id, hid with
    | [a, b, c, d], _ => exact ⟨a, b, c, d, rfl⟩
  obtain ⟨n₁, n₂, n₃, n₄, hn⟩ : ∃ n₁ n₂ n₃ n₄, bigEndian 4 data.length = [n₁, n₂, n₃, n₄] :=
    ⟨_, _, _, _, rfl⟩
  have hlength : ofBigEndian [n₁, n₂, n₃, n₄] = data.length := by
    rw [← hn, ofBigEndian_bigEndian hdata]
  simp only [chunk, hn, List.cons_append, List.nil_append, Chunk.read?, hlength, List.take_left,
    List.drop_left]

theorem readTracks_chunk {data : List UInt8} (hdata : data.length < 256 ^ 4) (bs : List UInt8) :
    readTracks (chunk trackId data ++ bs) = readTrack data :: readTracks bs := by
  have hid : trackId.length = 4 := rfl
  have hread := read?_chunk hid hdata bs
  rw [readTracks]
  split
  · rename_i hnone
    rw [hread] at hnone
    cases hnone
  · rename_i c hsome
    rw [hread] at hsome
    obtain rfl := Option.some.inj hsome
    rw [if_pos rfl]

theorem readFile_chunk {data bs : List UInt8} {format : Nat} {timing : Timing}
    (hdata : data.length < 256 ^ 4) (hheader : readHeader data = some (format, timing)) :
    readFile (chunk headerId data ++ bs) = .ok ⟨format, timing, readTracks bs⟩ := by
  have hlength : headerId.length = 4 := rfl
  have hread := read?_chunk hlength hdata bs
  have hne : ¬ (chunk headerId data ++ bs).isEmpty = true := by simp [chunk, headerId]
  have hid : headerId ≠ trackId := by decide
  rw [readFile, if_neg hne]
  split
  · rename_i hnone
    rw [hread] at hnone
    cases hnone
  · rename_i c hsome
    rw [hread] at hsome
    obtain rfl := Option.some.inj hsome
    rw [if_neg hid, if_pos rfl, hheader]
    rfl

/-- The tracks of a file are read back. -/
theorem readTracks_flatMap {tracks : List (List TimedMessage)}
    (hfits : ∀ ms ∈ tracks, ∀ m ∈ ms, m.delta ≤ Quantity.largest ∧ m.message.Fits)
    (hsize : ∀ ms ∈ tracks, (encodeMessages none ms).length < 256 ^ 4) :
    readTracks (tracks.flatMap fun ms => chunk trackId (encodeMessages none ms)) = tracks := by
  induction tracks with
  | nil => rw [List.flatMap_nil, readTracks]; rfl
  | cons ms tracks ih =>
    obtain ⟨hms, hfits⟩ := List.forall_mem_cons.1 hfits
    obtain ⟨hlength, hsize⟩ := List.forall_mem_cons.1 hsize
    rw [List.flatMap_cons, readTracks_chunk hlength, readTrack, readMessages_encodeMessages hms,
      ih hfits hsize]

/-- The header of a file of format 1. -/
theorem readHeader_bigEndian {division : Nat} (h : division < 0x8000) (count : Nat) :
    readHeader (bigEndian 2 1 ++ bigEndian 2 count ++ bigEndian 2 division) =
      some (1, .metrical division) := by
  have hword : ofBigEndian (bigEndian 2 division) = division := ofBigEndian_bigEndian (by omega)
  have htiming : Timing.ofWord? (ofBigEndian (bigEndian 2 division)) =
      some (.metrical division) := by
    rw [hword, Timing.ofWord?, if_pos h]
  have hheader : readHeader (bigEndian 2 1 ++ bigEndian 2 count ++ bigEndian 2 division) =
      (Timing.ofWord? (ofBigEndian (bigEndian 2 division))).bind fun timing => some (1, timing) :=
    rfl
  rw [hheader, htiming]
  rfl

/-! ## What is written -/

/-- The messages that come before the events of a track. -/
def preamble (t : Track) : List TimedMessage :=
  let channel := t.channel % 16
  [⟨0, .programChange channel (t.instrument % 128)⟩, ⟨0, .controlChange channel 0x79 0⟩,
    ⟨0, .controlChange channel 0x07 (t.volume % 128)⟩, ⟨0, .trackName t.name⟩]

/-- All messages of a track. -/
def trackMessages (t : Track) : List TimedMessage :=
  preamble t ++ t.events.map (fun e => ⟨e.delta, ofEvent e.event⟩) ++ [finish]

/-- No event of a track is too far from the one before it. -/
def Writable (t : Track) : Prop := ∀ e ∈ t.events, e.delta ≤ Quantity.largest

theorem messages_ok {t : Track} (h : Writable t) : messages t = .ok (trackMessages t) := by
  have hnone : t.events.find? (fun e => Quantity.largest < e.delta) = none := by
    rw [List.find?_eq_none]
    intro e he
    simpa using h e he
  simp only [messages, hnone]
  rfl

theorem mapM_messages_ok {ts : List Track} (h : ∀ t ∈ ts, Writable t) :
    ts.mapM messages = .ok (ts.map trackMessages) := by
  induction ts with
  | nil => rfl
  | cons t ts ih =>
    obtain ⟨ht, hts⟩ := List.forall_mem_cons.1 h
    rw [List.mapM_cons, messages_ok ht, ih hts]
    rfl

/-- The first track with such an event is reported. -/
theorem mapM_messages_error {before after : List Track} {t : Track} {o : Overflow}
    (hbefore : ∀ t' ∈ before, Writable t') (ht : messages t = .error o) :
    (before ++ t :: after).mapM messages = .error o := by
  induction before with
  | nil =>
    rw [List.nil_append, List.mapM_cons, ht]
    rfl
  | cons t' before ih =>
    obtain ⟨ht', hbefore⟩ := List.forall_mem_cons.1 hbefore
    rw [List.cons_append, List.mapM_cons, messages_ok ht', ih hbefore]
    rfl

/-- The bytes of a composition that can be written. -/
theorem encode_ok {c : Composition} (h : ∀ t ∈ c.tracks, Writable t) :
    encode c = .ok (chunk headerId (bigEndian 2 1 ++ bigEndian 2 (c.tracks.length + 1) ++
        bigEndian 2 (c.division % 0x8000)) ++
      (conductor c.toHeader :: c.tracks.map trackMessages).flatMap fun ms =>
        chunk trackId (encodeMessages none ms)) := by
  rw [encode, mapM_messages_ok h, ← List.length_map trackMessages]
  rfl

theorem encode_error {c : Composition} {before after : List Track} {t : Track} {o : Overflow}
    (hc : c.tracks = before ++ t :: after) (hbefore : ∀ t' ∈ before, Writable t')
    (ht : messages t = .error o) : encode c = .error o := by
  rw [encode, hc, mapM_messages_error hbefore ht]
  rfl

/-! ## What is read -/

theorem fits_tempoMessage (t : Nat) : (tempoMessage t).Fits :=
  Nat.lt_succ_of_le (Nat.min_le_right ..)

theorem fits_ofEvent (e : Event) : (ofEvent e).Fits := by
  have hnote : ∀ c n v : Nat, c % 16 < 16 ∧ min n 127 < 128 ∧ v % 128 < 128 := fun c n v =>
    ⟨Nat.mod_lt c (by decide), Nat.lt_succ_of_le (Nat.min_le_right ..), Nat.mod_lt v (by decide)⟩
  cases e with
  | noteOn c n v => exact hnote c n v
  | noteOff c n v => exact hnote c n v
  | tempo t => exact fits_tempoMessage t
  | key | time => trivial

theorem fits_conductor (h : Header) :
    ∀ m ∈ conductor h, m.delta ≤ Quantity.largest ∧ m.message.Fits := by
  simp only [conductor, List.forall_mem_cons]
  exact ⟨⟨Nat.zero_le _, fits_tempoMessage h.tempo⟩, ⟨Nat.zero_le _, trivial⟩,
    ⟨Nat.zero_le _, trivial⟩, ⟨by decide, trivial⟩, by simp⟩

theorem fits_trackMessages {t : Track} (h : Writable t)
    (hname : (Utf8.encode t.name).length ≤ Quantity.largest) :
    ∀ m ∈ trackMessages t, m.delta ≤ Quantity.largest ∧ m.message.Fits := by
  have hseven : ∀ n, n % 128 < 128 := fun n => Nat.mod_lt n (by decide)
  have hchannel : t.channel % 16 < 16 := Nat.mod_lt _ (by decide)
  simp only [trackMessages, preamble, List.forall_mem_append, List.forall_mem_cons,
    List.forall_mem_map]
  refine ⟨⟨⟨⟨Nat.zero_le _, hchannel, hseven _⟩, ⟨Nat.zero_le _, hchannel, by decide, by decide⟩,
    ⟨Nat.zero_le _, hchannel, by decide, hseven _⟩, ⟨Nat.zero_le _, hname⟩, by simp⟩, ?_⟩,
    ⟨by decide, trivial⟩, by simp⟩
  exact fun e he => ⟨h e he, fits_ofEvent e.event⟩

theorem length_conductor (h : Header) : (encodeMessages none (conductor h)).length = 25 := rfl

/-- A composition that can be written is read back, message by message. -/
theorem exists_decode {c : Composition} (hwritable : ∀ t ∈ c.tracks, Writable t)
    (hname : ∀ t ∈ c.tracks, (Utf8.encode t.name).length ≤ Quantity.largest)
    (hsize : ∀ t ∈ c.tracks, (encodeMessages none (trackMessages t)).length < 256 ^ 4) :
    ∃ bytes, encode c = .ok bytes ∧ decode bytes =
      .ok ⟨1, .metrical (c.division % 0x8000),
        conductor c.toHeader :: c.tracks.map trackMessages⟩ := by
  refine ⟨_, encode_ok hwritable, ?_⟩
  have hfits : ∀ ms ∈ conductor c.toHeader :: c.tracks.map trackMessages, ∀ m ∈ ms,
      m.delta ≤ Quantity.largest ∧ m.message.Fits :=
    List.forall_mem_cons.2 ⟨fits_conductor _, List.forall_mem_map.2 fun t ht =>
      fits_trackMessages (hwritable t ht) (hname t ht)⟩
  have hlength : (encodeMessages none (conductor c.toHeader)).length < 256 ^ 4 := by
    rw [length_conductor]
    decide
  have htracks := readTracks_flatMap hfits
    (List.forall_mem_cons.2 ⟨hlength, List.forall_mem_map.2 hsize⟩)
  have hheader := readHeader_bigEndian (Nat.mod_lt c.division (by decide : 0x8000 > 0))
    (c.tracks.length + 1)
  rw [decode, if_pos (by rfl), readFile_chunk (by simp) hheader, htracks]

/-! ## What a composition is read as -/

/-- The logarithm that is written is that of the largest power of two that divides a denominator,
where 0 counts as 1. -/
theorem exponent_spec (d : UInt8) :
    2 ^ (exponent d).toNat ∣ max d.toNat 1 ∧ ¬ 2 ^ ((exponent d).toNat + 1) ∣ max d.toNat 1 := by
  have h : ∀ n : Fin 256, 2 ^ (exponent (UInt8.ofNat n)).toNat ∣ max n.val 1 ∧
      ¬ 2 ^ ((exponent (UInt8.ofNat n)).toNat + 1) ∣ max n.val 1 := by decide +kernel
  have hd := h ⟨d.toNat, d.toNat_lt⟩
  rwa [UInt8.ofNat_toNat] at hd

/-- A time signature has the beats of a bar and, for the denominator, the largest power of two that
divides it, where 0 counts as 1. -/
inductive ConveysTime (numerator denominator : UInt8) : Message → Prop
  | mk {e : UInt8} {k : Nat} : Smf.denominator e = 2 ^ k → 2 ^ k ∣ max denominator.toNat 1 →
      ¬ 2 ^ (k + 1) ∣ max denominator.toNat 1 →
      ConveysTime numerator denominator (.timeSignature numerator e 24 8)

/-- A message says what an event does. A channel has four bits and a velocity seven, higher ones
are lost; a pitch or a tempo that is too large is the largest. -/
inductive Conveys : Event → Message → Prop
  | noteOn (c n v : Nat) : Conveys (.noteOn c n v) (.noteOn (c % 16) (min n 127) (v % 128))
  | noteOff (c n v : Nat) : Conveys (.noteOff c n v) (.noteOff (c % 16) (min n 127) (v % 128))
  | tempo (t : Nat) : Conveys (.tempo t) (.tempo (min t 0xFFFFFF))
  | key (k : Key) : Conveys (.key k) (.keySignature k.sharps k.minor)
  | time {a b : UInt8} {m : Message} : ConveysTime a b m → Conveys (.time a b) m

theorem conveysTime_timeMessage (a b : UInt8) : ConveysTime a b (timeMessage a b) := by
  have h : ∀ n : Fin 256, denominator (exponent (UInt8.ofNat n)) =
      2 ^ (exponent (UInt8.ofNat n)).toNat := by decide +kernel
  have hb := h ⟨b.toNat, b.toNat_lt⟩
  rw [UInt8.ofNat_toNat] at hb
  exact .mk hb (exponent_spec b).1 (exponent_spec b).2

theorem conveys_ofEvent (e : Event) : Conveys e (ofEvent e) := by
  cases e with
  | noteOn c n v => exact .noteOn c n v
  | noteOff c n v => exact .noteOff c n v
  | tempo t => exact .tempo t
  | key k => exact .key k
  | time a b => exact .time (conveysTime_timeMessage a b)

/-- The messages of a track: its instrument, a reset, its volume and its name, then its events at
their distances, and the end a tick later. -/
def ConveysTrack (t : Track) (ms : List TimedMessage) : Prop :=
  ∃ body, ms = [⟨0, .programChange (t.channel % 16) (t.instrument % 128)⟩,
      ⟨0, .controlChange (t.channel % 16) 0x79 0⟩,
      ⟨0, .controlChange (t.channel % 16) 7 (t.volume % 128)⟩, ⟨0, .trackName t.name⟩] ++
      body ++ [⟨1, .endOfTrack⟩] ∧
    List.Forall₂ (fun e m => m.delta = e.delta ∧ Conveys e.event m.message) t.events body

/-- What a composition is read as. -/
structure ConveysFile (c : Composition) (f : File) : Prop where
  format : f.format = 1
  timing : f.timing = .metrical (c.division % 0x8000)
  /-- The number of tracks fits the header, and all of them are there. -/
  count : f.tracks.length % 0x10000 = c.tracks.length + 1
  tracks : f.requireTracks (c.tracks.length + 1) = .ok f.tracks
  conductor : ∃ time, ConveysTime c.numerator c.denominator time ∧ f.tracks.head? =
    some [⟨0, .tempo (min c.tempo 0xFFFFFF)⟩, ⟨0, .keySignature c.key.sharps c.key.minor⟩,
      ⟨0, time⟩, ⟨1, .endOfTrack⟩]
  parts : List.Forall₂ ConveysTrack c.tracks f.tracks.tail

theorem conveysTrack_trackMessages (t : Track) : ConveysTrack t (trackMessages t) := by
  refine ⟨_, rfl, List.forall₂_map_right_iff.2 (List.forall₂_same.2 fun e _ => ?_)⟩
  exact ⟨rfl, conveys_ofEvent e.event⟩

/-- **A composition is read back from its file.** -/
theorem decode_encode_conveysFile (c : Composition)
    (hdelta : ∀ t ∈ c.tracks, ∀ e ∈ t.events, e.delta ≤ 0x0FFFFFFF)
    (hcount : c.tracks.length < 65535)
    (hname : ∀ t ∈ c.tracks, (Utf8.encode t.name).length ≤ 0x0FFFFFFF)
    (hsize : ∀ t ∈ c.tracks, ∀ ms, messages t = .ok ms → (encodeMessages none ms).length < 2 ^ 32) :
    ∃ bytes file, encode c = .ok bytes ∧ decode bytes = .ok file ∧ ConveysFile c file := by
  obtain ⟨bytes, hencode, hdecode⟩ := exists_decode hdelta hname fun t ht =>
    hsize t ht (trackMessages t) (messages_ok (hdelta t ht))
  refine ⟨bytes, _, hencode, hdecode, rfl, rfl, ?_, ?_, ?_, ?_⟩
  · rw [List.length_cons, List.length_map]
    exact Nat.mod_eq_of_lt (by omega)
  · rw [File.requireTracks, if_neg (by simp)]
    rfl
  · exact ⟨_, conveysTime_timeMessage .., rfl⟩
  · exact List.forall₂_map_right_iff.2
      (List.forall₂_same.2 fun t _ => conveysTrack_trackMessages t)

/-- A composition with numbers that do not fit, the largest distance, and a status byte that is left
out and then ended by a change of tempo. -/
def outsized : Composition where
  tempo := 0x2000000
  key := ⟨0, -7, true⟩
  numerator := 7
  denominator := 12
  division := 0x8060
  tracks := [{
    name := "日"
    channel := 17
    instrument := 200
    volume := 255
    events := [⟨0x0FFFFFFF, .noteOn 17 131 200⟩, ⟨0, .noteOn 17 60 80⟩, ⟨128, .tempo 240⟩,
      ⟨0, .noteOff 17 60 80⟩, ⟨16384, .noteOff 17 131 200⟩, ⟨0, .time 3 0⟩] }]

theorem decode_outsized : outsized.tracks.length < 65535 ∧
    ∃ bytes file, encode outsized = .ok bytes ∧ decode bytes = .ok file ∧
      ConveysFile outsized file := by
  refine ⟨by decide, decode_encode_conveysFile outsized (by decide) (by decide) ?_ ?_⟩
  · intro t ht
    obtain rfl := List.mem_singleton.1 ht
    decide
  · intro t ht ms hms
    obtain rfl := List.mem_singleton.1 ht
    obtain rfl := Except.ok.inj hms
    decide

end Jianpu.Smf
