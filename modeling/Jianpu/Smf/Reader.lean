import Jianpu.Smf.Chunk
import Jianpu.Smf.Message

/-!
# Reading a MIDI file

A file is a header chunk and track chunks; chunks of other kinds are skipped. It can be wrapped in a
RIFF file. Only the header has to be in order. What cannot be read in a track ends the track, and a
chunk that cannot be read ends the file.
-/

namespace Jianpu.Smf

/-- Why a file cannot be read. -/
inductive Fault where
  | notMidi
  | noRiffChunk
  | noFormType
  | notRmid
  | noData
  | trackFirst
  | noHeader
  | badHeader
  | missingTracks (expected found : Nat)
  deriving DecidableEq, Repr, Inhabited

namespace Fault

/-- The wording of a fault. -/
def message : Fault → String
  | notMidi => invalid "not a midi file"
  | noRiffChunk => invalid "no main riff chunk"
  | noFormType => invalid "failed to read riff formtype"
  | notRmid => invalid "not an rmid riff file"
  | noData => invalid "no rmid data chunk"
  | trackFirst => invalid "expected header, found track"
  | noHeader => invalid "no midi header chunk"
  | badHeader => invalid "invalid midi header"
  | missingTracks expected found =>
    "expected " ++ expected.repr ++ " tracks, found " ++ found.repr
where
  /-- The wording of a fault in the form of a file. -/
  invalid (reason : String) : String := "Failed to parse MIDI: invalid midi: " ++ reason

end Fault

/-- What ticks are: parts of a quarter note, or of a frame of film. -/
inductive Timing where
  | metrical (ticks : Nat)
  | timecode (fps subframes : Nat)
  deriving DecidableEq, Repr, Inhabited

namespace Timing

/-- The timing as the header states it: a frame rate is negated. -/
def word : Timing → Nat
  | metrical ticks => ticks
  | timecode fps subframes => (256 - fps) * 256 + subframes

/-- The timing that a header states. -/
def ofWord? (w : Nat) : Option Timing :=
  if w < 0x8000 then some (.metrical w)
  else
    let fps := 256 - w / 256
    if fps ∈ [24, 25, 29, 30] then some (.timecode fps (w % 256)) else none

end Timing

/-- A file that was read. -/
structure File where
  format : Nat
  timing : Timing
  tracks : List (List TimedMessage)
  deriving DecidableEq, Repr, Inhabited

/-- The tracks of a file that should have at least so many. -/
def File.requireTracks (f : File) (expected : Nat) : Except Fault (List (List TimedMessage)) :=
  if f.tracks.length < expected then throw (.missingTracks expected f.tracks.length)
  else return f.tracks

/-! ## Messages -/

/-- Whether five bytes give a time of day in frames of film. -/
def isTimeOfDay (h m s f sub : UInt8) : Bool :=
  let rate := [24, 25, 29, 30].getD (h.toNat / 32 % 4) 0
  h.toNat % 32 < 24 && m.toNat < 60 && s.toNat < 60 && f.toNat < rate && sub.toNat < 100

/-- The meta message of some kind. Data that is too short for its kind is not looked into, except
where that makes the message unreadable. -/
def metaMessage (kind : UInt8) (data : List UInt8) : Option Message :=
  match kind, data with
  | 0x00, a :: b :: _ => some (.other kind [a, b])
  | 0x00, _ => some (.other kind [])
  | 0x01, _ => some (.text (Utf8.decodeLossy data))
  | 0x03, _ => some (.trackName (Utf8.decodeLossy data))
  | 0x20, c :: _ => some (.other kind [c % 16])
  | 0x21, p :: _ => some (.other kind [p % 128])
  | 0x2F, _ => some .endOfTrack
  | 0x51, a :: b :: c :: _ => some (.tempo (ofBigEndian [a, b, c]))
  | 0x54, h :: m :: s :: f :: sub :: _ =>
    if isTimeOfDay h m s f sub then some (.other kind []) else none
  | 0x58, n :: e :: c :: t :: _ => some (.timeSignature n e c t)
  | 0x59, s :: m :: _ => some (.keySignature s.toInt8 (m ≠ 0))
  | 0x59, _ => none
  | _, _ => some (.other kind data)

/-- The message to a channel with a status byte, and the bytes after it. -/
def channelMessage (status : UInt8) (bs : List UInt8) : Option (Message × List UInt8) :=
  let c := status.toNat % 16
  match status.toNat / 16, bs with
  | 0xC, a :: bs => if a < 0x80 then some (.programChange c a.toNat, bs) else none
  | 0xD, a :: bs => if a < 0x80 then some (.channelPressure c a.toNat, bs) else none
  | kind, a :: b :: bs =>
    if a < 0x80 ∧ b < 0x80 then
      match kind with
      | 0x8 => some (.noteOff c a.toNat b.toNat, bs)
      | 0x9 => some (.noteOn c a.toNat b.toNat, bs)
      | 0xA => some (.polyPressure c a.toNat b.toNat, bs)
      | 0xB => some (.controlChange c a.toNat b.toNat, bs)
      | 0xE => some (.pitchBend c (b.toNat * 128 + a.toNat), bs)
      | _ => none
    else none
  | _, _ => none

/-- Data with its length before it, and the bytes after it. Data that is cut off ends with the
bytes. -/
def lengthData (bs : List UInt8) : List UInt8 × List UInt8 :=
  let (n, bs) := Quantity.decode bs
  (bs.take n, bs.drop n)

/-- A message read from a track. -/
structure Step where
  message : Message
  /-- The status byte in force after it. -/
  running : Option UInt8
  rest : List UInt8

/-- The message to a channel at the start of some bytes, under a status byte. -/
def channelStep (status : UInt8) (bs : List UInt8) : Option Step :=
  (channelMessage status bs).map fun r => ⟨r.1, some status, r.2⟩

/-- The meta message in some bytes, from its kind on. -/
def metaStep : List UInt8 → Option Step
  | [] => none
  | kind :: bs => (metaMessage kind (lengthData bs).1).map fun m => ⟨m, none, (lengthData bs).2⟩

/-- The message that a byte starts; `running` is the status byte in force, of a message to a
channel. -/
def messageStep (running : Option UInt8) (b : UInt8) (bs : List UInt8) : Option Step :=
  if b < 0x80 then running.bind fun status => channelStep status (b :: bs)
  else if b < 0xF0 then channelStep b bs
  else if b = 0xFF then metaStep bs
  else if b = 0xF0 ∨ b = 0xF7 then some ⟨.sysex (lengthData bs).1, none, (lengthData bs).2⟩
  else none

/-- The message at the start of some bytes. -/
def readMessage (running : Option UInt8) : List UInt8 → Option Step
  | [] => none
  | b :: bs => messageStep running b bs

theorem length_lengthData_le (bs : List UInt8) : (lengthData bs).2.length ≤ bs.length := by
  have := Quantity.length_decode_le bs
  simp only [lengthData, List.length_drop]
  omega

theorem length_channelMessage_lt {status : UInt8} {bs rest : List UInt8} {m : Message}
    (h : channelMessage status bs = some (m, rest)) : rest.length < bs.length := by
  unfold channelMessage at h
  grind

theorem length_channelStep_lt {status : UInt8} {bs : List UInt8} {s : Step}
    (h : channelStep status bs = some s) : s.rest.length < bs.length := by
  obtain ⟨r, hr, rfl⟩ := Option.map_eq_some_iff.1 h
  exact length_channelMessage_lt hr

theorem length_metaStep_lt {bs : List UInt8} {s : Step} (h : metaStep bs = some s) :
    s.rest.length < bs.length := by
  cases bs with
  | nil => cases h
  | cons kind bs =>
    obtain ⟨m, -, rfl⟩ := Option.map_eq_some_iff.1 h
    exact Nat.lt_succ_of_le (length_lengthData_le bs)

/-- Every message takes at least a byte. -/
theorem length_readMessage_lt {running : Option UInt8} {bs : List UInt8} {s : Step}
    (h : readMessage running bs = some s) : s.rest.length < bs.length := by
  cases bs with
  | nil => cases h
  | cons b bs =>
    rw [readMessage, messageStep] at h
    repeat' split at h
    · obtain ⟨status, -, hs⟩ := Option.bind_eq_some_iff.1 h
      exact length_channelStep_lt hs
    · exact Nat.lt_succ_of_lt (length_channelStep_lt h)
    · exact Nat.lt_succ_of_lt (length_metaStep_lt h)
    · cases h
      exact Nat.lt_succ_of_le (length_lengthData_le bs)
    · cases h

/-- The messages of a track, where `running` is the status byte in force. -/
def readMessages (running : Option UInt8) (bs : List UInt8) : List TimedMessage :=
  if bs.isEmpty then []
  else
    let d := Quantity.decode bs
    match h : readMessage running d.2 with
    | none => []
    | some s =>
      have : s.rest.length < bs.length :=
        Nat.lt_of_lt_of_le (length_readMessage_lt h) (Quantity.length_decode_le bs)
      ⟨d.1, s.message⟩ :: readMessages s.running s.rest
termination_by bs.length

/-- The messages of a track. -/
def readTrack (bs : List UInt8) : List TimedMessage := readMessages none bs

/-! ## Chunks -/

/-- The format and the timing that a header chunk states. -/
def readHeader (data : List UInt8) : Option (Nat × Timing) := do
  match data with
  | f₁ :: f₂ :: _ :: _ :: t₁ :: t₂ :: _ =>
    let timing ← Timing.ofWord? (ofBigEndian [t₁, t₂])
    let format := ofBigEndian [f₁, f₂]
    if format ≤ 2 then some (format, timing) else none
  | _ => none

/-- The tracks in some bytes. A header among them is ignored if it is in order, and else ends the
file. -/
def readTracks (bs : List UInt8) : List (List TimedMessage) :=
  match h : Chunk.read? ofBigEndian bs with
  | none => []
  | some c =>
    have : c.rest.length < bs.length := Chunk.length_rest_lt h
    if c.id = trackId then readTrack c.data :: readTracks c.rest
    else if c.id = headerId ∧ (readHeader c.data).isNone then []
    else readTracks c.rest
termination_by bs.length

/-- The file in some bytes. -/
def readFile (bs : List UInt8) : Except Fault File :=
  if bs.isEmpty then throw .noHeader
  else
    match h : Chunk.read? ofBigEndian bs with
    | none => throw .badHeader
    | some c =>
      have : c.rest.length < bs.length := Chunk.length_rest_lt h
      if c.id = trackId then throw .trackFirst
      else if c.id = headerId then
        match readHeader c.data with
        | none => throw .badHeader
        | some (format, timing) => return ⟨format, timing, readTracks c.rest⟩
      else readFile c.rest
termination_by bs.length

/-! ## RIFF -/

/-- The data chunk of a RIFF file. A chunk of an odd length has a byte after it. -/
def riffData (bs : List UInt8) : Except Fault (List UInt8) :=
  match h : Chunk.read? ofLittleEndian bs with
  | none => throw .noData
  | some c =>
    have : c.rest.length < bs.length := Chunk.length_rest_lt h
    if c.id = dataId then return c.data
    else riffData (c.rest.drop (c.data.length % 2))
termination_by bs.length
decreasing_by
  rw [List.length_drop]
  omega

/-- What a RIFF file wraps. -/
def unwrapRiff (bs : List UInt8) : Except Fault (List UInt8) :=
  match Chunk.read? ofLittleEndian bs with
  | none => throw .noRiffChunk
  | some c =>
    if c.data.length < 4 then throw .noFormType
    else if c.data.take 4 ≠ rmidId then throw .notRmid
    else riffData (c.data.drop 4)

/-- The file in some bytes. -/
def decode (bs : List UInt8) : Except Fault File := do
  if bs.take 4 = headerId then readFile bs
  else if bs.take 4 = riffId then readFile (← unwrapRiff bs)
  else throw .notMidi

end Jianpu.Smf
