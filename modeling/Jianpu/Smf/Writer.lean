import Jianpu.Composition
import Jianpu.Smf.Chunk
import Jianpu.Smf.Message

/-!
# Writing a MIDI file

A composition as a file of format 1. The first track conducts: it has the tempo, the key and the
time signature. Each track of the composition follows with its instrument and volume, its name and
its events. An event too far from the one before it cannot be written.
-/

namespace Jianpu.Smf

/-- An event that is further from the one before it than a file can say. -/
structure Overflow where
  track : String
  delta : Nat
  deriving DecidableEq, Repr, Inhabited

/-- The logarithm of the largest power of two that divides a denominator. -/
def exponent (d : UInt8) : UInt8 :=
  UInt8.ofNat (((List.range 8).find? d.toNat.testBit).getD 0)

/-- A tempo, at most as large as three bytes can hold. -/
def tempoMessage (t : Nat) : Message := .tempo (min t 0xFFFFFF)

/-- A key signature. -/
def keyMessage (k : Key) : Message := .keySignature k.sharps k.minor

/-- A time signature, with the usual metronome. -/
def timeMessage (numerator denominator : UInt8) : Message :=
  .timeSignature numerator (exponent denominator) 24 8

/-- The message of an event, with all its numbers brought into range. -/
def ofEvent : Event → Message
  | .noteOn c n v => .noteOn (c % 16) (min n 127) (v % 128)
  | .noteOff c n v => .noteOff (c % 16) (min n 127) (v % 128)
  | .tempo t => tempoMessage t
  | .key k => keyMessage k
  | .time a b => timeMessage a b

/-- The end of every track, a tick after its last event. -/
def finish : TimedMessage := ⟨1, .endOfTrack⟩

/-- The track that conducts. -/
def conductor (h : Header) : List TimedMessage :=
  [⟨0, tempoMessage h.tempo⟩, ⟨0, keyMessage h.key⟩, ⟨0, timeMessage h.numerator h.denominator⟩,
    finish]

/-- The messages of a track, if no event is too far from the one before it. -/
def messages (t : Track) : Except Overflow (List TimedMessage) := do
  let channel := t.channel % 16
  let start : List TimedMessage :=
    [⟨0, .programChange channel (t.instrument % 128)⟩, ⟨0, .controlChange channel 0x79 0⟩,
      ⟨0, .controlChange channel 0x07 (t.volume % 128)⟩, ⟨0, .trackName t.name⟩]
  match t.events.find? fun e => Quantity.largest < e.delta with
  | some e => throw ⟨t.name, e.delta⟩
  | none => return start ++ t.events.map (fun e => ⟨e.delta, ofEvent e.event⟩) ++ [finish]

/-- The file of a composition. -/
def encode (c : Composition) : Except Overflow (List UInt8) := do
  let tracks ← c.tracks.mapM messages
  let tracks := conductor c.toHeader :: tracks
  let header := bigEndian 2 1 ++ bigEndian 2 tracks.length ++ bigEndian 2 (c.division % 0x8000)
  return chunk headerId header ++ tracks.flatMap fun ms => chunk trackId (encodeMessages none ms)

end Jianpu.Smf
