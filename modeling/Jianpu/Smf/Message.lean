import Jianpu.Smf.Quantity
import Jianpu.Text.Utf8

/-!
# Messages of a MIDI file

What a track of a MIDI file holds: messages to a channel, meta messages, and system messages. A
message to a channel can leave out its status byte where the one before it in the track had the
same; the other kinds of message end that.
-/

namespace Jianpu.Smf

/-- A message of a track. -/
inductive Message where
  | noteOff (channel note velocity : Nat)
  | noteOn (channel note velocity : Nat)
  | polyPressure (channel note pressure : Nat)
  | controlChange (channel controller value : Nat)
  | programChange (channel program : Nat)
  | channelPressure (channel pressure : Nat)
  | pitchBend (channel value : Nat)
  | text (text : String)
  | trackName (name : String)
  | tempo (microseconds : Nat)
  | keySignature (sharps : Int8) (minor : Bool)
  /-- The denominator is given by its logarithm. -/
  | timeSignature (numerator exponent clocksPerClick thirtySeconds : UInt8)
  | endOfTrack
  /-- A meta message that is not looked into. -/
  | other (kind : UInt8) (data : List UInt8)
  | sysex (data : List UInt8)
  deriving DecidableEq, Repr, Inhabited

/-- A message, `delta` ticks after the one before it. -/
structure TimedMessage where
  delta : Nat
  message : Message
  deriving DecidableEq, Repr, Inhabited

/-- How a message is written: to a channel, by its status byte and data, or as a whole. -/
inductive Written where
  | channel (status : UInt8) (data : List UInt8)
  | whole (bytes : List UInt8)

namespace Message

/-- A meta message of some kind. -/
def metaBytes (kind : UInt8) (data : List UInt8) : Written :=
  .whole (0xFF :: kind :: Quantity.encode data.length ++ data)

/-- A message to a channel; `status` is its kind. -/
def channelBytes (status channel : Nat) (data : List Nat) : Written :=
  .channel (UInt8.ofNat (status + channel)) (data.map UInt8.ofNat)

/-- How a message is written. -/
def written : Message → Written
  | noteOff c n v => channelBytes 0x80 c [n, v]
  | noteOn c n v => channelBytes 0x90 c [n, v]
  | polyPressure c n p => channelBytes 0xA0 c [n, p]
  | controlChange c k v => channelBytes 0xB0 c [k, v]
  | programChange c p => channelBytes 0xC0 c [p]
  | channelPressure c p => channelBytes 0xD0 c [p]
  | pitchBend c v => channelBytes 0xE0 c [v % 128, v / 128]
  | text s => metaBytes 0x01 (Utf8.encode s)
  | trackName s => metaBytes 0x03 (Utf8.encode s)
  | tempo t => metaBytes 0x51 (bigEndian 3 t)
  | keySignature sharps minor => metaBytes 0x59 [sharps.toUInt8, if minor then 1 else 0]
  | timeSignature n e c t => metaBytes 0x58 [n, e, c, t]
  | endOfTrack => metaBytes 0x2F []
  | other kind data => metaBytes kind data
  | sysex data => .whole (0xF0 :: Quantity.encode data.length ++ data)

end Message

/-- The bytes of messages, after one to a channel with the status byte `running`. -/
def encodeMessages (running : Option UInt8) : List TimedMessage → List UInt8
  | [] => []
  | m :: ms =>
    Quantity.encode m.delta ++
      match m.message.written with
      | .channel status data =>
        (if running = some status then data else status :: data) ++ encodeMessages (some status) ms
      | .whole bytes => bytes ++ encodeMessages none ms

end Jianpu.Smf
