import Jianpu.Smf.Reader
import Jianpu.Text.Json

/-!
# Reports on MIDI files

A MIDI file as a JSON document.
-/

namespace Jianpu.Smf

/-- The denominator with a given logarithm. One of more than 32 bits is given as 0. -/
def denominator (exponent : UInt8) : Nat := if exponent.toNat < 32 then 1 <<< exponent.toNat else 0

namespace Message

/-- The name and the fields of a message in a report. -/
def report : Message → String × List (String × Json)
  | noteOff c n v => ("note_off", [field "channel" c, field "note" n, field "velocity" v])
  | noteOn c n v => ("note_on", [field "channel" c, field "note" n, field "velocity" v])
  | polyPressure c n p => ("poly_pressure", [field "channel" c, field "note" n, field "pressure" p])
  | controlChange c k v => ("control_change",
      [field "channel" c, field "controller" k, field "value" v])
  | programChange c p => ("program_change", [field "channel" c, field "program" p])
  | channelPressure c p => ("channel_pressure", [field "channel" c, field "pressure" p])
  | pitchBend c v => ("pitch_bend", [field "channel" c, field "value" v])
  | text s => ("text", [("text", .str s)])
  | trackName s => ("track_name", [("name", .str s)])
  | tempo t => ("tempo", [field "tempo" t])
  | keySignature sharps minor => ("key_signature",
      [("sharps", .num sharps.toInt), ("minor", .bool minor)])
  | timeSignature n e c t =>
    ("time_signature", [field "numerator" n.toNat,
      field "denominator" (denominator e),
      field "clocks_per_click" c.toNat, field "thirty_seconds_per_quarter" t.toNat])
  | endOfTrack => ("end_of_track", [])
  | other kind data => ("meta", [field "kind" kind.toNat, bytes data])
  | sysex data => ("sysex", [bytes data])
where
  field (name : String) (n : Nat) : String × Json := (name, .num n)
  bytes (data : List UInt8) : String × Json := ("data", .list (data.map fun b => .num b.toNat))

end Message

/-- The report on a message. -/
def reportMessage (m : TimedMessage) : Json :=
  let (name, fields) := m.message.report
  .object (("delta", .num m.delta) :: ("event", .str name) :: fields)

/-- The name that a track gives itself first. -/
def trackName? (ms : List TimedMessage) : Option String :=
  ms.findSome? fun m =>
    match m.message with
    | .trackName name => some name
    | _ => none

/-- The ticks of all messages of a track. -/
def ticks (ms : List TimedMessage) : Nat := ms.foldl (fun n m => n + m.delta) 0

/-- The report on a track. -/
def reportTrack (ms : List TimedMessage) : Json :=
  .object ((trackName? ms).toList.map (fun name => ("name", Json.str name)) ++
    [("length", .num (ticks ms)), ("events", .list (ms.map reportMessage))])

/-- The report on a file. The number of tracks is kept in sixteen bits. -/
def File.report (f : File) : Json :=
  let timing : String := match f.timing with
    | .metrical _ => "ticks_per_quarter"
    | .timecode .. => "smpte"
  .object [
    ("header", .object [("format", .num f.format),
      ("tracks", .num (f.tracks.length % 0x10000 : Nat)), (timing, .num f.timing.word)]),
    ("tracks", .list (f.tracks.map reportTrack))]

end Jianpu.Smf
