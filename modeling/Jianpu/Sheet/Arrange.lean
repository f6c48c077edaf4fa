import Jianpu.Schedule.Overlap
import Jianpu.Schedule.Queue
import Jianpu.Sheet.Parse

/-!
# Arranging a sheet

Plays the parts of a sheet. The voices of a part start together. Tracks take the sixteen channels in
turn. An implicit part without events makes no track.
-/

namespace Jianpu.Sheet

/-- The number of channels. -/
def channels : Nat := 16

/-- The events of a part on a channel. -/
def play (p : Part) (division channel : Nat) : List TimedEvent :=
  let (s, score) := p.voices.foldl (fun (s, g) v => Strand.branch s v.strand g) (none, p.score)
  Overlap.merge (Queue.ofScore score (s.map (·.head)) division channel).events

/-- The tracks of parts, where `n` tracks come before, and the remarks on them. -/
def arrangeParts (division : Nat) : Nat → List Part → List Track × List Remark
  | _, [] => ([], [])
  | n, p :: ps =>
    let channel := n % channels
    let events := play p division channel
    if p.implicit && events.isEmpty then
      let (tracks, journal) := arrangeParts division n ps
      (tracks, ⟨.debug, "dropping empty track \"" ++ p.name ++ "\""⟩ :: journal)
    else
      let (tracks, journal) := arrangeParts division (n + 1) ps
      (⟨p.name, channel, p.settings.instrument, p.settings.volume, events⟩ :: tracks,
        ⟨.debug, "track \"" ++ p.name ++ "\" (channel " ++ channel.repr ++ "): " ++
          events.length.repr ++ " events"⟩ :: journal)

/-- The composition of a sheet, and the remarks on it. -/
def arrange (s : Sheet) : Composition × List Remark :=
  let (tracks, journal) := arrangeParts s.header.division 0 s.parts
  ({ s.header with tracks },
    if tracks.isEmpty then journal ++ [⟨.warn, "composition has no tracks"⟩] else journal)

end Jianpu.Sheet
