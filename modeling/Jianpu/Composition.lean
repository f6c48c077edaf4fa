import Jianpu.Schedule.Event

/-!
# Compositions

A composition is a list of tracks with the settings at its start. `Composition.dump` lists it for a
reader.
-/

namespace Jianpu

/-- The settings at the start of a composition. -/
structure Header where
  /-- Microseconds per beat. -/
  tempo : Nat := 500000
  key : Key := {}
  numerator : UInt8 := 4
  denominator : UInt8 := 4
  /-- Ticks per beat, and of a plain note. -/
  division : Nat := 96
  deriving DecidableEq, Repr, Inhabited

/-- A track with its events in order. -/
structure Track where
  name : String
  channel : Nat := 0
  instrument : Nat := 0
  volume : Nat := 100
  events : List TimedEvent := []
  deriving DecidableEq, Repr, Inhabited

/-- A composition. -/
structure Composition extends Header where
  tracks : List Track := []
  deriving DecidableEq, Repr, Inhabited

namespace Composition

/-- The listing of a track. -/
def dumpTrack (t : Track) : List String :=
  ("    Track(name = \"" ++ t.name ++ "\", instrument = " ++ t.instrument.repr ++ ")\x7b") ::
    t.events.map ("        " ++ ·.display) ++ ["    \x7d"]

/-- The listing of a composition, by lines. -/
def dump (c : Composition) : List String :=
  ("MidiFile(keysig = " ++ c.key.shift.repr ++ ", division = " ++ c.division.repr ++ ", tempo = " ++
      c.tempo.repr ++ ")\x7b") ::
    c.tracks.flatMap dumpTrack ++ ["\x7d"]

/-- The number of events in all tracks. -/
def eventCount (c : Composition) : Nat := c.tracks.foldl (fun n t => n + t.events.length) 0

end Composition

end Jianpu
