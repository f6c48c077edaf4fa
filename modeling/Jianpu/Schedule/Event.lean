import Jianpu.Key
import Jianpu.Pitch

/-!
# Events

What a track plays, each event at a distance in ticks from the one before it.
-/

namespace Jianpu

/-- An event of a track. -/
inductive Event where
  | noteOn (channel note velocity : Nat)
  | noteOff (channel note velocity : Nat)
  | tempo (microseconds : Nat)
  | key (key : Key)
  | time (numerator denominator : UInt8)
  deriving DecidableEq, Repr, Inhabited

namespace Event

/-- The channel and pitch of a note's start or end. -/
def note? : Event → Option (Nat × Nat)
  | noteOn channel note _ | noteOff channel note _ => some (channel, note)
  | _ => none

end Event

/-- An event, `delta` ticks after the one before it. -/
structure TimedEvent where
  delta : Nat
  event : Event
  deriving DecidableEq, Repr, Inhabited

namespace TimedEvent

/-- The largest distance that is kept; a larger one is cut down to it. -/
def farthest : Nat := 0xFFFFFFFF

/-- The event as a listing shows it. -/
def display (e : TimedEvent) : String :=
  let delta := "delta = " ++ e.delta.repr
  let note (channel note velocity : Nat) :=
    "(channel = " ++ channel.repr ++ ", " ++ delta ++ ", note = " ++ Pitch.name note ++
      ", velocity = " ++ velocity.repr ++ ")"
  match e.event with
  | .noteOn c n v => "NoteOn" ++ note c n v
  | .noteOff c n v => "NoteOff" ++ note c n v
  | .tempo t => "TempoChange(" ++ delta ++ ", tempo = " ++ t.repr ++ ")"
  | .key k =>
    "KeySignatureChange(" ++ delta ++ ", shift = " ++ k.shift.repr ++ ", minor = " ++
      (if k.minor then "true" else "false") ++ ")"
  | .time n d =>
    "TimeSignatureChange(" ++ delta ++ ", sig = " ++ n.toNat.repr ++ " / " ++ d.toNat.repr ++ ")"

end TimedEvent

end Jianpu
