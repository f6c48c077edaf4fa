import Jianpu.Schedule.Event
import Jianpu.Table

/-!
# Overlapping notes

When a note starts while its pitch sounds already, neither that start nor the end before the last is
heard, and both are left out. The ticks before an event left out are added to those before the next
one.
-/

namespace Jianpu.Overlap

/-- How many notes sound, by channel and pitch: no more than there are events. -/
abbrev Sounding := Table (Nat × Nat) Nat

namespace Sounding

/-- How many notes of a channel and pitch sound. -/
def count (s : Sounding) (key : Nat × Nat) : Nat := (s.lookup key).getD 0

theorem count_insert (s : Sounding) (key other : Nat × Nat) (n : Nat) :
    count (s.insert key n) other = if other == key then n else s.count other := by
  rw [count, Table.lookup_insert]
  split <;> rfl

end Sounding

/-- What an event does to the notes that sound, and whether it is heard. -/
def hear (s : Sounding) (e : Event) : Bool × Sounding :=
  match e with
  | .noteOn channel note _ =>
    let n := s.count (channel, note) + 1
    (n ≤ 1, s.insert (channel, note) n)
  | .noteOff channel note _ =>
    let n := s.count (channel, note) - 1
    (n = 0, s.insert (channel, note) n)
  | _ => (true, s)

/-- The events that are heard; `carry` ticks were left over before the first. -/
def mergeFrom (s : Sounding) (carry : Nat) : List TimedEvent → List TimedEvent
  | [] => []
  | e :: es =>
    let delta := min (e.delta + carry) TimedEvent.farthest
    let (heard, s) := hear s e.event
    if heard then { e with delta } :: mergeFrom s 0 es else mergeFrom s delta es

/-- The events that are heard. -/
def merge (es : List TimedEvent) : List TimedEvent := mergeFrom [] 0 es

end Jianpu.Overlap
