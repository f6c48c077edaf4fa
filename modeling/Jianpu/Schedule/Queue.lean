import Jianpu.Schedule.Event
import Jianpu.Score.Graph

/-!
# The queue of coming events

A queue plays a score. It holds the events that are known and not yet given out, each with its delay
from the last one given out. `Queue.poll` gives the event with the smallest delay, of several the
one that was put in first. When a note ends, its successor is started, once all nodes before it have
ended.
-/

namespace Jianpu

/-- An event to come. With the end of a note comes the node that ends. -/
structure Candidate where
  delay : Nat
  event : Event
  ends : Option Nat := none
  deriving DecidableEq, Repr, Inhabited

/-- A score being played on a channel, with a plain note of `division` ticks. -/
structure Queue where
  score : Score
  division : Nat
  channel : Nat
  candidates : List Candidate := []
  /-- The tick of the last event given out. -/
  now : Nat := 0
  deriving Repr, Inhabited

namespace Queue

/-- What starting a node brings: the events, and, unless its end is among them, after how many ticks
it ends. -/
def outcome (q : Queue) (id : Nat) (n : Node) (delay : Nat) : List Candidate × Option Nat :=
  match n.content with
  | .note _ velocity =>
    let r := q.score.resolve n q.division
    ([{ delay, event := .noteOn q.channel r.pitch velocity },
      { delay := delay + r.duration
        event := .noteOff q.channel r.pitch velocity
        ends := some id }],
      none)
  | .rest => ([], some (delay + (q.score.resolve n q.division).duration))
  | .tempo t => ([{ delay, event := .tempo t }], some delay)
  | .key k => ([{ delay, event := .key k }], some delay)
  | .time a b => ([{ delay, event := .time a b }], some delay)

/-- Reports the end of a predecessor, some ticks from now, to a node. Gives the delay after which
the node starts, if this was the last one. -/
def arrive (q : Queue) (id delay : Nat) : Option Nat × Queue :=
  let (ready, score) := q.score.arrive id (q.now + delay)
  (ready.map (· - q.now), { q with score })

/-- Starts the nodes of a list, each after its delay. What follows a node that ends without an event
of its own is started at once, then its siblings, then the rest of the list. -/
def start : Nat → List (Nat × Nat) → Queue → Queue
  | 0, _, q | _, [], q => q
  | fuel + 1, (id, delay) :: rest, q =>
    match q.score.nodes[id]? with
    | none => start fuel rest q
    | some n =>
      let rest := n.sibling.toList.map (·, delay) ++ rest
      let (events, ended) := q.outcome id n delay
      let q := { q with candidates := q.candidates ++ events }
      match n.next, ended with
      | some next, some ended =>
        let (ready, q) := q.arrive next ended
        start fuel (ready.toList.map (next, ·) ++ rest) q
      | _, _ => start fuel rest q

/-- Starts a node. A node is started once by those before it and passes the start on along its
siblings, so the square of the number of nodes bounds the steps. -/
def activate (q : Queue) (id delay : Nat) : Queue :=
  let bound := q.score.nodes.size + 1
  start (bound * bound) [(id, delay)] q

/-- The queue at the start of a strand. -/
def ofScore (score : Score) (head : Option Nat) (division channel : Nat) : Queue :=
  let q : Queue := { score, division, channel }
  match head with
  | some head => q.activate head 0
  | none => q

/-- The first of the candidates with the smallest delay, and the others. -/
def first? : List Candidate → Option (Candidate × List Candidate)
  | [] => none
  | c :: cs =>
    match first? cs with
    | some (d, ds) => if d.delay < c.delay then some (d, c :: ds) else some (c, cs)
    | none => some (c, [])

/-- The next event, and the queue after it. -/
def poll (q : Queue) : Option (TimedEvent × Queue) :=
  (first? q.candidates).map fun (c, others) =>
    let q := { q with
      candidates := others.map fun o => { o with delay := o.delay - c.delay }
      now := q.now + c.delay }
    let next := c.ends.bind fun id => q.score.nodes[id]?.bind (·.next)
    let q := match next with
      | none => q
      | some next =>
        match q.arrive next 0 with
        | (some delay, q) => q.activate next delay
        | (none, q) => q
    (⟨min c.delay TimedEvent.farthest, c.event⟩, q)

/-- The next events, at most `fuel` of them. -/
def take : Nat → Queue → List TimedEvent
  | 0, _ => []
  | fuel + 1, q =>
    match q.poll with
    | none => []
    | some (e, q) => e :: take fuel q

/-- All events. A node brings two of them at most each time it is started. -/
def events (q : Queue) : List TimedEvent :=
  let bound := q.score.nodes.size + 1
  q.take (2 * (bound * bound))

end Queue

end Jianpu
