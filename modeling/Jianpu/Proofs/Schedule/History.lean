import Jianpu.Proofs.Schedule.Timeline

/-!
# What a queue has started

A queue does not remember the nodes that it started. The functions below go along with
`Queue.start`, `Queue.poll` and `Queue.take` and keep a `Visit` for every node that is started: the
node, its tick, and the events that were put into the queue for it, in order.

`Queue.start_cons` and `Queue.poll_eq` give one step of each loop as a function of its own, and
`Queue.first?_spec` says which candidate is taken.
-/

namespace Jianpu

/-- A node that was started at a tick, and the events that were put into the queue for it. -/
structure Visit where
  node : Nat
  tick : Nat
  events : Timeline
  deriving DecidableEq, Repr

namespace Queue

/-- Candidates as events at their ticks. -/
def timeline (now : Nat) (cs : List Candidate) : Timeline :=
  cs.map fun c => (now + c.delay, c.event)

/-- One step of `start`: what is to be started after a node, and the queue then. -/
def visit (q : Queue) (id : Nat) (n : Node) (delay : Nat) (rest : List (Nat × Nat)) :
    List (Nat × Nat) × Queue :=
  let rest := n.sibling.toList.map (·, delay) ++ rest
  let (events, ended) := q.outcome id n delay
  let q := { q with candidates := q.candidates ++ events }
  match n.next, ended with
  | some next, some ended =>
    let (ready, q) := q.arrive next ended
    (ready.toList.map (next, ·) ++ rest, q)
  | _, _ => (rest, q)

theorem start_nil (fuel : Nat) (q : Queue) : start fuel [] q = q := by
  cases fuel <;> rfl

theorem start_cons (fuel id delay : Nat) (rest : List (Nat × Nat)) (q : Queue) (n : Node)
    (hn : q.score.nodes[id]? = some n) :
    start (fuel + 1) ((id, delay) :: rest) q =
      start fuel (q.visit id n delay rest).1 (q.visit id n delay rest).2 := by
  simp only [start, hn, visit]
  split <;> simp_all

/-- The nodes that `start` starts. -/
def startLog : Nat → List (Nat × Nat) → Queue → List Visit
  | 0, _, _ | _, [], _ => []
  | fuel + 1, (id, delay) :: rest, q =>
    match q.score.nodes[id]? with
    | none => startLog fuel rest q
    | some n =>
      ⟨id, q.now + delay, timeline q.now (q.outcome id n delay).1⟩ ::
        startLog fuel (q.visit id n delay rest).1 (q.visit id n delay rest).2

theorem startLog_nil (fuel : Nat) (q : Queue) : startLog fuel [] q = [] := by
  cases fuel <;> rfl

/-- The nodes that `activate` starts. -/
def activateLog (q : Queue) (id delay : Nat) : List Visit :=
  let bound := q.score.nodes.size + 1
  startLog (bound * bound) [(id, delay)] q

/-- The nodes that are started before the first event. -/
def ofScoreLog (score : Score) (head : Option Nat) (division channel : Nat) : List Visit :=
  match head with
  | some head => activateLog { score, division, channel } head 0
  | none => []

/-! ## One poll -/

/-- The queue when a candidate is given out. -/
def advance (q : Queue) (c : Candidate) (others : List Candidate) : Queue :=
  { q with
    candidates := others.map fun o => { o with delay := o.delay - c.delay }
    now := q.now + c.delay }

/-- The queue after the end of a node, if one ends now. -/
def conclude (q : Queue) (ends : Option Nat) : Queue :=
  match ends.bind fun id => q.score.nodes[id]?.bind (·.next) with
  | none => q
  | some next =>
    match q.arrive next 0 with
    | (some delay, q) => q.activate next delay
    | (none, q) => q

/-- The nodes that are started at the end of a node. -/
def concludeLog (q : Queue) (ends : Option Nat) : List Visit :=
  match ends.bind fun id => q.score.nodes[id]?.bind (·.next) with
  | none => []
  | some next =>
    match q.arrive next 0 with
    | (some delay, q) => q.activateLog next delay
    | (none, _) => []

theorem poll_eq (q : Queue) : q.poll = (first? q.candidates).map fun r =>
    (⟨min r.1.delay TimedEvent.farthest, r.1.event⟩, (q.advance r.1 r.2).conclude r.1.ends) := rfl

/-- The next events with their ticks, at most `fuel` of them. -/
def emissions : Nat → Queue → Timeline
  | 0, _ => []
  | fuel + 1, q =>
    match q.poll with
    | none => []
    | some (e, q) => (q.now, e.event) :: emissions fuel q

/-- All events with their ticks. -/
def emitted (q : Queue) : Timeline :=
  let bound := q.score.nodes.size + 1
  q.emissions (2 * (bound * bound))

/-- The nodes that the next poll starts. -/
def pollLog (q : Queue) : List Visit :=
  match first? q.candidates with
  | none => []
  | some r => (q.advance r.1 r.2).concludeLog r.1.ends

/-- The nodes that the next polls start, at most `fuel` of them. -/
def takeLog : Nat → Queue → List Visit
  | 0, _ => []
  | fuel + 1, q =>
    match q.poll with
    | none => []
    | some (_, q') => q.pollLog ++ takeLog fuel q'

/-- All nodes that a queue for a strand starts, from the first one on. -/
def history (score : Score) (head : Option Nat) (division channel : Nat) : List Visit :=
  let q := ofScore score head division channel
  let bound := q.score.nodes.size + 1
  ofScoreLog score head division channel ++ q.takeLog (2 * (bound * bound))

theorem first?_eq_none {cs : List Candidate} : first? cs = none ↔ cs = [] := by
  cases cs with
  | nil => simp [first?]
  | cons c cs =>
    simp only [first?, reduceCtorEq, iff_false]
    split
    · split <;> simp
    · simp

/-- The candidate taken has the smallest delay, and was put in before all others with that delay. -/
theorem first?_spec {cs others : List Candidate} {c : Candidate}
    (h : first? cs = some (c, others)) :
    ∃ before after, cs = before ++ c :: after ∧ others = before ++ after ∧
      (∀ d ∈ before, c.delay < d.delay) ∧ ∀ d ∈ after, c.delay ≤ d.delay := by
  induction cs generalizing c others with
  | nil => simp [first?] at h
  | cons a cs ih =>
    rw [first?] at h
    split at h
    · rename_i d ds hd
      obtain ⟨before, after, rfl, rfl, hb, ha⟩ := ih hd
      split at h
      · rename_i hlt
        obtain ⟨rfl, rfl⟩ := Prod.mk.inj (Option.some.inj h)
        refine ⟨a :: before, after, rfl, rfl, ?_, ha⟩
        exact List.forall_mem_cons.2 ⟨hlt, hb⟩
      · rename_i hge
        obtain ⟨rfl, rfl⟩ := Prod.mk.inj (Option.some.inj h)
        refine ⟨[], before ++ d :: after, rfl, rfl, by simp, ?_⟩
        intro e he
        rcases List.mem_append.1 he with he | he
        · have := hb e he
          omega
        · rcases List.mem_cons.1 he with rfl | he
          · omega
          · have := ha e he
            omega
    · rename_i hnone
      obtain rfl := first?_eq_none.1 hnone
      obtain ⟨rfl, rfl⟩ := Prod.mk.inj (Option.some.inj h)
      exact ⟨[], [], rfl, rfl, by simp, by simp⟩

end Queue

end Jianpu
