import Jianpu.Proofs.Schedule.Cues
import Mathlib.Algebra.Order.BigOperators.Group.List
import Mathlib.Algebra.Order.Group.Nat

/-!
# Playing a strand

`Playing` is the state of a queue between two steps: which nodes were started, which come next,
which have ended, and what was given out. One step of `Queue.start` keeps it (`Playing.opened` and
`Playing.ended`), so a run of `Queue.start` does, which empties the list of nodes to start
(`Playing.started`), so a poll does (`Playing.polled`), and so do all polls, at the end of which no
candidate is left (`Playing.taken`). Then every node of the strand has been started
(`Playing.perm_nodes`).

On the way a queue takes the steps of the score's cast, one for each node that it starts and one for
each event: `Queue.Enacts` says which scene it shows.
-/

namespace Jianpu

namespace Queue

/-! ## The parts of a step -/

/-- A queue with more candidates. -/
def push (q : Queue) (cs : List Candidate) : Queue := { q with candidates := q.candidates ++ cs }

/-- Reports the end of a node to its successor, if it has one: what is to be started then, and the
queue. -/
def report (q : Queue) (next : Option Nat) (delay : Nat) : List (Nat × Nat) × Queue :=
  match next with
  | none => ([], q)
  | some n => ((q.arrive n delay).1.toList.map (n, ·), (q.arrive n delay).2)

/-- A number of steps of `start` that is enough. -/
def steps (q : Queue) : Nat := (q.score.nodes.size + 1) * (q.score.nodes.size + 1)

theorem timeline_append (now : Nat) (cs ds : List Candidate) :
    timeline now (cs ++ ds) = timeline now cs ++ timeline now ds := List.map_append

/-- A step of `start` puts the events of the node into the queue, and reports its end if it is
known. -/
theorem visit_eq (q : Queue) (id : Nat) (x : Node) (delay : Nat) (rest : List (Nat × Nat)) :
    q.visit id x delay rest =
      match (q.outcome id x delay).2 with
      | none => (x.sibling.toList.map (·, delay) ++ rest, q.push (q.outcome id x delay).1)
      | some e =>
        (((q.push (q.outcome id x delay).1).report x.next e).1 ++
            (x.sibling.toList.map (·, delay) ++ rest),
          ((q.push (q.outcome id x delay).1).report x.next e).2) := by
  simp only [visit, report, push]
  cases (q.outcome id x delay).2 <;> cases x.next <;> rfl

theorem conclude_eq (q : Queue) (ends : Option Nat) :
    q.conclude ends =
      let r := q.report (ends.bind q.score.next?) 0
      Queue.start r.2.steps r.1 r.2 := by
  have hnext : (ends.bind fun id => q.score.nodes[id]?.bind (·.next)) =
      ends.bind q.score.next? := rfl
  simp only [conclude, report, hnext]
  cases ends.bind q.score.next? with
  | none => exact (start_nil ..).symm
  | some n =>
    rcases h : q.arrive n 0 with ⟨_ | d, q'⟩
    · simp only [h]
      exact (start_nil ..).symm
    · simp only [h]
      rfl

theorem concludeLog_eq (q : Queue) (ends : Option Nat) :
    q.concludeLog ends =
      let r := q.report (ends.bind q.score.next?) 0
      startLog r.2.steps r.1 r.2 := by
  have hnext : (ends.bind fun id => q.score.nodes[id]?.bind (·.next)) =
      ends.bind q.score.next? := rfl
  simp only [concludeLog, report, hnext]
  cases ends.bind q.score.next? with
  | none => exact (startLog_nil ..).symm
  | some n =>
    rcases h : q.arrive n 0 with ⟨_ | d, q'⟩
    · simp only [h]
      exact (startLog_nil ..).symm
    · simp only [h]
      rfl

end Queue

/-- What a queue knows of an event to come, apart from the event. -/
def Cue.mark (x : Cue) : Nat × Option Nat := (x.tick, if x.ends then some x.node else none)

/-- A queue shows a scene: the nodes of `log` were started, those of `work` are started next and
`finished` have ended. -/
structure Queue.Enacts (q : Queue) (work : List (Nat × Nat)) (log : List Visit)
    (finished : List Nat) (s : Scene) : Prop where
  visited : s.visited = log.map (·.node)
  finished : s.finished = finished
  coming : s.coming = work.map (·.1)
  cues : s.cues.map Cue.mark = q.candidates.map fun c => (q.now + c.delay, c.ends)

/-- The events that starting a node puts into the queue are those of its cast. -/
theorem Queue.cues_outcome {g : Score} {q : Queue} (ns : List Nat) {start : Nat → Nat}
    {id delay : Nat} {x : Node} (hg : Score.Alike g q.score) (hx : q.score.nodes[id]? = some x)
    (ht : q.now + delay = start id) :
    ((g.cast ns q.division start).cuesOf id).map Cue.mark =
        (q.outcome id x delay).1.map (fun c => (q.now + c.delay, c.ends)) ∧
      (g.cast ns q.division start).lasts id = (q.outcome id x delay).2.isNone := by
  obtain ⟨j, hj⟩ := hg.node hx
  have hcues : (g.cast ns q.division start).cues id = g.cuesAt q.division id (start id) := rfl
  rw [Cast.cuesOf, Cast.lasts, hcues, Score.cuesAt_of_some hj]
  simp only [← hg.resolve x j, outcome, ← ht]
  cases x.content <;> simp [Cue.mark, Nat.add_assoc]

/-- The number of events that visits brought. -/
theorem Visit.length_events {g : Score} {division channel : Nat} {start : Nat → Nat}
    {log : List Visit}
    (h : ∀ v ∈ log, v.events = g.soundsOf division channel v.node (start v.node)) :
    (log.flatMap (·.events)).length = ((log.map (·.node)).map g.eventCount).sum := by
  rw [List.length_flatMap, List.map_map]
  congr 1
  apply List.map_congr_left
  intro v hv
  rw [h v hv, Score.length_soundsOf]
  rfl

/-- A queue that plays a strand: the nodes of `log` were started, those of `work` are started next,
`due` has ended but was not reported to its successor, `finished` were, and `given` is what was
given out. -/
structure Playing (g : Score) (s : Strand) (ns : List Nat) (division channel : Nat)
    (start : Nat → Nat) (q : Queue) (work : List (Nat × Nat)) (due : Option Nat) (log : List Visit)
    (finished : List Nat) (given : Timeline) : Prop where
  alike : Score.Alike g q.score
  division_eq : q.division = division
  channel_eq : q.channel = channel
  frontier : Frontier g s ns (log.map (·.node)) (work.map (·.1))
  awaiting : Awaiting g ns (g.ticksOf division) start q.score
    (log.map (·.node) ++ work.map (·.1)) finished
  ticks : ∀ w ∈ work, q.now + w.2 = start w.1
  ending : (log.map (·.node)).Perm (finished ++ (due.toList ++ q.candidates.filterMap (·.ends)))
  ends : ∀ c ∈ q.candidates, ∀ m, c.ends = some m →
    q.now + c.delay = start m + g.ticksOf division m
  logged : ∀ v ∈ log, v.tick = start v.node ∧
    v.events = g.soundsOf division channel v.node (start v.node)
  order : Timeline.sort (log.flatMap (·.events)) =
    given ++ Timeline.sort (Queue.timeline q.now q.candidates)
  past : ∀ x ∈ given, x.1 ≤ q.now
  clock : q.now = (given.getLast?.map (·.1)).getD 0

namespace Playing

variable {g : Score} {s : Strand} {ns : List Nat} {division channel : Nat} {start : Nat → Nat}
  {q : Queue} {work rest : List (Nat × Nat)} {due : Option Nat} {log : List Visit}
  {finished : List Nat} {given : Timeline} {id delay m e : Nat} {x : Node}

/-- Before anything is started. -/
theorem initial (hw : Woven g s ns) (hs : Starts g s.head ns (g.ticksOf division) start 0) :
    Playing g s ns division channel start { score := g, division, channel } [(s.head, 0)] none [] []
      [] where
  alike := .refl g
  division_eq := rfl
  channel_eq := rfl
  frontier := .initial hw
  awaiting := .initial hw
  ticks w hw := by
    rw [List.mem_singleton.1 hw]
    exact hs.head.symm
  ending := .nil
  ends c hc := absurd hc List.not_mem_nil
  logged v hv := absurd hv List.not_mem_nil
  order := rfl
  past x hx := absurd hx List.not_mem_nil
  clock := rfl

/-- A node is started: its events are in the queue, and its sibling comes next. -/
theorem opened (hw : Woven g s ns) (hs : Starts g s.head ns (g.ticksOf division) start 0)
    (h : Playing g s ns division channel start q ((id, delay) :: rest) none log finished given)
    (hx : q.score.nodes[id]? = some x) :
    Playing g s ns division channel start (q.push (q.outcome id x delay).1)
      (x.sibling.toList.map (·, delay) ++ rest) ((q.outcome id x delay).2.map fun _ => id)
      (log ++ [⟨id, q.now + delay, Queue.timeline q.now (q.outcome id x delay).1⟩]) finished
      given := by
  have hid : id ∈ ns := h.frontier.mem id (by simp)
  have htick : q.now + delay = start id := h.ticks (id, delay) List.mem_cons_self
  have hsib : x.sibling = g.sibling? id := by
    obtain ⟨j, hj⟩ := h.alike.node hx
    rw [Score.sibling?, hj]
    rfl
  have hwork : (x.sibling.toList.map (·, delay) ++ rest).map (·.1) =
      (g.sibling? id).toList ++ rest.map (·.1) := by
    rw [hsib, List.map_append, List.map_map]
    exact congrArg (· ++ _) (List.map_id _)
  have hsounds : Queue.timeline q.now (q.outcome id x delay).1 =
      g.soundsOf division channel id (start id) := by
    rw [Queue.timeline_outcome hx, h.alike.soundsOf, h.division_eq, h.channel_eq, htick]
  have hended := @Queue.outcome_ended q id delay x hx
  rw [h.division_eq] at hended
  simp only [h.alike.ticksOf, htick] at hended
  refine ⟨h.alike, h.division_eq, h.channel_eq, ?_, ?_, ?_, ?_, ?_, ?_, ?_, h.past,
    h.clock⟩
  · rw [hwork, List.map_append]
    exact h.frontier.visit hw
  · rw [hwork, List.map_append]
    cases hn : g.sibling? id with
    | none =>
      refine h.awaiting.congr fun n => ?_
      simp
    | some n =>
      refine (h.awaiting.reach (n := n) fun m hm hmn => hw.unmixed m hm id hid n hmn hn).congr ?_
      intro a
      simp only [List.mem_append, List.mem_cons, List.map_cons, Option.toList_some]
      tauto
  · intro w hmem
    rcases List.mem_append.1 hmem with hmem | hmem
    · obtain ⟨n, hn, rfl⟩ := List.mem_map.1 hmem
      rw [Option.mem_toList, hsib] at hn
      exact htick.trans (hs.sibling id hid n hn).symm
    · exact h.ticks w (List.mem_cons_of_mem _ hmem)
  · rw [List.map_append, Queue.push, List.filterMap_append]
    refine (h.ending.append_right [id]).trans ?_
    rcases hended with ⟨hnone, hends, -⟩ | ⟨e, hsome, hends, -⟩
    · rw [hnone, hends]
      simp
    · rw [hsome, hends]
      simp only [Option.toList_none, List.nil_append, Option.map_some, Option.toList_some,
        List.append_nil, List.append_assoc]
      exact List.perm_append_comm.append_left finished
  · intro c hc m hm
    rcases List.mem_append.1 hc with hc | hc
    · exact h.ends c hc m hm
    · rcases hended with ⟨-, hends, heq⟩ | ⟨e, -, hends, -⟩
      · have hmid : m ∈ (q.outcome id x delay).1.filterMap (·.ends) :=
          List.mem_filterMap.2 ⟨c, hc, hm⟩
        rw [hends, List.mem_singleton] at hmid
        subst hmid
        exact heq c hc m hm
      · exact absurd (List.mem_filterMap.2 ⟨c, hc, hm⟩) (by simp [hends])
  · intro v hv
    rcases List.mem_append.1 hv with hv | hv
    · exact h.logged v hv
    · rw [List.mem_singleton.1 hv]
      exact ⟨htick, hsounds⟩
  · rw [List.flatMap_append, Queue.push, Queue.timeline_append, List.flatMap_singleton]
    refine Timeline.sort_append h.order fun y hy z hz => ?_
    obtain ⟨c, -, rfl⟩ := List.mem_map.1 hz
    exact Nat.le_trans (h.past y hy) (Nat.le_add_right ..)

/-- What a report may change: the score, what comes next, and that the node has finished. -/
theorem reported {g' : Score}
    (h : Playing g s ns division channel start q work (some m) log finished given)
    (hg : Score.Alike g g') (hf : Frontier g s ns (log.map (·.node)) (rest.map (·.1)))
    (ha : Awaiting g ns (g.ticksOf division) start g' (log.map (·.node) ++ rest.map (·.1))
      (m :: finished))
    (ht : ∀ w ∈ rest, q.now + w.2 = start w.1) :
    Playing g s ns division channel start { q with score := g' } rest none log (m :: finished)
      given where
  alike := hg
  division_eq := h.division_eq
  channel_eq := h.channel_eq
  frontier := hf
  awaiting := ha
  ticks := ht
  ending := h.ending.trans List.perm_middle
  ends := h.ends
  logged := h.logged
  order := h.order
  past := h.past
  clock := h.clock

/-- A node whose end was not reported yet is not among the finished ones. -/
theorem due_mem (h : Playing g s ns division channel start q work (some m) log finished given) :
    m ∈ ns ∧ m ∉ finished := by
  have hlog : m ∈ log.map (·.node) := by
    rw [h.ending.mem_iff]
    simp
  refine ⟨h.frontier.mem m (List.mem_append_left _ hlog), ?_⟩
  have hnd := h.ending.nodup_iff.1 (List.nodup_append'.1 h.frontier.nodup).1
  exact fun hmf => (List.nodup_append'.1 hnd).2.2 hmf (by simp)

/-- The end of a node is reported to its successor. -/
theorem ended (hw : Woven g s ns) (hs : Starts g s.head ns (g.ticksOf division) start 0)
    (h : Playing g s ns division channel start q work (some m) log finished given)
    (he : q.now + e = start m + g.ticksOf division m) :
    Playing g s ns division channel start (q.report (g.next? m) e).2
      ((q.report (g.next? m) e).1 ++ work) none log (m :: finished) given := by
  obtain ⟨hm, hmf⟩ := h.due_mem
  cases hmn : g.next? m with
  | none => exact h.reported h.alike h.frontier (h.awaiting.finish hm hmn) h.ticks
  | some n =>
    have hle : q.now ≤ start n := by
      have := hs.next_le m hm n hmn
      omega
    obtain ⟨hnr, hcase⟩ := h.awaiting.arrive hw hs h.alike hm hmf hmn
    rw [← he] at hcase
    have halike := h.alike.arrive n (q.now + e)
    rcases hcase with ⟨hready, ha⟩ | ⟨hready, ha⟩
    · simp only [Queue.report, Queue.arrive, hready, Option.map_none, Option.toList_none,
        List.map_nil, List.nil_append]
      exact h.reported halike h.frontier ha h.ticks
    · simp only [Queue.report, Queue.arrive, hready, Option.map_some, Option.toList_some,
        List.map_cons, List.map_nil, List.singleton_append]
      refine h.reported halike (h.frontier.join hw hnr hm hmn) (ha.congr fun a => ?_) ?_
      · simp only [List.map_cons, List.mem_append, List.mem_cons]
        tauto
      · refine List.forall_mem_cons.2 ⟨?_, h.ticks⟩
        exact Nat.add_sub_cancel' hle

/-- The successor is started by the report if it waited for nothing else. -/
theorem enacts_report (hw : Woven g s ns) (hs : Starts g s.head ns (g.ticksOf division) start 0)
    (h : Playing g s ns division channel start q work (some m) log finished given)
    (he : q.now + e = start m + g.ticksOf division m) {scene : Scene}
    (hscene : q.Enacts work log finished scene) :
    (q.report (g.next? m) e).2.Enacts ((q.report (g.next? m) e).1 ++ work) log (m :: finished)
      ((g.cast ns division start).finish scene m) := by
  have hfollow : (q.report (g.next? m) e).1.map (·.1) =
      (g.cast ns division start).follow finished m := by
    change _ = ((g.next? m).filter fun k => decide (∀ a ∈ ns, g.next? a = some k →
      a ∈ m :: finished)).toList
    cases hmn : g.next? m with
    | none => rfl
    | some n =>
      obtain ⟨hm, hmf⟩ := h.due_mem
      obtain ⟨hnr, hcase⟩ := h.awaiting.arrive hw hs h.alike hm hmf hmn
      rw [← he] at hcase
      rw [Option.filter_some]
      rcases hcase with ⟨hready, ha⟩ | ⟨hready, ha⟩
      · obtain ⟨-, -, ⟨a, ha, han, haf⟩, -⟩ := ha.waiting m hm n hmn hnr
        rw [if_neg fun hall => haf ((of_decide_eq_true hall) a ha han)]
        simp [Queue.report, Queue.arrive, hready]
      · rw [if_pos (decide_eq_true fun a ha' han => ha.ready a ha' n han List.mem_cons_self)]
        simp [Queue.report, Queue.arrive, hready]
  refine ⟨hscene.visited, congrArg (m :: ·) hscene.finished, ?_, ?_⟩
  · rw [List.map_append, hfollow, ← hscene.coming, ← hscene.finished]
    rfl
  · have hcues := hscene.cues
    cases g.next? m <;> exact hcues

/-- A step of `start`. -/
theorem visited (hw : Woven g s ns) (hs : Starts g s.head ns (g.ticksOf division) start 0)
    (h : Playing g s ns division channel start q ((id, delay) :: rest) none log finished given)
    (hx : q.score.nodes[id]? = some x) {scene : Scene}
    (hscene : q.Enacts ((id, delay) :: rest) log finished scene) :
    let log' := log ++ [⟨id, q.now + delay, Queue.timeline q.now (q.outcome id x delay).1⟩]
    ∃ finished', Playing g s ns division channel start (q.visit id x delay rest).2
        (q.visit id x delay rest).1 none log' finished' given ∧
      (q.visit id x delay rest).2.Enacts (q.visit id x delay rest).1 log' finished'
        ((g.cast ns division start).visit scene id (rest.map (·.1))) := by
  intro log'
  have hopen := h.opened hw hs hx
  have htick := h.ticks (id, delay) List.mem_cons_self
  have hnext : x.next = g.next? id := by
    rw [← h.alike.next?, Score.next?, hx]
    rfl
  have hsib : x.sibling = g.sibling? id := by
    obtain ⟨j, hj⟩ := h.alike.node hx
    rw [Score.sibling?, hj]
    rfl
  obtain ⟨hcues, hlasts⟩ := Queue.cues_outcome ns h.alike hx htick
  rw [h.division_eq] at hcues hlasts
  have hstart : (q.push (q.outcome id x delay).1).Enacts (x.sibling.toList.map (·, delay) ++ rest)
      log' finished { scene with
        visited := scene.visited ++ [id]
        coming := (g.sibling? id).toList ++ rest.map (·.1)
        cues := scene.cues ++ (g.cast ns division start).cuesOf id } := by
    refine ⟨?_, hscene.finished, ?_, ?_⟩
    · rw [hscene.visited, List.map_append]
      rfl
    · rw [hsib, List.map_append, List.map_map]
      exact congrArg (· ++ _) (List.map_id _).symm
    · rw [Queue.push, List.map_append, List.map_append, hscene.cues, hcues]
  rw [Queue.visit_eq, Cast.visit, hlasts]
  rcases @Queue.outcome_ended q id delay x hx with ⟨hnone, -⟩ | ⟨e, hsome, -, he⟩
  · rw [hnone] at hopen ⊢
    exact ⟨finished, hopen, hstart⟩
  · rw [hsome] at hopen ⊢
    rw [htick, h.alike.ticksOf, h.division_eq] at he
    rw [hnext]
    exact ⟨id :: finished, hopen.ended hw hs he, hopen.enacts_report hw hs he hstart⟩

theorem clear (h : Playing g s ns division channel start q work due log finished given)
    {scene : Scene} (hscene : q.Enacts work log finished scene) :
    (g.cast ns division start).Clear scene := by
  constructor <;> rw [hscene.visited, hscene.coming]
  · exact h.frontier.nodup
  · exact h.frontier.mem

/-- No more nodes are started than there are. -/
theorem length_le (h : Playing g s ns division channel start q work due log finished given) :
    log.length + work.length ≤ ns.length := by
  have hle := (List.subperm_of_subset h.frontier.nodup h.frontier.mem).length_le
  simpa using hle

/-- A run of `start` leaves no node to be started. -/
theorem started {fuel : Nat} (hw : Woven g s ns)
    (hs : Starts g s.head ns (g.ticksOf division) start 0)
    (h : Playing g s ns division channel start q work none log finished given) {scene : Scene}
    (hscene : q.Enacts work log finished scene) (hf : ns.length ≤ log.length + fuel) :
    let log' := log ++ Queue.startLog fuel work q
    ∃ finished' scene', Playing g s ns division channel start (Queue.start fuel work q) [] none log'
        finished' given ∧
      (Queue.start fuel work q).Enacts [] log' finished' scene' ∧
      (g.cast ns division start).Reaches scene scene' := by
  induction fuel generalizing q work log finished scene with
  | zero =>
    have hlen := h.length_le
    obtain rfl : work = [] := List.length_eq_zero_iff.1 (by omega)
    rw [Queue.startLog_nil, List.append_nil]
    exact ⟨finished, scene, h, hscene, .refl⟩
  | succ fuel ih =>
    cases work with
    | nil =>
      rw [Queue.startLog_nil, List.append_nil]
      exact ⟨finished, scene, h, hscene, .refl⟩
    | cons w rest =>
      obtain ⟨id, delay⟩ := w
      have hlt : id < q.score.nodes.size := by
        rw [h.alike.size]
        exact hw.bound id (h.frontier.mem id (by simp))
      have hx : q.score.nodes[id]? = some q.score.nodes[id] := Array.getElem?_eq_getElem hlt
      obtain ⟨finished', hstep, hscene'⟩ := h.visited hw hs hx hscene
      rw [Queue.start_cons _ _ _ _ _ _ hx]
      simp only [Queue.startLog, hx]
      rw [List.append_cons]
      obtain ⟨finished'', scene'', hend, hlast, hreach⟩ :=
        ih hstep hscene' (by simp only [List.length_append, List.length_singleton]; omega)
      exact ⟨finished'', scene'', hend, hlast,
        .head ⟨.visit hscene.coming, hstep.clear hscene'⟩ hreach⟩

theorem length_le_steps (hw : Woven g s ns)
    (h : Playing g s ns division channel start q work due log finished given) :
    ns.length ≤ q.steps := by
  have hsub : ns ⊆ List.range q.score.nodes.size := fun n hn => by
    rw [List.mem_range, h.alike.size]
    exact hw.bound n hn
  have hle := (List.subperm_of_subset hw.nodup hsub).length_le
  rw [List.length_range] at hle
  calc ns.length ≤ q.score.nodes.size + 1 := by omega
    _ ≤ q.steps := Nat.le_mul_of_pos_left _ (Nat.succ_pos _)

/-! ## Polls -/

/-- A candidate is given out, and the time of its event is now. -/
theorem advanced {c : Candidate} {others : List Candidate}
    (h : Playing g s ns division channel start q [] none log finished given)
    (hc : Queue.first? q.candidates = some (c, others)) :
    Playing g s ns division channel start (q.advance c others) [] c.ends log finished
      (given ++ [(q.now + c.delay, c.event)]) := by
  obtain ⟨before, after, hcs, rfl, hbefore, hafter⟩ := Queue.first?_spec hc
  have hdelay : ∀ o ∈ before ++ after, c.delay ≤ o.delay := by
    intro o ho
    rcases List.mem_append.1 ho with ho | ho
    · exact Nat.le_of_lt (hbefore o ho)
    · exact hafter o ho
  have hmem : ∀ o ∈ before ++ after, o ∈ q.candidates := by
    intro o ho
    rw [hcs]
    rcases List.mem_append.1 ho with ho | ho
    · exact List.mem_append_left _ ho
    · exact List.mem_append_right _ (List.mem_cons_of_mem _ ho)
  have htimes : Queue.timeline (q.now + c.delay)
        ((before ++ after).map fun o => { o with delay := o.delay - c.delay }) =
      Queue.timeline q.now before ++ Queue.timeline q.now after := by
    rw [← Queue.timeline_append, Queue.timeline, List.map_map]
    apply List.map_congr_left
    intro o ho
    have := hdelay o ho
    exact Prod.ext (by simp only [Function.comp_apply]; omega) rfl
  refine ⟨h.alike, h.division_eq, h.channel_eq, h.frontier, h.awaiting, by simp, ?_, ?_, h.logged,
    ?_, ?_, by simp [Queue.advance]⟩
  · refine h.ending.trans (List.Perm.append_left _ ?_)
    have hends : ((before ++ after).map fun o : Candidate =>
          { o with delay := o.delay - c.delay }).filterMap (·.ends) =
        before.filterMap (·.ends) ++ after.filterMap (·.ends) := by
      rw [List.filterMap_map, ← List.filterMap_append]
      rfl
    rw [Queue.advance, hends, hcs, List.filterMap_append]
    cases hce : c.ends with
    | none => simp [hce]
    | some m =>
      simp only [Option.toList_none, List.nil_append, List.filterMap_cons, hce, Option.toList_some,
        List.singleton_append]
      exact List.perm_middle
  · intro o' ho' m hm
    obtain ⟨o, ho, rfl⟩ := List.mem_map.1 ho'
    have hend := h.ends o (hmem o ho) m hm
    have := hdelay o ho
    simp only [Queue.advance]
    omega
  · rw [h.order, Queue.advance, htimes, hcs, Queue.timeline_append, List.append_assoc]
    refine congrArg (given ++ ·) (Timeline.sort_middle ?_ ?_)
    · intro y hy
      obtain ⟨o, ho, rfl⟩ := List.mem_map.1 hy
      exact Nat.add_lt_add_left (hbefore o ho) _
    · intro y hy
      obtain ⟨o, ho, rfl⟩ := List.mem_map.1 hy
      exact Nat.add_le_add_left (hafter o ho) _
  · intro y hy
    rcases List.mem_append.1 hy with hy | hy
    · exact Nat.le_trans (h.past y hy) (Nat.le_add_right ..)
    · rw [List.mem_singleton.1 hy]
      exact Nat.le_refl _

/-- A candidate is given out as the first of the earliest events. -/
theorem enacts_advance {c : Candidate} {others : List Candidate} {scene : Scene}
    (hscene : q.Enacts work log finished scene)
    (hc : Queue.first? q.candidates = some (c, others)) :
    ∃ before x after, scene.cues = before ++ x :: after ∧ (∀ y ∈ before, x.tick < y.tick) ∧
      (∀ y ∈ after, x.tick ≤ y.tick) ∧ (c.ends = if x.ends then some x.node else none) ∧
      (q.advance c others).Enacts work log finished { scene with cues := before ++ after } := by
  obtain ⟨before, after, hcs, rfl, hbefore, hafter⟩ := Queue.first?_spec hc
  have hcues := hscene.cues
  rw [hcs, List.map_append, List.map_cons] at hcues
  obtain ⟨before', tail', hcues', hb, htail⟩ := List.map_eq_append_iff.1 hcues
  obtain ⟨x, after', rfl, hx, ha⟩ := List.map_eq_cons_iff.1 htail
  obtain ⟨htick, hends⟩ := Prod.mk.inj hx
  -- the events of a part of the scene have the ticks of that part of the queue
  have hmem : ∀ (l : List Candidate) (l' : List Cue),
      l'.map Cue.mark = l.map (fun d => (q.now + d.delay, d.ends)) →
        ∀ y ∈ l', ∃ d ∈ l, y.tick = q.now + d.delay := by
    intro l l' heq y hy
    have hmark : y.mark ∈ l.map fun d => (q.now + d.delay, d.ends) := heq ▸ List.mem_map_of_mem hy
    obtain ⟨d, hd, hdy⟩ := List.mem_map.1 hmark
    exact ⟨d, hd, (Prod.mk.inj hdy).1.symm⟩
  have hdelay : ∀ d ∈ before ++ after, c.delay ≤ d.delay :=
    List.forall_mem_append.2 ⟨fun d hd => Nat.le_of_lt (hbefore d hd), hafter⟩
  refine ⟨before', x, after', hcues', fun y hy => ?_, fun y hy => ?_, hends.symm, hscene.visited,
    hscene.finished, hscene.coming, ?_⟩
  · obtain ⟨d, hd, hy⟩ := hmem before before' hb y hy
    have := hbefore d hd
    omega
  · obtain ⟨d, hd, hy⟩ := hmem after after' ha y hy
    have := hafter d hd
    omega
  · rw [List.map_append, hb, ha, ← List.map_append, Queue.advance, List.map_map]
    refine List.map_congr_left fun d hd => Prod.ext ?_ rfl
    have := hdelay d hd
    simp only [Function.comp_apply]
    omega

/-- A poll gives out a candidate, and starts what its end is the last to allow. -/
theorem polled {c : Candidate} {others : List Candidate} (hw : Woven g s ns)
    (hs : Starts g s.head ns (g.ticksOf division) start 0)
    (h : Playing g s ns division channel start q [] none log finished given) {scene : Scene}
    (hscene : q.Enacts [] log finished scene)
    (hc : Queue.first? q.candidates = some (c, others)) :
    let q' := (q.advance c others).conclude c.ends
    let log' := log ++ (q.advance c others).concludeLog c.ends
    ∃ finished' scene', Playing g s ns division channel start q' [] none log' finished'
        (given ++ [(q.now + c.delay, c.event)]) ∧
      q'.Enacts [] log' finished' scene' ∧ (g.cast ns division start).Reaches scene scene' := by
  have hadv := h.advanced hc
  obtain ⟨before, x, after, hcues, hbefore, hafter, hends, hscene'⟩ := enacts_advance hscene hc
  have hstep := Cast.Step.give (c := g.cast ns division start) hscene.coming hcues hbefore hafter
  have hreport : ∃ finished', Playing g s ns division channel start
        ((q.advance c others).report (c.ends.bind (q.advance c others).score.next?) 0).2
        ((q.advance c others).report (c.ends.bind (q.advance c others).score.next?) 0).1 none log
        finished' (given ++ [(q.now + c.delay, c.event)]) ∧
      ((q.advance c others).report (c.ends.bind (q.advance c others).score.next?) 0).2.Enacts
        ((q.advance c others).report (c.ends.bind (q.advance c others).score.next?) 0).1 log
        finished' ((g.cast ns division start).give scene x (before ++ after)) := by
    rw [Cast.give]
    cases hce : c.ends with
    | none =>
      rw [hce] at hadv hends
      have hx : x.ends = false := by
        cases hx : x.ends <;> simp [hx] at hends ⊢
      rw [hx]
      exact ⟨finished, hadv, hscene'⟩
    | some m =>
      rw [hce] at hadv hends
      obtain ⟨hx, rfl⟩ : x.ends = true ∧ m = x.node := by
        cases hx : x.ends <;> simp [hx] at hends ⊢
        exact hends
      obtain ⟨before', after', hcs, -⟩ := Queue.first?_spec hc
      have hend : (q.advance c others).now + 0 = start x.node + g.ticksOf division x.node :=
        h.ends c (by rw [hcs]; simp) x.node hce
      have hnext := hadv.ended hw hs hend
      have hscene'' := hadv.enacts_report hw hs hend hscene'
      rw [List.append_nil, ← hadv.alike.next?] at hnext hscene''
      rw [hx]
      exact ⟨x.node :: finished, hnext, hscene''⟩
  obtain ⟨finished', hplaying, hscene''⟩ := hreport
  intro q' log'
  simp only [q', log', Queue.conclude_eq, Queue.concludeLog_eq]
  obtain ⟨finished'', scene', hend, hlast, hreach⟩ := hplaying.started hw hs hscene''
    (Nat.le_trans (hplaying.length_le_steps hw) (Nat.le_add_left ..))
  exact ⟨finished'', scene', hend, hlast, .head ⟨hstep, hplaying.clear hscene''⟩ hreach⟩

/-- What was put into the queue is at most the events of all nodes. -/
theorem length_given_le (h : Playing g s ns division channel start q work due log finished given) :
    given.length + q.candidates.length ≤ (ns.map g.eventCount).sum := by
  have hlen := congrArg List.length h.order
  rw [(Timeline.sort_perm _).length_eq, List.length_append, (Timeline.sort_perm _).length_eq,
    Queue.timeline, List.length_map, Visit.length_events fun v hv => (h.logged v hv).2] at hlen
  obtain ⟨l, hperm, hsub⟩ := List.subperm_of_subset (List.nodup_append'.1 h.frontier.nodup).1
    fun n hn => h.frontier.mem n (List.mem_append_left _ hn)
  rw [← hlen, ← (hperm.map _).sum_eq]
  exact (hsub.map _).sum_le_sum fun _ _ => Nat.zero_le _

/-- Polls give out everything. -/
theorem taken {fuel : Nat} (hw : Woven g s ns)
    (hs : Starts g s.head ns (g.ticksOf division) start 0)
    (h : Playing g s ns division channel start q [] none log finished given) {scene : Scene}
    (hscene : q.Enacts [] log finished scene)
    (hf : (ns.map g.eventCount).sum ≤ given.length + fuel) :
    ∃ q' finished' rest scene', Playing g s ns division channel start q' [] none
        (log ++ q.takeLog fuel) finished' (given ++ rest) ∧
      q'.Enacts [] (log ++ q.takeLog fuel) finished' scene' ∧
      (g.cast ns division start).Reaches scene scene' ∧ q'.candidates = [] ∧
      q.emissions fuel = rest ∧ q.take fuel = Timeline.deltas q.now rest := by
  induction fuel generalizing q log finished given scene with
  | zero =>
    have hlen := h.length_given_le
    have hnil : q.candidates = [] := List.length_eq_zero_iff.1 (by omega)
    refine ⟨q, finished, [], scene, ?_, ?_, .refl, hnil, rfl, rfl⟩
    · rw [Queue.takeLog, List.append_nil, List.append_nil]
      exact h
    · rw [Queue.takeLog, List.append_nil]
      exact hscene
  | succ fuel ih =>
    cases hc : Queue.first? q.candidates with
    | none =>
      refine ⟨q, finished, [], scene, ?_, ?_, .refl, Queue.first?_eq_none.1 hc, ?_, ?_⟩
      · simp only [Queue.takeLog, Queue.poll_eq, hc, Option.map_none, List.append_nil]
        exact h
      · simp only [Queue.takeLog, Queue.poll_eq, hc, Option.map_none, List.append_nil]
        exact hscene
      · simp only [Queue.emissions, Queue.poll_eq, hc, Option.map_none]
      · simp only [Queue.take, Queue.poll_eq, hc, Option.map_none]
        rfl
    | some r =>
      obtain ⟨c, others⟩ := r
      obtain ⟨finished', scene', hstep, hscene', hreach⟩ := h.polled hw hs hscene hc
      have hclock := hstep.clock
      rw [List.getLast?_append_of_ne_nil _ (by simp)] at hclock
      have hfuel : (ns.map g.eventCount).sum ≤
          (given ++ [(q.now + c.delay, c.event)]).length + fuel := by
        rw [List.length_append, List.length_singleton]
        omega
      obtain ⟨q', finished'', rest, scene'', hrun, hlast, hreach', hnil, hemit, htake⟩ :=
        ih hstep hscene' hfuel
      refine ⟨q', finished'', (q.now + c.delay, c.event) :: rest, scene'', ?_, ?_,
        hreach.trans hreach', hnil, ?_, ?_⟩
      · simp only [Queue.takeLog, Queue.poll_eq, hc, Option.map_some, Queue.pollLog]
        rw [List.append_cons, ← List.append_assoc]
        exact hrun
      · simp only [Queue.takeLog, Queue.poll_eq, hc, Option.map_some, Queue.pollLog]
        rw [← List.append_assoc]
        exact hlast
      · simp only [Queue.emissions, Queue.poll_eq, hc, Option.map_some, hemit, hclock]
        rfl
      · simp only [Queue.take, Queue.poll_eq, hc, Option.map_some, htake, hclock, Timeline.deltas,
          Nat.add_sub_cancel_left]
        rfl

/-- When nothing is left, all nodes were started. -/
theorem perm_nodes (hw : Woven g s ns)
    (h : Playing g s ns division channel start q [] none log finished given)
    (hnil : q.candidates = []) : (log.map (·.node)).Perm ns := by
  have hfinished : ∀ n, n ∈ log.map (·.node) ↔ n ∈ finished := by
    intro n
    rw [h.ending.mem_iff, hnil]
    simp
  have hfrontier := h.frontier
  have hawaiting := h.awaiting
  simp only [List.map_nil, List.append_nil] at hawaiting
  -- a node is started when those that lead to it have ended, and these come before it
  have hall : ∀ k, ∀ n ∈ ns, ns.idxOf n = k → n ∈ log.map (·.node) := by
    intro k
    induction k using Nat.strong_induction_on with
    | _ k ih =>
      intro n hn hk
      have hearlier : ∀ m ∈ ns, g.Link m n → m ∈ log.map (·.node) := by
        intro m hm hlink
        have hbefore := (hw.forward m hm n hlink).2
        exact ih _ (hk ▸ hbefore) m hm rfl
      by_cases hhead : n = s.head
      · simpa [hhead] using hfrontier.head
      · obtain ⟨m, hm, hlink⟩ := hw.entered n hn hhead
        rcases hlink with hmn | hmn
        · by_contra hnot
          obtain ⟨-, -, ⟨a, ha, han, haf⟩, -⟩ := hawaiting.waiting m hm n hmn hnot
          exact haf ((hfinished a).1 (hearlier a ha (.inl han)))
        · simpa using hfrontier.sibling m (hearlier m hm (.inr hmn)) n hmn
  have hnodup : (log.map (·.node)).Nodup := (List.nodup_append'.1 hfrontier.nodup).1
  rw [List.perm_ext_iff_of_nodup hnodup hw.nodup]
  exact fun n => ⟨fun hn => hfrontier.mem n (List.mem_append_left _ hn), fun hn => hall _ n hn rfl⟩

end Playing

namespace Queue

variable {g : Score} {s : Strand} {ns : List Nat} {start : Nat → Nat} {division : Nat}

/-- A queue for a strand plays it. -/
theorem playing_ofScore (hw : Woven g s ns) (hs : Starts g s.head ns (g.ticksOf division) start 0)
    (channel : Nat) :
    let log := ofScoreLog g (some s.head) division channel
    ∃ finished scene, Playing g s ns division channel start
        (ofScore g (some s.head) division channel) [] none log finished [] ∧
      (ofScore g (some s.head) division channel).Enacts [] log finished scene ∧
      (g.cast ns division start).Reaches { coming := [s.head] } scene := by
  have hinit := @Playing.initial g s ns division channel start hw hs
  exact hinit.started hw hs ⟨rfl, rfl, rfl, rfl⟩
    (Nat.le_trans (hinit.length_le_steps hw) (Nat.le_add_left ..))

/-- What enough polls give out: every node is started once, at its tick, and what the nodes bring
comes in order of the ticks, and in the order in which it was brought where the ticks are the same.
The nodes are started in the order of the cast. -/
theorem take_ofScore (hw : Woven g s ns) (hs : Starts g s.head ns (g.ticksOf division) start 0)
    (channel fuel : Nat) (hf : (ns.map g.eventCount).sum ≤ fuel) :
    let q := ofScore g (some s.head) division channel
    let log := ofScoreLog g (some s.head) division channel ++ q.takeLog fuel
    (log.map (·.node)).Perm ns ∧
      (∀ v ∈ log, v.tick = start v.node ∧
        v.events = g.soundsOf division channel v.node (start v.node)) ∧
      q.emissions fuel = Timeline.sort (log.flatMap (·.events)) ∧
      q.take fuel = Timeline.deltas 0 (Timeline.sort (log.flatMap (·.events))) ∧
      ∃ scene, (g.cast ns division start).Reaches { coming := [s.head] } scene ∧ scene.Halted ∧
        scene.visited = log.map (·.node) := by
  intro q log
  obtain ⟨finished, scene, hstart, hscene, hreach⟩ := playing_ofScore hw hs channel
  obtain ⟨q', finished', rest, scene', hend, hlast, hreach', hnil, hemit, htake⟩ :=
    hstart.taken hw hs hscene (by simpa using hf)
  have hrest : Timeline.sort (log.flatMap (·.events)) = rest := by
    have hsort : Timeline.sort (timeline q'.now []) = [] := List.mergeSort_nil
    have horder := hend.order
    rw [hnil, hsort, List.append_nil] at horder
    exact horder
  have hnow : q.now = 0 := hstart.clock
  refine ⟨hend.perm_nodes hw hnil, hend.logged, hrest ▸ hemit, ?_, scene', hreach.trans hreach',
    ⟨hlast.coming, ?_⟩, hlast.visited⟩
  · rw [hrest, ← hnow]
    exact htake
  · have hcues := hlast.cues
    rw [hnil] at hcues
    exact List.map_eq_nil_iff.1 hcues

/-! ## All events -/

/-- Fewer polls give out the beginning of what more polls give out. -/
theorem take_take (q : Queue) (m n : Nat) : (q.take m).take n = q.take (min m n) := by
  induction m generalizing q n with
  | zero => simp [take]
  | succ m ih =>
    cases n with
    | zero => simp [take]
    | succ n =>
      rw [Nat.succ_min_succ, take, take]
      cases q.poll with
      | none => rfl
      | some r => rw [List.take_succ_cons, ih]

/-- The polls after the last event give nothing. -/
theorem take_eq_take_events {q : Queue} {total : Nat} (hbound : total ≤ 2 * q.steps)
    (hcount : ∀ fuel, total ≤ fuel → (q.take fuel).length = total) (fuel : Nat) :
    q.take fuel = q.events.take fuel := by
  have hevents : q.events.take fuel = q.take (min (2 * q.steps) fuel) := take_take ..
  rw [hevents]
  rcases Nat.le_total (2 * q.steps) fuel with hle | hle
  · have hlen : (q.take fuel).length ≤ 2 * q.steps := by
      rw [hcount fuel (Nat.le_trans hbound hle)]
      exact hbound
    rw [Nat.min_eq_left hle, ← List.take_of_length_le hlen, take_take, Nat.min_eq_right hle]
  · rw [Nat.min_eq_right hle]

/-- What a queue does for a strand that starts its nodes `ns` at ticks `start`. -/
structure Performs (g : Score) (head : Option Nat) (ns : List Nat) (division channel : Nat)
    (start : Nat → Nat) : Prop where
  /-- Every node is started once. -/
  nodes : ((history g head division channel).map (·.node)).Perm ns
  /-- It is started at its tick, and brings its events then. -/
  visits : ∀ v ∈ history g head division channel, v.tick = start v.node ∧
    v.events = g.soundsOf division channel v.node (start v.node)
  /-- The events come in order of their ticks, and as they were brought at the same tick. -/
  events : (ofScore g head division channel).events =
    Timeline.deltas 0 (Timeline.sort ((history g head division channel).flatMap (·.events)))
  /-- A note brings two events, a change of tempo, key or time one. -/
  length : (ofScore g head division channel).events.length =
    2 * ns.countP g.isNote + ns.countP g.isMeta
  /-- The polls give them out one by one, and then nothing. -/
  polls : ∀ fuel, (ofScore g head division channel).take fuel =
    (ofScore g head division channel).events.take fuel

/-- A queue without a strand. -/
theorem performs_none (g : Score) (division channel : Nat) (start : Nat → Nat) :
    Performs g none [] division channel start := by
  have htake : ∀ fuel, (ofScore g none division channel).take fuel = [] := by
    intro fuel
    cases fuel <;> rfl
  have hlog : history g none division channel = [] := rfl
  have hsort : Timeline.sort [] = [] := List.mergeSort_nil
  refine ⟨.nil, by simp [hlog], ?_, ?_, fun fuel => ?_⟩
  · rw [hlog, List.flatMap_nil, hsort]
    exact htake _
  · rw [events, htake]
    rfl
  · rw [events, htake, htake, List.take_nil]

/-- The events of a strand are no more than the polls that a queue for it is given. -/
theorem sum_eventCount_le_steps (hw : Woven g s ns)
    (hs : Starts g s.head ns (g.ticksOf division) start 0) (channel : Nat) :
    (ns.map g.eventCount).sum ≤ 2 * (ofScore g (some s.head) division channel).steps := by
  obtain ⟨finished, scene, hstart, -⟩ := playing_ofScore hw hs channel
  have hsteps := hstart.length_le_steps hw
  have hsum := List.sum_le_card_nsmul (ns.map g.eventCount) 2 fun k hk => by
    obtain ⟨n, -, rfl⟩ := List.mem_map.1 hk
    exact g.eventCount_le n
  rw [List.length_map, Nat.nsmul_eq_mul] at hsum
  omega

/-- **A queue plays a strand in order.** -/
theorem performs (hw : Woven g s ns) (hs : Starts g s.head ns (g.ticksOf division) start 0)
    (channel : Nat) : Performs g (some s.head) ns division channel start := by
  have hcount : ∀ fuel, (ns.map g.eventCount).sum ≤ fuel →
      ((ofScore g (some s.head) division channel).take fuel).length =
        (ns.map g.eventCount).sum := by
    intro fuel hf
    obtain ⟨hperm, hlog, -, htake, -⟩ := take_ofScore hw hs channel fuel hf
    rw [htake, Timeline.length_deltas, (Timeline.sort_perm _).length_eq,
      Visit.length_events fun v hv => (hlog v hv).2, (hperm.map _).sum_eq]
  have hbound := sum_eventCount_le_steps hw hs channel
  obtain ⟨hperm, hlog, -, htake, -⟩ := take_ofScore hw hs channel _ hbound
  refine ⟨hperm, hlog, htake, ?_, take_eq_take_events hbound hcount⟩
  rw [← g.sum_eventCount]
  exact hcount _ hbound

/-- The ticks of the events are those at which they were brought. -/
theorem emitted_eq (hw : Woven g s ns) (hs : Starts g s.head ns (g.ticksOf division) start 0)
    (channel : Nat) :
    (ofScore g (some s.head) division channel).emitted =
      Timeline.sort ((history g (some s.head) division channel).flatMap (·.events)) := by
  obtain ⟨-, -, hemit, -⟩ :=
    take_ofScore hw hs channel _ (sum_eventCount_le_steps hw hs channel)
  exact hemit

/-- The nodes are started as in the scenes of the strand. -/
theorem exists_scene (hw : Woven g s ns) (hs : Starts g s.head ns (g.ticksOf division) start 0)
    (channel : Nat) :
    ∃ scene, (g.cast ns division start).Reaches { coming := [s.head] } scene ∧ scene.Halted ∧
      scene.visited = (history g (some s.head) division channel).map (·.node) := by
  obtain ⟨-, -, -, -, hscene⟩ :=
    take_ofScore hw hs channel _ (sum_eventCount_le_steps hw hs channel)
  exact hscene

end Queue

end Jianpu
