import Jianpu.Proofs.Schedule.History
import Jianpu.Proofs.Score.Pace
import Mathlib.Tactic.Tauto

/-!
# Arrivals

While a score is played, nothing in it changes but what its nodes wait for (`Score.Alike`).
`Awaiting` says what that is at any time: a node that was not reached yet waits for those of its
predecessors that have not ended, and knows when the last of the others ended. The end of a node
therefore reaches its successor exactly when it is the last predecessor to end, and at the tick at
which the successor is to start (`Awaiting.arrive`).

`Frontier` says which nodes are reached: the head, the siblings of those started, and successors.
-/

namespace Jianpu

namespace Score

/-! ## What stays as it is -/

/-- Two scores that differ at most in what their nodes wait for. -/
structure Alike (g g' : Score) : Prop where
  modifiers : g'.modifiers = g.modifiers
  nodes : ∀ n : Nat, (g'.nodes[n]?).map ({ · with join := .armed }) =
    (g.nodes[n]?).map ({ · with join := .armed })

namespace Alike

variable {g g' g'' : Score}

theorem refl (g : Score) : Alike g g := ⟨rfl, fun _ => rfl⟩

theorem trans (h : Alike g g') (h' : Alike g' g'') : Alike g g'' :=
  ⟨h'.modifiers.trans h.modifiers, fun n => (h'.nodes n).trans (h.nodes n)⟩

theorem setJoin (h : Alike g g') (id : Nat) (j : Join) : Alike g (g'.setJoin id j) := by
  refine h.trans ⟨rfl, fun n => ?_⟩
  rw [Score.setJoin, getElem?_modifyNode]
  split <;> cases g'.nodes[n]? <;> rfl

/-- A node is as before, but for what it waits for. -/
theorem node (h : Alike g g') {n : Nat} {x : Node} (hx : g'.nodes[n]? = some x) :
    ∃ j, g.nodes[n]? = some { x with join := j } := by
  have hn := h.nodes n
  rw [hx, Option.map_some] at hn
  obtain ⟨y, hy, hxy⟩ := Option.map_eq_some_iff.1 hn.symm
  refine ⟨y.join, ?_⟩
  rw [hy]
  cases x
  cases y
  simp only [Node.mk.injEq] at hxy
  obtain ⟨rfl, rfl, rfl, rfl, rfl, -⟩ := hxy
  rfl

theorem next? (h : Alike g g') (n : Nat) : g'.next? n = g.next? n := by
  have hn := congrArg (Option.bind · Node.next) (h.nodes n)
  simpa [Score.next?, Option.bind_map, Function.comp_def] using hn

theorem size (h : Alike g g') : g'.nodes.size = g.nodes.size := by
  have hiff : ∀ n : Nat, n < g'.nodes.size ↔ n < g.nodes.size := by
    intro n
    have hn := congrArg Option.isSome (h.nodes n)
    rw [Option.isSome_map, Option.isSome_map, Bool.eq_iff_iff] at hn
    simpa using hn
  have h1 := hiff g.nodes.size
  have h2 := hiff g'.nodes.size
  omega

/-- The resolution of a node depends on nothing that changes. -/
theorem resolve (h : Alike g g') (x : Node) (j : Join) (division : Nat) :
    g'.resolve x division = g.resolve { x with join := j } division := by
  have hchain : ∀ fuel m, g'.chain fuel m = g.chain fuel m := by
    intro fuel
    induction fuel with
    | zero => exact fun _ => rfl
    | succ fuel ih =>
      intro m
      cases m with
      | none => rfl
      | some m => simp only [chain, h.modifiers, ih]
  simp only [Score.resolve, modifiersOf, hchain, h.modifiers]

theorem none (h : Alike g g') {n : Nat} (hn : g'.nodes[n]? = .none) : g.nodes[n]? = .none := by
  rw [Array.getElem?_eq_none_iff, ← h.size]
  exact Array.getElem?_eq_none_iff.1 hn

end Alike

/-! ## What a node brings -/

/-- How many ticks a node takes. -/
def ticksOf (g : Score) (division n : Nat) : Nat :=
  match g.nodes[n]? with
  | none => 0
  | some x => if x.content.isMeta then 0 else (g.resolve x division).duration

/-- The events of a node that starts at a tick. -/
def soundsOf (g : Score) (division channel n t : Nat) : Timeline :=
  match g.nodes[n]? with
  | none => []
  | some x =>
    match x.content with
    | .note _ velocity =>
      let r := g.resolve x division
      [(t, .noteOn channel r.pitch velocity), (t + r.duration, .noteOff channel r.pitch velocity)]
    | .rest => []
    | .tempo m => [(t, .tempo m)]
    | .key k => [(t, .key k)]
    | .time a b => [(t, .time a b)]

/-- Whether a node is a note. -/
def isNote (g : Score) (n : Nat) : Bool := g.nodes[n]?.any fun x => x.content matches .note _ _

/-- Whether a node changes the tempo, the key or the time. -/
def isMeta (g : Score) (n : Nat) : Bool := g.nodes[n]?.any (·.content.isMeta)

/-- The number of events of a node. -/
def eventCount (g : Score) (n : Nat) : Nat := 2 * (g.isNote n).toNat + (g.isMeta n).toNat

theorem length_soundsOf (g : Score) (division channel n t : Nat) :
    (g.soundsOf division channel n t).length = g.eventCount n := by
  unfold soundsOf eventCount isNote isMeta
  cases g.nodes[n]? with
  | none => rfl
  | some x => cases hx : x.content <;> simp [hx, Content.isMeta]

theorem eventCount_le (g : Score) (n : Nat) : g.eventCount n ≤ 2 := by
  unfold eventCount isNote isMeta
  cases g.nodes[n]? with
  | none => simp
  | some x => cases hx : x.content <;> simp [hx, Content.isMeta]

theorem sum_eventCount (g : Score) (ns : List Nat) :
    (ns.map g.eventCount).sum = 2 * ns.countP g.isNote + ns.countP g.isMeta := by
  induction ns with
  | nil => rfl
  | cons n ns ih =>
    rw [List.map_cons, List.sum_cons, ih, eventCount, List.countP_cons, List.countP_cons]
    cases g.isNote n <;> cases g.isMeta n <;> simp <;> omega

theorem Alike.ticksOf {g g' : Score} (h : Alike g g') (division n : Nat) :
    g'.ticksOf division n = g.ticksOf division n := by
  unfold Score.ticksOf
  cases hx : g'.nodes[n]? with
  | none => rw [h.none hx]
  | some x =>
    obtain ⟨j, hj⟩ := h.node hx
    simp only [hj, h.resolve x j]

theorem Alike.soundsOf {g g' : Score} (h : Alike g g') (division channel n t : Nat) :
    g'.soundsOf division channel n t = g.soundsOf division channel n t := by
  unfold Score.soundsOf
  cases hx : g'.nodes[n]? with
  | none => rw [h.none hx]
  | some x =>
    obtain ⟨j, hj⟩ := h.node hx
    simp only [hj, h.resolve x j]

end Score

namespace Queue

variable {q : Queue} {id delay : Nat} {x : Node}

/-- Starting a node puts its events into the queue. -/
theorem timeline_outcome (hx : q.score.nodes[id]? = some x) :
    timeline q.now (q.outcome id x delay).1 =
      q.score.soundsOf q.division q.channel id (q.now + delay) := by
  simp only [outcome, Score.soundsOf, hx]
  cases x.content <;> simp [timeline, Nat.add_assoc]

/-- The end of a note is among its events; every other node has ended when its ticks are over. -/
theorem outcome_ended (hx : q.score.nodes[id]? = some x) :
    ((q.outcome id x delay).2 = none ∧ (q.outcome id x delay).1.filterMap (·.ends) = [id] ∧
        ∀ c ∈ (q.outcome id x delay).1, ∀ m, c.ends = some m →
          q.now + c.delay = q.now + delay + q.score.ticksOf q.division m) ∨
      ∃ e, (q.outcome id x delay).2 = some e ∧
        (q.outcome id x delay).1.filterMap (·.ends) = [] ∧
        q.now + e = q.now + delay + q.score.ticksOf q.division id := by
  have hticks : q.score.ticksOf q.division id =
      if x.content.isMeta then 0 else (q.score.resolve x q.division).duration := by
    rw [Score.ticksOf, hx]
  unfold outcome
  cases hc : x.content with
  | note pitch velocity =>
    refine .inl ⟨rfl, rfl, ?_⟩
    intro c hmem m hm
    rcases List.mem_cons.1 hmem with rfl | hmem
    · simp at hm
    · obtain rfl := List.mem_singleton.1 hmem
      obtain rfl : id = m := Option.some.inj hm
      rw [hticks, hc]
      simp [Content.isMeta, Nat.add_assoc]
  | rest => exact .inr ⟨_, rfl, rfl, by simp [hticks, hc, Content.isMeta, Nat.add_assoc]⟩
  | tempo m => exact .inr ⟨_, rfl, rfl, by simp [hticks, hc, Content.isMeta]⟩
  | key k => exact .inr ⟨_, rfl, rfl, by simp [hticks, hc, Content.isMeta]⟩
  | time a b => exact .inr ⟨_, rfl, rfl, by simp [hticks, hc, Content.isMeta]⟩

end Queue

namespace Score

/-! ## One arrival -/

theorem arrive_pending {g : Score} {n k r : Nat} (h : g.join? n = some (.pending k r)) (t : Nat) :
    g.arrive n t =
      if k ≤ 1 then (some (max r t), g.setJoin n .armed)
      else (none, g.setJoin n (.pending (k - 1) (max r t))) := by
  rw [join?] at h
  simp only [arrive, h]

theorem Alike.arrive {g g' : Score} (h : Alike g g') (n t : Nat) : Alike g (g'.arrive n t).2 := by
  unfold Score.arrive
  split
  · split
    · exact h.setJoin ..
    · exact h.setJoin ..
  · exact h

end Score

theorem countP_notMem_cons {ns finished : List Nat} (hnd : ns.Nodup) {m : Nat} (hm : m ∈ ns)
    (hmf : m ∉ finished) (p : Nat → Prop) [DecidablePred p] (hp : p m) :
    ns.countP (fun a => p a ∧ a ∉ finished) = ns.countP (fun a => p a ∧ a ∉ m :: finished) + 1 := by
  have hperm : ns.Perm (m :: ns.erase m) := List.perm_cons_erase hm
  have hrest : (ns.erase m).countP (fun a => p a ∧ a ∉ m :: finished) =
      (ns.erase m).countP fun a => p a ∧ a ∉ finished := by
    apply List.countP_congr
    intro a ha
    have hne : a ≠ m := fun heq => hnd.not_mem_erase (heq ▸ ha)
    simp [hne]
  rw [hperm.countP_eq, hperm.countP_eq, List.countP_cons_of_pos (by simpa using ⟨hp, hmf⟩),
    List.countP_cons_of_neg (by simp), hrest]

/-- A node waits for those of its predecessors that are not among the finished ones, and knows the
tick at which the last of the finished ones ended. -/
def Waits (g : Score) (ns : List Nat) (len start : Nat → Nat) (g' : Score) (finished : List Nat)
    (n : Nat) : Prop :=
  ∃ r, g'.join? n =
      some (.pending (ns.countP fun m => g.next? m = some n ∧ m ∉ finished) r) ∧
    (∃ m ∈ ns, g.next? m = some n ∧ m ∉ finished) ∧
    (∀ m ∈ finished, g.next? m = some n → start m + len m ≤ r) ∧
    (r = 0 ∨ ∃ m ∈ finished, g.next? m = some n ∧ r = start m + len m)

/-- A successor is reached when all its predecessors have finished, and waits until then. -/
structure Awaiting (g : Score) (ns : List Nat) (len start : Nat → Nat) (g' : Score)
    (reached finished : List Nat) : Prop where
  sub : finished ⊆ ns
  ready : ∀ m ∈ ns, ∀ n, g.next? m = some n → n ∈ reached → m ∈ finished
  waiting : ∀ m ∈ ns, ∀ n, g.next? m = some n → n ∉ reached → Waits g ns len start g' finished n

namespace Awaiting

variable {g g' : Score} {s : Strand} {ns reached reached' finished : List Nat}
  {len start : Nat → Nat} {t m n : Nat}

/-- Before anything is started. -/
theorem initial (hw : Woven g s ns) : Awaiting g ns len start g [s.head] [] where
  sub := List.nil_subset _
  ready m hm n hmn hn := by
    rw [List.mem_singleton.1 hn] at hmn
    exact absurd (.inl hmn) (hw.not_link_head hm)
  waiting m hm n hmn _ := by
    refine ⟨0, ?_, ⟨m, hm, hmn, List.not_mem_nil⟩, by simp, .inl rfl⟩
    rw [hw.joined m hm n hmn]
    simp

theorem congr (h : Awaiting g ns len start g' reached finished)
    (hr : ∀ n, n ∈ reached' ↔ n ∈ reached) : Awaiting g ns len start g' reached' finished where
  sub := h.sub
  ready m hm n hmn hn := h.ready m hm n hmn ((hr n).1 hn)
  waiting m hm n hmn hn := h.waiting m hm n hmn fun hn' => hn ((hr n).2 hn')

/-- A node is reached that is nobody's successor. -/
theorem reach (h : Awaiting g ns len start g' reached finished)
    (hn : ∀ m ∈ ns, g.next? m ≠ some n) : Awaiting g ns len start g' (n :: reached) finished where
  sub := h.sub
  ready m hm a hma ha := by
    rcases List.mem_cons.1 ha with rfl | ha
    · exact absurd hma (hn m hm)
    · exact h.ready m hm a hma ha
  waiting m hm a hma ha := h.waiting m hm a hma fun ha' => ha (List.mem_cons_of_mem _ ha')

/-- One more finished node does not matter to a node that it does not lead to. -/
theorem waits_cons {g'' : Score} (h : Waits g ns len start g' finished n)
    (hm : g.next? m ≠ some n) (hj : g''.join? n = g'.join? n) :
    Waits g ns len start g'' (m :: finished) n := by
  obtain ⟨r, hjoin, ⟨a, ha, han, haf⟩, hle, heq⟩ := h
  have hne : ∀ a, g.next? a = some n → a ≠ m := fun a han heq => hm (heq ▸ han)
  refine ⟨r, ?_, ⟨a, ha, han, ?_⟩, ?_, ?_⟩
  · rw [hj, hjoin]
    congr 2
    apply List.countP_congr
    intro a _
    by_cases han : g.next? a = some n
    · simp [han, hne a han]
    · simp [han]
  · rw [List.mem_cons, not_or]
    exact ⟨hne a han, haf⟩
  · intro b hb hbn
    exact hle b ((List.mem_cons.1 hb).resolve_left (hne b hbn)) hbn
  · rcases heq with heq | ⟨b, hb, hbn, heq⟩
    · exact .inl heq
    · exact .inr ⟨b, List.mem_cons_of_mem _ hb, hbn, heq⟩

/-- A node finishes that leads to none. -/
theorem finish (h : Awaiting g ns len start g' reached finished) (hm : m ∈ ns)
    (hnone : g.next? m = none) : Awaiting g ns len start g' reached (m :: finished) where
  sub := List.cons_subset.2 ⟨hm, h.sub⟩
  ready a ha n han hn := List.mem_cons_of_mem _ (h.ready a ha n han hn)
  waiting a ha n han hn := waits_cons (h.waiting a ha n han hn) (by simp [hnone]) rfl

/-- The tick of the last arrival is the one at which the successor is to start. -/
theorem max_eq_start {r : Nat} (hs : Starts g s.head ns len start t) (hm : m ∈ ns)
    (hmn : g.next? m = some n) (hsub : finished ⊆ ns)
    (hall : ∀ a ∈ ns, g.next? a = some n → a ∈ m :: finished)
    (hle : ∀ a ∈ finished, g.next? a = some n → start a + len a ≤ r)
    (heq : r = 0 ∨ ∃ a ∈ finished, g.next? a = some n ∧ r = start a + len a) :
    max r (start m + len m) = start n := by
  apply Nat.le_antisymm
  · rw [Nat.max_le]
    refine ⟨?_, hs.next_le m hm n hmn⟩
    rcases heq with rfl | ⟨a, ha, han, rfl⟩
    · exact Nat.zero_le _
    · exact hs.next_le a (hsub ha) n han
  · obtain ⟨c, hc, hcn, hstart⟩ := hs.next_eq m hm n hmn
    rw [hstart]
    rcases List.mem_cons.1 (hall c hc hcn) with rfl | hcf
    · exact Nat.le_max_right ..
    · exact Nat.le_trans (hle c hcf hcn) (Nat.le_max_left ..)

/-- **The end of a node reaches its successor when it is the last to end, and at the tick at which
the successor is to start.** -/
theorem arrive (hw : Woven g s ns) (hs : Starts g s.head ns len start t) (ha : Score.Alike g g')
    (h : Awaiting g ns len start g' reached finished) (hm : m ∈ ns) (hmf : m ∉ finished)
    (hmn : g.next? m = some n) :
    n ∉ reached ∧
      (((g'.arrive n (start m + len m)).1 = none ∧
          Awaiting g ns len start (g'.arrive n (start m + len m)).2 reached (m :: finished)) ∨
        ((g'.arrive n (start m + len m)).1 = some (start n) ∧
          Awaiting g ns len start (g'.arrive n (start m + len m)).2 (n :: reached)
            (m :: finished))) := by
  have hnr : n ∉ reached := fun hn => hmf (h.ready m hm n hmn hn)
  obtain ⟨r, hjoin, -, hle, heq⟩ := h.waiting m hm n hmn hnr
  have hcount := countP_notMem_cons hw.nodup hm hmf (fun a => g.next? a = some n) hmn
  have hlt : n < g'.nodes.size := by
    rw [ha.size]
    exact hw.bound n (hw.forward m hm n (.inl hmn)).1
  have hsub : m :: finished ⊆ ns := List.cons_subset.2 ⟨hm, h.sub⟩
  -- a successor of others waits as before
  have hother : ∀ j, ∀ a ∈ ns, ∀ x, g.next? a = some x → x ∉ reached → x ≠ n →
      Waits g ns len start (g'.setJoin n j) (m :: finished) x := by
    intro j a ha x hax hx hxn
    refine waits_cons (h.waiting a ha x hax hx) ?_ ?_
    · rw [hmn]
      exact fun heq => hxn (Option.some.inj heq).symm
    · rw [Score.join?_setJoin _ _ _ _ hlt, if_neg hxn]
  refine ⟨hnr, ?_⟩
  rw [Score.arrive_pending hjoin]
  by_cases hlast : ns.countP (fun a => g.next? a = some n ∧ a ∉ m :: finished) = 0
  · have hall : ∀ a ∈ ns, g.next? a = some n → a ∈ m :: finished := by
      intro a ha han
      have hnot := List.countP_eq_zero.1 hlast a ha
      by_contra hmem
      exact hnot (decide_eq_true ⟨han, hmem⟩)
    rw [if_pos (by omega), max_eq_start hs hm hmn h.sub hall hle heq]
    refine .inr ⟨rfl, hsub, ?_, ?_⟩
    · intro a ha x hax hx
      rcases List.mem_cons.1 hx with rfl | hx
      · exact hall a ha hax
      · exact List.mem_cons_of_mem _ (h.ready a ha x hax hx)
    · intro a ha x hax hx
      rw [List.mem_cons, not_or] at hx
      exact hother _ a ha x hax hx.2 hx.1
  · rw [if_neg (by omega)]
    refine .inl ⟨rfl, hsub, ?_, ?_⟩
    · intro a ha x hax hx
      exact List.mem_cons_of_mem _ (h.ready a ha x hax hx)
    · intro a ha x hax hx
      by_cases hxn : x = n
      · subst hxn
        obtain ⟨b, hb, hbx⟩ := List.countP_pos_iff.1 (Nat.pos_of_ne_zero hlast)
        refine ⟨max r (start m + len m), ?_, ⟨b, hb, of_decide_eq_true hbx⟩, ?_, ?_⟩
        · rw [Score.join?_setJoin _ _ _ _ hlt, if_pos rfl, hcount, Nat.add_sub_cancel]
        · intro c hc hcx
          rcases List.mem_cons.1 hc with rfl | hc
          · exact Nat.le_max_right ..
          · exact Nat.le_trans (hle c hc hcx) (Nat.le_max_left ..)
        · right
          rcases Nat.le_total r (start m + len m) with hrm | hrm
          · exact ⟨m, List.mem_cons_self, hmn, Nat.max_eq_right hrm⟩
          · rw [Nat.max_eq_left hrm]
            rcases heq with rfl | ⟨c, hc, hcx, hr⟩
            · exact ⟨m, List.mem_cons_self, hmn, by omega⟩
            · exact ⟨c, List.mem_cons_of_mem _ hc, hcx, hr⟩
      · exact hother _ a ha x hax hx hxn

end Awaiting

/-! ## The frontier -/

/-- Which nodes are reached: those visited and those that come next. -/
structure Frontier (g : Score) (s : Strand) (ns visited coming : List Nat) : Prop where
  nodup : (visited ++ coming).Nodup
  mem : ∀ n ∈ visited ++ coming, n ∈ ns
  head : s.head ∈ visited ++ coming
  sibling : ∀ m ∈ visited, ∀ n, g.sibling? m = some n → n ∈ visited ++ coming
  reason : ∀ n ∈ visited ++ coming, n = s.head ∨ (∃ m ∈ visited, g.sibling? m = some n) ∨
    ∃ m ∈ ns, g.next? m = some n

namespace Frontier

variable {g : Score} {s : Strand} {ns visited coming : List Nat} {m n : Nat}

theorem initial (hw : Woven g s ns) : Frontier g s ns [] [s.head] where
  nodup := List.nodup_singleton _
  mem n hn := by
    rw [List.mem_singleton.1 hn]
    exact hw.head_mem
  head := List.mem_singleton_self _
  sibling m hm := absurd hm List.not_mem_nil
  reason n hn := .inl (List.mem_singleton.1 hn)

/-- A sibling is not reached before the node that it belongs to is visited. -/
theorem sibling_notMem (h : Frontier g s ns visited (m :: coming)) (hw : Woven g s ns)
    (hmn : g.sibling? m = some n) : n ∉ visited ++ m :: coming := by
  intro hn
  have hm : m ∈ ns := h.mem m (by simp)
  rcases h.reason n hn with rfl | ⟨a, ha, han⟩ | ⟨a, ha, han⟩
  · exact hw.not_link_head hm (.inr hmn)
  · have hmv : m ∈ visited := by
      rw [← hw.alone a (h.mem a (List.mem_append_left _ ha)) m hm n han hmn]
      exact ha
    exact (List.nodup_append'.1 h.nodup).2.2 hmv List.mem_cons_self
  · exact hw.unmixed a ha m hm n han hmn

/-- A node is visited, and its sibling comes next. -/
theorem visit (h : Frontier g s ns visited (m :: coming)) (hw : Woven g s ns) :
    Frontier g s ns (visited ++ [m]) ((g.sibling? m).toList ++ coming) := by
  have hmem : ∀ n, n ∈ visited ++ [m] ++ ((g.sibling? m).toList ++ coming) ↔
      n ∈ visited ++ m :: coming ∨ g.sibling? m = some n := by
    intro n
    simp only [List.mem_append, List.mem_cons, Option.mem_toList]
    tauto
  have hm : m ∈ ns := h.mem m (by simp)
  refine ⟨?_, ?_, (hmem _).2 (.inl h.head), ?_, ?_⟩
  · cases hs : g.sibling? m with
    | none => simpa using h.nodup
    | some n =>
      have hperm : (visited ++ [m] ++ ((some n).toList ++ coming)).Perm
          (n :: (visited ++ m :: coming)) := by
        simp only [Option.toList_some, List.append_assoc, List.singleton_append]
        exact (List.Perm.append_left visited (.swap n m coming)).trans List.perm_middle
      rw [hperm.nodup_iff]
      exact List.nodup_cons.2 ⟨h.sibling_notMem hw hs, h.nodup⟩
  · intro n hn
    rcases (hmem n).1 hn with hn | hn
    · exact h.mem n hn
    · exact (hw.forward m hm n (.inr hn)).1
  · intro a ha n han
    rw [hmem]
    rcases List.mem_append.1 ha with ha | ha
    · exact .inl (h.sibling a ha n han)
    · rw [List.mem_singleton.1 ha] at han
      exact .inr han
  · intro n hn
    rcases (hmem n).1 hn with hn | hn
    · rcases h.reason n hn with hr | ⟨a, ha, han⟩ | hr
      · exact .inl hr
      · exact .inr (.inl ⟨a, List.mem_append_left _ ha, han⟩)
      · exact .inr (.inr hr)
    · exact .inr (.inl ⟨m, by simp, hn⟩)

/-- A successor is reached. -/
theorem join (h : Frontier g s ns visited coming) (hw : Woven g s ns) (hn : n ∉ visited ++ coming)
    (hm : m ∈ ns) (hmn : g.next? m = some n) : Frontier g s ns visited (n :: coming) := by
  have hmem : ∀ a, a ∈ visited ++ n :: coming ↔ a = n ∨ a ∈ visited ++ coming := by
    intro a
    simp only [List.mem_append, List.mem_cons]
    tauto
  refine ⟨?_, ?_, (hmem _).2 (.inr h.head), ?_, ?_⟩
  · rw [List.perm_middle.nodup_iff]
    exact List.nodup_cons.2 ⟨hn, h.nodup⟩
  · intro a ha
    rcases (hmem a).1 ha with rfl | ha
    · exact (hw.forward m hm a (.inl hmn)).1
    · exact h.mem a ha
  · intro a ha b hab
    exact (hmem b).2 (.inr (h.sibling a ha b hab))
  · intro a ha
    rcases (hmem a).1 ha with rfl | ha
    · exact .inr (.inr ⟨m, hm, hmn⟩)
    · exact h.reason a ha

end Frontier

end Jianpu
