import Jianpu.Proofs.Schedule.Play
import Jianpu.Proofs.Score.Chain

/-!
# What a queue gives out, node by node

`Queue.performance` are the events that a queue for a strand gives out, in order, each with its tick
and with the node that brought it. Where the cast of one strand is a copy within that of another,
the larger strand starts the nodes of the smaller one in the same order (`Queue.history_copy`), so
that its performance without the other nodes is that of the smaller strand alone.
-/

namespace Jianpu

/-- There is one place to cut a list where all that is wanted comes after all that is not. -/
theorem append_inj_of_filter {α : Type} (p : α → Bool) {a b c d : List α} (h : a ++ b = c ++ d)
    (ha : ∀ x ∈ a, p x = false) (hb : ∀ x ∈ b, p x = true) (hc : ∀ x ∈ c, p x = false)
    (hd : ∀ x ∈ d, p x = true) : a = c ∧ b = d := by
  have hright := congrArg (List.filter p) h
  rw [List.filter_append, List.filter_append, List.filter_eq_nil_iff.2 (by simpa using ha),
    List.filter_eq_self.2 hb, List.filter_eq_nil_iff.2 (by simpa using hc),
    List.filter_eq_self.2 hd] at hright
  have hbd : b = d := hright
  exact ⟨List.append_cancel_right (hbd ▸ h), hbd⟩

/-- What is left of a stable sort is the stable sort of what is left. -/
theorem filter_mergeSort {α : Type} {le : α → α → Bool} (htrans : ∀ a b c, le a b → le b c → le a c)
    (htotal : ∀ a b, (le a b || le b a) = true) (p : α → Bool) (l : List α) :
    (l.mergeSort le).filter p = (l.filter p).mergeSort le := by
  have hafter : ∀ (l : List α) {a : α} {before after : List α},
      l.mergeSort le = before ++ a :: after → ∀ b ∈ after, le a b := by
    intro l a before after hsort b hb
    have hsorted := List.pairwise_mergeSort htrans htotal l
    rw [hsort] at hsorted
    exact List.rel_of_pairwise_cons (List.pairwise_append.1 hsorted).2.1 hb
  induction l with
  | nil => simp
  | cons a l ih =>
    obtain ⟨before, after, hsort, hrest, hbefore⟩ := List.mergeSort_cons htrans htotal a l
    by_cases ha : p a
    · obtain ⟨before', after', hsort', hrest', hbefore'⟩ :=
        List.mergeSort_cons htrans htotal a (l.filter p)
      have hparts : before.filter p ++ after.filter p = before' ++ after' := by
        rw [← List.filter_append, ← hrest, ih, hrest']
      -- `a` stands after all that is smaller, in both lists
      obtain ⟨hfst, hsnd⟩ := append_inj_of_filter (le a ·) hparts
        (fun b hb => by simpa using hbefore b (List.mem_filter.1 hb).1)
        (fun b hb => hafter _ hsort b (List.mem_filter.1 hb).1)
        (fun b hb => by simpa using hbefore' b hb) (hafter _ hsort')
      rw [hsort, List.filter_append, List.filter_cons_of_pos ha, List.filter_cons_of_pos ha, hsort',
        hfst, hsnd]
    · rw [hsort, List.filter_append, List.filter_cons_of_neg ha, List.filter_cons_of_neg ha,
        ← List.filter_append, ← hrest, ih]

/-- The ticks of events depend on what a node is and how long it takes. -/
theorem Score.cuesAt_congr {g g' : Score} {division m m' : Nat}
    (hcontent : g'.content? m' = g.content? m)
    (hticks : g'.ticksOf division m' = g.ticksOf division m) (t : Nat) :
    g'.cuesAt division m' t = g.cuesAt division m t := by
  have hkind : g'.isNote m' = g.isNote m ∧ g'.isMeta m' = g.isMeta m := by
    unfold isNote isMeta
    unfold content? at hcontent
    cases hx : g.nodes[m]? with
    | none =>
      rw [hx] at hcontent
      rw [Option.map_eq_none_iff.1 hcontent]
      exact ⟨rfl, rfl⟩
    | some x =>
      rw [hx] at hcontent
      obtain ⟨y, hy, hcontent⟩ := Option.map_eq_some_iff.1 hcontent
      rw [hy, Option.any_some, Option.any_some, Option.any_some, Option.any_some, hcontent]
      exact ⟨rfl, rfl⟩
  rw [cuesAt, cuesAt, hkind.1, hkind.2, hticks]

namespace Visit

/-- The same visit of a node of another name. -/
def rename (f : Nat → Nat) (v : Visit) : Visit := { v with node := f v.node }

/-- The events of visits, each with its tick and after the node that brought it. -/
def labelled (l : List Visit) : List (Nat × Nat × Event) :=
  l.flatMap fun v => v.events.map (v.node, ·)

theorem map_snd_labelled (l : List Visit) : (labelled l).map (·.2) = l.flatMap (·.events) := by
  simp [labelled, List.map_flatMap]

theorem labelled_rename (f : Nat → Nat) (l : List Visit) :
    labelled (l.map (rename f)) = (labelled l).map fun x => (f x.1, x.2) := by
  simp [labelled, rename, List.map_flatMap, List.flatMap_map, Function.comp_def]

theorem filter_labelled (p : Nat → Bool) (l : List Visit) :
    (labelled l).filter (fun x => p x.1) = labelled (l.filter fun v => p v.node) := by
  induction l with
  | nil => rfl
  | cons v l ih =>
    rw [labelled, List.flatMap_cons, List.filter_append, ← labelled, ih, List.filter_map]
    cases hp : p v.node <;> simp [labelled, hp, Function.comp_def]

end Visit

namespace Queue

variable {g g' : Score} {s s' : Strand} {ns ns' : List Nat} {division channel : Nat}
  {start start' f : Nat → Nat}

/-- The events that a queue for a strand gives out, in order, each with its tick and after the node
that brought it. -/
def performance (g : Score) (head : Option Nat) (division channel : Nat) :
    List (Nat × Nat × Event) :=
  (Visit.labelled (history g head division channel)).mergeSort fun a b => a.2.1 ≤ b.2.1

theorem map_snd_performance (g : Score) (head : Option Nat) (division channel : Nat) :
    (performance g head division channel).map (·.2) =
      Timeline.sort ((history g head division channel).flatMap (·.events)) := by
  rw [← Visit.map_snd_labelled]
  exact List.map_mergeSort fun _ _ _ _ => rfl

/-- A queue gives out events at their ticks, here each after the node that brought it. -/
structure GivesOut (q : Queue) (l : List (Nat × Nat × Event)) : Prop where
  emitted : q.emitted = l.map (·.2)
  events : q.events = Timeline.deltas 0 (l.map (·.2))

theorem givesOut_performance (hw : Woven g s ns)
    (hs : Starts g s.head ns (g.ticksOf division) start 0) (channel : Nat) :
    (ofScore g (some s.head) division channel).GivesOut
      (performance g (some s.head) division channel) := by
  constructor
  · rw [map_snd_performance, emitted_eq hw hs channel]
  · rw [map_snd_performance, (performs hw hs channel).events]

theorem performance_none (g : Score) (division channel : Nat) :
    performance g none division channel = [] := List.mergeSort_nil

/-- Only the nodes of the strand bring events. -/
theorem Performs.mem_of_mem_performance {head : Option Nat}
    (h : Performs g head ns division channel start) {x : Nat × Nat × Event}
    (hx : x ∈ performance g head division channel) : x.1 ∈ ns := by
  rw [performance, (List.mergeSort_perm ..).mem_iff] at hx
  obtain ⟨v, hv, hx⟩ := List.mem_flatMap.1 hx
  obtain ⟨e, -, rfl⟩ := List.mem_map.1 hx
  exact h.nodes.mem_iff.1 (List.mem_map_of_mem hv)

/-- The visits of a performance are known from its nodes. -/
theorem Performs.history_eq {head : Option Nat} (h : Performs g head ns division channel start) :
    history g head division channel = ((history g head division channel).map (·.node)).map
      fun n => ⟨n, start n, g.soundsOf division channel n (start n)⟩ := by
  rw [List.map_map]
  symm
  conv_rhs => rw [← List.map_id (history g head division channel)]
  refine List.map_congr_left fun v hv => ?_
  obtain ⟨htick, hevents⟩ := h.visits v hv
  show Visit.mk v.node (start v.node) _ = v
  rw [← hevents, ← htick]

/-- The nodes of a copy are started in the same order as alone. -/
theorem nodes_copy (hw : Woven g s ns) (hs : Starts g s.head ns (g.ticksOf division) start 0)
    (hw' : Woven g' s' ns') (hs' : Starts g' s'.head ns' (g'.ticksOf division) start' 0)
    (hcopy : (g'.cast ns' division start').Copy (g.cast ns division start) f s'.head)
    (hfirst : ∀ n ∈ ns', f n = s.head → n = s'.head) (channel : Nat) :
    ((history g (some s.head) division channel).map (·.node)).filter
        ((g'.cast ns' division start').owns f) =
      ((history g' (some s'.head) division channel).map (·.node)).map f := by
  obtain ⟨t, hrun, ht, hvisited⟩ := exists_scene hw hs channel
  obtain ⟨t', hrun', ht', hvisited'⟩ := exists_scene hw' hs' channel
  have hhead : f s'.head ∈ t.visited := by
    rw [hvisited, (performs hw hs channel).nodes.mem_iff]
    exact hcopy.sub _ hw'.head_mem
  obtain ⟨t₁, hrun₁, ht₁, hfilter⟩ := hcopy.visited hrun ht hhead hfirst
  have hsteps : Relation.ReflTransGen (g'.cast ns' division start').Step _ t' :=
    hrun'.lift id fun _ _ h => h.1
  have heq : t₁ = t' := Cast.halt_unique hrun₁ hsteps ht₁ ht'
  rw [← hvisited, hfilter, heq, hvisited']

/-- **The visits of a copy are those of the strand alone.** -/
theorem history_copy (hw : Woven g s ns) (hs : Starts g s.head ns (g.ticksOf division) start 0)
    (hw' : Woven g' s' ns') (hs' : Starts g' s'.head ns' (g'.ticksOf division) start' 0)
    (hcopy : (g'.cast ns' division start').Copy (g.cast ns division start) f s'.head)
    (hfirst : ∀ n ∈ ns', f n = s.head → n = s'.head)
    (hstart : ∀ n ∈ ns', start (f n) = start' n)
    (hsounds : ∀ n ∈ ns', ∀ t,
      g.soundsOf division channel (f n) t = g'.soundsOf division channel n t) :
    (history g (some s.head) division channel).filter
        (fun v => (g'.cast ns' division start').owns f v.node) =
      (history g' (some s'.head) division channel).map (Visit.rename f) := by
  have hperform := performs hw hs channel
  have hperform' := performs hw' hs' channel
  rw [hperform.history_eq, hperform'.history_eq, List.filter_map, List.map_map]
  show List.map _ (List.filter ((g'.cast ns' division start').owns f) _) = _
  rw [nodes_copy hw hs hw' hs' hcopy hfirst channel, List.map_map]
  refine List.map_congr_left fun n hn => ?_
  have hmem := hperform'.nodes.mem_iff.1 hn
  show Visit.mk (f n) _ _ = Visit.mk (f n) _ _
  rw [hstart n hmem, hsounds n hmem]

/-- The performance of a copy is that of the strand alone. -/
theorem performance_copy (hw : Woven g s ns) (hs : Starts g s.head ns (g.ticksOf division) start 0)
    (hw' : Woven g' s' ns') (hs' : Starts g' s'.head ns' (g'.ticksOf division) start' 0)
    (hcopy : (g'.cast ns' division start').Copy (g.cast ns division start) f s'.head)
    (hfirst : ∀ n ∈ ns', f n = s.head → n = s'.head)
    (hstart : ∀ n ∈ ns', start (f n) = start' n)
    (hsounds : ∀ n ∈ ns', ∀ t,
      g.soundsOf division channel (f n) t = g'.soundsOf division channel n t) :
    (performance g (some s.head) division channel).filter
        (fun x => (g'.cast ns' division start').owns f x.1) =
      (performance g' (some s'.head) division channel).map fun x => (f x.1, x.2) := by
  have hhistory := history_copy hw hs hw' hs' hcopy hfirst hstart hsounds
  rw [performance, filter_mergeSort (by simp; omega) (by simp; omega), Visit.filter_labelled,
    hhistory, Visit.labelled_rename]
  symm
  exact List.map_mergeSort fun _ _ _ _ => rfl

end Queue

end Jianpu
