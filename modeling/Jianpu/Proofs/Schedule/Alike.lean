import Jianpu.Proofs.Schedule.Performance
import Jianpu.Proofs.Schedule.Rendition
import Jianpu.Proofs.Schedule.Staging

/-!
# Strands that look the same

The pattern of a strand is its shape, with what stands at each node and the modifiers around it. The
names of the nodes are not in it, nor how the strand was made. `Builder.events_of_pattern` says that
nothing else matters to a queue: strands of the same pattern, each in a builder of its own, give the
same events in the same order.

Nor do nodes matter to the others that take no time, as a change of tempo does. Where the pattern of
one strand is that of another without some of these, its nodes are started in the same order as
those of the other, at the same ticks: `Builder.exists_history`.
-/

namespace Jianpu

/-- What stands at a node, and the modifiers around it. -/
abbrev ModifiedContent := Option Content × List Modifier.Kind

namespace Plan

/-- The shape of a strand, with the modifiers around each node, where `outer` is around the
whole. -/
def wrappedShape (l : Valuation) : Plan → List Modifier.Kind → Shape (Nat × List Modifier.Kind)
  | .empty, _ => .nil
  | .node n k, outer => .node (n, l.kinds k ++ outer) .nil
  | .branch p q, outer => (p.wrappedShape l outer).beside (q.wrappedShape l outer)
  | .seq p q slot, outer => p.wrappedShape l outer ++ q.wrappedShape l (l.around slot outer)

theorem map_fst_wrappedShape (l : Valuation) (p : Plan) (outer : List Modifier.Kind) :
    (p.wrappedShape l outer).map Prod.fst = p.shape := by
  induction p generalizing outer with
  | empty | node => rfl
  | branch p q ihp ihq => rw [wrappedShape, Shape.map_beside, ihp, ihq, shape]
  | seq p q slot ihp ihq => rw [wrappedShape, Shape.map_append, ihp, ihq, shape]

theorem toList_wrappedShape (l : Valuation) (p : Plan) (outer : List Modifier.Kind) :
    (p.wrappedShape l outer).toList = p.wraps l.kinds outer := by
  induction p generalizing outer with
  | empty | node => rfl
  | branch p q ihp ihq => rw [wrappedShape, Shape.toList_beside, ihp, ihq, wraps]
  | seq p q slot ihp ihq =>
    rw [wrappedShape, Shape.toList_append, ihp, ihq, wraps_seq]
    rfl

/-- The shape of a strand, with what stands at each node and the modifiers around it. -/
def pattern (l : Valuation) (p : Plan) (outer : List Modifier.Kind) : Shape ModifiedContent :=
  (p.wrappedShape l outer).map fun x => (l.content x.1, x.2)

section Pattern

variable (l : Valuation) (p q : Plan) (outer : List Modifier.Kind)

@[simp] theorem pattern_empty : empty.pattern l outer = .nil := rfl

@[simp] theorem pattern_node (n k : Nat) :
    (node n k).pattern l outer = .node (l.content n, l.kinds k ++ outer) .nil := rfl

theorem pattern_branch :
    (branch p q).pattern l outer = (p.pattern l outer).beside (q.pattern l outer) := by
  rw [pattern, wrappedShape, Shape.map_beside]
  rfl

theorem pattern_seq (slot : Option Nat) : (seq p q slot).pattern l outer =
    p.pattern l outer ++ q.pattern l (l.around slot outer) := by
  rw [pattern, wrappedShape, Shape.map_append]
  rfl

theorem pattern_of_nodes_eq_nil {p : Plan} (h : p.nodes = []) : p.pattern l outer = .nil := by
  have hnil : (p.wrappedShape l outer).map Prod.fst = .nil := by
    rw [map_fst_wrappedShape, shape_of_nodes_eq_nil h]
  rw [pattern, Shape.map_eq_nil.1 hnil]
  rfl

theorem length_pattern : (p.pattern l outer).toList.length = p.nodes.length := by
  rw [pattern, Shape.toList_map, List.length_map, toList_wrappedShape,
    ← map_fst_wraps l.kinds p outer, List.length_map]

end Pattern

theorem tight_wrappedShape (l : Valuation) (p : Plan) (outer : List Modifier.Kind) :
    (p.wrappedShape l outer).Tight := by
  induction p generalizing outer with
  | empty | node => trivial
  | branch p q ihp ihq => exact (ihp outer).beside (ihq outer)
  | seq p q slot ihp ihq => exact (ihp outer).append (ihq _)

end Plan

/-- The nodes of a shape are those of another one that looks the same, under other names. -/
theorem Shape.exists_rename {l l' : Valuation} {v w : Shape (Nat × List Modifier.Kind)}
    (hnodup : (w.toList.map Prod.fst).Nodup)
    (h : (v.map fun x => (l.content x.1, x.2)) = w.map fun x => (l'.content x.1, x.2)) :
    ∃ f : Nat → Nat, v.map Prod.fst = (w.map Prod.fst).map f ∧ ∀ x ∈ w.toList,
      (f x.1, x.2) ∈ v.toList ∧ l.content (f x.1) = l'.content x.1 := by
  obtain ⟨z, rfl, rfl, hz⟩ := Shape.exists_zip h
  have hkeys : ((z.toList.map fun x => (x.2.1, x.1.1)).map Prod.fst).Nodup := by
    rw [toList_map, List.map_map] at hnodup
    rwa [List.map_map]
  obtain ⟨f, hf⟩ := exists_eq_of_nodup hkeys
  have hname : ∀ x ∈ z.toList, f x.2.1 = x.1.1 := fun x hx => hf _ (List.mem_map_of_mem hx)
  refine ⟨f, ?_, fun y hy => ?_⟩
  · rw [map_map, map_map, map_map]
    exact map_congr fun x hx => (hname x hx).symm
  · rw [toList_map] at hy
    obtain ⟨x, hx, rfl⟩ := List.mem_map.1 hy
    obtain ⟨hcontent, hkinds⟩ := Prod.mk.inj (hz x hx)
    rw [hname x hx, toList_map, ← hkinds]
    exact ⟨List.mem_map_of_mem hx, hcontent⟩

/-! ## Nodes that are left out -/

namespace Score

variable {g : Score} {keep : Option Content → Bool} {n : Nat}

theorem ticksOf_of_not_keep (hmeta : ∀ c, keep (some c) = false → c.isMeta = true)
    (h : keep (g.content? n) = false) (division : Nat) : g.ticksOf division n = 0 := by
  unfold ticksOf
  cases hx : g.nodes[n]? with
  | none => rfl
  | some x =>
    rw [content?, hx] at h
    exact if_pos (hmeta _ h)

/-- Only a note lasts. -/
theorem keep_of_lasts (hmeta : ∀ c, keep (some c) = false → c.isMeta = true) {ns : List Nat}
    {division : Nat} {start : Nat → Nat} (h : (g.cast ns division start).lasts n = true) :
    keep (g.content? n) = true := by
  by_contra hkeep
  have hlasts : (g.cuesAt division n (start n)).any (·.2) = true := h
  cases hx : g.nodes[n]? with
  | none => simp [cuesAt, isNote, isMeta, hx] at hlasts
  | some x =>
    rw [content?, hx] at hkeep
    have hcontent := hmeta x.content (by simpa using hkeep)
    rw [cuesAt_of_some hx] at hlasts
    cases hc : x.content <;> simp [hc, Content.isMeta] at hlasts hcontent

end Score

namespace Builder

variable {b b' : Builder} {h h' : Ownership} {i i' : Nat} {s s' : Strand}
  {keep : Option Content → Bool} {f : Nat → Nat}

theorem Sound.givesOut_performance (h : b.Sound) (i division channel : Nat) :
    (Queue.ofScore b.score ((b.line i).strand.map (·.head)) division channel).GivesOut
      (Queue.performance b.score ((b.line i).strand.map (·.head)) division channel) := by
  obtain ⟨start, ht⟩ := h.exists_timing i division
  cases hs : (b.line i).strand with
  | none =>
    rw [Option.map_none, Queue.performance_none]
    exact ⟨rfl, rfl⟩
  | some s =>
    rw [hs] at ht
    exact Queue.givesOut_performance (h.woven hs) (h.starts hs ht) channel

/-- The nodes on a line are started as from the stage of its shape. -/
theorem Sound.exists_stage (hb : b.Sound) (hs : (b.line i).strand = some s) {division : Nat}
    {start : Nat → Nat}
    (hstart : ∀ x ∈ (b.line i).plan.onsets (b.score.ticksOf division) 0, start x.1 = x.2)
    (channel : Nat) :
    ∃ t, Relation.ReflTransGen (Stage.Step (b.score.cast (b.line i).nodes division start))
        { shape := (b.line i).plan.shape } t ∧ t.Halted ∧
      t.visited = (Queue.history b.score (some s.head) division channel).map (·.node) := by
  have hnodes : (b.line i).nodes = (b.line i).plan.shape.toList := (Plan.toList_shape _).symm
  have hw := hb.woven hs
  have hstarts : Starts b.score s.head (b.line i).nodes (b.score.ticksOf division) start 0 :=
    (hb.timed hs _ start 0 hstart).toStarts
  rw [hnodes] at hw hstarts ⊢
  exact Queue.exists_stage hw (hb.drawn hs) (Plan.tight_shape _) hstarts channel

/-- The node is not left out. -/
def keeps (b : Builder) (keep : Option Content → Bool) (n : Nat) : Bool := keep (b.score.content? n)

/-- The strand on a line of `b'` is that of a line of `b` without some of its nodes, under other
names. -/
structure Omits (b b' : Builder) (i i' : Nat) (keep : Option Content → Bool) (f : Nat → Nat) :
    Prop where
  shape : (b'.line i').plan.shape = ((b.line i).plan.shape.erase (b.keeps keep)).map f
  content? : ∀ n ∈ (b.line i).nodes.filter (b.keeps keep),
    b'.score.content? (f n) = b.score.content? n
  ticks : ∀ division, ∀ n ∈ (b.line i).nodes.filter (b.keeps keep),
    b'.score.ticksOf division (f n) = b.score.ticksOf division n
  sounds : ∀ division channel, ∀ n ∈ (b.line i).nodes.filter (b.keeps keep), ∀ t,
    b'.score.soundsOf division channel (f n) t = b.score.soundsOf division channel n t

theorem exists_omits (hb : b.Sound) (hb' : b'.Sound) (hh : b.Nested h) (hh' : b'.Nested h')
    (hs : (b.line i).strand = some s) (hs' : (b'.line i').strand = some s')
    (hpattern : (b'.line i').plan.pattern b'.valuation [] =
      ((b.line i).plan.pattern b.valuation []).erase fun x => keep x.1) :
    ∃ f, b.Omits b' i i' keep f := by
  have hkept : ((b.line i).plan.wrappedShape b.valuation []).map Prod.fst = (b.line i).plan.shape :=
    Plan.map_fst_wrappedShape ..
  rw [Plan.pattern, Plan.pattern, Shape.erase_map] at hpattern
  have hnodup : ((((b.line i).plan.wrappedShape b.valuation []).erase
      (b.keeps keep ∘ Prod.fst)).toList.map
      Prod.fst).Nodup := by
    rw [← Shape.toList_map, ← Shape.erase_map, hkept, Shape.toList_erase, Plan.toList_shape]
    exact (hb.woven hs).nodup.filter _
  obtain ⟨f, hshape, hwraps⟩ := Shape.exists_rename hnodup hpattern
  -- what a node brings depends on what stands there and on what is around it
  have hagree : ∀ division channel, ∀ n ∈ (b.line i).nodes.filter (b.keeps keep),
      b'.score.content? (f n) = b.score.content? n ∧
      b'.score.ticksOf division (f n) = b.score.ticksOf division n ∧ ∀ t,
      b'.score.soundsOf division channel (f n) t = b.score.soundsOf division channel n t := by
    intro division channel n hn
    obtain ⟨hn, hkeep⟩ := List.mem_filter.1 hn
    rw [Line.nodes, ← Plan.map_fst_wraps b.kinds _ []] at hn
    obtain ⟨x, hx, rfl⟩ := List.mem_map.1 hn
    have hmem : x ∈ (((b.line i).plan.wrappedShape b.valuation []).erase
        (b.keeps keep ∘ Prod.fst)).toList := by
      rw [Shape.toList_erase, Plan.toList_wrappedShape]
      exact List.mem_filter.2 ⟨hx, hkeep⟩
    obtain ⟨hmem, hcontent⟩ := hwraps x hmem
    rw [Plan.toList_wrappedShape] at hmem
    obtain ⟨c, hc, hticks, hsounds⟩ := hh.agrees hb hs division channel x hx
    obtain ⟨c', hc', hticks', hsounds'⟩ := hh'.agrees hb' hs' division channel _ hmem
    obtain rfl : c' = c := Option.some.inj (hc'.symm.trans (hcontent.trans hc))
    exact ⟨hcontent, hticks'.trans hticks.symm, fun t => (hsounds' t).trans (hsounds t).symm⟩
  refine ⟨f, ?_, fun n hn => (hagree 0 0 n hn).1, fun division n hn => (hagree division 0 n hn).2.1,
    fun division channel n hn => (hagree division channel n hn).2.2⟩
  rw [← Plan.map_fst_wrappedShape b'.valuation _ [], hshape, ← Shape.erase_map, hkept]

namespace Omits

theorem nodes (hf : b.Omits b' i i' keep f) :
    (b'.line i').nodes = ((b.line i).nodes.filter (b.keeps keep)).map f := by
  rw [Line.nodes, ← Plan.toList_shape, hf.shape, Shape.toList_map, Shape.toList_erase,
    Plan.toList_shape]

/-- The start ticks are the same. -/
theorem start_eq (hf : b.Omits b' i i' keep f)
    (hmeta : ∀ c, keep (some c) = false → c.isMeta = true) {division : Nat}
    {start start' : Nat → Nat}
    (hstart : ∀ x ∈ (b.line i).plan.onsets (b.score.ticksOf division) 0, start x.1 = x.2)
    (hstart' : ∀ x ∈ (b'.line i').plan.onsets (b'.score.ticksOf division) 0, start' x.1 = x.2) :
    ∀ n ∈ (b.line i).nodes.filter (b.keeps keep), start' (f n) = start n := by
  intro n hn
  obtain ⟨hn, hkeep⟩ := List.mem_filter.1 hn
  rw [Line.nodes, ← Plan.map_fst_onsets (b.score.ticksOf division) _ 0] at hn
  obtain ⟨x, hx, rfl⟩ := List.mem_map.1 hn
  have hticks : ∀ n ∈ ((b.line i).plan.shape.erase (b.keeps keep)).toList,
      b'.score.ticksOf division (f n) = b.score.ticksOf division n := by
    intro n hn
    rw [Shape.toList_erase, Plan.toList_shape] at hn
    exact hf.ticks division n hn
  have hnone : ∀ n ∈ (b.line i).plan.shape.toList, b.keeps keep n = false →
      b.score.ticksOf division n = 0 := fun n _ hn => Score.ticksOf_of_not_keep hmeta hn division
  rw [hstart x hx]
  apply hstart' (f x.1, x.2)
  rw [← Plan.onsets_shape, hf.shape, Shape.onsets_map hticks, Shape.onsets_erase hnone,
    Plan.onsets_shape]
  exact List.mem_map.2 ⟨x, List.mem_filter.2 ⟨hx, hkeep⟩, rfl⟩

/-- The nodes are started in the same order. -/
theorem map_node_history (hf : b.Omits b' i i' keep f) (hb : b.Sound) (hb' : b'.Sound)
    (hs : (b.line i).strand = some s) (hs' : (b'.line i').strand = some s')
    (hmeta : ∀ c, keep (some c) = false → c.isMeta = true) {division : Nat}
    {start start' : Nat → Nat}
    (hstart : ∀ x ∈ (b.line i).plan.onsets (b.score.ticksOf division) 0, start x.1 = x.2)
    (hstart' : ∀ x ∈ (b'.line i').plan.onsets (b'.score.ticksOf division) 0, start' x.1 = x.2)
    (channel : Nat) :
    (Queue.history b'.score (some s'.head) division channel).map (·.node) =
      (((Queue.history b.score (some s.head) division channel).map (·.node)).filter
        (b.keeps keep)).map f := by
  obtain ⟨t, hrun, ht, hvisited⟩ := hb.exists_stage hs hstart channel
  obtain ⟨t', hrun', ht', hvisited'⟩ := hb'.exists_stage hs' hstart' channel
  have hkept : ((b.line i).plan.shape.erase (b.keeps keep)).toList =
      (b.line i).nodes.filter (b.keeps keep) := by rw [Shape.toList_erase, Plan.toList_shape]
  have hnodup := (hb'.woven hs').nodup
  rw [hf.nodes] at hnodup
  rw [← hvisited, ← hvisited']
  refine Stage.visited_erase (b.score.endsOnce_cast _ _ _) (Plan.tight_shape _) ?_
    (fun n => Score.keep_of_lasts hmeta) ?_ ?_ hrun ht (hf.shape ▸ hrun') ht'
  · rw [Plan.toList_shape]
    exact (hb.woven hs).nodup
  · rw [hkept]
    exact fun m hm n hn => List.inj_on_of_nodup_map hnodup hm hn
  · rw [hkept]
    intro n hn
    show b'.score.cuesAt division (f n) (start' (f n)) = b.score.cuesAt division n (start n)
    rw [hf.start_eq hmeta hstart hstart' n hn]
    exact Score.cuesAt_congr (hf.content? n hn) (hf.ticks division n hn) _

/-- The history of a strand is that of the other one without the nodes that are left out. -/
theorem history (hf : b.Omits b' i i' keep f) (hb : b.Sound) (hb' : b'.Sound)
    (hs : (b.line i).strand = some s) (hs' : (b'.line i').strand = some s')
    (hmeta : ∀ c, keep (some c) = false → c.isMeta = true) (division channel : Nat) :
    Queue.history b'.score (some s'.head) division channel =
      ((Queue.history b.score (some s.head) division channel).filter
        fun v => b.keeps keep v.node).map (Visit.rename f) := by
  obtain ⟨start, hstart⟩ :=
    (b.line i).plan.exists_start (b.score.ticksOf division) 0 (hb.woven hs).nodup
  obtain ⟨start', hstart'⟩ :=
    (b'.line i').plan.exists_start (b'.score.ticksOf division) 0 (hb'.woven hs').nodup
  have hperform := Queue.performs (hb.woven hs) (hb.timed hs _ start 0 hstart).toStarts channel
  have hperform' :=
    Queue.performs (hb'.woven hs') (hb'.timed hs' _ start' 0 hstart').toStarts channel
  have hnodes := hf.map_node_history hb hb' hs hs' hmeta hstart hstart' channel
  conv_rhs => rw [hperform.history_eq, List.filter_map, List.map_map]
  rw [hperform'.history_eq, hnodes, List.map_map]
  refine List.map_congr_left fun n hn => ?_
  obtain ⟨hn, hkeep⟩ := List.mem_filter.1 hn
  have hmem := List.mem_filter.2 ⟨hperform.nodes.mem_iff.1 hn, hkeep⟩
  show Visit.mk (f n) _ _ = Visit.mk (f n) _ _
  rw [hf.start_eq hmeta hstart hstart' n hmem, hf.sounds division channel n hmem]

end Omits

/-- **Nodes that take no time do not matter to the others.** A strand whose pattern is that of
another one without some of them is played as that one, without what they bring. -/
theorem exists_history (hb : b.Sound) (hb' : b'.Sound) (hh : b.Nested h) (hh' : b'.Nested h')
    (hmeta : ∀ c, keep (some c) = false → c.isMeta = true)
    (hpattern : (b'.line i').plan.pattern b'.valuation [] =
      ((b.line i).plan.pattern b.valuation []).erase fun x => keep x.1) (division channel : Nat) :
    ∃ f, Queue.history b'.score ((b'.line i').strand.map (·.head)) division channel =
      ((Queue.history b.score ((b.line i).strand.map (·.head)) division channel).filter
        fun v => b.keeps keep v.node).map (Visit.rename f) := by
  have hlength : (b'.line i').nodes.length = ((b.line i).nodes.filter (b.keeps keep)).length := by
    rw [Line.nodes, ← Plan.length_pattern b'.valuation _ [], hpattern, Shape.toList_erase,
      Plan.pattern, Shape.toList_map, List.filter_map, List.length_map, Plan.toList_wrappedShape,
      Line.nodes, ← Plan.map_fst_wraps b.kinds _ [], List.filter_map, List.length_map]
    rfl
  obtain ⟨start, ht⟩ := hb.exists_timing i division
  have hperform := hb.performs ht channel
  cases hs' : (b'.line i').strand with
  | none =>
    -- every node was left out
    have hnil := hb'.line i'
    rw [Line.Sound, hs'] at hnil
    rw [hnil, List.length_nil] at hlength
    have hnone := List.filter_eq_nil_iff.1 (List.eq_nil_of_length_eq_zero hlength.symm)
    refine ⟨id, ?_⟩
    rw [List.filter_eq_nil_iff.2 fun v hv =>
      hnone v.node (hperform.nodes.mem_iff.1 (List.mem_map_of_mem hv))]
    rfl
  | some s' =>
    have hpos := List.length_pos_of_mem (hb'.woven hs').head_mem
    rw [hlength] at hpos
    obtain ⟨s, hs⟩ := hb.exists_strand (List.mem_filter.1 (List.getElem_mem hpos)).1
    obtain ⟨f, hf⟩ := exists_omits hb hb' hh hh' hs hs' hpattern
    rw [hs]
    exact ⟨f, hf.history hb hb' hs hs' hmeta division channel⟩

/-- **A queue depends on the pattern of its strand only.** -/
theorem events_of_pattern (hb : b.Sound) (hb' : b'.Sound) (hh : b.Nested h) (hh' : b'.Nested h')
    (hpattern : (b.line i).plan.pattern b.valuation [] = (b'.line i').plan.pattern b'.valuation [])
    (division channel : Nat) :
    (Queue.ofScore b.score ((b.line i).strand.map (·.head)) division channel).events =
      (Queue.ofScore b'.score ((b'.line i').strand.map (·.head)) division channel).events := by
  have hwhole : ((b'.line i').plan.pattern b'.valuation []).erase (fun _ => true) =
      (b'.line i').plan.pattern b'.valuation [] :=
    Shape.erase_eq_self ((Plan.tight_wrappedShape ..).map _) fun _ _ => rfl
  obtain ⟨f, hhistory⟩ : ∃ f, Queue.history b.score _ division channel =
      ((Queue.history b'.score _ division channel).filter
        fun v => b'.keeps (fun _ => true) v.node).map (Visit.rename f) :=
    exists_history hb' hb hh' hh (by simp) (hpattern.trans hwhole.symm) division channel
  have hkept : ∀ v : Visit, b'.keeps (fun _ => true) v.node = true := fun _ => rfl
  obtain ⟨start, hstart⟩ := hb.exists_timing i division
  obtain ⟨start', hstart'⟩ := hb'.exists_timing i' division
  rw [(hb.performs hstart channel).events, (hb'.performs hstart' channel).events, hhistory,
    List.filter_eq_self.2 fun v _ => hkept v, List.flatMap_map]
  rfl

end Builder

end Jianpu
