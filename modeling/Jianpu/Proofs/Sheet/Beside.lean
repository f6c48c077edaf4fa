import Jianpu.Proofs.Schedule.Performance
import Jianpu.Proofs.Sheet.BuilderGrowth
import Mathlib.Data.List.Induction

/-!
# Strands beside each other

`Builder.Gathers` says what putting the strands of several lines beside each other changes: the
links within each of them stay, and the last sibling of one leads to the head of another. So a queue
for all of them gives out, of each, what a queue for that one alone gives out, in the same order and
at the same ticks (`Builder.Gathers.filter_performance`).
-/

namespace Jianpu

/-- What belongs to plans that are put beside each other belongs to one of them. -/
theorem Plan.mem_foldl_branch {α : Type} {F : Plan → List α}
    (hF : ∀ p q, F (.branch p q) = F p ++ F q) {ps : List Plan} {q : Plan} {x : α} :
    x ∈ F (ps.foldl .branch q) ↔ x ∈ F q ∨ ∃ p ∈ ps, x ∈ F p := by
  induction ps generalizing q with
  | nil => simp
  | cons p ps ih => simp [ih, hF, or_assoc]

/-- The ticks that other nodes take do not matter. -/
theorem Starts.congr_len {g : Score} {head t : Nat} {ns : List Nat} {len len' start : Nat → Nat}
    (h : Starts g head ns len start t) (hlen : ∀ n ∈ ns, len' n = len n) :
    Starts g head ns len' start t where
  head := h.head
  sibling := h.sibling
  next_le a ha b hab := by
    rw [hlen a ha]
    exact h.next_le a ha b hab
  next_eq a ha b hab := by
    obtain ⟨c, hc, hcb, heq⟩ := h.next_eq a ha b hab
    exact ⟨c, hc, hcb, by rw [hlen c hc, heq]⟩

/-! ## Links -/

/-- The strands `ss` of a score are put beside each other, which makes `s`. -/
structure Abreast (g g' : Score) (ss : List Strand) (s : Option Strand) : Prop where
  next? : ∀ m, g'.next? m = g.next? m
  /-- The last sibling of a strand may lead to the head of another one. -/
  sibling? : ∀ m, g'.sibling? m = g.sibling? m ∨ ∃ x ∈ ss, ∃ y ∈ ss, x.head ≠ y.head ∧
    m = x.lastSibling ∧ g'.sibling? m = some y.head
  ends : ∀ t ∈ s, ∃ x ∈ ss, ∃ y ∈ ss, t.head = x.head ∧ t.lastSibling = y.lastSibling

namespace Abreast

variable {g g' : Score} {ss : List Strand} {s : Option Strand}

theorem nil (g : Score) : Abreast g g [] none := by
  constructor <;> simp

theorem branch (h : Abreast g g' ss s) (hw : ∀ t ∈ s, ∃ ns, Woven g' t ns) {o : Option Strand}
    (hne : ∀ x ∈ ss, ∀ y ∈ o, x.head ≠ y.head) :
    Abreast g (Strand.branch s o g').2 (ss ++ o.toList) (Strand.branch s o g').1 := by
  have hsub : ss ⊆ ss ++ o.toList := List.subset_append_left ..
  have hold : ∀ m, g'.sibling? m = g.sibling? m ∨ ∃ x ∈ ss ++ o.toList, ∃ y ∈ ss ++ o.toList,
      x.head ≠ y.head ∧ m = x.lastSibling ∧ g'.sibling? m = some y.head := by
    intro m
    refine (h.sibling? m).imp_right ?_
    rintro ⟨x, hx, y, hy, hxy⟩
    exact ⟨x, hsub hx, y, hsub hy, hxy⟩
  cases o with
  | none =>
    have hnone : Strand.branch s none g' = (s, g') := by cases s <;> rfl
    rw [hnone, Option.toList_none, List.append_nil]
    exact h
  | some o =>
    have ho : o ∈ ss ++ (some o).toList := by simp
    cases s with
    | none => exact ⟨h.next?, hold, by rintro t ⟨⟩; exact ⟨o, ho, o, ho, rfl, rfl⟩⟩
    | some s =>
      obtain ⟨x, hx, z, hz, hhead, hlast⟩ := h.ends s rfl
      obtain ⟨ns, hs⟩ := hw s rfl
      have hb := Line.branched_branch hs o
      refine ⟨fun m => (hb.next? m).trans (h.next? m), fun m => ?_, ?_⟩
      · rw [hb.sibling?]
        split
        · rename_i hm
          -- the strand that was last leads to the new one
          exact .inr ⟨z, hsub hz, o, ho, hne z hz o rfl, hm.trans hlast, rfl⟩
        · exact hold m
      · rintro t ⟨⟩
        exact ⟨x, hsub hx, o, ho, hhead, rfl⟩

end Abreast

/-! ## Lines of a builder -/

namespace Builder

variable {b b₁ b' : Builder} {i j k n : Nat} {js : List Nat}

/-- The strand of a line put beside that of another. -/
theorem exists_branch (b : Builder) (hij : i ≠ j) :
    ∃ b', b.move (.branch i j) = some b' ∧
      Strand.branch (b.line i).strand (b.line j).strand b.score = ((b'.line i).strand, b'.score) ∧
      (b'.line i).plan = (b.line i).plan.branch (b.line j).plan ∧ b'.slots = b.slots ∧
      ∀ k, k ≠ i → k ≠ j → b'.line k = b.line k := by
  obtain ⟨s, g, hr⟩ : ∃ s g, Strand.branch (b.line i).strand (b.line j).strand b.score = (s, g) :=
    ⟨_, _, rfl⟩
  have hmove : b.move (.branch i j) = some { b with
      score := g
      line := Function.update (Function.update b.line i
        ⟨s, (b.line i).plan.branch (b.line j).plan⟩) j {} } := by
    simp only [move, if_neg hij, hr]
  refine ⟨_, hmove, ?_, ?_, rfl, fun k hi hj => ?_⟩
  · simp only [Function.update_of_ne hij, Function.update_self, hr]
  · simp only [Function.update_of_ne hij, Function.update_self]
  · simp only [Function.update_of_ne hj, Function.update_of_ne hi]

/-- The strands on some lines. -/
def strands (b : Builder) (js : List Nat) : List Strand :=
  js.flatMap fun j => (b.line j).strand.toList

theorem mem_strands {s : Strand} : s ∈ b.strands js ↔ ∃ j ∈ js, (b.line j).strand = some s := by
  simp [strands, List.mem_flatMap]

/-- The strands of lines `js`, put beside each other, are on line `n`. -/
structure Gathers (b b' : Builder) (n : Nat) (js : List Nat) : Prop where
  plan : (b'.line n).plan = (js.map fun j => (b.line j).plan).foldl .branch .empty
  others : ∀ k, k ≠ n → k ∉ js → b'.line k = b.line k
  slots : b'.slots = b.slots
  content? : ∀ m, b'.score.content? m = b.score.content? m
  abreast : Abreast b.score b'.score (b.strands js) (b'.line n).strand

/-- A node is on one line. -/
theorem Sound.eq_of_mem (h : b.Sound) {m : Nat} (hi : m ∈ (b.line i).nodes)
    (hj : m ∈ (b.line j).nodes) : i = j := by
  by_contra hij
  exact h.disjoint i j hij hi hj

/-- **The strands of lines can be put beside each other.** -/
theorem Sound.exists_gathers (hb : b.Sound) (hempty : b.line n = {}) (js : List Nat)
    (hnodup : js.Nodup) (hn : n ∉ js) :
    ∃ ms b', b.run ms = some b' ∧ b.Gathers b' n js ∧ ((b'.line n).strand, b'.score) =
      (js.map fun j => (b.line j).strand).foldl (fun (s, g) o => Strand.branch s o g)
        (none, b.score) := by
  induction js using List.reverseRecOn with
  | nil =>
    refine ⟨[], b, rfl, ⟨?_, fun _ _ _ => rfl, rfl, fun _ => rfl, ?_⟩, ?_⟩
    · rw [hempty, List.map_nil, List.foldl_nil]
    · rw [hempty]
      exact .nil _
    · rw [hempty, List.map_nil, List.foldl_nil]
  | append_singleton js k ih =>
    rw [List.mem_append, List.mem_singleton, not_or] at hn
    obtain ⟨hnodup, -, hdisj⟩ := List.nodup_append.1 hnodup
    have hk : k ∉ js := fun hk => hdisj k hk k (List.mem_singleton_self k) rfl
    obtain ⟨ms, b₁, hrun, h, hfold⟩ := ih hnodup hn.1
    have hsound := hb.run ms hrun
    obtain ⟨b', hmove, hbranch, hplan, hslots, hothers⟩ := b₁.exists_branch hn.2
    rw [h.others k (Ne.symm hn.2) hk] at hbranch hplan
    have habreast := h.abreast.branch (o := (b.line k).strand)
      (fun t ht => ⟨_, hsound.woven ht⟩) fun x hx y hy heq => by
        obtain ⟨j, hj, hx⟩ := mem_strands.1 hx
        exact hk (hb.eq_of_mem (hb.woven hx).head_mem (heq ▸ (hb.woven hy).head_mem) ▸ hj)
    have hcontent := Strand.content?_branch (b₁.line n).strand (b.line k).strand b₁.score
    rw [hbranch] at hcontent habreast
    refine ⟨ms ++ [.branch n k], b', ?_, ⟨?_, ?_, hslots.trans h.slots, ?_, ?_⟩, ?_⟩
    · rw [run_append, hrun, Option.bind_some, Builder.run, hmove]
      rfl
    · simp [hplan, h.plan]
    · intro m hmn hm
      rw [List.mem_append, List.mem_singleton, not_or] at hm
      rw [hothers m hmn hm.2, h.others m hmn hm.1]
    · exact fun m => (hcontent m).trans (h.content? m)
    · simpa [strands] using habreast
    · rw [List.map_append, List.foldl_append, ← hfold]
      exact hbranch.symm

namespace Gathers

variable {s t : Strand} {h h' : Ownership} {division channel : Nat} {start : Nat → Nat}

theorem mem_nodes (hg : b.Gathers b' n js) (hi : i ∈ js) {m : Nat} (hm : m ∈ (b.line i).nodes) :
    m ∈ (b'.line n).nodes := by
  rw [Line.nodes, hg.plan]
  exact (Plan.mem_foldl_branch fun _ _ => rfl).2 (.inr ⟨_, List.mem_map_of_mem hi, hm⟩)

/-- Every node is of one of the strands. -/
theorem exists_mem (hg : b.Gathers b' n js) {m : Nat} (hm : m ∈ (b'.line n).nodes) :
    ∃ j ∈ js, m ∈ (b.line j).nodes := by
  rw [Line.nodes, hg.plan, Plan.mem_foldl_branch fun _ _ => rfl] at hm
  simpa [Plan.nodes] using hm

theorem exists_strand (hg : b.Gathers b' n js) (hb : b.Sound) (hb' : b'.Sound) (hi : i ∈ js)
    (hs : (b.line i).strand = some s) : ∃ t, (b'.line n).strand = some t :=
  hb'.exists_strand (hg.mem_nodes hi (hb.woven hs).head_mem)

/-- The nodes take as long as before, and bring the same events. -/
theorem agree (hg : b.Gathers b' n js) (hb : b.Sound) (hb' : b'.Sound) (hh : b.Nested h)
    (hh' : b'.Nested h') (hi : i ∈ js) (division channel : Nat) {m : Nat}
    (hm : m ∈ (b.line i).nodes) :
    b'.score.ticksOf division m = b.score.ticksOf division m ∧ ∀ t,
      b'.score.soundsOf division channel m t = b.score.soundsOf division channel m t := by
  obtain ⟨s, hs⟩ := hb.exists_strand hm
  obtain ⟨t, ht⟩ := hg.exists_strand hb hb' hi hs
  have hkinds : b'.kinds = b.kinds := by
    funext k
    rw [kinds, kinds, hg.slots]
  rw [Line.nodes, ← Plan.map_fst_wraps b.kinds _ []] at hm
  obtain ⟨x, hx, rfl⟩ := List.mem_map.1 hm
  have hx' : x ∈ (b'.line n).plan.wraps b'.kinds [] := by
    rw [hg.plan, hkinds]
    exact (Plan.mem_foldl_branch (F := (Plan.wraps b.kinds · [])) fun _ _ => rfl).2
      (.inr ⟨_, List.mem_map_of_mem hi, hx⟩)
  obtain ⟨c, hc, hticks, hsounds⟩ := hh.agrees hb hs division channel x hx
  obtain ⟨c', hc', hticks', hsounds'⟩ := hh'.agrees hb' ht division channel x hx'
  have heq : c' = c := Option.some.inj (hc'.symm.trans ((hg.content? x.1).trans hc))
  rw [hticks, hticks', heq]
  exact ⟨rfl, fun t => by rw [hsounds, hsounds', heq]⟩

/-- A sibling within a strand stays. -/
theorem sibling?_inside (hg : b.Gathers b' n js) (hb : b.Sound) {m : Nat}
    (hm : m ∈ (b.line i).nodes) : b'.score.sibling? m = b.score.sibling? m ∨
      b.score.sibling? m = none ∧ ∃ z, z ∉ (b.line i).nodes ∧ b'.score.sibling? m = some z := by
  refine (hg.abreast.sibling? m).imp_right ?_
  rintro ⟨x, hx, y, hy, hne, rfl, hsib⟩
  obtain ⟨j, -, hx⟩ := mem_strands.1 hx
  obtain ⟨k, -, hy⟩ := mem_strands.1 hy
  obtain rfl := hb.eq_of_mem (hb.woven hx).lastSibling_mem hm
  refine ⟨(hb.woven hx).last, y.head, fun hz => hne ?_, hsib⟩
  obtain rfl := hb.eq_of_mem (hb.woven hy).head_mem hz
  rw [Option.some.inj (hx.symm.trans hy)]

/-- From outside, a sibling can only be the head of a strand. -/
theorem sibling?_outside (hg : b.Gathers b' n js) (hb : b.Sound)
    (hs : (b.line i).strand = some s) {m z : Nat} (hm : m ∉ (b.line i).nodes)
    (hz : z ∈ (b.line i).nodes) (hsib : b'.score.sibling? m = some z) : z = s.head := by
  rcases hg.abreast.sibling? m with heq | ⟨x, -, y, hy, -, -, hsib'⟩
  · exact absurd (hb.mem_of_link hz (.inr (heq.symm.trans hsib))) hm
  · obtain ⟨k, -, hy⟩ := mem_strands.1 hy
    obtain rfl : z = y.head := Option.some.inj (hsib.symm.trans hsib')
    obtain rfl := hb.eq_of_mem hz (hb.woven hy).head_mem
    rw [Option.some.inj (hs.symm.trans hy)]

/-- Each strand is a copy within all of them. -/
theorem copy (hg : b.Gathers b' n js) (hb : b.Sound) (hb' : b'.Sound) (hh : b.Nested h)
    (hh' : b'.Nested h') (hi : i ∈ js) (hs : (b.line i).strand = some s) (division : Nat)
    (start : Nat → Nat) :
    (b.score.cast (b.line i).nodes division start).Copy
      (b'.score.cast (b'.line n).nodes division start) id s.head := by
  have hw := hb.woven hs
  have hforward : ∀ m ∈ (b.line i).nodes, ∀ z, b.score.Link m z → z ∈ (b.line i).nodes :=
    fun m hm z hlink => (hw.forward m hm z hlink).1
  have howns : ∀ m, (b.score.cast (b.line i).nodes division start).owns id m =
      decide (m ∈ (b.line i).nodes) := Cast.owns_id _
  refine ⟨fun _ _ _ _ heq => heq, hw.head_mem, fun m hm z hz => hforward m hm z (.inl hz),
    fun m hm z hz => hforward m hm z (.inr hz), fun m hm => hg.mem_nodes hi hm, ?_, ?_, ?_, ?_, ?_⟩
  · intro m hm
    exact Score.cuesAt_congr (hg.content? m) (hg.agree hb hb' hh hh' hi division 0 hm).1 _
  · intro m _
    exact (hg.abreast.next? m).trans Option.map_id'.symm
  · intro m hm
    show (b'.score.sibling? m).filter _ = (b.score.sibling? m).map id
    rw [Option.map_id]
    rcases hg.sibling?_inside hb hm with heq | ⟨hnone, z, hz, hsome⟩
    · rw [heq]
      cases hz : b.score.sibling? m with
      | none => rfl
      | some z =>
        have hmem := hforward m hm z (.inr hz)
        simp [howns, hmem]
    · simp [hnone, hsome, howns, hz]
  · intro m _ hown z hz
    rw [howns, decide_eq_false_iff_not] at hown ⊢
    exact fun hmem => hown (hb.mem_of_link hmem (.inl ((hg.abreast.next? m).symm.trans hz)))
  · intro m _ hown z hz hsib
    rw [howns, decide_eq_false_iff_not] at hown
    exact hg.sibling?_outside hb hs hown hz hsib

/-- **Each strand is played among all of them as it is played alone.** -/
theorem filter_performance (hg : b.Gathers b' n js) (hb : b.Sound) (hb' : b'.Sound)
    (hh : b.Nested h) (hh' : b'.Nested h') (hi : i ∈ js) (division channel : Nat) :
    (Queue.performance b'.score ((b'.line n).strand.map (·.head)) division channel).filter
        (fun x => x.1 ∈ (b.line i).nodes) =
      Queue.performance b.score ((b.line i).strand.map (·.head)) division channel := by
  cases hs : (b.line i).strand with
  | none =>
    have hnil := hb.line i
    rw [Line.Sound, hs] at hnil
    rw [hnil, Option.map_none, Queue.performance_none]
    simp
  | some s =>
    obtain ⟨t, ht⟩ := hg.exists_strand hb hb' hi hs
    have hagree := fun m => hg.agree hb hb' hh hh' hi division channel (m := m)
    -- one choice of start ticks serves all strands
    obtain ⟨start, hstart⟩ :=
      (b'.line n).plan.exists_start (b'.score.ticksOf division) 0 (hb'.woven ht).nodup
    have hall := (hb'.timed ht _ start 0 hstart).toStarts
    have halone : Starts b.score s.head (b.line i).nodes (b.score.ticksOf division) start 0 := by
      refine (hb.timed hs (b'.score.ticksOf division) start 0 fun x hx => ?_).toStarts.congr_len
        fun m hm => (hagree m hm).1.symm
      apply hstart
      rw [hg.plan]
      exact (Plan.mem_foldl_branch (F := (Plan.onsets (b'.score.ticksOf division) · 0))
        fun _ _ => rfl).2 (.inr ⟨_, List.mem_map_of_mem hi, hx⟩)
    have hfirst : ∀ m ∈ (b.line i).nodes, id m = t.head → m = s.head := by
      intro m hm heq
      obtain ⟨x, hx, -, -, hhead, -⟩ := hg.abreast.ends t ht
      obtain ⟨j, -, hx⟩ := mem_strands.1 hx
      obtain rfl : m = x.head := heq.trans hhead
      obtain rfl := hb.eq_of_mem hm (hb.woven hx).head_mem
      rw [Option.some.inj (hs.symm.trans hx)]
    have hcopy := Queue.performance_copy (hb'.woven ht) hall (hb.woven hs) halone
      (hg.copy hb hb' hh hh' hi hs division start) hfirst (fun _ _ => rfl)
      fun m hm => (hagree m hm).2
    rw [ht]
    simpa [Cast.owns_id, Score.cast] using hcopy

end Gathers

/-- Every node is of one line. -/
theorem Sound.exists_owner (hb : b.Sound) :
    ∃ owner : Nat → Nat, ∀ i, ∀ m ∈ (b.line i).nodes, owner m = i := by
  classical
  refine ⟨fun m => if h : ∃ i, m ∈ (b.line i).nodes then h.choose else 0, fun i m hm => ?_⟩
  have hex : ∃ i, m ∈ (b.line i).nodes := ⟨i, hm⟩
  simp only [dif_pos hex]
  exact hb.eq_of_mem hex.choose_spec hm

end Builder

end Jianpu
