import Jianpu.Proofs.Score.Builder
import Mathlib.Data.List.Count

/-!
# Fork and join

What the links of a strand look like in the whole score. Branches fork at siblings and join at
common successors: a node other than the head is either entered by its predecessors, and waits for
as many of them as there are, or is the sibling of one node. There are fewer predecessors than
nodes, so 32 bits are enough for a count as long as they are for the names of the nodes.
`forkJoin_of_run` says so of every strand that any moves of a builder make, together with where the
strand ends, and that its links never run in a circle and reach all of its nodes.
-/

namespace Jianpu

namespace Score

/-- The number of nodes of a score that have a node as their successor. -/
def arrivals (g : Score) (n : Nat) : Nat :=
  (List.range g.nodes.size).countP fun m => g.next? m = some n

/-- A node is the successor of one or more nodes but not of all, waits for all of these, and is
nobody's sibling. -/
def Joined (g : Score) (n : Nat) : Prop :=
  1 ≤ g.arrivals n ∧ g.arrivals n < g.nodes.size ∧
    g.join? n = some (.pending (g.arrivals n) 0) ∧ ∀ m, g.sibling? m ≠ some n

/-- A node is the sibling of exactly one node, and nobody's successor. -/
def Forked (g : Score) (n : Nat) : Prop :=
  (∃! m, g.sibling? m = some n) ∧ ∀ m, g.next? m ≠ some n

end Score

/-- The links of a strand with nodes `ns`, seen from the whole score. -/
structure ForkJoin (g : Score) (s : Strand) (ns : List Nat) : Prop where
  head_mem : s.head ∈ ns
  not_link_head : ∀ m, ¬ g.Link m s.head
  entry : ∀ n ∈ ns, n ≠ s.head → Xor (g.Joined n) (g.Forked n)
  ends : ∀ n, n ∈ s.tail :: s.openTails ↔ n ∈ ns ∧ g.next? n = none
  nodup_ends : (s.tail :: s.openTails).Nodup
  siblings : Relation.ReflTransGen (fun a b => g.sibling? a = some b) s.head s.lastSibling
  lastSibling : g.sibling? s.lastSibling = none
  acyclic : ∀ n, ¬ Relation.TransGen g.Link n n
  reachable : ∀ n ∈ ns, Relation.ReflTransGen g.Link s.head n

namespace Builder.Sound

variable {b : Builder} {i m n : Nat} {s : Strand}

theorem woven (h : b.Sound) (hs : (b.line i).strand = some s) :
    Woven b.score s (b.line i).nodes := by
  have hl := h.line i
  rw [Line.Sound, hs] at hl
  exact hl.1

theorem timed (h : b.Sound) (hs : (b.line i).strand = some s) :
    Timed b.score s (b.line i).plan := by
  have hl := h.line i
  rw [Line.Sound, hs] at hl
  exact hl.2.1

theorem drawn (h : b.Sound) (hs : (b.line i).strand = some s) :
    Drawn b.score s (b.line i).plan.shape := by
  have hl := h.line i
  rw [Line.Sound, hs] at hl
  exact hl.2.2

/-- A line with a node on it has a strand. -/
theorem exists_strand (h : b.Sound) (hn : n ∈ (b.line i).nodes) :
    ∃ s, (b.line i).strand = some s := by
  cases hs : (b.line i).strand with
  | some s => exact ⟨s, rfl⟩
  | none =>
    have hl := h.line i
    rw [Line.Sound, hs] at hl
    rw [hl] at hn
    simp at hn

/-- What leads anywhere is on a line, and stays on it. -/
theorem exists_line_of_link (h : b.Sound) (hlink : b.score.Link m n) :
    ∃ i, m ∈ (b.line i).nodes ∧ n ∈ (b.line i).nodes := by
  have hm : ∃ i, m ∈ (b.line i).nodes := by
    by_contra hnot
    obtain ⟨hnext, hsib⟩ := h.loose m (by simpa using hnot)
    simp [Score.Link, hnext, hsib] at hlink
  obtain ⟨i, hm⟩ := hm
  obtain ⟨s, hs⟩ := h.exists_strand hm
  exact ⟨i, hm, ((h.woven hs).forward m hm n hlink).1⟩

/-- What leads to a node of a line is on that line. -/
theorem mem_of_link (h : b.Sound) (hn : n ∈ (b.line i).nodes) (hlink : b.score.Link m n) :
    m ∈ (b.line i).nodes := by
  obtain ⟨k, hm, hk⟩ := h.exists_line_of_link hlink
  by_cases hki : k = i
  · rwa [hki] at hm
  · exact absurd hn (h.disjoint k i hki hk)

/-- The predecessors of a node are those on its line. -/
theorem arrivals_eq (h : b.Sound) (hs : (b.line i).strand = some s) (hn : n ∈ (b.line i).nodes) :
    b.score.arrivals n = (b.line i).nodes.countP fun m => b.score.next? m = some n := by
  rw [Score.arrivals, List.countP_eq_length_filter, List.countP_eq_length_filter]
  apply List.Perm.length_eq
  rw [List.perm_ext_iff_of_nodup (List.nodup_range.filter _) ((h.woven hs).nodup.filter _)]
  intro m
  simp only [List.mem_filter, List.mem_range, decide_eq_true_eq]
  constructor
  · rintro ⟨-, hmn⟩
    exact ⟨h.mem_of_link hn (.inl hmn), hmn⟩
  · rintro ⟨hm, hmn⟩
    exact ⟨h.lt_size hm, hmn⟩

/-- No node is its own predecessor. -/
theorem arrivals_lt (h : b.Sound) (hs : (b.line i).strand = some s) (hn : n ∈ (b.line i).nodes) :
    b.score.arrivals n < b.score.nodes.size := by
  have hself : b.score.next? n ≠ some n := fun hnn =>
    Nat.lt_irrefl _ ((h.woven hs).forward n hn n (.inl hnn)).2
  have hlt : b.score.arrivals n < (List.range b.score.nodes.size).length :=
    List.countP_lt_length_iff.2 ⟨n, List.mem_range.2 (h.lt_size hn), by simpa using hself⟩
  rwa [List.length_range] at hlt

theorem joined_of_next? (h : b.Sound) (hs : (b.line i).strand = some s) (hn : n ∈ (b.line i).nodes)
    (hmn : b.score.next? m = some n) : b.score.Joined n := by
  have hw := h.woven hs
  have hm : m ∈ (b.line i).nodes := h.mem_of_link hn (.inl hmn)
  have hpos : 0 < (b.line i).nodes.countP fun m => b.score.next? m = some n :=
    List.countP_pos_iff.2 ⟨m, hm, by simpa using hmn⟩
  refine ⟨?_, h.arrivals_lt hs hn, ?_, ?_⟩
  · rw [h.arrivals_eq hs hn]
    exact hpos
  · rw [h.arrivals_eq hs hn]
    exact hw.joined m hm n hmn
  · intro c hcn
    exact hw.unmixed m hm c (h.mem_of_link hn (.inr hcn)) n hmn hcn

theorem forked_of_sibling? (h : b.Sound) (hs : (b.line i).strand = some s)
    (hn : n ∈ (b.line i).nodes) (hmn : b.score.sibling? m = some n) : b.score.Forked n := by
  have hw := h.woven hs
  have hm : m ∈ (b.line i).nodes := h.mem_of_link hn (.inr hmn)
  refine ⟨⟨m, hmn, fun c hcn => ?_⟩, fun a han => ?_⟩
  · exact hw.alone c (h.mem_of_link hn (.inr hcn)) m hm n hcn hmn
  · exact hw.unmixed a (h.mem_of_link hn (.inl han)) m hm n han hmn

theorem forkJoin (h : b.Sound) (hs : (b.line i).strand = some s) :
    ForkJoin b.score s (b.line i).nodes := by
  have hw := h.woven hs
  refine ⟨hw.head_mem, ?_, ?_, hw.ends, hw.nodup_tails, hw.siblings, hw.last, ?_,
    fun n hn => hw.reachable hn⟩
  · intro m hlink
    exact hw.not_link_head (h.mem_of_link hw.head_mem hlink) hlink
  · intro n hn hne
    obtain ⟨a, -, hlink⟩ := hw.entered n hn hne
    rcases hlink with hlink | hlink
    · exact .inl ⟨h.joined_of_next? hs hn hlink, fun hf => hf.2 a hlink⟩
    · exact .inr ⟨h.forked_of_sibling? hs hn hlink, fun hj => hj.2.2.2 a hlink⟩
  · intro n hcycle
    obtain ⟨c, hlink, -⟩ := Relation.TransGen.head'_iff.1 hcycle
    obtain ⟨k, hn, -⟩ := h.exists_line_of_link hlink
    obtain ⟨s', hs'⟩ := h.exists_strand hn
    exact Before.irrefl ((h.woven hs').before_of_transGen hn hcycle)

end Builder.Sound

/-- **Whatever moves make a strand, its branches fork and join**: every node but the head is entered
by predecessors that it waits for or as the sibling of one node, the ends are the nodes without a
successor, and all nodes are reached from the head without a circle. -/
theorem forkJoin_of_run (ms : List Builder.Move) (b : Builder) (hr : Builder.run {} ms = some b)
    (i : Nat) (s : Strand) (hs : (b.line i).strand = some s) :
    ForkJoin b.score s (b.line i).nodes :=
  (Builder.Sound.start.run ms hr).forkJoin hs

/-- The moves for a note after a group within a group, `{{1|2}|3}4`. -/
def nestedGroup : List Builder.Move :=
  [60, 62, 64, 65].map (fun pitch => .node (.note pitch 80) {}) ++
    [.append 0 0, .append 1 1, .branch 0 1, .concat 2 0, .append 1 2, .branch 2 1, .concat 3 2,
      .append 3 3]

theorem forkJoin_nestedGroup : ∃ b s, Builder.run {} nestedGroup = some b ∧
    (b.line 3).strand = some s ∧ (b.line 3).nodes = [0, 1, 2, 3] ∧
      b.score.join? 3 = some (.pending 3 0) ∧ ForkJoin b.score s (b.line 3).nodes :=
  ⟨_, _, rfl, rfl, rfl, rfl, forkJoin_of_run nestedGroup _ rfl 3 _ rfl⟩

end Jianpu
