import Jianpu.Proofs.Score.Weave
import Mathlib.Logic.Function.Basic

/-!
# The pace of a strand

When the nodes of a strand start, if each takes a given number of ticks. Siblings start together,
and a successor starts when the last of those that lead to it has ended: `Starts` says so of given
start ticks, as far as the links of the strand go, and `Paced` also where the strand itself ends.

A `Plan` records how a strand was made. It has start ticks of its own, by recursion (`Plan.onsets`),
and `Timed` says that these are the ones that the links ask for. The operations on strands keep it,
with the plan following each step.
-/

namespace Jianpu

/-- `start` are start ticks that the links of nodes `ns` ask for, where node `n` takes `len n` ticks
and the head starts at tick `t`. -/
structure Starts (g : Score) (head : Nat) (ns : List Nat) (len start : Nat → Nat) (t : Nat) :
    Prop where
  head : start head = t
  sibling : ∀ a ∈ ns, ∀ b, g.sibling? a = some b → start b = start a
  next_le : ∀ a ∈ ns, ∀ b, g.next? a = some b → start a + len a ≤ start b
  next_eq : ∀ a ∈ ns, ∀ b, g.next? a = some b →
    ∃ c ∈ ns, g.next? c = some b ∧ start b = start c + len c

/-- The last of the ends of a strand is over at tick `e`. -/
structure Paced (g : Score) (s : Strand) (ns : List Nat) (len start : Nat → Nat) (t e : Nat) : Prop
    extends Starts g s.head ns len start t where
  tails_le : ∀ a ∈ s.tails, start a + len a ≤ e
  tails_eq : ∃ a ∈ s.tails, e = start a + len a

namespace Paced

variable {g g' : Score} {s o : Strand} {ns os : List Nat} {len start : Nat → Nat} {t e e' : Nat}

theorem congr (h : Paced g s ns len start t e) (hl : ∀ n ∈ ns, Score.SameLinks g g' n) :
    Paced g' s ns len start t e where
  head := h.head
  sibling a ha b hab := h.sibling a ha b (by rwa [← (hl a ha).sibling?])
  next_le a ha b hab := h.next_le a ha b (by rwa [← (hl a ha).next?])
  next_eq a ha b hab := by
    obtain ⟨c, hc, hcb, heq⟩ := h.next_eq a ha b (by rwa [← (hl a ha).next?])
    exact ⟨c, hc, by rwa [(hl c hc).next?], heq⟩
  tails_le := h.tails_le
  tails_eq := h.tails_eq

/-- All siblings at the start of the strand start with its head. -/
theorem lastSibling (h : Paced g s ns len start t e) (hw : Woven g s ns) :
    start s.lastSibling = t := by
  have key : ∀ b, Relation.ReflTransGen (fun a b => g.sibling? a = some b) s.head b →
      start b = t := by
    intro b hb
    induction hb with
    | refl => exact h.head
    | tail hab hlink ih =>
      rw [h.sibling _ (hw.mem_of_siblings hw.head_mem hab) _ hlink, ih]
  exact key _ hw.siblings

theorem single {n : Nat} (top : Nat) (hnext : g.next? n = none) (hsib : g.sibling? n = none)
    (hstart : start n = t) : Paced g ⟨n, n, n, top, []⟩ [n] len start t (t + len n) where
  head := hstart
  sibling a ha b hab := by
    rw [List.mem_singleton.1 ha, hsib] at hab
    simp at hab
  next_le a ha b hab := by
    rw [List.mem_singleton.1 ha, hnext] at hab
    simp at hab
  next_eq a ha b hab := by
    rw [List.mem_singleton.1 ha, hnext] at hab
    simp at hab
  tails_le a ha := by
    have hn : a = n := by simpa using ha
    exact Nat.le_of_eq (by rw [hn, hstart])
  tails_eq := ⟨n, by simp, by rw [hstart]⟩

/-- A strand after another one starts when that one ends. -/
theorem connect (hs : Woven g s ns) (ho : Woven g o os) (hd : ns.Disjoint os)
    (h : s.Connected o.head g g') (ps : Paced g s ns len start t e)
    (po : Paced g o os len start e e') :
    Paced g' { s with tail := o.tail, openTails := o.openTails } (ns ++ os) len start t e' where
  head := ps.head
  sibling a ha b hab := by
    rcases Woven.connect_sibling?_cases hs ho h ha hab with ⟨ha, -, hab⟩ | ⟨ha, -, -, hab⟩
    · exact ps.sibling a ha b hab
    · exact po.sibling a ha b hab
  next_le a ha b hab := by
    rcases Woven.connect_next?_cases hs ho hd h ha hab with ⟨ht, rfl⟩ | ⟨ha, -, hab⟩ |
      ⟨ha, -, -, hab⟩
    · rw [po.head]
      exact ps.tails_le a ht
    · exact ps.next_le a ha b hab
    · exact po.next_le a ha b hab
  next_eq a ha b hab := by
    rcases Woven.connect_next?_cases hs ho hd h ha hab with ⟨-, rfl⟩ | ⟨ha, -, hab⟩ |
      ⟨ha, -, -, hab⟩
    · obtain ⟨c, hc, heq⟩ := ps.tails_eq
      refine ⟨c, List.mem_append_left _ (hs.tail_mem hc), ?_, by rw [po.head, heq]⟩
      rw [h.next?, if_pos hc]
    · obtain ⟨c, hc, hcb, heq⟩ := ps.next_eq a ha b hab
      refine ⟨c, List.mem_append_left _ hc, ?_, heq⟩
      rw [h.next?, if_neg, hcb]
      intro ht
      simp [hs.next?_tail ht] at hcb
    · obtain ⟨c, hc, hcb, heq⟩ := po.next_eq a ha b hab
      refine ⟨c, List.mem_append_right _ hc, ?_, heq⟩
      rw [Woven.connect_next?_right hs hd h hc, hcb]
  tails_le := po.tails_le
  tails_eq := po.tails_eq

/-- Strands beside each other start together, and end with the last of them. -/
theorem branch (hs : Woven g s ns) (ho : Woven g o os) (h : s.Branched o.head g g')
    (ps : Paced g s ns len start t e) (po : Paced g o os len start t e') :
    Paced g' { s with
      lastSibling := o.lastSibling
      openTails := s.openTails ++ o.tail :: o.openTails } (ns ++ os) len start t (max e e') where
  head := ps.head
  sibling a ha b hab := by
    rcases Woven.branch_sibling?_cases hs ho h ha hab with ⟨rfl, rfl⟩ | ⟨ha, -, hab⟩ |
      ⟨ha, -, -, hab⟩
    · rw [po.head, ps.lastSibling hs]
    · exact ps.sibling a ha b hab
    · exact po.sibling a ha b hab
  next_le a ha b hab := by
    rcases Woven.branch_next?_cases hs ho h ha hab with ⟨ha, -, hab⟩ | ⟨ha, -, -, hab⟩
    · exact ps.next_le a ha b hab
    · exact po.next_le a ha b hab
  next_eq a ha b hab := by
    rcases Woven.branch_next?_cases hs ho h ha hab with ⟨ha, -, hab⟩ | ⟨ha, -, -, hab⟩
    · obtain ⟨c, hc, hcb, heq⟩ := ps.next_eq a ha b hab
      exact ⟨c, List.mem_append_left _ hc, by rw [h.next?, hcb], heq⟩
    · obtain ⟨c, hc, hcb, heq⟩ := po.next_eq a ha b hab
      exact ⟨c, List.mem_append_right _ hc, by rw [h.next?, hcb], heq⟩
  tails_le a ha := by
    rcases List.mem_append.1 (show a ∈ s.tails ++ o.tails from ha) with ha | ha
    · exact Nat.le_trans (ps.tails_le a ha) (Nat.le_max_left e e')
    · exact Nat.le_trans (po.tails_le a ha) (Nat.le_max_right e e')
  tails_eq := by
    obtain ⟨a, ha, hea⟩ := ps.tails_eq
    obtain ⟨b, hb, heb⟩ := po.tails_eq
    rcases Nat.le_total e e' with hle | hle
    · exact ⟨b, List.mem_append_right s.tails hb, by rw [Nat.max_eq_right hle, heb]⟩
    · exact ⟨a, List.mem_append_left o.tails ha, by rw [Nat.max_eq_left hle, hea]⟩

end Paced

/-! ## Plans -/

/-- A list in which nothing comes first twice is a function. -/
theorem exists_eq_of_nodup {l : List (Nat × Nat)} (h : (l.map Prod.fst).Nodup) :
    ∃ f : Nat → Nat, ∀ x ∈ l, f x.1 = x.2 := by
  induction l with
  | nil => exact ⟨fun _ => 0, by simp⟩
  | cons x l ih =>
    obtain ⟨hx, hl⟩ := List.nodup_cons.1 h
    obtain ⟨f, hf⟩ := ih hl
    refine ⟨Function.update f x.1 x.2, List.forall_mem_cons.2 ⟨Function.update_self .., ?_⟩⟩
    intro y hy
    have hne : y.1 ≠ x.1 := fun heq => hx (heq ▸ List.mem_map_of_mem hy)
    rw [Function.update_of_ne hne, hf y hy]

/-- How a strand was made: a node, put there together with a slot for its suffixes; one strand
beside another; one strand after another, as a group with a slot for its suffixes or, for a single
node, without. Slots are referred to by number. -/
inductive Plan where
  | empty
  | node (node slot : Nat)
  | branch (p q : Plan)
  | seq (p q : Plan) (slot : Option Nat)
  deriving DecidableEq, Repr

namespace Plan

/-- The nodes of a strand, in the order in which they were put there. -/
def nodes : Plan → List Nat
  | empty => []
  | node n _ => [n]
  | branch p q | seq p q _ => p.nodes ++ q.nodes

@[simp] theorem nodes_empty : empty.nodes = [] := rfl

/-- When a strand that starts at a tick ends. -/
def finish (len : Nat → Nat) : Plan → Nat → Nat
  | empty, t => t
  | node n _, t => t + len n
  | branch p q, t => max (p.finish len t) (q.finish len t)
  | seq p q _, t => q.finish len (p.finish len t)

/-- When the nodes of a strand that starts at a tick start. -/
def onsets (len : Nat → Nat) : Plan → Nat → List (Nat × Nat)
  | empty, _ => []
  | node n _, t => [(n, t)]
  | branch p q, t => p.onsets len t ++ q.onsets len t
  | seq p q _, t => p.onsets len t ++ q.onsets len (p.finish len t)

theorem map_fst_onsets (len : Nat → Nat) (p : Plan) (t : Nat) :
    (p.onsets len t).map Prod.fst = p.nodes := by
  induction p generalizing t with
  | empty => rfl
  | node n k => rfl
  | branch p q ihp ihq => rw [onsets, List.map_append, ihp, ihq, nodes]
  | seq p q k ihp ihq => rw [onsets, List.map_append, ihp, ihq, nodes]

/-- The start ticks of a plan as a function of the node. -/
theorem exists_start (len : Nat → Nat) (p : Plan) (t : Nat) (h : p.nodes.Nodup) :
    ∃ start : Nat → Nat, ∀ x ∈ p.onsets len t, start x.1 = x.2 := by
  rw [← map_fst_onsets len p t] at h
  exact exists_eq_of_nodup h

/-- A plan without nodes takes no time. -/
theorem finish_of_nodes_eq_nil (len : Nat → Nat) {p : Plan} (h : p.nodes = []) (t : Nat) :
    p.finish len t = t := by
  induction p generalizing t with
  | empty => rfl
  | node n k => simp [nodes] at h
  | branch p q ihp ihq =>
    obtain ⟨hp, hq⟩ := List.append_eq_nil_iff.1 h
    rw [finish, ihp hp, ihq hq, Nat.max_self]
  | seq p q k ihp ihq =>
    obtain ⟨hp, hq⟩ := List.append_eq_nil_iff.1 h
    rw [finish, ihp hp, ihq hq]

theorem onsets_of_nodes_eq_nil (len : Nat → Nat) {p : Plan} (h : p.nodes = []) (t : Nat) :
    p.onsets len t = [] := by
  rw [← List.map_eq_nil_iff, map_fst_onsets, h]

theorem le_finish (len : Nat → Nat) (p : Plan) (t : Nat) : t ≤ p.finish len t := by
  induction p generalizing t with
  | empty => exact Nat.le_refl t
  | node n k => exact Nat.le_add_right t (len n)
  | branch p q ihp ihq => exact Nat.le_trans (ihp t) (Nat.le_max_left _ _)
  | seq p q k ihp ihq => exact Nat.le_trans (ihp t) (ihq _)

end Plan

/-- The start ticks of a plan are the ones that the links of the strand ask for, whatever the nodes
take and whenever the strand starts. -/
def Timed (g : Score) (s : Strand) (p : Plan) : Prop :=
  ∀ (len start : Nat → Nat) (t : Nat), (∀ x ∈ p.onsets len t, start x.1 = x.2) →
    Paced g s p.nodes len start t (p.finish len t)

namespace Timed

variable {g g' : Score} {s o : Strand} {p q : Plan}

theorem congr (h : Timed g s p) (hl : ∀ n ∈ p.nodes, Score.SameLinks g g' n) : Timed g' s p :=
  fun len start t hst => (h len start t hst).congr hl

theorem withTop (h : Timed g s p) (top : Nat) : Timed g { s with top } p :=
  fun len start t hst =>
    let hp := h len start t hst
    ⟨⟨hp.head, hp.sibling, hp.next_le, hp.next_eq⟩, hp.tails_le, hp.tails_eq⟩

theorem single {n : Nat} (top k : Nat) (hnext : g.next? n = none) (hsib : g.sibling? n = none) :
    Timed g ⟨n, n, n, top, []⟩ (.node n k) :=
  fun _ _ _ hst => Paced.single top hnext hsib (hst _ (List.mem_singleton_self _))

theorem connect (hs : Woven g s p.nodes) (ho : Woven g o q.nodes) (hd : p.nodes.Disjoint q.nodes)
    (h : s.Connected o.head g g') (hp : Timed g s p) (hq : Timed g o q) (k : Option Nat) :
    Timed g' { s with tail := o.tail, openTails := o.openTails } (.seq p q k) := by
  intro len start t hst
  have hleft := hp len start t fun x hx => hst x (List.mem_append_left _ hx)
  have hright := hq len start (p.finish len t) fun x hx => hst x (List.mem_append_right _ hx)
  exact Paced.connect hs ho hd h hleft hright

theorem branch (hs : Woven g s p.nodes) (ho : Woven g o q.nodes) (h : s.Branched o.head g g')
    (hp : Timed g s p) (hq : Timed g o q) :
    Timed g' { s with
      lastSibling := o.lastSibling
      openTails := s.openTails ++ o.tail :: o.openTails } (.branch p q) := by
  intro len start t hst
  have hleft := hp len start t fun x hx => hst x (List.mem_append_left _ hx)
  have hright := hq len start t fun x hx => hst x (List.mem_append_right _ hx)
  exact Paced.branch hs ho h hleft hright

/-! A part of a plan without nodes counts for nothing. -/

theorem seq_empty (hp : Timed g s p) (hq : q.nodes = []) (k : Option Nat) :
    Timed g s (.seq p q k) := by
  intro len start t hst
  rw [Plan.nodes, Plan.finish, hq, List.append_nil, Plan.finish_of_nodes_eq_nil len hq]
  exact hp len start t fun x hx => hst x (List.mem_append_left _ hx)

theorem empty_seq (hq : Timed g s q) (hp : p.nodes = []) (k : Option Nat) :
    Timed g s (.seq p q k) := by
  intro len start t hst
  rw [Plan.onsets, Plan.onsets_of_nodes_eq_nil len hp, Plan.finish_of_nodes_eq_nil len hp] at hst
  rw [Plan.nodes, Plan.finish, hp, List.nil_append, Plan.finish_of_nodes_eq_nil len hp]
  exact hq len start t hst

theorem branch_empty (hp : Timed g s p) (hq : q.nodes = []) : Timed g s (.branch p q) := by
  intro len start t hst
  rw [Plan.nodes, Plan.finish, hq, List.append_nil, Plan.finish_of_nodes_eq_nil len hq,
    Nat.max_eq_left (p.le_finish len t)]
  exact hp len start t fun x hx => hst x (List.mem_append_left _ hx)

theorem empty_branch (hq : Timed g s q) (hp : p.nodes = []) : Timed g s (.branch p q) := by
  intro len start t hst
  rw [Plan.nodes, Plan.finish, hp, List.nil_append, Plan.finish_of_nodes_eq_nil len hp,
    Nat.max_eq_right (q.le_finish len t)]
  exact hq len start t fun x hx => hst x (List.mem_append_right _ hx)

end Timed

end Jianpu
