import Jianpu.Proofs.Score.Links
import Mathlib.Data.List.Nodup

/-!
# The weave of a strand

`Woven g s ns` says how the nodes `ns` of a strand hang together: links lead onwards in the list,
every node but the first is entered, either as a successor, and then it waits for all nodes that
lead to it, or as the sibling of one node; the nodes without a successor are the ends of the strand,
and its siblings run from the head to the last one. It speaks of what leaves the nodes of the strand
only, so it holds as long as these stay as they are (`Woven.congr`).

The operations on strands keep it: a loose node is a strand of its own (`Woven.single`), one strand
can be put after another (`Woven.connect`) and beside another (`Woven.branch`).
-/

namespace Jianpu

/-! ## Order in a list -/

/-- `b` comes after `a` in a list. -/
def Before (ns : List Nat) (a b : Nat) : Prop := b ∈ ns ∧ ns.idxOf a < ns.idxOf b

namespace Before

variable {ns os : List Nat} {a b c : Nat}

theorem trans (h : Before ns a b) (h' : Before ns b c) : Before ns a c :=
  ⟨h'.1, Nat.lt_trans h.2 h'.2⟩

theorem irrefl : ¬ Before ns a a := fun h => Nat.lt_irrefl _ h.2

theorem append_left (ha : a ∈ ns) (h : Before ns a b) : Before (ns ++ os) a b := by
  refine ⟨List.mem_append_left _ h.1, ?_⟩
  rw [List.idxOf_append_of_mem ha, List.idxOf_append_of_mem h.1]
  exact h.2

theorem append_right (hd : ns.Disjoint os) (ha : a ∈ os) (h : Before os a b) :
    Before (ns ++ os) a b := by
  refine ⟨List.mem_append_right _ h.1, ?_⟩
  rw [List.idxOf_append_of_notMem fun hn => hd hn ha,
    List.idxOf_append_of_notMem fun hn => hd hn h.1]
  have := h.2
  omega

theorem across (hd : ns.Disjoint os) (ha : a ∈ ns) (hb : b ∈ os) : Before (ns ++ os) a b := by
  refine ⟨List.mem_append_right _ hb, ?_⟩
  rw [List.idxOf_append_of_mem ha, List.idxOf_append_of_notMem fun hn => hd hn hb]
  have := List.idxOf_lt_length_of_mem ha
  omega

end Before

theorem countP_mem_eq_length {ns ts : List Nat} (hn : ns.Nodup) (ht : ts.Nodup) (h : ts ⊆ ns) :
    ns.countP (· ∈ ts) = ts.length := by
  rw [List.countP_eq_length_filter]
  apply List.Perm.length_eq
  rw [List.perm_ext_iff_of_nodup (hn.filter _) ht]
  intro a
  simp only [List.mem_filter, decide_eq_true_eq]
  exact ⟨fun ha => ha.2, fun ha => ⟨h ha, ha⟩⟩

/-! ## Woven strands -/

/-- How the nodes `ns` of a strand hang together. -/
structure Woven (g : Score) (s : Strand) (ns : List Nat) : Prop where
  nodup : ns.Nodup
  bound : ∀ n ∈ ns, n < g.nodes.size
  head : ns.head? = some s.head
  forward : ∀ a ∈ ns, ∀ b, g.Link a b → Before ns a b
  entered : ∀ b ∈ ns, b ≠ s.head → ∃ a ∈ ns, g.Link a b
  joined : ∀ a ∈ ns, ∀ b, g.next? a = some b →
    g.join? b = some (.pending (ns.countP fun m => g.next? m = some b) 0)
  unmixed : ∀ a ∈ ns, ∀ c ∈ ns, ∀ b, g.next? a = some b → g.sibling? c ≠ some b
  alone : ∀ a ∈ ns, ∀ c ∈ ns, ∀ b, g.sibling? a = some b → g.sibling? c = some b → a = c
  ends : ∀ n, n ∈ s.tails ↔ n ∈ ns ∧ g.next? n = none
  nodup_tails : s.tails.Nodup
  siblings : Relation.ReflTransGen (fun a b => g.sibling? a = some b) s.head s.lastSibling
  last : g.sibling? s.lastSibling = none

namespace Woven

variable {g g' : Score} {s o : Strand} {ns os : List Nat}

theorem head_mem (h : Woven g s ns) : s.head ∈ ns := List.mem_of_mem_head? (by rw [h.head]; rfl)

theorem tail_mem (h : Woven g s ns) {t : Nat} (ht : t ∈ s.tails) : t ∈ ns := ((h.ends t).1 ht).1

theorem next?_tail (h : Woven g s ns) {t : Nat} (ht : t ∈ s.tails) : g.next? t = none :=
  ((h.ends t).1 ht).2

/-- The chain of siblings stays among the nodes of the strand. -/
theorem mem_of_siblings (h : Woven g s ns) {a b : Nat} (ha : a ∈ ns)
    (hab : Relation.ReflTransGen (fun a b => g.sibling? a = some b) a b) : b ∈ ns := by
  induction hab with
  | refl => exact ha
  | tail _ hlink ih => exact (h.forward _ ih _ (.inr hlink)).1

/-- The chain of siblings survives where the siblings of the strand's nodes do. -/
theorem siblings_mono (h : Woven g s ns)
    (hl : ∀ a ∈ ns, ∀ b, g.sibling? a = some b → g'.sibling? a = some b) :
    Relation.ReflTransGen (fun a b => g'.sibling? a = some b) s.head s.lastSibling := by
  have key : ∀ b, Relation.ReflTransGen (fun a b => g.sibling? a = some b) s.head b →
      Relation.ReflTransGen (fun a b => g'.sibling? a = some b) s.head b := by
    intro b hb
    induction hb with
    | refl => exact .refl
    | tail hab hlink ih => exact ih.tail (hl _ (h.mem_of_siblings h.head_mem hab) _ hlink)
  exact key _ h.siblings

theorem lastSibling_mem (h : Woven g s ns) : s.lastSibling ∈ ns :=
  h.mem_of_siblings h.head_mem h.siblings

/-- Nothing leads to the head. -/
theorem not_link_head (h : Woven g s ns) {a : Nat} (ha : a ∈ ns) : ¬ g.Link a s.head := by
  intro hl
  have hb := (h.forward a ha _ hl).2
  obtain ⟨rest, rfl⟩ := List.head?_eq_some_iff.1 h.head
  simp at hb

/-- Every node is reached from the head. -/
theorem reachable (h : Woven g s ns) {n : Nat} (hn : n ∈ ns) :
    Relation.ReflTransGen g.Link s.head n := by
  -- by induction on the place of the node: what enters it comes before it
  induction hk : ns.idxOf n using Nat.strongRecOn generalizing n with
  | ind k ih =>
    by_cases hh : n = s.head
    · rw [hh]
    · obtain ⟨a, ha, hlink⟩ := h.entered n hn hh
      have hlt := (h.forward a ha n hlink).2
      exact (ih _ (hk ▸ hlt) ha rfl).tail hlink

/-- Along links the place in the list grows. -/
theorem before_of_transGen (h : Woven g s ns) {a b : Nat} (ha : a ∈ ns)
    (hab : Relation.TransGen g.Link a b) : Before ns a b := by
  induction hab with
  | single hlink => exact h.forward a ha _ hlink
  | tail _ hlink ih => exact ih.trans (h.forward _ ih.1 _ hlink)

theorem congr (h : Woven g s ns) (hl : ∀ n ∈ ns, Score.SameLinks g g' n) : Woven g' s ns where
  nodup := h.nodup
  bound n hn := by
    rw [← Score.isSome_join?, (hl n hn).join?, Score.isSome_join?]
    exact h.bound n hn
  head := h.head
  forward a ha b hlink := by
    rw [Score.Link, (hl a ha).next?, (hl a ha).sibling?] at hlink
    exact h.forward a ha b hlink
  entered b hb hne := by
    obtain ⟨a, ha, hlink⟩ := h.entered b hb hne
    refine ⟨a, ha, ?_⟩
    rwa [Score.Link, (hl a ha).next?, (hl a ha).sibling?]
  joined a ha b hab := by
    rw [(hl a ha).next?] at hab
    have hcount : ns.countP (fun m => g'.next? m = some b) =
        ns.countP fun m => g.next? m = some b :=
      List.countP_congr fun m hm => by rw [(hl m hm).next?]
    rw [(hl b (h.forward a ha b (.inl hab)).1).join?, h.joined a ha b hab, hcount]
  unmixed a ha c hc b hab := by
    rw [(hl a ha).next?] at hab
    rw [(hl c hc).sibling?]
    exact h.unmixed a ha c hc b hab
  alone a ha c hc b hab hcb := by
    rw [(hl a ha).sibling?] at hab
    rw [(hl c hc).sibling?] at hcb
    exact h.alone a ha c hc b hab hcb
  ends n := by
    rw [h.ends n]
    exact and_congr_right fun hn => by rw [(hl n hn).next?]
  nodup_tails := h.nodup_tails
  siblings := h.siblings_mono fun a ha b hab => by rw [(hl a ha).sibling?, hab]
  last := by rw [(hl _ h.lastSibling_mem).sibling?, h.last]

/-- The anchor has no part in it. -/
theorem withTop (h : Woven g s ns) (top : Nat) : Woven g { s with top } ns :=
  ⟨h.nodup, h.bound, h.head, h.forward, h.entered, h.joined, h.unmixed, h.alone, h.ends,
    h.nodup_tails, h.siblings, h.last⟩

theorem single {n : Nat} (top : Nat) (hn : n < g.nodes.size) (hnext : g.next? n = none)
    (hsib : g.sibling? n = none) : Woven g ⟨n, n, n, top, []⟩ [n] where
  nodup := List.nodup_singleton n
  bound m hm := by rwa [List.mem_singleton.1 hm]
  head := rfl
  forward a ha b hlink := by
    obtain rfl := List.mem_singleton.1 ha
    simp [Score.Link, hnext, hsib] at hlink
  entered b hb hne := absurd (List.mem_singleton.1 hb) hne
  joined a ha b hab := by
    obtain rfl := List.mem_singleton.1 ha
    simp [hnext] at hab
  unmixed a ha c _ b hab := by
    obtain rfl := List.mem_singleton.1 ha
    simp [hnext] at hab
  alone a ha c hc b _ _ := (List.mem_singleton.1 ha).trans (List.mem_singleton.1 hc).symm
  ends m := by
    simp only [Strand.mem_tails, List.not_mem_nil, or_false, List.mem_singleton]
    exact ⟨fun hm => ⟨hm, by rw [hm, hnext]⟩, fun hm => hm.1⟩
  nodup_tails := List.nodup_singleton n
  siblings := .refl
  last := hsib

/-! ## One strand after another -/

section Connect

variable (hs : Woven g s ns) (ho : Woven g o os) (hd : ns.Disjoint os)
  (h : s.Connected o.head g g')

include hs h

include ho in
theorem connect_sibling?_cases {a b : Nat} (ha : a ∈ ns ++ os) (hab : g'.sibling? a = some b) :
    (a ∈ ns ∧ b ∈ ns ∧ g.sibling? a = some b) ∨
      (a ∈ os ∧ b ∈ os ∧ b ≠ o.head ∧ g.sibling? a = some b) := by
  rw [h.sibling?] at hab
  rcases List.mem_append.1 ha with ha | ha
  · exact .inl ⟨ha, (hs.forward a ha b (.inr hab)).1, hab⟩
  · refine .inr ⟨ha, (ho.forward a ha b (.inr hab)).1, ?_, hab⟩
    rintro rfl
    exact ho.not_link_head ha (.inr hab)

include hd

theorem connect_next?_right {a : Nat} (ha : a ∈ os) : g'.next? a = g.next? a := by
  rw [h.next?, if_neg fun ht => hd (hs.tail_mem ht) ha]

include ho

/-- A successor after the connection: the ends of the first strand lead to the head of the second,
and all else is as before. -/
theorem connect_next?_cases {a b : Nat} (ha : a ∈ ns ++ os) (hab : g'.next? a = some b) :
    (a ∈ s.tails ∧ b = o.head) ∨ (a ∈ ns ∧ b ∈ ns ∧ g.next? a = some b) ∨
      (a ∈ os ∧ b ∈ os ∧ b ≠ o.head ∧ g.next? a = some b) := by
  rcases List.mem_append.1 ha with ha | ha
  · rw [h.next?] at hab
    split at hab
    · exact .inl ⟨‹_›, (Option.some.inj hab).symm⟩
    · exact .inr (.inl ⟨ha, (hs.forward a ha b (.inl hab)).1, hab⟩)
  · rw [connect_next?_right hs hd h ha] at hab
    refine .inr (.inr ⟨ha, (ho.forward a ha b (.inl hab)).1, ?_, hab⟩)
    rintro rfl
    exact ho.not_link_head ha (.inl hab)

/-- The head of the second strand is entered from the ends of the first. -/
theorem connect_countP_head :
    (ns ++ os).countP (fun m => g'.next? m = some o.head) = s.tails.length := by
  have hleft : ns.countP (fun m => g'.next? m = some o.head) = ns.countP (· ∈ s.tails) := by
    apply List.countP_congr
    intro m hm
    simp only [decide_eq_true_eq]
    constructor
    · intro hab
      rcases connect_next?_cases hs ho hd h (List.mem_append_left _ hm) hab with hc | hc | hc
      · exact hc.1
      · exact absurd ho.head_mem (hd hc.2.1)
      · exact absurd rfl hc.2.2.1
    · intro ht
      rw [h.next?, if_pos ht]
  have hright : os.countP (fun m => g'.next? m = some o.head) = 0 := by
    rw [List.countP_eq_zero]
    intro m hm
    rw [connect_next?_right hs hd h hm]
    simpa using fun hab => ho.not_link_head hm (.inl hab)
  rw [List.countP_append, hleft, hright,
    countP_mem_eq_length hs.nodup hs.nodup_tails fun _ ht => hs.tail_mem ht, Nat.add_zero]

/-- A node of the first strand is entered as before. -/
theorem connect_countP_left {b : Nat} (hb : b ∈ ns) :
    (ns ++ os).countP (fun m => g'.next? m = some b) = ns.countP fun m => g.next? m = some b := by
  have hne : b ≠ o.head := fun heq => hd hb (heq ▸ ho.head_mem)
  have hleft : ns.countP (fun m => g'.next? m = some b) =
      ns.countP fun m => g.next? m = some b := by
    apply List.countP_congr
    intro m _
    rw [h.next?]
    split
    · rename_i ht
      simp [hs.next?_tail ht, Ne.symm hne]
    · rfl
  have hright : os.countP (fun m => g'.next? m = some b) = 0 := by
    rw [List.countP_eq_zero]
    intro m hm
    rw [connect_next?_right hs hd h hm]
    simpa using fun hab => hd hb (ho.forward m hm b (.inl hab)).1
  rw [List.countP_append, hleft, hright, Nat.add_zero]

/-- A node of the second strand other than its head is entered as before. -/
theorem connect_countP_right {b : Nat} (hb : b ∈ os) (hne : b ≠ o.head) :
    (ns ++ os).countP (fun m => g'.next? m = some b) = os.countP fun m => g.next? m = some b := by
  have hleft : ns.countP (fun m => g'.next? m = some b) = 0 := by
    rw [List.countP_eq_zero]
    intro m hm hab
    rcases connect_next?_cases hs ho hd h (List.mem_append_left _ hm) (by simpa using hab) with
      hc | hc | hc
    · exact hne hc.2
    · exact hd hc.2.1 hb
    · exact hd hm hc.1
  have hright : os.countP (fun m => g'.next? m = some b) = os.countP fun m => g.next? m = some b :=
    List.countP_congr fun m hm => by rw [connect_next?_right hs hd h hm]
  rw [List.countP_append, hleft, hright, Nat.zero_add]

theorem connect_forward {a b : Nat} (ha : a ∈ ns ++ os) (hlink : g'.Link a b) :
    Before (ns ++ os) a b := by
  rcases hlink with hab | hab
  · rcases connect_next?_cases hs ho hd h ha hab with ⟨ht, rfl⟩ | ⟨ha, -, hab⟩ | ⟨ha, -, -, hab⟩
    · exact .across hd (hs.tail_mem ht) ho.head_mem
    · exact (hs.forward a ha b (.inl hab)).append_left ha
    · exact (ho.forward a ha b (.inl hab)).append_right hd ha
  · rcases connect_sibling?_cases hs ho h ha hab with ⟨ha, -, hab⟩ | ⟨ha, -, -, hab⟩
    · exact (hs.forward a ha b (.inr hab)).append_left ha
    · exact (ho.forward a ha b (.inr hab)).append_right hd ha

theorem connect_entered {b : Nat} (hb : b ∈ ns ++ os) (hne : b ≠ s.head) :
    ∃ a ∈ ns ++ os, g'.Link a b := by
  rcases List.mem_append.1 hb with hb | hb
  · obtain ⟨a, ha, hlink⟩ := hs.entered b hb hne
    refine ⟨a, List.mem_append_left _ ha, ?_⟩
    rw [Score.Link, h.next?, h.sibling?]
    split
    · rename_i ht
      rw [Score.Link, hs.next?_tail ht] at hlink
      exact .inr (hlink.resolve_left (by simp))
    · exact hlink
  · by_cases hh : b = o.head
    · have ht : s.tail ∈ s.tails := by simp
      refine ⟨s.tail, List.mem_append_left _ (hs.tail_mem ht), .inl ?_⟩
      rw [h.next?, if_pos ht, hh]
    · obtain ⟨a, ha, hlink⟩ := ho.entered b hb hh
      refine ⟨a, List.mem_append_right _ ha, ?_⟩
      rwa [Score.Link, connect_next?_right hs hd h ha, h.sibling?]

theorem connect : Woven g' { s with tail := o.tail, openTails := o.openTails } (ns ++ os) where
  nodup := List.nodup_append'.2 ⟨hs.nodup, ho.nodup, hd⟩
  bound n hn := by
    rw [← Score.isSome_join?, h.join?]
    split
    · rfl
    · rw [Score.isSome_join?]
      exact (List.mem_append.1 hn).elim (hs.bound n) (ho.bound n)
  head := by rw [List.head?_append, hs.head, Option.some_or]
  forward a ha b hlink := connect_forward hs ho hd h ha hlink
  entered b hb hne := connect_entered hs ho hd h hb hne
  joined a ha b hab := by
    rw [h.join?]
    rcases connect_next?_cases hs ho hd h ha hab with ⟨-, rfl⟩ | ⟨ha, hb, hab⟩ | ⟨ha, hb, hne, hab⟩
    · rw [if_pos rfl, connect_countP_head hs ho hd h]
    · have hne : b ≠ o.head := fun heq => hd hb (heq ▸ ho.head_mem)
      rw [if_neg hne, connect_countP_left hs ho hd h hb]
      exact hs.joined a ha b hab
    · rw [if_neg hne, connect_countP_right hs ho hd h hb hne]
      exact ho.joined a ha b hab
  unmixed a ha c hc b hab hcb := by
    rcases connect_next?_cases hs ho hd h ha hab with ⟨-, rfl⟩ | ⟨ha, hb, hab⟩ |
      ⟨ha, hb, -, hab⟩ <;>
      rcases connect_sibling?_cases hs ho h hc hcb with ⟨hc, hb', hcb⟩ | ⟨hc, hb', hne, hcb⟩
    · exact hd hb' ho.head_mem
    · exact hne rfl
    · exact hs.unmixed a ha c hc b hab hcb
    · exact hd hb hb'
    · exact hd hb' hb
    · exact ho.unmixed a ha c hc b hab hcb
  alone a ha c hc b hab hcb := by
    rcases connect_sibling?_cases hs ho h ha hab with ⟨ha, hb, hab⟩ | ⟨ha, hb, -, hab⟩ <;>
      rcases connect_sibling?_cases hs ho h hc hcb with ⟨hc, hb', hcb⟩ | ⟨hc, hb', -, hcb⟩
    · exact hs.alone a ha c hc b hab hcb
    · exact absurd hb' (hd hb)
    · exact absurd hb (hd hb')
    · exact ho.alone a ha c hc b hab hcb
  ends n := by
    have ho' := ho.ends n
    rw [show Strand.tails { s with tail := o.tail, openTails := o.openTails } = o.tails from rfl,
      ho', List.mem_append]
    constructor
    · rintro ⟨hn, hnone⟩
      exact ⟨.inr hn, by rw [connect_next?_right hs hd h hn, hnone]⟩
    · rintro ⟨hn | hn, hnone⟩
      · rw [h.next?] at hnone
        split at hnone
        · simp at hnone
        · exact absurd ((hs.ends n).2 ⟨hn, hnone⟩) ‹_›
      · exact ⟨hn, by rw [← hnone, connect_next?_right hs hd h hn]⟩
  nodup_tails := ho.nodup_tails
  siblings := hs.siblings_mono fun a _ b hab => by rw [h.sibling?, hab]
  last := by rw [h.sibling?, hs.last]

end Connect

/-! ## One strand beside another -/

section Branch

variable (hs : Woven g s ns) (ho : Woven g o os) (hd : ns.Disjoint os)
  (h : s.Branched o.head g g')

include hs ho h

theorem branch_next?_cases {a b : Nat} (ha : a ∈ ns ++ os) (hab : g'.next? a = some b) :
    (a ∈ ns ∧ b ∈ ns ∧ g.next? a = some b) ∨
      (a ∈ os ∧ b ∈ os ∧ b ≠ o.head ∧ g.next? a = some b) := by
  rw [h.next?] at hab
  rcases List.mem_append.1 ha with ha | ha
  · exact .inl ⟨ha, (hs.forward a ha b (.inl hab)).1, hab⟩
  · refine .inr ⟨ha, (ho.forward a ha b (.inl hab)).1, ?_, hab⟩
    rintro rfl
    exact ho.not_link_head ha (.inl hab)

/-- A sibling after the branch is added: the last one of the first strand leads to the head of the
second, and all else is as before. -/
theorem branch_sibling?_cases {a b : Nat} (ha : a ∈ ns ++ os) (hab : g'.sibling? a = some b) :
    (a = s.lastSibling ∧ b = o.head) ∨ (a ∈ ns ∧ b ∈ ns ∧ g.sibling? a = some b) ∨
      (a ∈ os ∧ b ∈ os ∧ b ≠ o.head ∧ g.sibling? a = some b) := by
  rw [h.sibling?] at hab
  split at hab
  · exact .inl ⟨‹_›, (Option.some.inj hab).symm⟩
  · rcases List.mem_append.1 ha with ha | ha
    · exact .inr (.inl ⟨ha, (hs.forward a ha b (.inr hab)).1, hab⟩)
    · refine .inr (.inr ⟨ha, (ho.forward a ha b (.inr hab)).1, ?_, hab⟩)
      rintro rfl
      exact ho.not_link_head ha (.inr hab)

include hd

theorem branch_forward {a b : Nat} (ha : a ∈ ns ++ os) (hlink : g'.Link a b) :
    Before (ns ++ os) a b := by
  rcases hlink with hab | hab
  · rcases branch_next?_cases hs ho h ha hab with ⟨ha, -, hab⟩ | ⟨ha, -, -, hab⟩
    · exact (hs.forward a ha b (.inl hab)).append_left ha
    · exact (ho.forward a ha b (.inl hab)).append_right hd ha
  · rcases branch_sibling?_cases hs ho h ha hab with ⟨rfl, rfl⟩ | ⟨ha, -, hab⟩ | ⟨ha, -, -, hab⟩
    · exact .across hd hs.lastSibling_mem ho.head_mem
    · exact (hs.forward a ha b (.inr hab)).append_left ha
    · exact (ho.forward a ha b (.inr hab)).append_right hd ha

omit hd in
theorem branch_entered {b : Nat} (hb : b ∈ ns ++ os) (hne : b ≠ s.head) :
    ∃ a ∈ ns ++ os, g'.Link a b := by
  -- an old link survives: it is not the sibling of the last one, which had none
  have hkeep : ∀ a, g.Link a b → g'.Link a b := by
    intro a hlink
    rw [Score.Link, h.next?, h.sibling?]
    split
    · rename_i heq
      rw [Score.Link, heq, hs.last] at hlink
      rw [heq]
      exact .inl (hlink.resolve_right (by simp))
    · exact hlink
  rcases List.mem_append.1 hb with hb | hb
  · obtain ⟨a, ha, hlink⟩ := hs.entered b hb hne
    exact ⟨a, List.mem_append_left _ ha, hkeep a hlink⟩
  · by_cases hh : b = o.head
    · refine ⟨s.lastSibling, List.mem_append_left _ hs.lastSibling_mem, .inr ?_⟩
      rw [h.sibling?, if_pos rfl, hh]
    · obtain ⟨a, ha, hlink⟩ := ho.entered b hb hh
      exact ⟨a, List.mem_append_right _ ha, hkeep a hlink⟩

/-- Every node is the successor of as many as before. -/
theorem branch_countP (b : Nat) :
    (ns ++ os).countP (fun m => g'.next? m = some b) =
      if b ∈ ns then ns.countP fun m => g.next? m = some b
      else os.countP fun m => g.next? m = some b := by
  simp only [h.next?, List.countP_append]
  split
  · rename_i hn
    have hright : os.countP (fun m => g.next? m = some b) = 0 := by
      rw [List.countP_eq_zero]
      intro m hm
      simpa using fun hab => hd hn (ho.forward m hm b (.inl hab)).1
    rw [hright, Nat.add_zero]
  · rename_i hn
    have hleft : ns.countP (fun m => g.next? m = some b) = 0 := by
      rw [List.countP_eq_zero]
      intro m hm
      simpa using fun hab => hn (hs.forward m hm b (.inl hab)).1
    rw [hleft, Nat.zero_add]

theorem branch :
    Woven g' { s with
      lastSibling := o.lastSibling
      openTails := s.openTails ++ o.tail :: o.openTails } (ns ++ os) where
  nodup := List.nodup_append'.2 ⟨hs.nodup, ho.nodup, hd⟩
  bound n hn := by
    rw [← Score.isSome_join?, h.join?, Score.isSome_join?]
    exact (List.mem_append.1 hn).elim (hs.bound n) (ho.bound n)
  head := by rw [List.head?_append, hs.head, Option.some_or]
  forward a ha b hlink := branch_forward hs ho hd h ha hlink
  entered b hb hne := branch_entered hs ho h hb hne
  joined a ha b hab := by
    rw [h.join?]
    rcases branch_next?_cases hs ho h ha hab with ⟨ha, hb, hab⟩ | ⟨ha, hb, -, hab⟩
    · rw [branch_countP hs ho hd h b, if_pos hb]
      exact hs.joined a ha b hab
    · rw [branch_countP hs ho hd h b, if_neg fun hn => hd hn hb]
      exact ho.joined a ha b hab
  unmixed a ha c hc b hab hcb := by
    rcases branch_next?_cases hs ho h ha hab with ⟨ha, hb, hab⟩ | ⟨ha, hb, hne, hab⟩ <;>
      rcases branch_sibling?_cases hs ho h hc hcb with
        ⟨-, heq⟩ | ⟨hc, hb', hcb⟩ | ⟨hc, hb', -, hcb⟩
    · exact hd hb (heq ▸ ho.head_mem)
    · exact hs.unmixed a ha c hc b hab hcb
    · exact hd hb hb'
    · exact hne heq
    · exact hd hb' hb
    · exact ho.unmixed a ha c hc b hab hcb
  alone a ha c hc b hab hcb := by
    rcases branch_sibling?_cases hs ho h ha hab with
        ⟨ha, heq⟩ | ⟨ha, hb, hab⟩ | ⟨ha, hb, hne, hab⟩ <;>
      rcases branch_sibling?_cases hs ho h hc hcb with
        ⟨hc, heq'⟩ | ⟨hc, hb', hcb⟩ | ⟨hc, hb', hne', hcb⟩
    · rw [ha, hc]
    · exact absurd (heq ▸ ho.head_mem) (hd hb')
    · exact absurd heq hne'
    · exact absurd (heq' ▸ ho.head_mem) (hd hb)
    · exact hs.alone a ha c hc b hab hcb
    · exact absurd hb' (hd hb)
    · exact absurd heq' hne
    · exact absurd hb (hd hb')
    · exact ho.alone a ha c hc b hab hcb
  ends n := by
    have hs' := hs.ends n
    have ho' := ho.ends n
    simp only [Strand.mem_tails, List.mem_append, List.mem_cons] at hs' ho' ⊢
    rw [h.next?, or_and_right, ← hs', ← ho', or_assoc]
  nodup_tails := by
    change (s.tails ++ o.tails).Nodup
    exact List.nodup_append'.2 ⟨hs.nodup_tails, ho.nodup_tails,
      fun _ ht ht' => hd (hs.tail_mem ht) (ho.tail_mem ht')⟩
  siblings := by
    -- up to the last sibling of `s`, over to the head of `o`, and on to the last sibling of `o`
    have hleft : ∀ a ∈ ns, ∀ b, g.sibling? a = some b → g'.sibling? a = some b := by
      intro a _ b hab
      rw [h.sibling?, if_neg, hab]
      rintro rfl
      simp [hs.last] at hab
    have hright : ∀ a ∈ os, ∀ b, g.sibling? a = some b → g'.sibling? a = some b := by
      intro a ha b hab
      rw [h.sibling?, if_neg, hab]
      rintro rfl
      exact hd hs.lastSibling_mem ha
    refine ((hs.siblings_mono hleft).tail ?_).trans (ho.siblings_mono hright)
    rw [h.sibling?, if_pos rfl]
  last := by
    have hne : o.lastSibling ≠ s.lastSibling := fun heq =>
      hd hs.lastSibling_mem (heq ▸ ho.lastSibling_mem)
    rw [h.sibling?, if_neg hne, ho.last]

end Branch

end Woven

end Jianpu
