import Jianpu.Proofs.Score.Shape
import Mathlib.Data.List.TakeWhile

/-!
# What a shape starts with

The fronts of a shape are the nodes with which it starts: the first node of every strand that is
beside others at its beginning. When one of them is over it is removed, and what came after it moves
up, unless strands beside it are not over yet. `Shape.remove_cases` says which nodes are at the
front then, and how the links tell whether something was released.

Nodes that take no time can be erased from a shape. The fronts up to the first that is erased stay
where they are (`Shape.takeWhile_fronts_isPrefix`), and removing a front goes along with erasing
others (`Shape.erase_remove`).
-/

namespace Jianpu.Shape

variable {α β : Type} {v w : Shape α} {n : α} {k : Option α}

/-- No strand beside another one is empty. -/
def Tight : Shape α → Prop
  | nil => True
  | node _ rest => rest.Tight
  | fork l r rest => (l ≠ nil ∧ r ≠ nil) ∧ l.Tight ∧ r.Tight ∧ rest.Tight

theorem Tight.append (hv : v.Tight) (hw : w.Tight) : (v ++ w).Tight := by
  induction v with
  | nil => exact hw
  | node a rest ih => exact ih hv
  | fork l r rest _ _ ih => exact ⟨hv.1, hv.2.1, hv.2.2.1, ih hv.2.2.2⟩

theorem Tight.beside (hv : v.Tight) (hw : w.Tight) : (v.beside w).Tight := by
  by_cases hv' : v = nil
  · rwa [hv', nil_beside]
  · by_cases hw' : w = nil
    · rwa [hw', beside_nil]
    · rw [beside_of_ne_nil hv' hw']
      exact ⟨⟨hv', hw'⟩, hv, hw, trivial⟩

theorem beside_eq_nil : v.beside w = nil ↔ v = nil ∧ w = nil := by
  cases v with
  | nil => simp
  | node | fork => cases w <;> simp [beside]

theorem toList_ne_nil (hw : w.Tight) (h : w ≠ nil) : w.toList ≠ [] := by
  induction w with
  | nil => exact absurd rfl h
  | node a rest => simp [toList]
  | fork l r rest ihl => simp [toList, ihl hw.2.1 hw.1.1]

theorem nexts_beside (v w : Shape α) (k : Option α) :
    (v.beside w).nexts k = v.nexts k ++ w.nexts k := by
  by_cases hv : v = nil
  · rw [hv, nil_beside]
    rfl
  · by_cases hw : w = nil
    · rw [hw, beside_nil, nexts, List.append_nil]
    · rw [beside_of_ne_nil hv hw, nexts, nexts, List.append_nil]
      rfl

/-- What follows a node is within the shape and not its first node, or comes after the whole. -/
theorem snd_of_mem_nexts (hw : w.Tight) {k : Option α} {x : α × Option α} (hx : x ∈ w.nexts k) :
    x.2 = k ∨ ∃ b ∈ w.toList.tail, x.2 = some b := by
  induction w generalizing k with
  | nil => cases hx
  | node a rest ih =>
    rcases List.mem_cons.1 hx with rfl | hx
    · cases hrest : rest.toList with
      | nil => exact .inl rfl
      | cons b bs => exact .inr ⟨b, by simp [toList, hrest], rfl⟩
    · rcases ih hw hx with heq | ⟨b, hb, heq⟩
      · exact .inl heq
      · exact .inr ⟨b, List.mem_of_mem_tail hb, heq⟩
  | fork l r rest ihl ihr ih =>
    have htail : (fork l r rest).toList.tail = l.toList.tail ++ (r.toList ++ rest.toList) :=
      List.tail_append_of_ne_nil (toList_ne_nil hw.2.1 hw.1.1)
    rw [htail]
    -- what comes after the branches
    have hrest : x.2 = rest.toList.head?.or k →
        x.2 = k ∨ ∃ b ∈ l.toList.tail ++ (r.toList ++ rest.toList), x.2 = some b := by
      intro heq
      rw [heq]
      cases rest.toList with
      | nil => exact .inl rfl
      | cons b bs => exact .inr ⟨b, by simp, rfl⟩
    simp only [nexts, List.mem_append] at hx
    rcases hx with hx | hx | hx
    · rcases ihl hw.2.1 hx with heq | ⟨b, hb, heq⟩
      · exact hrest heq
      · exact .inr ⟨b, by simp [hb], heq⟩
    · rcases ihr hw.2.2.1 hx with heq | ⟨b, hb, heq⟩
      · exact hrest heq
      · exact .inr ⟨b, by simp [List.mem_of_mem_tail hb], heq⟩
    · rcases ih hw.2.2.2 hx with heq | ⟨b, hb, heq⟩
      · exact .inl heq
      · exact .inr ⟨b, by simp [List.mem_of_mem_tail hb], heq⟩

theorem snd_ne_of_mem_nexts (hw : w.Tight) {x : α × Option α} (hx : x ∈ w.nexts k)
    (hk : n ∉ k) (hn : n ∉ w.toList) : x.2 ≠ some n := by
  intro heq
  rcases snd_of_mem_nexts hw hx with hx | ⟨b, hb, hx⟩
  · exact hk (hx.symm.trans heq)
  · obtain rfl := Option.some.inj (hx.symm.trans heq)
    exact hn (List.mem_of_mem_tail hb)

theorem notMem_or_head? (hw : n ∉ w.toList) (hk : n ∉ k) : n ∉ w.toList.head?.or k := by
  intro hmem
  rcases Option.or_eq_some_iff.1 hmem with hmem | ⟨-, hmem⟩
  · exact hw (List.mem_of_mem_head? hmem)
  · exact hk hmem

/-- Something comes before what is after the whole. -/
theorem exists_mem_nexts (hw : w.Tight) (h : w ≠ nil) (k : Option α) : ∃ m, (m, k) ∈ w.nexts k := by
  induction w with
  | nil => exact absurd rfl h
  | node a rest ih =>
    by_cases hrest : rest = nil
    · exact ⟨a, by simp [hrest, nexts, toList]⟩
    · obtain ⟨m, hm⟩ := ih hw hrest
      exact ⟨m, List.mem_cons_of_mem _ hm⟩
  | fork l r rest ihl _ ih =>
    by_cases hrest : rest = nil
    · obtain ⟨m, hm⟩ := ihl hw.2.1 hw.1.1
      exact ⟨m, by simp [hrest, nexts, toList, hm]⟩
    · obtain ⟨m, hm⟩ := ih hw.2.2.2 hrest
      exact ⟨m, by simp [nexts, hm]⟩

/-! ## Fronts -/

/-- The nodes with which a shape starts. -/
def fronts : Shape α → List α
  | nil => []
  | node a _ => [a]
  | fork l r _ => l.fronts ++ r.fronts

theorem fronts_append (hv : v ≠ nil) (w : Shape α) : (v ++ w).fronts = v.fronts := by
  cases v with
  | nil => exact absurd rfl hv
  | node | fork => rfl

theorem fronts_beside (v w : Shape α) : (v.beside w).fronts = v.fronts ++ w.fronts := by
  by_cases hv : v = nil
  · rw [hv, nil_beside]
    rfl
  · by_cases hw : w = nil
    · rw [hw, beside_nil, fronts, List.append_nil]
    · rw [beside_of_ne_nil hv hw, fronts]

theorem fronts_sublist (w : Shape α) : w.fronts.Sublist w.toList := by
  induction w with
  | nil => exact List.Sublist.refl _
  | node a rest => exact (List.nil_sublist _).cons_cons a
  | fork l r rest ihl ihr => exact ihl.append (ihr.trans (List.sublist_append_left ..))

theorem fronts_subset (w : Shape α) : w.fronts ⊆ w.toList := w.fronts_sublist.subset

/-- Every node that is not at the front with its sibling. -/
def inner : Shape α → List (α × Option α)
  | nil => []
  | node _ rest => rest.siblings none
  | fork l r rest => l.inner ++ (r.inner ++ rest.siblings none)

theorem inner_subset_siblings (w : Shape α) (k : Option α) : w.inner ⊆ w.siblings k := by
  induction w generalizing k with
  | nil => exact List.Subset.refl _
  | node a rest => exact List.subset_cons_self ..
  | fork l r rest ihl ihr =>
    intro x hx
    simp only [inner, siblings, List.mem_append] at hx ⊢
    rcases hx with hx | hx | hx
    · exact .inl (ihl _ hx)
    · exact .inr (.inl (ihr _ hx))
    · exact .inr (.inr hx)

theorem mem_of_mem_inner {x : α × Option α} (hx : x ∈ w.inner) : x.1 ∈ w.toList :=
  mem_of_mem_siblings (inner_subset_siblings w none hx)

theorem inner_beside (v w : Shape α) : (v.beside w).inner = v.inner ++ w.inner := by
  by_cases hv : v = nil
  · rw [hv, nil_beside]
    rfl
  · by_cases hw : w = nil
    · rw [hw, beside_nil, inner, List.append_nil]
    · rw [beside_of_ne_nil hv hw, inner, siblings, List.append_nil]

theorem inner_append_subset (v w : Shape α) : (v ++ w).inner ⊆ v.inner ++ w.siblings none := by
  cases v with
  | nil => exact inner_subset_siblings w none
  | node a rest =>
    by_cases hrest : rest = nil
    · rw [hrest]
      exact List.Subset.refl _
    · rw [node_append, inner, siblings_append hrest]
      exact List.Subset.refl _
  | fork l r rest =>
    by_cases hrest : rest = nil
    · rw [hrest, fork_append, nil_append, inner, inner, siblings, List.append_nil,
        List.append_assoc]
      exact List.Subset.refl _
    · rw [fork_append, inner, inner, siblings_append hrest]
      simp

/-! ## Removing a front -/

section Remove

variable [DecidableEq α]

/-- What is left of a shape when a node at its front is over. -/
def remove (n : α) : Shape α → Shape α
  | nil => nil
  | node a rest => if a = n then rest else node a rest
  | fork l r rest => (l.remove n).beside (r.remove n) ++ rest

theorem remove_of_notMem (hw : w.Tight) (h : n ∉ w.fronts) : w.remove n = w := by
  induction w with
  | nil => rfl
  | node a rest =>
    rw [remove, if_neg fun heq => h (by simp [fronts, heq])]
  | fork l r rest ihl ihr =>
    rw [fronts, List.mem_append, not_or] at h
    rw [remove, ihl hw.2.1 h.1, ihr hw.2.2.1 h.2, beside_of_ne_nil hw.1.1 hw.1.2]
    rfl

theorem Tight.remove (hw : w.Tight) (n : α) : (w.remove n).Tight := by
  induction w with
  | nil => trivial
  | node a rest =>
    rw [Shape.remove]
    split
    · exact hw
    · exact hw
  | fork l r rest ihl ihr => exact ((ihl hw.2.1).beside (ihr hw.2.2.1)).append hw.2.2.2

theorem nexts_remove_subset (w : Shape α) (n : α) (k : Option α) :
    (w.remove n).nexts k ⊆ w.nexts k := by
  induction w generalizing k with
  | nil => exact List.Subset.refl _
  | node a rest =>
    rw [remove]
    split
    · exact List.subset_cons_self ..
    · exact List.Subset.refl _
  | fork l r rest ihl ihr =>
    intro x hx
    simp only [remove, nexts_append, nexts_beside, nexts, List.mem_append] at hx ⊢
    rcases hx with (hx | hx) | hx
    · exact .inl (ihl _ hx)
    · exact .inr (.inl (ihr _ hx))
    · exact .inr (.inr hx)

theorem toList_remove_subset (w : Shape α) (n : α) : (w.remove n).toList ⊆ w.toList := by
  rw [← map_fst_nexts w none, ← map_fst_nexts (w.remove n) none]
  exact List.map_subset _ (nexts_remove_subset w n none)

theorem inner_remove_subset (w : Shape α) (n : α) : (w.remove n).inner ⊆ w.inner := by
  induction w with
  | nil => exact List.Subset.refl _
  | node a rest =>
    rw [remove]
    split
    · exact inner_subset_siblings rest none
    · exact List.Subset.refl _
  | fork l r rest ihl ihr =>
    intro x hx
    have hx := inner_append_subset _ _ hx
    simp only [inner_beside, inner, List.mem_append] at hx ⊢
    rcases hx with (hx | hx) | hx
    · exact .inl (ihl hx)
    · exact .inr (.inl (ihr hx))
    · exact .inr (.inr hx)

/-- A node at the front is the first one, or at the front of one of two branches. -/
inductive AtFront (n : α) : Shape α → Prop
  | node {rest : Shape α} (hw : (node n rest).Tight) (hnodup : (node n rest).toList.Nodup) :
      AtFront n (node n rest)
  | left {l r rest : Shape α} (hw : (fork l r rest).Tight) (hnodup : (fork l r rest).toList.Nodup)
      (hn : n ∈ l.toList) (h : AtFront n l)
      (heq : (fork l r rest).remove n = (l.remove n).beside r ++ rest) : AtFront n (fork l r rest)
  | right {l r rest : Shape α} (hw : (fork l r rest).Tight) (hnodup : (fork l r rest).toList.Nodup)
      (hn : n ∈ r.toList) (h : AtFront n r)
      (heq : (fork l r rest).remove n = l.beside (r.remove n) ++ rest) : AtFront n (fork l r rest)

theorem atFront (hw : w.Tight) (hnodup : w.toList.Nodup) (hn : n ∈ w.fronts) : AtFront n w := by
  induction w with
  | nil => cases hn
  | node a rest =>
    obtain rfl := List.mem_singleton.1 hn
    exact .node hw hnodup
  | fork l r rest ihl ihr =>
    obtain ⟨hl, hright, hdl⟩ := List.nodup_append.1 hnodup
    have hr := (List.nodup_append.1 hright).1
    rcases List.mem_append.1 hn with hn | hn
    · have hmem := fronts_subset l hn
      have hnotMem : n ∉ r.fronts := fun hn' =>
        hdl n hmem n (List.mem_append_left _ (fronts_subset r hn')) rfl
      refine .left hw hnodup hmem (ihl hw.2.1 hl hn) ?_
      rw [remove, remove_of_notMem hw.2.2.1 hnotMem]
    · have hmem := fronts_subset r hn
      have hnotMem : n ∉ l.fronts := fun hn' =>
        hdl n (fronts_subset l hn') n (List.mem_append_left _ hmem) rfl
      refine .right hw hnodup hmem (ihr hw.2.2.1 hr hn) ?_
      rw [remove, remove_of_notMem hw.2.1 hnotMem]

theorem toList_remove (h : AtFront n w) : (w.remove n).toList = w.toList.erase n := by
  induction h with
  | node => simp [remove, toList]
  | left _ _ hn _ heq ih =>
    rw [heq, toList_append, toList_beside, ih, toList, List.append_assoc,
      List.erase_append_left _ hn]
  | right _ hnodup hn _ heq ih =>
    have hnotMem := fun hn' =>
      (List.nodup_append.1 hnodup).2.2 n hn' n (List.mem_append_left _ hn) rfl
    rw [heq, toList_append, toList_beside, ih, toList, List.append_assoc,
      List.erase_append_right _ hnotMem, List.erase_append_left _ hn]

/-- When the node is over, `v` can start: the node led to it, and nothing else that is left does. -/
structure Releases (w : Shape α) (n : α) (k : Option α) (v : Shape α) : Prop where
  ne_nil : v ≠ nil
  tight : v.Tight
  next : (n, v.toList.head?) ∈ w.nexts k
  only : ∀ x ∈ (w.remove n).nexts k, x.2 ≠ v.toList.head?
  inner : v.siblings none ⊆ w.inner

/-- When the node is over, nothing can start: something else leads on to the same node, or the whole
is over. -/
def Withholds (w : Shape α) (n : α) (k : Option α) : Prop :=
  ∃ h, (n, h) ∈ w.nexts k ∧ ((∃ m, (m, h) ∈ (w.remove n).nexts k) ∨ w.remove n = nil ∧ h = k)

theorem Releases.head_mem (h : w.Releases n k v) : ∃ a ∈ w.toList, v.toList.head? = some a := by
  obtain ⟨a, as, ha⟩ := List.exists_cons_of_ne_nil (toList_ne_nil h.tight h.ne_nil)
  have hmem : a ∈ (v.siblings none).map Prod.fst := by simp [map_fst_siblings, ha]
  obtain ⟨x, hx, rfl⟩ := List.mem_map.1 hmem
  exact ⟨x.1, mem_of_mem_inner (h.inner hx), by rw [ha]; rfl⟩

section Branch

variable {b o rest : Shape α}

/-- What a branch releases, the whole does. Here `o` is beside the branch and `rest` comes after. -/
theorem Releases.branch (h : b.Releases n (rest.toList.head?.or k) v)
    (hnexts : b.nexts (rest.toList.head?.or k) ⊆ w.nexts k) (hinner : b.inner ⊆ w.inner)
    (hleft : ∀ x ∈ (w.remove n).nexts k, x ∈ (b.remove n).nexts (rest.toList.head?.or k) ∨
      x ∈ o.nexts (rest.toList.head?.or k) ∨ x ∈ rest.nexts k)
    (ho : o.Tight) (hrest : rest.Tight)
    (hapart : ∀ a ∈ b.toList, a ∉ o.toList ∧ a ∉ rest.toList ∧ a ∉ k) : w.Releases n k v := by
  obtain ⟨a, ha, hhead⟩ := h.head_mem
  obtain ⟨hao, har, hak⟩ := hapart a ha
  refine ⟨h.ne_nil, h.tight, hnexts h.next, fun x hx => ?_, List.Subset.trans h.inner hinner⟩
  rcases hleft x hx with hx | hx | hx
  · exact h.only x hx
  · exact hhead ▸ snd_ne_of_mem_nexts ho hx (notMem_or_head? har hak) hao
  · exact hhead ▸ snd_ne_of_mem_nexts hrest hx hak har

/-- What a branch withholds, the whole does: what is beside the branch is not over yet. -/
theorem Withholds.branch (h : b.Withholds n (rest.toList.head?.or k))
    (hnexts : b.nexts (rest.toList.head?.or k) ⊆ w.nexts k)
    (hleft : (b.remove n).nexts (rest.toList.head?.or k) ⊆ (w.remove n).nexts k)
    (hbeside : o.nexts (rest.toList.head?.or k) ⊆ (w.remove n).nexts k) (ho : o.Tight)
    (hne : o ≠ nil) : w.Withholds n k := by
  obtain ⟨h, hn, hcase⟩ := h
  refine ⟨h, hnexts hn, .inl ?_⟩
  rcases hcase with ⟨m, hm⟩ | ⟨-, rfl⟩
  · exact ⟨m, hleft hm⟩
  · obtain ⟨m, hm⟩ := exists_mem_nexts ho hne (rest.toList.head?.or k)
    exact ⟨m, hbeside hm⟩

end Branch

/-- **What is at the front when one of its nodes is over.** -/
theorem remove_cases (h : AtFront n w) (hk : ∀ a ∈ k, a ∉ w.toList) :
    ∃ before after v, w.fronts = before ++ n :: after ∧
      (w.remove n).fronts = before ++ (v.fronts ++ after) ∧
      (w.Releases n k v ∨ v = nil ∧ w.Withholds n k) := by
  induction h generalizing k with
  | @node rest hw hnodup =>
    have hremove : (node n rest).remove n = rest := if_pos rfl
    refine ⟨[], [], rest, rfl, by simp [hremove], ?_⟩
    by_cases hrest : rest = nil
    · refine .inr ⟨hrest, k, by simp [nexts, hrest, toList], .inr ⟨hremove.trans hrest, rfl⟩⟩
    · have htight : rest.Tight := hw
      obtain ⟨a, as, ha⟩ := List.exists_cons_of_ne_nil (toList_ne_nil htight hrest)
      refine .inl ⟨hrest, hw, by simp [nexts, ha], fun x hx heq => ?_, List.Subset.refl _⟩
      -- the first node follows none of the others
      rw [hremove] at hx
      rw [ha, List.head?_cons] at heq
      rcases snd_of_mem_nexts htight hx with hx | ⟨b, hb, hx⟩
      · exact hk a (hx.symm.trans heq) (by simp [toList, ha])
      · rw [ha, List.tail_cons] at hb
        obtain rfl := Option.some.inj (hx.symm.trans heq)
        have hnodup := (List.nodup_cons.1 hnodup).2
        rw [ha] at hnodup
        exact (List.nodup_cons.1 hnodup).1 hb
  | @left l r rest hw hnodup hn h heq ih =>
    obtain ⟨-, -, hdisjoint⟩ := List.nodup_append.1 hnodup
    have hapart : ∀ a ∈ l.toList, a ∉ r.toList ∧ a ∉ rest.toList ∧ a ∉ k := fun a ha =>
      ⟨fun hr => hdisjoint a ha a (List.mem_append_left _ hr) rfl,
        fun hr => hdisjoint a ha a (List.mem_append_right _ hr) rfl,
        fun hak => hk a hak (by simp [toList, ha])⟩
    obtain ⟨before, after, v, hfronts, hfronts', hcase⟩ := ih fun a ha hmem =>
      notMem_or_head? (hapart a hmem).2.1 (hapart a hmem).2.2 ha
    have hnexts : ((fork l r rest).remove n).nexts k =
        (l.remove n).nexts (rest.toList.head?.or k) ++ r.nexts (rest.toList.head?.or k) ++
          rest.nexts k := by
      rw [heq, nexts_append, nexts_beside]
    refine ⟨before, after ++ r.fronts, v, by simp [fronts, hfronts], ?_, ?_⟩
    · rw [heq, fronts_append fun hnil => hw.1.2 (beside_eq_nil.1 hnil).2, fronts_beside, hfronts']
      simp
    · refine hcase.imp (fun hv => hv.branch ?_ ?_ ?_ hw.2.2.1 hw.2.2.2 hapart) fun hv =>
        ⟨hv.1, hv.2.branch ?_ ?_ ?_ hw.2.2.1 hw.1.2⟩
      · exact List.subset_append_left ..
      · exact List.subset_append_left ..
      · simp [hnexts]
      · exact List.subset_append_left ..
      · simp [hnexts]
      · simp [hnexts]
  | @right l r rest hw hnodup hn h heq ih =>
    obtain ⟨-, hright, hdisjoint⟩ := List.nodup_append.1 hnodup
    have hapart : ∀ a ∈ r.toList, a ∉ l.toList ∧ a ∉ rest.toList ∧ a ∉ k := fun a ha =>
      ⟨fun hl => hdisjoint a hl a (List.mem_append_left _ ha) rfl,
        fun hr => (List.nodup_append.1 hright).2.2 a ha a hr rfl,
        fun hak => hk a hak (by simp [toList, ha])⟩
    obtain ⟨before, after, v, hfronts, hfronts', hcase⟩ := ih fun a ha hmem =>
      notMem_or_head? (hapart a hmem).2.1 (hapart a hmem).2.2 ha
    have hnexts : ((fork l r rest).remove n).nexts k =
        l.nexts (rest.toList.head?.or k) ++ (r.remove n).nexts (rest.toList.head?.or k) ++
          rest.nexts k := by
      rw [heq, nexts_append, nexts_beside]
    refine ⟨l.fronts ++ before, after, v, by simp [fronts, hfronts], ?_, ?_⟩
    · rw [heq, fronts_append fun hnil => hw.1.1 (beside_eq_nil.1 hnil).1, fronts_beside, hfronts']
      simp
    · refine hcase.imp (fun hv => hv.branch ?_ ?_ ?_ hw.2.1 hw.2.2.2 hapart) fun hv =>
        ⟨hv.1, hv.2.branch ?_ ?_ ?_ hw.2.1 hw.1.1⟩
      · exact fun x hx => by simp [nexts, hx]
      · exact fun x hx => by simp [inner, hx]
      · intro x hx
        simp only [hnexts, List.mem_append] at hx
        tauto
      · exact fun x hx => by simp [nexts, hx]
      · simp [hnexts]
      · simp [hnexts]

theorem mem_toList_remove (h : AtFront n w) (hnodup : w.toList.Nodup) {m : α} :
    m ∈ (w.remove n).toList ↔ m ≠ n ∧ m ∈ w.toList := by
  rw [toList_remove h, hnodup.mem_erase_iff]

/-- The other fronts stay at the front. -/
theorem mem_fronts_remove (h : AtFront n w) {m : α} (hm : m ∈ w.fronts) (hne : m ≠ n) :
    m ∈ (w.remove n).fronts := by
  obtain ⟨before, after, v, hfronts, hfronts', -⟩ := remove_cases h (k := none) (by simp)
  rw [hfronts] at hm
  rw [hfronts']
  simp only [List.mem_append, List.mem_cons] at hm ⊢
  tauto

theorem remove_append (hv : v ≠ nil) (w : Shape α) (n : α) :
    (v ++ w).remove n = v.remove n ++ w := by
  cases v with
  | nil => exact absurd rfl hv
  | node a rest =>
    rw [node_append, remove, remove]
    split <;> rfl
  | fork l r rest => rw [fork_append, remove, remove, append_assoc]

theorem remove_beside (v w : Shape α) (n : α) :
    (v.beside w).remove n = (v.remove n).beside (w.remove n) := by
  by_cases hv : v = nil
  · rw [hv, nil_beside, remove, nil_beside]
  · by_cases hw : w = nil
    · rw [hw, beside_nil, remove, beside_nil]
    · rw [beside_of_ne_nil hv hw, remove, append_nil]

end Remove

/-! ## Erasing nodes -/

/-- The shape without some of its nodes. -/
def erase (keep : α → Bool) : Shape α → Shape α
  | nil => nil
  | node a rest => if keep a then node a (rest.erase keep) else rest.erase keep
  | fork l r rest => (l.erase keep).beside (r.erase keep) ++ rest.erase keep

section Erase

variable {keep : α → Bool}

theorem erase_append (v w : Shape α) : (v ++ w).erase keep = v.erase keep ++ w.erase keep := by
  induction v with
  | nil => rfl
  | node a rest ih =>
    rw [node_append, erase, erase, ih]
    split <;> rfl
  | fork l r rest _ _ ih => rw [fork_append, erase, erase, ih, append_assoc]

theorem erase_beside (v w : Shape α) :
    (v.beside w).erase keep = (v.erase keep).beside (w.erase keep) := by
  by_cases hv : v = nil
  · rw [hv, nil_beside, erase, nil_beside]
  · by_cases hw : w = nil
    · rw [hw, beside_nil, erase, beside_nil]
    · rw [beside_of_ne_nil hv hw, erase, erase, append_nil]

theorem toList_erase (w : Shape α) : (w.erase keep).toList = w.toList.filter keep := by
  induction w with
  | nil => rfl
  | node a rest ih =>
    rw [erase, toList]
    split
    · rename_i ha
      rw [List.filter_cons_of_pos ha, toList, ih]
    · rename_i ha
      rw [List.filter_cons_of_neg ha, ih]
  | fork l r rest ihl ihr ih =>
    rw [erase, toList_append, toList_beside, ihl, ihr, ih, toList, List.filter_append,
      List.filter_append, List.append_assoc]

theorem erase_eq_self (hw : w.Tight) (h : ∀ a ∈ w.toList, keep a = true) : w.erase keep = w := by
  induction w with
  | nil => rfl
  | node a rest ih =>
    obtain ⟨ha, hrest⟩ := List.forall_mem_cons.1 h
    rw [erase, if_pos ha, ih hw hrest]
  | fork l r rest ihl ihr ih =>
    simp only [toList, List.forall_mem_append] at h
    rw [erase, ihl hw.2.1 h.1, ihr hw.2.2.1 h.2.1, ih hw.2.2.2 h.2.2,
      beside_of_ne_nil hw.1.1 hw.1.2]
    rfl

theorem Tight.erase (hw : w.Tight) : (w.erase keep).Tight := by
  induction w with
  | nil => trivial
  | node a rest ih =>
    rw [Shape.erase]
    split
    · exact ih hw
    · exact ih hw
  | fork l r rest ihl ihr ih =>
    exact ((ihl hw.2.1).beside (ihr hw.2.2.1)).append (ih hw.2.2.2)

theorem erase_map (f : β → α) (w : Shape β) :
    (w.map f).erase keep = (w.erase (keep ∘ f)).map f := by
  induction w with
  | nil => rfl
  | node a rest ih =>
    rw [map, erase, erase, ih, Function.comp_apply]
    split <;> rfl
  | fork l r rest ihl ihr ih =>
    rw [map, erase, erase, ihl, ihr, ih, map_append, map_beside]

theorem fronts_ne_nil (hw : w.Tight) (h : w ≠ nil) : w.fronts ≠ [] := by
  induction w with
  | nil => exact absurd rfl h
  | node => simp [fronts]
  | fork l r rest ihl => simp [fronts, ihl hw.2.1 hw.1.1]

/-- Where all that is at the front stays, it stays at the front. -/
theorem fronts_erase (hw : w.Tight) (h : ∀ a ∈ w.fronts, keep a = true) :
    (w.erase keep).fronts = w.fronts := by
  induction w with
  | nil => rfl
  | node a rest =>
    rw [erase, if_pos (h a List.mem_cons_self)]
    rfl
  | fork l r rest ihl ihr =>
    obtain ⟨hl, hr⟩ := List.forall_mem_append.1 h
    have hfronts := ihl hw.2.1 hl
    have hne : l.erase keep ≠ nil := by
      intro hnil
      rw [hnil] at hfronts
      exact fronts_ne_nil hw.2.1 hw.1.1 hfronts.symm
    rw [erase, fronts_append fun hnil => hne (beside_eq_nil.1 hnil).1, fronts_beside, hfronts,
      ihr hw.2.2.1 hr, fronts]

/-- The fronts up to the first that is erased stay where they are. -/
theorem takeWhile_fronts_isPrefix (hw : w.Tight) :
    w.fronts.takeWhile keep <+: (w.erase keep).fronts := by
  induction w with
  | nil => exact List.prefix_rfl
  | node a rest =>
    rw [erase, fronts]
    split
    · rename_i ha
      simp [fronts, ha]
    · rename_i ha
      simp [ha]
  | fork l r rest ihl ihr =>
    have hbranches : (l.fronts ++ r.fronts).takeWhile keep <+:
        ((l.erase keep).beside (r.erase keep)).fronts := by
      rw [fronts_beside]
      by_cases hl : ∀ a ∈ l.fronts, keep a = true
      · rw [fronts_erase hw.2.1 hl, List.takeWhile_append_of_pos hl]
        exact (List.prefix_append_right_inj _).2 (ihr hw.2.2.1)
      · have hshort : (l.fronts.takeWhile keep).length ≠ l.fronts.length := fun hlength =>
          hl (List.takeWhile_eq_self_iff.1 ((List.takeWhile_prefix _).eq_of_length hlength))
        rw [List.takeWhile_append, if_neg hshort]
        exact (ihl hw.2.1).trans (List.prefix_append ..)
    rw [erase, fronts]
    by_cases hne : (l.erase keep).beside (r.erase keep) = nil
    · rw [hne] at hbranches
      rw [List.prefix_nil.1 hbranches]
      exact List.nil_prefix
    · rwa [fronts_append hne]

section

variable [DecidableEq α]

/-- Erasing leaves the node in one of two branches, so that it can be removed there. -/
theorem remove_erase_fork {l r : Shape α} (hn : keep n = true) (h : n ∈ l.toList ∨ n ∈ r.toList)
    (rest : Shape α) : ((fork l r rest).erase keep).remove n =
      ((l.erase keep).remove n).beside ((r.erase keep).remove n) ++ rest.erase keep := by
  rw [erase, remove_append, remove_beside]
  intro hnil
  obtain ⟨hl, hr⟩ := beside_eq_nil.1 hnil
  have hmem : ∀ {w : Shape α}, w.erase keep = nil → n ∉ w.toList := fun {w} hw hmem => by
    have hmem := List.mem_filter.2 ⟨hmem, hn⟩
    rw [← toList_erase, hw] at hmem
    cases hmem
  exact h.elim (hmem hl) (hmem hr)

theorem remove_erase_of_notMem (hw : w.Tight) (hn : n ∉ w.toList) :
    (w.erase keep).remove n = w.erase keep := by
  refine remove_of_notMem hw.erase fun hmem => hn ?_
  have hmem := fronts_subset _ hmem
  rw [toList_erase] at hmem
  exact List.mem_of_mem_filter hmem

/-- Removing a node goes along with erasing others. -/
theorem erase_remove (h : AtFront n w) (hn : keep n = true) :
    (w.remove n).erase keep = (w.erase keep).remove n := by
  induction h with
  | node => simp [remove, erase, hn]
  | left hw hnodup hmem _ heq ih =>
    have hnotMem := fun hr => (List.nodup_append.1 hnodup).2.2 n hmem n
      (List.mem_append_left _ hr) rfl
    rw [heq, erase_append, erase_beside, ih, remove_erase_fork hn (.inl hmem),
      remove_erase_of_notMem hw.2.2.1 hnotMem]
  | right hw hnodup hmem _ heq ih =>
    have hnotMem := fun hl => (List.nodup_append.1 hnodup).2.2 n hl n
      (List.mem_append_left _ hmem) rfl
    rw [heq, erase_append, erase_beside, ih, remove_erase_fork hn (.inr hmem),
      remove_erase_of_notMem hw.2.1 hnotMem]

/-- To remove a node that is erased makes no difference. -/
theorem erase_remove_of_not (h : AtFront n w) (hn : keep n = false) :
    (w.remove n).erase keep = w.erase keep := by
  induction h with
  | node => simp [remove, erase, hn]
  | left _ _ _ _ heq ih => rw [heq, erase_append, erase_beside, ih, erase]
  | right _ _ _ _ heq ih => rw [heq, erase_append, erase_beside, ih, erase]

end

/-! ### Ticks -/

variable {len : α → Nat}

/-- Nodes that take no time do not delay the end. -/
theorem finish_erase (hlen : ∀ a ∈ w.toList, keep a = false → len a = 0) (t : Nat) :
    (w.erase keep).finish len t = w.finish len t := by
  induction w generalizing t with
  | nil => rfl
  | node a rest ih =>
    obtain ⟨ha, hrest⟩ := List.forall_mem_cons.1 hlen
    rw [erase, finish]
    split
    · exact ih hrest _
    · rename_i hkeep
      rw [ha (by simpa using hkeep), ih hrest]
      rfl
  | fork l r rest ihl ihr ih =>
    simp only [toList, List.forall_mem_append] at hlen
    rw [erase, finish_append, finish_beside, ihl hlen.1, ihr hlen.2.1, ih hlen.2.2, finish]

/-- Nor do they delay another node. -/
theorem onsets_erase (hlen : ∀ a ∈ w.toList, keep a = false → len a = 0) (t : Nat) :
    (w.erase keep).onsets len t = (w.onsets len t).filter fun x => keep x.1 := by
  induction w generalizing t with
  | nil => rfl
  | node a rest ih =>
    obtain ⟨ha, hrest⟩ := List.forall_mem_cons.1 hlen
    rw [erase, onsets]
    split
    · rename_i hkeep
      rw [List.filter_cons_of_pos (by simpa using hkeep), onsets, ih hrest]
    · rename_i hkeep
      rw [List.filter_cons_of_neg (by simpa using hkeep), ← ih hrest, ha (by simpa using hkeep)]
      rfl
  | fork l r rest ihl ihr ih =>
    simp only [toList, List.forall_mem_append] at hlen
    rw [erase, onsets_append, onsets_beside, finish_beside, ihl hlen.1, ihr hlen.2.1, ih hlen.2.2,
      finish_erase hlen.1, finish_erase hlen.2.1, onsets, List.filter_append, List.filter_append,
      List.append_assoc]

end Erase

/-! ## Other names -/

theorem Tight.map (hw : w.Tight) (f : α → β) : (w.map f).Tight := by
  induction w with
  | nil => trivial
  | node a rest ih => exact ih hw
  | fork l r rest ihl ihr ih =>
    exact ⟨⟨mt map_eq_nil.1 hw.1.1, mt map_eq_nil.1 hw.1.2⟩, ihl hw.2.1, ihr hw.2.2.1, ih hw.2.2.2⟩

theorem fronts_map (f : α → β) (w : Shape α) : (w.map f).fronts = w.fronts.map f := by
  induction w with
  | nil | node => rfl
  | fork l r rest ihl ihr => rw [map, fronts, fronts, ihl, ihr, List.map_append]

theorem remove_map [DecidableEq α] [DecidableEq β] {f : α → β}
    (hf : ∀ a ∈ w.toList, f a = f n → a = n) : (w.map f).remove (f n) = (w.remove n).map f := by
  induction w with
  | nil => rfl
  | node a rest =>
    rw [map, remove, remove]
    by_cases ha : a = n
    · rw [if_pos ha, if_pos (congrArg f ha)]
    · rw [if_neg ha, if_neg fun heq => ha (hf a List.mem_cons_self heq)]
      rfl
  | fork l r rest ihl ihr =>
    simp only [toList, List.forall_mem_append] at hf
    rw [map, remove, remove, ihl hf.1, ihr hf.2.1, map_append, map_beside]

end Jianpu.Shape

namespace Jianpu

theorem Plan.tight_shape (p : Plan) : p.shape.Tight := by
  induction p with
  | empty | node => trivial
  | branch p q ihp ihq => exact ihp.beside ihq
  | seq p q k ihp ihq => exact ihp.append ihq

end Jianpu
