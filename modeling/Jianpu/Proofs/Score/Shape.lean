import Jianpu.Proofs.Score.Pace

/-!
# The shape of a strand

A shape is what the links of a strand depend on: nodes one after another, with strands beside each
other in between. Whether they were put there one by one or as groups is forgotten: putting one
shape after another is associative. `Plan.shape` is the shape of a plan.

The links can be read off a shape: `Shape.nexts` gives the successor of every node and
`Shape.siblings` its sibling. A strand is `Drawn` if its links are these, and putting strands beside
and after each other keeps them so.
-/

namespace Jianpu

/-- Nodes one after another, and strands beside each other in between. -/
inductive Shape (α : Type) where
  | nil
  | node (a : α) (rest : Shape α)
  | fork (l r rest : Shape α)
  deriving DecidableEq, Repr

namespace Shape

variable {α β : Type}

/-- One shape after another. -/
def append : Shape α → Shape α → Shape α
  | nil, w => w
  | node a rest, w => node a (rest.append w)
  | fork l r rest, w => fork l r (rest.append w)

instance : Append (Shape α) := ⟨append⟩

/-- Two shapes beside each other. -/
def beside : Shape α → Shape α → Shape α
  | nil, w => w
  | v, nil => v
  | v, w => fork v w nil

/-- The nodes of a shape. -/
def toList : Shape α → List α
  | nil => []
  | node a rest => a :: rest.toList
  | fork l r rest => l.toList ++ (r.toList ++ rest.toList)

def map (f : α → β) : Shape α → Shape β
  | nil => nil
  | node a rest => node (f a) (rest.map f)
  | fork l r rest => fork (l.map f) (r.map f) (rest.map f)

@[simp] theorem nil_append (w : Shape α) : nil ++ w = w := rfl

@[simp] theorem node_append (a : α) (v w : Shape α) : node a v ++ w = node a (v ++ w) := rfl

@[simp] theorem fork_append (l r v w : Shape α) : fork l r v ++ w = fork l r (v ++ w) := rfl

@[simp] theorem append_nil (w : Shape α) : w ++ nil = w := by
  induction w with
  | nil => rfl
  | node a rest ih => rw [node_append, ih]
  | fork l r rest _ _ ih => rw [fork_append, ih]

theorem append_assoc (u v w : Shape α) : u ++ v ++ w = u ++ (v ++ w) := by
  induction u with
  | nil => rfl
  | node a rest ih => simp only [node_append, ih]
  | fork l r rest _ _ ih => simp only [fork_append, ih]

@[simp] theorem nil_beside (w : Shape α) : nil.beside w = w := by
  cases w <;> rfl

@[simp] theorem beside_nil (w : Shape α) : w.beside nil = w := by
  cases w <;> rfl

theorem beside_of_ne_nil {v w : Shape α} (hv : v ≠ nil) (hw : w ≠ nil) :
    v.beside w = fork v w nil := by
  cases v with
  | nil => exact absurd rfl hv
  | node | fork =>
    cases w with
    | nil => exact absurd rfl hw
    | node | fork => rfl

@[simp] theorem toList_append (v w : Shape α) : (v ++ w).toList = v.toList ++ w.toList := by
  induction v with
  | nil => rfl
  | node a rest ih => simp only [node_append, toList, ih, List.cons_append]
  | fork l r rest _ _ ih => simp only [fork_append, toList, ih, List.append_assoc]

@[simp] theorem toList_beside (v w : Shape α) : (v.beside w).toList = v.toList ++ w.toList := by
  by_cases hv : v = nil
  · rw [hv, nil_beside]
    rfl
  · by_cases hw : w = nil
    · rw [hw, beside_nil, toList, List.append_nil]
    · rw [beside_of_ne_nil hv hw, toList, toList, List.append_nil]

theorem map_append (f : α → β) (v w : Shape α) : (v ++ w).map f = v.map f ++ w.map f := by
  induction v with
  | nil => rfl
  | node a rest ih => simp only [node_append, map, ih]
  | fork l r rest _ _ ih => simp only [fork_append, map, ih]

theorem map_eq_nil {f : α → β} {w : Shape α} : w.map f = nil ↔ w = nil := by
  cases w <;> simp [map]

theorem map_beside (f : α → β) (v w : Shape α) :
    (v.beside w).map f = (v.map f).beside (w.map f) := by
  by_cases hv : v = nil
  · rw [hv, nil_beside, map, nil_beside]
  · by_cases hw : w = nil
    · rw [hw, beside_nil, map, beside_nil]
    · rw [beside_of_ne_nil hv hw, beside_of_ne_nil (mt map_eq_nil.1 hv) (mt map_eq_nil.1 hw), map,
        map]

theorem toList_map (f : α → β) (w : Shape α) : (w.map f).toList = w.toList.map f := by
  induction w with
  | nil => rfl
  | node a rest ih => simp only [map, toList, ih, List.map_cons]
  | fork l r rest ihl ihr ih => simp only [map, toList, ihl, ihr, ih, List.map_append]

theorem map_map {γ : Type} (g : β → γ) (f : α → β) (w : Shape α) :
    (w.map f).map g = w.map (g ∘ f) := by
  induction w with
  | nil => rfl
  | node a rest ih => simp only [map, ih, Function.comp_apply]
  | fork l r rest ihl ihr ih => simp only [map, ihl, ihr, ih]

theorem map_congr {f g : α → β} {w : Shape α} (h : ∀ a ∈ w.toList, f a = g a) :
    w.map f = w.map g := by
  induction w with
  | nil => rfl
  | node a rest ih =>
    obtain ⟨ha, hrest⟩ := List.forall_mem_cons.1 h
    rw [map, map, ha, ih hrest]
  | fork l r rest ihl ihr ih =>
    simp only [toList, List.forall_mem_append] at h
    rw [map, map, ihl h.1, ihr h.2.1, ih h.2.2]

/-! ## Links -/

/-- Every node with its successor, where `k` comes after the whole. -/
def nexts : Shape α → Option α → List (α × Option α)
  | nil, _ => []
  | node a rest, k => (a, rest.toList.head?.or k) :: rest.nexts k
  | fork l r rest, k =>
    l.nexts (rest.toList.head?.or k) ++ (r.nexts (rest.toList.head?.or k) ++ rest.nexts k)

/-- Every node with its sibling, where `k` is beside the whole. -/
def siblings : Shape α → Option α → List (α × Option α)
  | nil, _ => []
  | node a rest, k => (a, k) :: rest.siblings none
  | fork l r rest, k => l.siblings r.toList.head? ++ (r.siblings k ++ rest.siblings none)

/-- The node whose sibling is what is put beside the whole. -/
def last? : Shape α → Option α
  | nil => none
  | node a _ => some a
  | fork _ r _ => r.last?

theorem map_fst_nexts (w : Shape α) (k : Option α) : (w.nexts k).map Prod.fst = w.toList := by
  induction w generalizing k with
  | nil => rfl
  | node a rest ih => simp only [nexts, toList, List.map_cons, ih]
  | fork l r rest ihl ihr ih => simp only [nexts, toList, List.map_append, ihl, ihr, ih]

theorem map_fst_siblings (w : Shape α) (k : Option α) : (w.siblings k).map Prod.fst = w.toList := by
  induction w generalizing k with
  | nil => rfl
  | node a rest ih => simp only [siblings, toList, List.map_cons, ih]
  | fork l r rest ihl ihr ih => simp only [siblings, toList, List.map_append, ihl, ihr, ih]

theorem mem_of_mem_siblings {w : Shape α} {k : Option α} {x : α × Option α} (h : x ∈ w.siblings k) :
    x.1 ∈ w.toList :=
  map_fst_siblings w k ▸ List.mem_map_of_mem h

theorem last?_mem {w : Shape α} {a : α} (h : w.last? = some a) : a ∈ w.toList := by
  induction w with
  | nil => cases h
  | node b rest => simp [toList, Option.some.inj h]
  | fork l r rest _ ihr => simp [toList, ihr h]

/-- What comes after the whole follows the nodes without a successor. -/
theorem nexts_or (w : Shape α) (k : Option α) :
    w.nexts k = (w.nexts none).map fun x => (x.1, x.2.or k) := by
  induction w generalizing k with
  | nil => rfl
  | node a rest ih =>
    rw [nexts, nexts, List.map_cons, ih k]
    simp
  | fork l r rest ihl ihr ih =>
    simp only [nexts, List.map_append, Option.or_none]
    rw [ihl, ihr, ih k, ihl rest.toList.head?, ihr rest.toList.head?]
    simp [Option.or_assoc, Function.comp_def]

/-- What is put beside the whole is the sibling of one node only. -/
theorem siblings_cases {w : Shape α} (hw : w.toList.Nodup) {k : Option α} {x : α × Option α}
    (hx : x ∈ w.siblings k) :
    w.last? = some x.1 ∧ x.2 = k ∨ w.last? ≠ some x.1 ∧ x ∈ w.siblings none := by
  induction w generalizing k with
  | nil => cases hx
  | node a rest ih =>
    rcases List.mem_cons.1 hx with rfl | hx
    · exact .inl ⟨rfl, rfl⟩
    · refine .inr ⟨fun heq => ?_, List.mem_cons_of_mem _ hx⟩
      exact (List.nodup_cons.1 hw).1 (Option.some.inj heq ▸ mem_of_mem_siblings hx)
  | fork l r rest _ ihr =>
    obtain ⟨-, hright, hdl⟩ := List.nodup_append.1 hw
    obtain ⟨hr, -, hdr⟩ := List.nodup_append.1 hright
    simp only [siblings, List.mem_append, last?] at hx ⊢
    rcases hx with hx | hx | hx
    · refine .inr ⟨fun heq => ?_, .inl hx⟩
      exact hdl _ (mem_of_mem_siblings hx) _ (List.mem_append_left _ (last?_mem heq)) rfl
    · exact (ihr hr hx).imp_right fun ⟨hne, hx⟩ => ⟨hne, .inr (.inl hx)⟩
    · refine .inr ⟨fun heq => ?_, .inr (.inr hx)⟩
      exact hdr _ (last?_mem heq) _ (mem_of_mem_siblings hx) rfl

theorem nexts_append (v w : Shape α) (k : Option α) :
    (v ++ w).nexts k = v.nexts (w.toList.head?.or k) ++ w.nexts k := by
  induction v with
  | nil => rfl
  | node a rest ih =>
    simp only [node_append, nexts, ih, toList_append, List.head?_append, Option.or_assoc,
      List.cons_append]
  | fork l r rest _ _ ih =>
    simp only [fork_append, nexts, ih, toList_append, List.head?_append, Option.or_assoc,
      List.append_assoc]

theorem siblings_append {v : Shape α} (hv : v ≠ nil) (w : Shape α) (k : Option α) :
    (v ++ w).siblings k = v.siblings k ++ w.siblings none := by
  induction v generalizing k with
  | nil => exact absurd rfl hv
  | node a rest ih =>
    by_cases hrest : rest = nil
    · rw [hrest]
      rfl
    · rw [node_append, siblings, siblings, ih hrest, List.cons_append]
  | fork l r rest _ _ ih =>
    by_cases hrest : rest = nil
    · simp [hrest, siblings]
    · simp only [fork_append, siblings, ih hrest, List.append_assoc]

theorem last?_append {v : Shape α} (hv : v ≠ nil) (w : Shape α) : (v ++ w).last? = v.last? := by
  cases v with
  | nil => exact absurd rfl hv
  | node | fork => rfl

/-! ## Ticks -/

/-- When a shape that starts at a tick ends. -/
def finish (len : α → Nat) : Shape α → Nat → Nat
  | nil, t => t
  | node a rest, t => rest.finish len (t + len a)
  | fork l r rest, t => rest.finish len (max (l.finish len t) (r.finish len t))

/-- When the nodes of a shape that starts at a tick start. -/
def onsets (len : α → Nat) : Shape α → Nat → List (α × Nat)
  | nil, _ => []
  | node a rest, t => (a, t) :: rest.onsets len (t + len a)
  | fork l r rest, t =>
    l.onsets len t ++ (r.onsets len t ++ rest.onsets len (max (l.finish len t) (r.finish len t)))

theorem le_finish (len : α → Nat) (w : Shape α) (t : Nat) : t ≤ w.finish len t := by
  induction w generalizing t with
  | nil => exact Nat.le_refl t
  | node a rest ih => exact Nat.le_trans (Nat.le_add_right t (len a)) (ih _)
  | fork l r rest ihl _ ih =>
    exact Nat.le_trans (Nat.le_trans (ihl t) (Nat.le_max_left ..)) (ih _)

theorem finish_append (len : α → Nat) (v w : Shape α) (t : Nat) :
    (v ++ w).finish len t = w.finish len (v.finish len t) := by
  induction v generalizing t with
  | nil => rfl
  | node a rest ih => exact ih _
  | fork l r rest _ _ ih => exact ih _

theorem finish_beside (len : α → Nat) (v w : Shape α) (t : Nat) :
    (v.beside w).finish len t = max (v.finish len t) (w.finish len t) := by
  by_cases hv : v = nil
  · rw [hv, nil_beside, finish, Nat.max_eq_right (w.le_finish len t)]
  · by_cases hw : w = nil
    · rw [hw, beside_nil, finish, Nat.max_eq_left (v.le_finish len t)]
    · rw [beside_of_ne_nil hv hw, finish, finish]

theorem onsets_append (len : α → Nat) (v w : Shape α) (t : Nat) :
    (v ++ w).onsets len t = v.onsets len t ++ w.onsets len (v.finish len t) := by
  induction v generalizing t with
  | nil => rfl
  | node a rest ih => simp only [node_append, onsets, finish, ih, List.cons_append]
  | fork l r rest _ _ ih => simp only [fork_append, onsets, finish, ih, List.append_assoc]

theorem onsets_beside (len : α → Nat) (v w : Shape α) (t : Nat) :
    (v.beside w).onsets len t = v.onsets len t ++ w.onsets len t := by
  by_cases hv : v = nil
  · rw [hv, nil_beside, onsets, List.nil_append]
  · by_cases hw : w = nil
    · rw [hw, beside_nil, onsets, List.append_nil]
    · rw [beside_of_ne_nil hv hw, onsets, onsets, List.append_nil]

/-! ## Other names -/

theorem finish_map {len : β → Nat} {len' : α → Nat} {f : α → β} {w : Shape α}
    (h : ∀ a ∈ w.toList, len (f a) = len' a) (t : Nat) :
    (w.map f).finish len t = w.finish len' t := by
  induction w generalizing t with
  | nil => rfl
  | node a rest ih =>
    obtain ⟨ha, hrest⟩ := List.forall_mem_cons.1 h
    simp only [map, finish, ha, ih hrest]
  | fork l r rest ihl ihr ih =>
    simp only [toList, List.forall_mem_append] at h
    simp only [map, finish, ihl h.1, ihr h.2.1, ih h.2.2]

theorem onsets_map {len : β → Nat} {len' : α → Nat} {f : α → β} {w : Shape α}
    (h : ∀ a ∈ w.toList, len (f a) = len' a) (t : Nat) :
    (w.map f).onsets len t = (w.onsets len' t).map fun x => (f x.1, x.2) := by
  induction w generalizing t with
  | nil => rfl
  | node a rest ih =>
    obtain ⟨ha, hrest⟩ := List.forall_mem_cons.1 h
    simp only [map, onsets, ha, ih hrest, List.map_cons]
  | fork l r rest ihl ihr ih =>
    simp only [toList, List.forall_mem_append] at h
    simp only [map, onsets, ihl h.1, ihr h.2.1, ih h.2.2, finish_map h.1, finish_map h.2.1,
      List.map_append]

/-- Shapes that look the same, node by node. -/
theorem exists_zip {γ : Type} {p : α → γ} {q : β → γ} {v : Shape α} {w : Shape β}
    (h : v.map p = w.map q) :
    ∃ z : Shape (α × β), z.map Prod.fst = v ∧ z.map Prod.snd = w ∧
      ∀ x ∈ z.toList, p x.1 = q x.2 := by
  induction v generalizing w with
  | nil =>
    obtain rfl := map_eq_nil.1 h.symm
    exact ⟨nil, rfl, rfl, by simp [toList]⟩
  | node a v ih =>
    cases w with
    | nil | fork => cases h
    | node b w =>
      obtain ⟨hab, hvw⟩ := Shape.node.inj h
      obtain ⟨z, rfl, rfl, hz⟩ := ih hvw
      exact ⟨node (a, b) z, rfl, rfl, List.forall_mem_cons.2 ⟨hab, hz⟩⟩
  | fork l r v ihl ihr ih =>
    cases w with
    | nil | node => cases h
    | fork l' r' w =>
      obtain ⟨hl, hr, hvw⟩ := Shape.fork.inj h
      obtain ⟨x, rfl, rfl, hx⟩ := ihl hl
      obtain ⟨y, rfl, rfl, hy⟩ := ihr hr
      obtain ⟨z, rfl, rfl, hz⟩ := ih hvw
      refine ⟨fork x y z, rfl, rfl, ?_⟩
      simp only [toList, List.forall_mem_append]
      exact ⟨hx, hy, hz⟩

end Shape

/-! ## Strands -/

/-- The links of a strand are those of a shape. -/
structure Drawn (g : Score) (s : Strand) (w : Shape Nat) : Prop where
  last : w.last? = some s.lastSibling
  next : ∀ x ∈ w.nexts none, g.next? x.1 = x.2
  sibling : ∀ x ∈ w.siblings none, g.sibling? x.1 = x.2

namespace Drawn

variable {g g' : Score} {s o : Strand} {v w : Shape Nat}

theorem ne_nil (h : Drawn g s w) : w ≠ .nil := by
  rintro rfl
  cases h.last

theorem congr (h : Drawn g s w) (hl : ∀ n ∈ w.toList, Score.SameLinks g g' n) : Drawn g' s w where
  last := h.last
  next x hx := by
    rw [(hl x.1 (w.map_fst_nexts none ▸ List.mem_map_of_mem hx)).next?, h.next x hx]
  sibling x hx := by
    rw [(hl x.1 (Shape.mem_of_mem_siblings hx)).sibling?, h.sibling x hx]

theorem withTop (h : Drawn g s w) (top : Nat) : Drawn g { s with top } w :=
  ⟨h.last, h.next, h.sibling⟩

theorem single {n : Nat} (top : Nat) (hnext : g.next? n = none) (hsib : g.sibling? n = none) :
    Drawn g ⟨n, n, n, top, []⟩ (.node n .nil) where
  last := rfl
  next x hx := by
    obtain rfl : x = (n, none) := List.mem_singleton.1 hx
    exact hnext
  sibling x hx := by
    obtain rfl : x = (n, none) := List.mem_singleton.1 hx
    exact hsib

/-- A strand after another one. -/
theorem connect (hs : Woven g s v.toList) (ho : Woven g o w.toList)
    (hd : v.toList.Disjoint w.toList) (h : s.Connected o.head g g') (dv : Drawn g s v)
    (dw : Drawn g o w) : Drawn g' { s with tail := o.tail, openTails := o.openTails } (v ++ w) where
  last := by
    rw [Shape.last?_append dv.ne_nil]
    exact dv.last
  next x hx := by
    rw [Shape.nexts_append, Shape.nexts_or v, ho.head] at hx
    rcases List.mem_append.1 hx with hx | hx
    · obtain ⟨y, hy, rfl⟩ := List.mem_map.1 hx
      have hmem : y.1 ∈ v.toList := v.map_fst_nexts none ▸ List.mem_map_of_mem hy
      have hnext := dv.next y hy
      -- the tails are the nodes without a successor
      rw [h.next?]
      split
      · rename_i ht
        rw [← hnext, hs.next?_tail ht]
        rfl
      · rename_i ht
        cases hy₂ : y.2 with
        | none => exact absurd ((hs.ends _).2 ⟨hmem, hnext.trans hy₂⟩) ht
        | some m => exact hnext.trans hy₂
    · have hmem : x.1 ∈ w.toList := w.map_fst_nexts none ▸ List.mem_map_of_mem hx
      rw [Woven.connect_next?_right hs hd h hmem, dw.next x hx]
  sibling x hx := by
    rw [h.sibling?]
    rw [Shape.siblings_append dv.ne_nil] at hx
    exact (List.mem_append.1 hx).elim (dv.sibling x) (dw.sibling x)

/-- A strand beside another one. -/
theorem branch (hs : Woven g s v.toList) (ho : Woven g o w.toList)
    (hd : v.toList.Disjoint w.toList) (h : s.Branched o.head g g') (dv : Drawn g s v)
    (dw : Drawn g o w) :
    Drawn g' { s with
      lastSibling := o.lastSibling
      openTails := s.openTails ++ o.tail :: o.openTails } (v.beside w) := by
  rw [Shape.beside_of_ne_nil dv.ne_nil dw.ne_nil]
  refine ⟨dw.last, fun x hx => ?_, fun x hx => ?_⟩
  · rw [h.next?]
    rw [Shape.nexts, Shape.nexts, List.append_nil] at hx
    exact (List.mem_append.1 hx).elim (dv.next x) (dw.next x)
  · rw [Shape.siblings, Shape.siblings, List.append_nil, ho.head] at hx
    rw [h.sibling?]
    rcases List.mem_append.1 hx with hx | hx
    · rcases Shape.siblings_cases hs.nodup hx with ⟨hlast, hk⟩ | ⟨hlast, hx⟩
      · rw [if_pos (Option.some.inj (hlast.symm.trans dv.last)), hk]
      · rw [if_neg fun heq => hlast (by rw [dv.last, heq]), dv.sibling x hx]
    · have hne : x.1 ≠ s.lastSibling := fun heq =>
        hd (Shape.last?_mem dv.last) (heq ▸ Shape.mem_of_mem_siblings hx)
      rw [if_neg hne, dw.sibling x hx]

end Drawn

/-- The shape of a strand that was made by a plan. -/
def Plan.shape : Plan → Shape Nat
  | empty => .nil
  | node n _ => .node n .nil
  | branch p q => p.shape.beside q.shape
  | seq p q _ => p.shape ++ q.shape

@[simp] theorem Plan.toList_shape (p : Plan) : p.shape.toList = p.nodes := by
  induction p with
  | empty | node => rfl
  | branch p q ihp ihq => rw [shape, Shape.toList_beside, ihp, ihq, nodes]
  | seq p q k ihp ihq => rw [shape, Shape.toList_append, ihp, ihq, nodes]

theorem Plan.shape_of_nodes_eq_nil {p : Plan} (h : p.nodes = []) : p.shape = .nil := by
  induction p with
  | empty => rfl
  | node => simp [nodes] at h
  | branch p q ihp ihq =>
    obtain ⟨hp, hq⟩ := List.append_eq_nil_iff.1 h
    rw [shape, ihp hp, ihq hq, Shape.nil_beside]
  | seq p q k ihp ihq =>
    obtain ⟨hp, hq⟩ := List.append_eq_nil_iff.1 h
    rw [shape, ihp hp, ihq hq, Shape.nil_append]

theorem Plan.finish_shape (len : Nat → Nat) (p : Plan) (t : Nat) :
    p.shape.finish len t = p.finish len t := by
  induction p generalizing t with
  | empty | node => rfl
  | branch p q ihp ihq => rw [shape, Shape.finish_beside, ihp, ihq, finish]
  | seq p q k ihp ihq => rw [shape, Shape.finish_append, ihp, ihq, finish]

theorem Plan.onsets_shape (len : Nat → Nat) (p : Plan) (t : Nat) :
    p.shape.onsets len t = p.onsets len t := by
  induction p generalizing t with
  | empty | node => rfl
  | branch p q ihp ihq => rw [shape, Shape.onsets_beside, ihp, ihq, onsets]
  | seq p q k ihp ihq => rw [shape, Shape.onsets_append, ihp, ihq, onsets, finish_shape]

end Jianpu
