import Jianpu.Score.Strand
import Mathlib.Data.List.Basic
import Mathlib.Logic.Relation

/-!
# The links of a score

A node leads to its successor and to its sibling. The lemmas below say what each change of a score
does to the links, and to what the nodes wait for. Two of them carry the operations on strands:
`Strand.connected_connect`, for what is put after a strand, and `Strand.branched_setSibling`, for a
branch that starts with it. Changes of modifiers touch no link.
-/

namespace Jianpu

namespace Score

/-- The successor of a node. -/
def next? (g : Score) (n : Nat) : Option Nat := g.nodes[n]?.bind (·.next)

/-- The sibling of a node. -/
def sibling? (g : Score) (n : Nat) : Option Nat := g.nodes[n]?.bind (·.sibling)

/-- What a node waits for. -/
def join? (g : Score) (n : Nat) : Option Join := g.nodes[n]?.map (·.join)

/-- A node leads to its successor and to its sibling. -/
def Link (g : Score) (m n : Nat) : Prop := g.next? m = some n ∨ g.sibling? m = some n

/-- Two scores agree on what leaves a node and on what it waits for. -/
structure SameLinks (g g' : Score) (n : Nat) : Prop where
  next? : g'.next? n = g.next? n
  sibling? : g'.sibling? n = g.sibling? n
  join? : g'.join? n = g.join? n

theorem SameLinks.refl (g : Score) (n : Nat) : SameLinks g g n := ⟨rfl, rfl, rfl⟩

theorem SameLinks.trans {g g' g'' : Score} {n : Nat} (h : SameLinks g g' n)
    (h' : SameLinks g' g'' n) : SameLinks g g'' n :=
  ⟨h'.next?.trans h.next?, h'.sibling?.trans h.sibling?, h'.join?.trans h.join?⟩

theorem SameLinks.of_nodes {g g' : Score} (h : g'.nodes = g.nodes) (n : Nat) :
    SameLinks g g' n := by
  constructor <;> simp only [Score.next?, Score.sibling?, Score.join?, h]

variable (g : Score) (id n : Nat)

theorem getElem?_modifyNode (f : Node → Node) :
    (g.modifyNode id f).nodes[n]? = if id = n then g.nodes[n]?.map f else g.nodes[n]? := by
  rw [modifyNode, Array.getElem?_modify]

@[simp] theorem size_modifyNode (f : Node → Node) :
    (g.modifyNode id f).nodes.size = g.nodes.size := by
  simp [modifyNode]

@[simp] theorem nodes_setParent (parent : Nat) : (g.setParent id parent).nodes = g.nodes := rfl

@[simp] theorem nodes_addModifier (kind : Modifier.Kind) (span : Span) :
    (g.addModifier kind span).2.nodes = g.nodes := rfl

/-! ## One field changed -/

section Unchanged

variable {f : Node → Node}

theorem next?_modifyNode (h : ∀ x, (f x).next = x.next) :
    (g.modifyNode id f).next? n = g.next? n := by
  rw [next?, getElem?_modifyNode, next?]
  split <;> cases g.nodes[n]? <;> simp [h]

theorem sibling?_modifyNode (h : ∀ x, (f x).sibling = x.sibling) :
    (g.modifyNode id f).sibling? n = g.sibling? n := by
  rw [sibling?, getElem?_modifyNode, sibling?]
  split <;> cases g.nodes[n]? <;> simp [h]

theorem join?_modifyNode (h : ∀ x, (f x).join = x.join) :
    (g.modifyNode id f).join? n = g.join? n := by
  rw [join?, getElem?_modifyNode, join?]
  split <;> cases g.nodes[n]? <;> simp [h]

end Unchanged

theorem next?_setNext (x : Nat) (h : id < g.nodes.size) :
    (g.setNext id x).next? n = if n = id then some x else g.next? n := by
  rw [next?, setNext, getElem?_modifyNode]
  by_cases hn : n = id
  · subst hn
    simp [h]
  · rw [if_neg (Ne.symm hn), if_neg hn, next?]

theorem sibling?_setNext (x : Nat) : (g.setNext id x).sibling? n = g.sibling? n :=
  sibling?_modifyNode g id n fun _ => rfl

theorem join?_setNext (x : Nat) : (g.setNext id x).join? n = g.join? n :=
  join?_modifyNode g id n fun _ => rfl

theorem next?_setSibling (x : Nat) : (g.setSibling id x).next? n = g.next? n :=
  next?_modifyNode g id n fun _ => rfl

theorem sibling?_setSibling (x : Nat) (h : id < g.nodes.size) :
    (g.setSibling id x).sibling? n = if n = id then some x else g.sibling? n := by
  rw [sibling?, setSibling, getElem?_modifyNode]
  by_cases hn : n = id
  · subst hn
    simp [h]
  · rw [if_neg (Ne.symm hn), if_neg hn, sibling?]

theorem join?_setSibling (x : Nat) : (g.setSibling id x).join? n = g.join? n :=
  join?_modifyNode g id n fun _ => rfl

theorem next?_setJoin (j : Join) : (g.setJoin id j).next? n = g.next? n :=
  next?_modifyNode g id n fun _ => rfl

theorem sibling?_setJoin (j : Join) : (g.setJoin id j).sibling? n = g.sibling? n :=
  sibling?_modifyNode g id n fun _ => rfl

theorem join?_setJoin (j : Join) (h : id < g.nodes.size) :
    (g.setJoin id j).join? n = if n = id then some j else g.join? n := by
  rw [join?, setJoin, getElem?_modifyNode]
  by_cases hn : n = id
  · subst hn
    simp [h]
  · rw [if_neg (Ne.symm hn), if_neg hn, join?]

theorem sameLinks_setModifier (m : Nat) : SameLinks g (g.setModifier id m) n where
  next? := next?_modifyNode g id n fun _ => rfl
  sibling? := sibling?_modifyNode g id n fun _ => rfl
  join? := join?_modifyNode g id n fun _ => rfl

/-- A new node leads nowhere, and the others stay as they are. -/
theorem getElem?_addNode (content : Content) (span : Span) :
    (g.addNode content span).2.nodes[n]? =
      if n = g.nodes.size then some { content, span } else g.nodes[n]? := by
  rw [addNode, Array.getElem?_push]

theorem isSome_join? : (g.join? n).isSome ↔ n < g.nodes.size := by
  simp [join?]

end Score

/-! ## Strands -/

/-- A suffix touches no link. -/
theorem Slot.sameLinks_insert (slot : Slot) (g : Score) (m n : Nat) :
    Score.SameLinks g (slot.insert g m).2 n := by
  cases slot with
  | note node top last =>
    cases last with
    | none =>
      exact (Score.SameLinks.of_nodes (Score.nodes_setParent g m top) n).trans
        (Score.sameLinks_setModifier ..)
    | some last =>
      have hnodes : ((note node top (some last)).insert g m).2.nodes = g.nodes := rfl
      exact .of_nodes hnodes n
  | group top last =>
    have hnodes : ((group top last).insert g m).2.nodes = g.nodes := rfl
    exact .of_nodes hnodes n

namespace Strand

/-- The ends of a strand. -/
def tails (s : Strand) : List Nat := s.tail :: s.openTails

@[simp] theorem mem_tails {s : Strand} {n : Nat} : n ∈ s.tails ↔ n = s.tail ∨ n ∈ s.openTails :=
  List.mem_cons

/-- `g'` is `g` with a node as the successor of every end of a strand. -/
structure Connected (s : Strand) (node : Nat) (g g' : Score) : Prop where
  next? : ∀ m, g'.next? m = if m ∈ s.tails then some node else g.next? m
  sibling? : ∀ m, g'.sibling? m = g.sibling? m
  join? : ∀ m, g'.join? m = if m = node then some (.pending s.tails.length 0) else g.join? m

/-- `g'` is `g` with a further branch beside a strand. -/
structure Branched (s : Strand) (node : Nat) (g g' : Score) : Prop where
  next? : ∀ m, g'.next? m = g.next? m
  sibling? : ∀ m, g'.sibling? m = if m = s.lastSibling then some node else g.sibling? m
  join? : ∀ m, g'.join? m = g.join? m

theorem next?_foldl_setNext (ts : List Nat) (node : Nat) (g : Score) (n : Nat)
    (h : ∀ t ∈ ts, t < g.nodes.size) :
    (ts.foldl (·.setNext · node) g).next? n = if n ∈ ts then some node else g.next? n := by
  induction ts generalizing g with
  | nil => simp
  | cons t ts ih =>
    have hlt : t < g.nodes.size := h t (by simp)
    have hrest : ∀ u ∈ ts, u < (g.setNext t node).nodes.size := by
      intro u hu
      rw [Score.setNext, Score.size_modifyNode]
      exact h u (by simp [hu])
    rw [List.foldl_cons, ih _ hrest, Score.next?_setNext g t n node hlt]
    by_cases hts : n ∈ ts
    · simp [hts]
    · simp [hts, List.mem_cons]

theorem sibling?_foldl_setNext (ts : List Nat) (node : Nat) (g : Score) (n : Nat) :
    (ts.foldl (·.setNext · node) g).sibling? n = g.sibling? n := by
  induction ts generalizing g with
  | nil => rfl
  | cons t ts ih => rw [List.foldl_cons, ih, Score.sibling?_setNext]

theorem join?_foldl_setNext (ts : List Nat) (node : Nat) (g : Score) (n : Nat) :
    (ts.foldl (·.setNext · node) g).join? n = g.join? n := by
  induction ts generalizing g with
  | nil => rfl
  | cons t ts ih => rw [List.foldl_cons, ih, Score.join?_setNext]

theorem size_foldl_setNext (ts : List Nat) (node : Nat) (g : Score) :
    (ts.foldl (·.setNext · node) g).nodes.size = g.nodes.size := by
  induction ts generalizing g with
  | nil => rfl
  | cons t ts ih => rw [List.foldl_cons, ih, Score.setNext, Score.size_modifyNode]

theorem connect_eq (s : Strand) (g : Score) (node : Nat) :
    s.connect g node =
      (s.tails.foldl (·.setNext · node) g).setJoin node (.pending s.tails.length 0) := rfl

theorem connected_connect (s : Strand) (g : Score) (node : Nat)
    (ht : ∀ t ∈ s.tails, t < g.nodes.size) (hn : node < g.nodes.size) :
    s.Connected node g (s.connect g node) where
  next? m := by rw [connect_eq, Score.next?_setJoin, next?_foldl_setNext s.tails node g m ht]
  sibling? m := by rw [connect_eq, Score.sibling?_setJoin, sibling?_foldl_setNext]
  join? m := by
    rw [connect_eq, Score.join?_setJoin _ _ _ _ (by rwa [size_foldl_setNext]), join?_foldl_setNext]

theorem branched_setSibling (s : Strand) (g : Score) (node : Nat)
    (h : s.lastSibling < g.nodes.size) :
    s.Branched node g (g.setSibling s.lastSibling node) where
  next? _ := Score.next?_setSibling ..
  sibling? m := Score.sibling?_setSibling g s.lastSibling m node h
  join? _ := Score.join?_setSibling ..

/-- What changes no link keeps a connection. -/
theorem Connected.of_sameLinks {s : Strand} {node : Nat} {g g' g'' : Score}
    (h : s.Connected node g g') (hl : ∀ m, Score.SameLinks g' g'' m) : s.Connected node g g'' where
  next? m := by rw [(hl m).next?, h.next?]
  sibling? m := by rw [(hl m).sibling?, h.sibling?]
  join? m := by rw [(hl m).join?, h.join?]

theorem Branched.of_sameLinks {s : Strand} {node : Nat} {g g' g'' : Score}
    (h : s.Branched node g g') (hl : ∀ m, Score.SameLinks g' g'' m) : s.Branched node g g'' where
  next? m := by rw [(hl m).next?, h.next?]
  sibling? m := by rw [(hl m).sibling?, h.sibling?]
  join? m := by rw [(hl m).join?, h.join?]

end Strand

end Jianpu
