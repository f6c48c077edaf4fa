import Jianpu.Proofs.Score.Builder
import Jianpu.Proofs.Score.Chain

/-!
# Filled slots

What a slot holds is a stretch of a chain of modifiers: `FilledSlot.Hung` names these modifiers,
from the innermost one out to the anchor around them, where the first one in the slot of a group is
the group's anchor. A modifier put into the slot goes to the end of the stretch
(`FilledSlot.Hung.inserted`).

An `Ownership` names the modifiers of all slots and says which slot owns a modifier. As no two slots
own the same one, an insertion or an operation on strands leaves the other slots as they are:
`Ownership.Hold` is kept by each of them.
-/

namespace Jianpu

namespace Slot

/-- The anchor around the suffixes of a slot. -/
def top : Slot → Nat
  | note _ top _ | group top _ => top

/-- The note that a slot belongs to, if it is not that of a group. -/
def node? : Slot → Option Nat
  | note n _ _ => some n
  | group _ _ => none

/-- The outermost modifier in a slot. -/
def last? : Slot → Option Nat
  | note _ _ last => last
  | group _ last => some last

/-- Where the way through a slot with modifiers `ids` starts. -/
def entry (g : Score) (ids : List Nat) : Slot → Option Nat
  | note n _ _ => g.modifier? n
  | group _ _ => ids.head?

end Slot

namespace FilledSlot

/-- What the modifiers of a slot do, with that of the group's anchor first. -/
def marks (p : FilledSlot) : List Modifier.Kind :=
  match p.slot.node? with
  | some _ => p.kinds
  | none => .anchor :: p.kinds

/-- `ids` are the modifiers of a slot, from the innermost one out to the anchor around them. -/
structure Hung (g : Score) (p : FilledSlot) (ids : List Nat) : Prop where
  path : g.Path (p.slot.entry g ids) ids (some p.slot.top)
  last : p.slot.last? = ids.getLast?
  marks : ids.map g.kind? = p.marks.map some
  nodup : ids.Nodup

namespace Hung

variable {g g' : Score} {p : FilledSlot} {ids : List Nat}

theorem kind?_eq_some (h : p.Hung g ids) {m : Nat} (hm : m ∈ ids) : ∃ k, g.kind? m = some k := by
  have hmem : g.kind? m ∈ p.marks.map some := by
    rw [← h.marks]
    exact List.mem_map_of_mem hm
  obtain ⟨k, -, hk⟩ := List.mem_map.1 hmem
  exact ⟨k, hk.symm⟩

theorem lt_size (h : p.Hung g ids) {m : Nat} (hm : m ∈ ids) : m < g.modifiers.size :=
  Score.lt_of_kind? (h.kind?_eq_some hm).choose_spec

theorem congr (h : p.Hung g ids) (hp : ∀ m ∈ ids, g'.parent? m = g.parent? m)
    (hk : ∀ m k, g.kind? m = some k → g'.kind? m = some k)
    (hn : ∀ n, p.slot.node? = some n → g'.modifier? n = g.modifier? n) : p.Hung g' ids where
  path := by
    have hentry : p.slot.entry g' ids = p.slot.entry g ids := by
      cases hs : p.slot with
      | note n top last => exact hn n (by rw [hs]; rfl)
      | group top last => rfl
    rw [hentry]
    exact h.path.congr hp
  last := h.last
  marks := by
    rw [← h.marks]
    refine List.map_congr_left fun m hm => ?_
    obtain ⟨k, hkm⟩ := h.kind?_eq_some hm
    rw [hkm, hk m k hkm]
  nodup := h.nodup

end Hung

end FilledSlot

/-- What putting the modifier `m` into a slot with modifiers `ids` does to a score. -/
structure Slot.Inserted (slot slot' : Slot) (g g' : Score) (m : Nat) (ids : List Nat) : Prop where
  node? : slot'.node? = slot.node?
  top : slot'.top = slot.top
  last? : slot'.last? = some m
  path : g'.Path (slot'.entry g' (ids ++ [m])) (ids ++ [m]) (some slot.top)
  parent? : ∀ x, x ∉ ids → x ≠ m → g'.parent? x = g.parent? x
  kind? : ∀ x, g'.kind? x = g.kind? x
  modifier? : ∀ n, slot.node? ≠ some n → g'.modifier? n = g.modifier? n
  content? : ∀ n, g'.content? n = g.content? n
  modifiers : g'.modifiers.size = g.modifiers.size
  nodes : g'.nodes.size = g.nodes.size

/-- Where modifiers stand already, a further one goes around the last of them. -/
theorem Score.Path.insert {g : Score} {e : Option Nat} {l : List Nat} {last top m : Nat}
    (h : g.Path e (l ++ [last]) (some top)) (hnd : (l ++ [last]).Nodup)
    (hlast : last < g.modifiers.size) (hm : m < g.modifiers.size) (hml : m ∉ l ++ [last]) :
    let g' := (g.setParent m top).setParent last m
    g'.Path e (l ++ [last] ++ [m]) (some top) ∧
      ∀ x, x ≠ last → x ≠ m → g'.parent? x = g.parent? x := by
  intro g'
  have hsize : (g.setParent m top).modifiers.size = g.modifiers.size := by
    simp [Score.setParent, Score.modifyModifier]
  have hparent : ∀ x, g'.parent? x = if x = last then some m
      else if x = m then some top else g.parent? x := by
    intro x
    rw [Score.parent?_setParent _ _ _ _ (by omega), Score.parent?_setParent _ _ _ _ hm]
  refine ⟨?_, fun x hx hxm => ?_⟩
  · obtain ⟨q, hl, hq⟩ := h.split
    obtain ⟨rfl, -⟩ := hq
    have hl' : g'.Path e l (some last) := by
      refine hl.congr fun x hx => ?_
      have hne : x ≠ last := fun heq =>
        (List.nodup_append'.1 hnd).2.2 hx (by simp [heq])
      rw [hparent, if_neg hne, if_neg (ne_of_mem_of_not_mem (List.mem_append_left _ hx) hml)]
    rw [List.append_assoc]
    refine hl'.append ⟨rfl, ?_, ?_⟩
    · rw [hparent, if_pos rfl]
    · show g'.parent? m = some top
      have hne : m ≠ last := fun heq => hml (by simp [heq])
      rw [hparent, if_neg hne, if_pos rfl]
  · rw [hparent, if_neg hx, if_neg hxm]

/-- A modifier goes around those in its slot, and inside the anchor around them. -/
theorem FilledSlot.Hung.inserted {g : Score} {p : FilledSlot} {ids : List Nat} (h : p.Hung g ids)
    (hn : ∀ n, p.slot.node? = some n → n < g.nodes.size) {m : Nat} (hm : m < g.modifiers.size)
    (hmem : m ∉ ids) :
    p.slot.Inserted (p.slot.insert g m).1 g (p.slot.insert g m).2 m ids := by
  have hpath := h.path
  have hlast := h.last
  have hkind : ∀ a b x, ((g.setParent m a).setParent b m).kind? x = g.kind? x := by
    intro a b x
    rw [Score.kind?_setParent, Score.kind?_setParent]
  have hmods : ∀ a b, ((g.setParent m a).setParent b m).modifiers.size = g.modifiers.size := by
    intro a b
    simp [Score.setParent, Score.modifyModifier]
  cases hs : p.slot with
  | note n top last =>
    rw [hs] at hpath hlast hn
    have hlt : n < g.nodes.size := hn n rfl
    cases last with
    | none =>
      obtain rfl : ids = [] := List.getLast?_eq_none_iff.1 hlast.symm
      have hparent : ∀ x, (g.setParent m top).parent? x = if x = m then some top else g.parent? x :=
        fun x => Score.parent?_setParent _ _ _ _ hm
      refine ⟨rfl, rfl, rfl, ⟨?_, ?_⟩, fun x _ hx => ?_, fun x => ?_, fun x hx => ?_, fun x => ?_,
        ?_, ?_⟩
      · exact (Score.modifier?_setModifier _ _ _ _ hlt).trans (if_pos rfl)
      · exact (hparent _).trans (if_pos rfl)
      · exact (hparent x).trans (if_neg hx)
      · exact Score.kind?_setParent ..
      · have hne : x ≠ n := fun heq => hx (by rw [heq]; rfl)
        exact (Score.modifier?_setModifier _ _ _ _ hlt).trans (if_neg hne)
      · exact Score.content?_setModifier ..
      · simp [Slot.insert, Score.setModifier, Score.setParent, Score.modifyModifier,
          Score.modifyNode]
      · simp [Slot.insert, Score.setModifier, Score.setParent, Score.modifyModifier]
    | some last =>
      obtain ⟨l, rfl⟩ := List.getLast?_eq_some_iff.1 hlast.symm
      obtain ⟨hins, hparent⟩ := hpath.insert h.nodup (h.lt_size (by simp)) hm hmem
      refine ⟨rfl, rfl, rfl, hins, fun x hx hxm => hparent x ?_ hxm, hkind _ _, fun _ _ => rfl,
        fun _ => rfl, hmods _ _, rfl⟩
      exact fun heq => hx (by simp [heq])
  | group top last =>
    rw [hs] at hpath hlast
    obtain ⟨l, rfl⟩ := List.getLast?_eq_some_iff.1 hlast.symm
    obtain ⟨hins, hparent⟩ := hpath.insert h.nodup (h.lt_size (by simp)) hm hmem
    refine ⟨rfl, rfl, rfl, ?_, fun x hx hxm => hparent x ?_ hxm, hkind _ _, fun _ _ => rfl,
      fun _ => rfl, hmods _ _, rfl⟩
    · have hhead : (l ++ [last] ++ [m]).head? = (l ++ [last]).head? := by
        cases l <;> rfl
      rw [Slot.entry, ← hhead] at hins
      exact hins
    · exact fun heq => hx (by simp [heq])

/-- A slot with one more modifier. -/
theorem FilledSlot.Hung.insert {g g' : Score} {p : FilledSlot} {ids : List Nat} (h : p.Hung g ids)
    {slot' : Slot} {m : Nat} {kind : Modifier.Kind} (hkind : g.kind? m = some kind) (hmem : m ∉ ids)
    (hins : p.slot.Inserted slot' g g' m ids) :
    FilledSlot.Hung g' ⟨slot', p.kinds ++ [kind]⟩ (ids ++ [m]) where
  path := by
    rw [hins.top]
    exact hins.path
  last := by rw [hins.last?, List.getLast?_concat]
  marks := by
    have hold : ids.map g'.kind? = p.marks.map some := by
      rw [← h.marks]
      exact List.map_congr_left fun x _ => hins.kind? x
    have hmarks : FilledSlot.marks ⟨slot', p.kinds ++ [kind]⟩ = p.marks ++ [kind] := by
      unfold FilledSlot.marks
      rw [hins.node?]
      cases p.slot.node? <;> rfl
    rw [hmarks, List.map_append, List.map_append, hold, List.map_singleton, List.map_singleton,
      hins.kind?, hkind]
  nodup := by
    refine List.nodup_append'.2 ⟨h.nodup, List.nodup_singleton _, ?_⟩
    simpa only [List.disjoint_singleton] using hmem

/-! ## What the operations do to the chains -/

/-- `g'` has the nodes and modifiers of `g`, with the same in and at them. -/
structure Score.Grows (g g' : Score) : Prop where
  modifiers : g.modifiers.size ≤ g'.modifiers.size
  nodes : g.nodes.size ≤ g'.nodes.size
  kind? : ∀ m k, g.kind? m = some k → g'.kind? m = some k
  content? : ∀ n c, g.content? n = some c → g'.content? n = some c

theorem Score.Grows.refl (g : Score) : g.Grows g :=
  ⟨Nat.le_refl _, Nat.le_refl _, fun _ _ hm => hm, fun _ _ hc => hc⟩

theorem Score.grows_addNode (g : Score) (content : Content) (span : Span) :
    g.Grows (g.addNode content span).2 := by
  refine ⟨Nat.le_refl _, by simp [addNode], fun _ _ hm => hm, fun n c hc => ?_⟩
  have hne : n ≠ g.nodes.size := by
    rintro rfl
    simp [content?] at hc
  rw [content?_addNode, if_neg hne, hc]

theorem Score.grows_addModifier (g : Score) (kind : Modifier.Kind) (span : Span) :
    g.Grows (g.addModifier kind span).2 := by
  refine ⟨by simp [addModifier], Nat.le_refl _, fun m k hm => ?_, fun _ _ hc => hc⟩
  rw [kind?_addModifier, if_neg (Nat.ne_of_lt (lt_of_kind? hm)), hm]

namespace Strand

variable {g : Score}

theorem size_connect (s : Strand) (g : Score) (n : Nat) :
    (s.connect g n).nodes.size = g.nodes.size := by
  rw [connect_eq, Score.setJoin, Score.size_modifyNode, size_foldl_setNext]

/-- The anchor of a strand that an operation gives for the strand `s`. -/
def IsTop (s : Option Strand) (g g' : Score) (top : Nat) : Prop :=
  match s with
  | some s => top = s.top
  | none => top = g.modifiers.size ∧ g'.kind? top = some .anchor

theorem IsTop.eq {s? : Option Strand} {s : Strand} {g g' : Score} {top : Nat}
    (h : IsTop s? g g' top) (hs : s? = some s) : top = s.top := by
  subst hs
  exact h

theorem append_chains (s : Option Strand) (g : Score) {n : Nat} (hn : n < g.nodes.size) :
    let r := append s g n
    IsTop s g r.2.2 r.1.top ∧ r.2.1 = .note n r.1.top none ∧ g.Grows r.2.2 ∧
      (∀ m, r.2.2.parent? m = g.parent? m) ∧
      ∀ x, r.2.2.modifier? x = if x = n then some r.1.top else g.modifier? x := by
  intro r
  cases s with
  | none =>
    refine ⟨⟨rfl, ?_⟩, rfl, ⟨?_, ?_, fun m k hm => ?_, fun x c hx => ?_⟩, fun m => ?_, fun x => ?_⟩
    · exact (Score.kind?_addModifier ..).trans (if_pos rfl)
    · simp [r, append, Score.setModifier, Score.modifyNode, Score.addModifier]
    · simp [r, append, Score.setModifier]
    · have hne : m ≠ g.modifiers.size := Nat.ne_of_lt (Score.lt_of_kind? hm)
      exact (Score.kind?_addModifier ..).trans ((if_neg hne).trans hm)
    · exact (Score.content?_setModifier ..).trans hx
    · exact Score.parent?_addModifier ..
    · exact Score.modifier?_setModifier _ _ _ _ hn
  | some s =>
    have hc := s.sameHolds_connect g n
    have hsize : n < (s.connect g n).nodes.size := by rwa [size_connect]
    refine ⟨rfl, rfl, ⟨?_, ?_, fun m k hm => ?_, fun x c hx => ?_⟩, hc.parent?, fun x => ?_⟩
    · exact Nat.le_of_eq (congrArg Array.size hc.modifiers).symm
    · simp [r, append, Score.setModifier, size_connect]
    · exact (hc.kind? m).trans hm
    · exact (Score.content?_setModifier ..).trans ((hc.content? x).trans hx)
    · refine (Score.modifier?_setModifier _ _ _ _ hsize).trans ?_
      rw [hc.modifier?]
      rfl

theorem branch_chains (s o : Strand) (g : Score) (ho : o.top < g.modifiers.size) :
    let r := branch (some s) (some o) g
    g.Grows r.2 ∧ (∀ m, r.2.parent? m = if m = o.top then some s.top else g.parent? m) ∧
      ∀ x, r.2.modifier? x = g.modifier? x := by
  intro r
  have hc : Score.SameHolds g (g.setSibling s.lastSibling o.head) :=
    .modifyNode _ _ (fun _ => rfl) fun _ => rfl
  refine ⟨⟨?_, ?_, fun m k hm => ?_, fun x c hx => ?_⟩, fun m => ?_, fun x => hc.modifier? x⟩
  · simp [r, branch, Score.setParent, Score.modifyModifier, hc.modifiers]
  · simp [r, branch, Score.setSibling]
  · exact (Score.kind?_setParent ..).trans ((hc.kind? m).trans hm)
  · exact (hc.content? x).trans hx
  · exact Score.parent?_setParent _ _ _ _ ho

theorem concat_chains (s : Option Strand) (o : Strand) (g : Score) (ho : o.top < g.modifiers.size) :
    let r := concat s (some o) g
    ∃ s', r.1 = some s' ∧ IsTop s g r.2.2 s'.top ∧ r.2.1 = some (.group s'.top o.top) ∧
      g.Grows r.2.2 ∧
      (∀ m, r.2.2.parent? m = if m = o.top then some s'.top else g.parent? m) ∧
      ∀ x, r.2.2.modifier? x = g.modifier? x := by
  intro r
  cases s with
  | none =>
    have hsize : ∀ kind span, o.top < (g.addModifier kind span).2.modifiers.size := by
      intro kind span
      simp only [Score.addModifier, Array.size_push]
      omega
    refine ⟨_, rfl, ⟨rfl, ?_⟩, rfl, ⟨?_, Nat.le_refl _, fun m k hm => ?_, fun x c hx => hx⟩,
      fun m => ?_, fun x => rfl⟩
    · exact (Score.kind?_setParent ..).trans ((Score.kind?_addModifier ..).trans (if_pos rfl))
    · simp [r, concat, Score.setParent, Score.modifyModifier, Score.addModifier]
    · have hne : m ≠ g.modifiers.size := Nat.ne_of_lt (Score.lt_of_kind? hm)
      exact (Score.kind?_setParent ..).trans
        ((Score.kind?_addModifier ..).trans ((if_neg hne).trans hm))
    · refine (Score.parent?_setParent _ _ _ _ (hsize ..)).trans ?_
      rw [Score.parent?_addModifier]
  | some s =>
    have hc := s.sameHolds_connect g o.head
    have hsize : o.top < (s.connect g o.head).modifiers.size := by rwa [hc.modifiers]
    refine ⟨_, rfl, rfl, rfl, ⟨?_, ?_, fun m k hm => ?_, fun x c hx => (hc.content? x).trans hx⟩,
      fun m => ?_, hc.modifier?⟩
    · simp [r, concat, Score.setParent, Score.modifyModifier, hc.modifiers]
    · exact Nat.le_of_eq (size_connect ..).symm
    · exact (Score.kind?_setParent ..).trans ((hc.kind? m).trans hm)
    · refine (Score.parent?_setParent _ _ _ _ hsize).trans ?_
      rw [hc.parent?]

end Strand

theorem getElem?_concat_cases {l : List FilledSlot} {x p : FilledSlot} {k : Nat}
    (hp : (l ++ [x])[k]? = some p) : l[k]? = some p ∨ (k = l.length ∧ p = x) := by
  rcases Nat.lt_trichotomy k l.length with hlt | heq | hgt
  · rw [List.getElem?_append_left hlt] at hp
    exact .inl hp
  · subst heq
    rw [List.getElem?_concat_length] at hp
    exact .inr ⟨rfl, (Option.some.inj hp).symm⟩
  · rw [List.getElem?_eq_none (by simp; omega)] at hp
    simp at hp

theorem getElem?_append_of_eq_some {l : List FilledSlot} {p : FilledSlot} {k : Nat}
    (hp : l[k]? = some p) (l' : List FilledSlot) : (l ++ l')[k]? = some p := by
  rw [List.getElem?_append_left (List.getElem?_eq_some_iff.1 hp).1, hp]

/-! ## All slots -/

/-- The modifiers of each slot, and the slot that owns a modifier. -/
structure Ownership where
  ids : Nat → List Nat := fun _ => []
  owner : Nat → Option Nat := fun _ => none

namespace Ownership

/-- A modifier put into a slot. -/
def own (h : Ownership) (k m : Nat) : Ownership :=
  ⟨Function.update h.ids k (h.ids k ++ [m]), Function.update h.owner m (some k)⟩

theorem ids_own_self (h : Ownership) (k m : Nat) : (h.own k m).ids k = h.ids k ++ [m] :=
  Function.update_self ..

theorem ids_own_of_ne (h : Ownership) {j k : Nat} (hj : j ≠ k) (m : Nat) :
    (h.own k m).ids j = h.ids j :=
  Function.update_of_ne hj ..

theorem owner_own_of_ne (h : Ownership) (k : Nat) {m x : Nat} (hx : x ≠ m) :
    (h.own k m).owner x = h.owner x :=
  Function.update_of_ne hx ..

/-- The slots of a builder hold their modifiers, and no two of them hold the same one or belong to
the same note. -/
structure Hold (h : Ownership) (g : Score) (slots : List FilledSlot)
    (placed : List Nat) : Prop where
  filled : ∀ (k : Nat) (p : FilledSlot), slots[k]? = some p → p.Hung g (h.ids k)
  spare : ∀ k, slots.length ≤ k → h.ids k = []
  owned : ∀ k, ∀ m ∈ h.ids k, h.owner m = some k
  free : ∀ m, g.modifiers.size ≤ m → h.owner m = none
  placed : ∀ (k : Nat) (p : FilledSlot) (n : Nat), slots[k]? = some p → p.slot.node? = some n →
    n ∈ placed ∧ n < g.nodes.size
  once : ∀ (j k : Nat) (p q : FilledSlot) (n : Nat), slots[j]? = some p → slots[k]? = some q →
    p.slot.node? = some n → q.slot.node? = some n → j = k

namespace Hold

variable {h : Ownership} {g g' : Score} {slots : List FilledSlot} {placed : List Nat}

/-- A modifier that no slot owns is in none. -/
theorem notMem_ids (hh : h.Hold g slots placed) {m k : Nat} (hm : h.owner m = none) :
    m ∉ h.ids k := by
  intro hmem
  rw [hh.owned k m hmem] at hm
  simp at hm

/-- A modifier that no slot owned is owned by the slot that it is put into. -/
theorem owned_own (hh : h.Hold g slots placed) (k : Nat) {m : Nat} (hm : h.owner m = none) :
    ∀ j, ∀ x ∈ (h.own k m).ids j, (h.own k m).owner x = some j := by
  have hold : ∀ j, ∀ x ∈ h.ids j, (h.own k m).owner x = some j := by
    intro j x hx
    have hne : x ≠ m := fun heq => hh.notMem_ids hm (heq ▸ hx)
    rw [owner_own_of_ne h k hne]
    exact hh.owned j x hx
  intro j x hx
  by_cases hj : j = k
  · subst hj
    rw [ids_own_self, List.mem_append, List.mem_singleton] at hx
    rcases hx with hx | rfl
    · exact hold j x hx
    · exact Function.update_self ..
  · rw [ids_own_of_ne h hj] at hx
    exact hold j x hx

/-- Where the score changes, but not in what the slots hold. -/
theorem congr (hh : h.Hold g slots placed) (hg : g.Grows g')
    (hparent : ∀ k, ∀ m ∈ h.ids k, g'.parent? m = g.parent? m)
    (hmod : ∀ n ∈ placed, g'.modifier? n = g.modifier? n) : h.Hold g' slots placed where
  filled k p hp := (hh.filled k p hp).congr (hparent k) hg.kind? fun n hn =>
    hmod n (hh.placed k p n hp hn).1
  spare := hh.spare
  owned := hh.owned
  free m hm := hh.free m (Nat.le_trans hg.modifiers hm)
  placed k p n hp hn := by
    obtain ⟨hmem, hlt⟩ := hh.placed k p n hp hn
    exact ⟨hmem, Nat.lt_of_lt_of_le hlt hg.nodes⟩
  once := hh.once

/-- A slot for a node that had none. -/
theorem note (hh : h.Hold g slots placed) {n top : Nat} (hn : n < g.nodes.size)
    (hfresh : n ∉ placed) (hg : g.Grows g') (hparent : ∀ m, g'.parent? m = g.parent? m)
    (hmod : ∀ x, g'.modifier? x = if x = n then some top else g.modifier? x) :
    h.Hold g' (slots ++ [⟨.note n top none, []⟩]) (n :: placed) := by
  have hkept : h.Hold g' slots placed := by
    refine hh.congr hg (fun _ m _ => hparent m) fun x hx => ?_
    rw [hmod, if_neg (ne_of_mem_of_not_mem hx hfresh)]
  have hother : ∀ (k : Nat) (p : FilledSlot), slots[k]? = some p → p.slot.node? ≠ some n :=
    fun k p hp hpn => hfresh (hh.placed k p n hp hpn).1
  refine ⟨fun k p hp => ?_, fun k hk => ?_, hh.owned, hkept.free, fun k p m hp hm => ?_,
    fun j k p q m hp hq hpm hqm => ?_⟩
  · rcases getElem?_concat_cases hp with hp | ⟨rfl, rfl⟩
    · exact hkept.filled k p hp
    · rw [hh.spare _ (Nat.le_refl _)]
      exact ⟨(hmod n).trans (if_pos rfl), rfl, rfl, List.nodup_nil⟩
  · rw [List.length_append] at hk
    exact hh.spare k (by omega)
  · rcases getElem?_concat_cases hp with hp | ⟨rfl, rfl⟩
    · obtain ⟨hmem, hlt⟩ := hkept.placed k p m hp hm
      exact ⟨List.mem_cons_of_mem _ hmem, hlt⟩
    · obtain rfl : n = m := Option.some.inj hm
      exact ⟨List.mem_cons_self, Nat.lt_of_lt_of_le hn hg.nodes⟩
  · rcases getElem?_concat_cases hp with hp | ⟨rfl, rfl⟩ <;>
      rcases getElem?_concat_cases hq with hq | ⟨rfl, rfl⟩
    · exact hh.once j k p q m hp hq hpm hqm
    · obtain rfl : n = m := Option.some.inj hqm
      exact absurd hpm (hother j p hp)
    · obtain rfl : n = m := Option.some.inj hpm
      exact absurd hqm (hother k q hq)
    · rfl

/-- A slot for a group. It starts with the group's anchor `a`, around which `top` was put. -/
theorem group (hh : h.Hold g slots placed) {a top : Nat} (ha : h.owner a = none)
    (hkind : g.kind? a = some .anchor) (hg : g.Grows g')
    (hparent : ∀ m, g'.parent? m = if m = a then some top else g.parent? m)
    (hmod : ∀ x, g'.modifier? x = g.modifier? x) :
    (h.own slots.length a).Hold g' (slots ++ [⟨.group top a, []⟩]) placed := by
  have hkept : h.Hold g' slots placed := by
    refine hh.congr hg (fun k m hm => ?_) fun x _ => hmod x
    rw [hparent, if_neg fun heq => hh.notMem_ids ha (heq ▸ hm)]
  have hnote : ∀ (k : Nat) (p : FilledSlot) (n : Nat),
      (slots ++ [⟨.group top a, []⟩])[k]? = some p → p.slot.node? = some n →
        slots[k]? = some p := by
    intro k p n hp hn
    rcases getElem?_concat_cases hp with hp | ⟨rfl, rfl⟩
    · exact hp
    · simp [Slot.node?] at hn
  refine ⟨fun k p hp => ?_, fun k hk => ?_, hh.owned_own _ ha, fun m hm => ?_,
    fun k p n hp hn => hkept.placed k p n (hnote k p n hp hn) hn,
    fun j k p q n hp hq hpn hqn =>
      hh.once j k p q n (hnote j p n hp hpn) (hnote k q n hq hqn) hpn hqn⟩
  · rcases getElem?_concat_cases hp with hp | ⟨rfl, rfl⟩
    · rw [ids_own_of_ne h (Nat.ne_of_lt (List.getElem?_eq_some_iff.1 hp).1)]
      exact hkept.filled k p hp
    · rw [ids_own_self, hh.spare _ (Nat.le_refl _)]
      refine ⟨⟨rfl, ?_⟩, rfl, ?_, List.nodup_singleton _⟩
      · exact (hparent a).trans (if_pos rfl)
      · rw [List.nil_append, List.map_singleton, hg.kind? a _ hkind]
        rfl
  · rw [List.length_append, List.length_singleton] at hk
    rw [ids_own_of_ne h (by omega)]
    exact hh.spare k (by omega)
  · have hne : m ≠ a := by
      rintro rfl
      exact absurd (Nat.le_trans hg.modifiers hm) (Nat.not_le_of_lt (Score.lt_of_kind? hkind))
    rw [owner_own_of_ne h _ hne]
    exact hkept.free m hm

/-- A modifier that no slot owned, put into a slot. -/
theorem insert (hh : h.Hold g slots placed) {k : Nat} {p : FilledSlot} (hp : slots[k]? = some p)
    {slot' : Slot} {m : Nat} {kind : Modifier.Kind} (hfree : h.owner m = none)
    (hkind : g.kind? m = some kind) (hins : p.slot.Inserted slot' g g' m (h.ids k)) :
    (h.own k m).Hold g' (slots.set k ⟨slot', p.kinds ++ [kind]⟩) placed := by
  have hset : ∀ (j : Nat) (q : FilledSlot),
      (slots.set k ⟨slot', p.kinds ++ [kind]⟩)[j]? = some q →
        (j = k ∧ q = ⟨slot', p.kinds ++ [kind]⟩) ∨ (j ≠ k ∧ slots[j]? = some q) := by
    intro j q hq
    by_cases hj : j = k
    · subst hj
      rw [List.getElem?_set_self (List.getElem?_eq_some_iff.1 hp).1] at hq
      exact .inl ⟨rfl, (Option.some.inj hq).symm⟩
    · rw [List.getElem?_set_ne (Ne.symm hj)] at hq
      exact .inr ⟨hj, hq⟩
  -- the slot that changed is still that of the same note or group
  have hplace : ∀ (j : Nat) (q : FilledSlot),
      (slots.set k ⟨slot', p.kinds ++ [kind]⟩)[j]? = some q →
        ∃ q' : FilledSlot, slots[j]? = some q' ∧ q.slot.node? = q'.slot.node? := by
    intro j q hq
    rcases hset j q hq with ⟨rfl, rfl⟩ | ⟨-, hq⟩
    · exact ⟨p, hp, hins.node?⟩
    · exact ⟨q, hq, rfl⟩
  refine ⟨fun j q hq => ?_, fun j hj => ?_, hh.owned_own k hfree, fun x hx => ?_,
    fun j q n hq hn => ?_, fun i j q q' n hq hq' hn hn' => ?_⟩
  · rcases hset j q hq with ⟨rfl, rfl⟩ | ⟨hj, hq⟩
    · rw [ids_own_self]
      exact (hh.filled j p hp).insert hkind (hh.notMem_ids hfree) hins
    · have hhung := hh.filled j q hq
      rw [ids_own_of_ne h hj]
      refine hhung.congr (fun x hx => hins.parent? x ?_ ?_) (fun x c hx => (hins.kind? x).trans hx)
        fun n hn => hins.modifier? n fun hn' => hj (hh.once j k q p n hq hp hn hn')
      · intro hxk
        exact hj (Option.some.inj ((hh.owned j x hx).symm.trans (hh.owned k x hxk)))
      · exact ne_of_mem_of_not_mem hx (hh.notMem_ids hfree)
  · rw [List.length_set] at hj
    have hne : j ≠ k := Nat.ne_of_gt (Nat.lt_of_lt_of_le (List.getElem?_eq_some_iff.1 hp).1 hj)
    rw [ids_own_of_ne h hne]
    exact hh.spare j hj
  · rw [hins.modifiers] at hx
    have hne : x ≠ m := Nat.ne_of_gt (Nat.lt_of_lt_of_le (Score.lt_of_kind? hkind) hx)
    rw [owner_own_of_ne h k hne]
    exact hh.free x hx
  · obtain ⟨q', hq', hnode⟩ := hplace j q hq
    obtain ⟨hmem, hlt⟩ := hh.placed j q' n hq' (hnode.symm.trans hn)
    exact ⟨hmem, by rw [hins.nodes]; exact hlt⟩
  · obtain ⟨r, hr, hnode⟩ := hplace i q hq
    obtain ⟨r', hr', hnode'⟩ := hplace j q' hq'
    exact hh.once i j r r' n hr hr' (hnode.symm.trans hn) (hnode'.symm.trans hn')

end Hold

end Ownership

end Jianpu
