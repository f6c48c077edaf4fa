import Jianpu.Proofs.Schedule.Play
import Jianpu.Proofs.Schedule.Stage

/-!
# Scenes and stages

A scene knows the nodes of a strand by their links, a stage by the shape that is left of it. Here
the links are those of the shape, and every step from a scene is one from the stage (`Staged.step`):
what comes next are the first of the nodes at the front, of which each leads to the next one by its
sibling, and a successor that waited for one node only is the first node of what that node releases.
So the nodes of a strand are started as from the stage of its shape: `Queue.exists_stage`.
-/

namespace Jianpu

/-- Starting these nodes in turn, each one with its sibling after it and before the others, is to
start the nodes of the second list. -/
inductive Unrolls (sibling : Nat → Option Nat) : List Nat → List Nat → Prop
  | nil : Unrolls sibling [] []
  | cons {n : Nat} {rest ns : List Nat} (h : Unrolls sibling ((sibling n).toList ++ rest) ns) :
      Unrolls sibling (n :: rest) (n :: ns)

namespace Unrolls

variable {sibling : Nat → Option Nat} {n : Nat} {rest ns : List Nat}

theorem eq_nil (h : Unrolls sibling [] ns) : ns = [] := by
  cases h
  rfl

theorem exists_cons (h : Unrolls sibling (n :: rest) ns) :
    ∃ ns', ns = n :: ns' ∧ Unrolls sibling ((sibling n).toList ++ rest) ns' := by
  cases h with
  | cons h => exact ⟨_, rfl, h⟩

/-- From its first node the siblings lead through all that is at the front of a shape. -/
theorem fronts {w : Shape Nat} {k : Option Nat} (hw : w.Tight) (hne : w ≠ .nil)
    (hsib : ∀ x ∈ w.siblings k, sibling x.1 = x.2) (h : Unrolls sibling (k.toList ++ rest) ns) :
    Unrolls sibling (w.toList.head?.toList ++ rest) (w.fronts ++ ns) := by
  induction w generalizing k ns with
  | nil => exact absurd rfl hne
  | node a others =>
    refine .cons ?_
    rwa [hsib (a, k) List.mem_cons_self]
  | fork l r others ihl ihr =>
    simp only [Shape.siblings, List.forall_mem_append] at hsib
    have hhead : (Shape.fork l r others).toList.head? = l.toList.head? :=
      List.head?_append_of_ne_nil _ (Shape.toList_ne_nil hw.2.1 hw.1.1)
    rw [hhead, Shape.fronts, List.append_assoc]
    exact ihl hw.2.1 hw.1.1 hsib.1 (ihr hw.2.2.1 hw.1.2 hsib.2.1 h)

end Unrolls

namespace Stage

variable {s : Stage} {n : Nat}

theorem pending_nodup (hnodup : s.shape.toList.Nodup) : s.pending.Nodup :=
  (hnodup.sublist s.shape.fronts_sublist).filter _

theorem pending_visited {rest : List Nat} (hnodup : s.shape.toList.Nodup)
    (h : s.pending = n :: rest) (cues : List Cue) :
    ({ s with visited := s.visited ++ [n], cues } : Stage).pending = rest := by
  have hrest := pending_nodup hnodup
  rw [h, List.nodup_cons] at hrest
  have hfilter : ({ s with visited := s.visited ++ [n], cues } : Stage).pending =
      s.pending.filter (· ≠ n) := by
    rw [pending, pending, List.filter_filter]
    refine List.filter_congr fun m _ => ?_
    simp [and_comm]
  rw [hfilter, h, List.filter_cons_of_neg (by simp)]
  refine List.filter_eq_self.2 fun m hm => ?_
  have hne : m ≠ n := fun heq => hrest.1 (heq ▸ hm)
  simpa using hne

/-- When a node is over, all that it releases is to be started, before all else. -/
theorem pending_remove {before after : List Nat} (hw : s.shape.Tight)
    (hnodup : s.shape.toList.Nodup) (hfronts : s.shape.fronts = before ++ n :: after)
    (hbefore : ∀ m ∈ before, m ∈ s.visited) (hn : n ∈ s.visited)
    (hfront : ∀ m ∈ s.visited, m ∈ s.shape.toList → m ∈ s.shape.fronts) :
    ∃ v, ({ s with shape := s.shape.remove n } : Stage).pending = v.fronts ++ s.pending ∧
      (s.shape.Releases n none v ∨ v = .nil ∧ s.shape.Withholds n none) := by
  have hat := Shape.atFront hw hnodup (by simp [hfronts] : n ∈ s.shape.fronts)
  have hdistinct := hnodup.sublist s.shape.fronts_sublist
  rw [hfronts, List.nodup_middle, List.nodup_cons, List.mem_append, not_or] at hdistinct
  obtain ⟨before', after', v, hsplit, hremove, hcase⟩ :=
    Shape.remove_cases hat (k := none) (by simp)
  obtain ⟨rfl, -, rfl⟩ := (List.append_cons_inj_of_notMem hdistinct.1.1 hdistinct.1.2).1
    (hfronts.symm.trans hsplit)
  refine ⟨v, ?_, hcase⟩
  -- what was started and is left was at the front before, so nothing that is released was started
  have hnew : ∀ m ∈ v.fronts, m ∉ s.visited := by
    intro m hm hvisited
    have hmem : m ∈ (s.shape.remove n).toList :=
      (s.shape.remove n).fronts_subset (by simp [hremove, hm])
    obtain ⟨hne, hmem⟩ := (Shape.mem_toList_remove hat hnodup).1 hmem
    have hold := hfront m hvisited hmem
    rw [hfronts, List.mem_append, List.mem_cons] at hold
    have hsub : (s.shape.remove n).toList.Sublist s.shape.toList := by
      rw [Shape.toList_remove hat]
      exact List.erase_sublist
    have hnodup' := (hnodup.sublist hsub).sublist (s.shape.remove n).fronts_sublist
    rw [hremove, List.nodup_append, List.nodup_append] at hnodup'
    rcases hold with hold | hold | hold
    · exact hnodup'.2.2 m hold m (List.mem_append_left _ hm) rfl
    · exact hne hold
    · exact hnodup'.2.1.2.2 m hm m hold rfl
  have hdone : before.filter (fun m => decide (m ∉ s.visited)) = [] :=
    List.filter_eq_nil_iff.2 fun m hm => by simpa using hbefore m hm
  have hfresh : v.fronts.filter (fun m => decide (m ∉ s.visited)) = v.fronts :=
    List.filter_eq_self.2 fun m hm => by simpa using hnew m hm
  rw [pending, pending, hremove, hfronts, List.filter_append, List.filter_append,
    List.filter_append, hdone, hfresh, List.filter_cons_of_neg (by simpa using hn)]
  rfl

end Stage

/-- A scene whose nodes are those of a stage and are linked as in its shape. -/
structure Staged (c : Cast) (scene : Scene) (s : Stage) : Prop where
  visited : scene.visited = s.visited
  cues : scene.cues = s.cues
  coming : Unrolls c.sibling scene.coming s.pending
  next : ∀ x ∈ s.shape.nexts none, c.next x.1 = x.2
  sibling : ∀ x ∈ s.shape.inner, c.sibling x.1 = x.2
  left : ∀ n ∈ s.shape.toList, n ∈ c.nodes ∧ n ∉ scene.finished
  nodes : ∀ n ∈ c.nodes, n ∈ scene.finished ∨ n ∈ s.shape.toList

namespace Staged

variable {c : Cast} {scene scene' : Scene} {s : Stage} {n : Nat} {v : Shape Nat}

theorem start {w : Shape Nat} {head : Nat} (hw : w.Tight) (hhead : w.toList.head? = some head)
    (hnext : ∀ x ∈ w.nexts none, c.next x.1 = x.2)
    (hsibling : ∀ x ∈ w.siblings none, c.sibling x.1 = x.2) (hnodes : c.nodes = w.toList) :
    Staged c { coming := [head] } { shape := w } := by
  have hne : w ≠ .nil := by
    rintro rfl
    simp [Shape.toList] at hhead
  refine ⟨rfl, rfl, ?_, hnext, fun x hx => hsibling x (w.inner_subset_siblings none hx), ?_, ?_⟩
  · have hunroll : Unrolls c.sibling (w.toList.head?.toList ++ []) _ := .fronts hw hne hsibling .nil
    rw [hhead, List.append_nil] at hunroll
    simpa [Stage.pending] using hunroll
  · simp [hnodes]
  · simp [hnodes]

/-- The successor comes next if it waited for this node only. -/
theorem follow_of_releases (h : Staged c scene s) (hat : s.shape.AtFront n)
    (hnodup : s.shape.toList.Nodup) (hv : s.shape.Releases n none v) :
    c.follow scene.finished n = v.toList.head?.toList := by
  obtain ⟨a, -, ha⟩ := hv.head_mem
  have hnext : c.next n = some a := ha ▸ h.next _ hv.next
  have honly : ∀ m ∈ c.nodes, c.next m = some a → m ∈ n :: scene.finished := by
    intro m hm hma
    rcases h.nodes m hm with hm | hm
    · exact List.mem_cons_of_mem _ hm
    · by_contra hne
      rw [List.mem_cons, not_or] at hne
      have hmem := (Shape.mem_toList_remove hat hnodup).2 ⟨hne.1, hm⟩
      rw [← Shape.map_fst_nexts _ none] at hmem
      obtain ⟨x, hx, rfl⟩ := List.mem_map.1 hmem
      refine hv.only x hx ?_
      rw [ha, ← hma, h.next x (Shape.nexts_remove_subset _ _ _ hx)]
  rw [Cast.follow, hnext, ha, Option.filter_some, if_pos (by simpa using honly)]

theorem follow_of_withholds (h : Staged c scene s) (hat : s.shape.AtFront n)
    (hnodup : s.shape.toList.Nodup) (hv : s.shape.Withholds n none) :
    c.follow scene.finished n = [] := by
  obtain ⟨k, hk, hcase⟩ := hv
  have hnext : c.next n = k := h.next _ hk
  rw [Cast.follow, hnext]
  rcases hcase with ⟨m, hm⟩ | ⟨-, rfl⟩
  · have hmk : c.next m = k := h.next _ (Shape.nexts_remove_subset _ _ _ hm)
    have hmem : m ∈ (s.shape.remove n).toList := by
      rw [← Shape.map_fst_nexts _ none]
      exact List.mem_map_of_mem hm
    obtain ⟨hne, hmem⟩ := (Shape.mem_toList_remove hat hnodup).1 hmem
    obtain ⟨hnode, hfinished⟩ := h.left m hmem
    cases k with
    | none => rfl
    | some k =>
      rw [Option.filter_some, if_neg]
      · rfl
      · intro hall
        have hmem := of_decide_eq_true hall m hnode hmk
        simp [hne, hfinished] at hmem
  · rfl

/-- A node is over. -/
theorem finish (h : Staged c scene s) {before after : List Nat} (hw : s.shape.Tight)
    (hnodup : s.shape.toList.Nodup) (hfronts : s.shape.fronts = before ++ n :: after)
    (hbefore : ∀ m ∈ before, m ∈ s.visited) (hn : n ∈ s.visited)
    (hfront : ∀ m ∈ s.visited, m ∈ s.shape.toList → m ∈ s.shape.fronts) :
    Staged c (c.finish scene n) { s with shape := s.shape.remove n } := by
  have hat := Shape.atFront hw hnodup (by simp [hfronts] : n ∈ s.shape.fronts)
  obtain ⟨v, hpending, hcase⟩ := Stage.pending_remove hw hnodup hfronts hbefore hn hfront
  refine ⟨h.visited, h.cues, ?_, fun x hx => h.next x (Shape.nexts_remove_subset _ _ _ hx),
    fun x hx => h.sibling x (Shape.inner_remove_subset _ _ hx), fun m hm => ?_, fun m hm => ?_⟩
  · rw [hpending]
    rcases hcase with hv | ⟨rfl, hv⟩
    · rw [Cast.finish, h.follow_of_releases hat hnodup hv]
      exact .fronts hv.tight hv.ne_nil (fun x hx => h.sibling x (hv.inner hx)) h.coming
    · rw [Cast.finish, h.follow_of_withholds hat hnodup hv]
      exact h.coming
  · obtain ⟨hne, hmem⟩ := (Shape.mem_toList_remove hat hnodup).1 hm
    obtain ⟨hnode, hfinished⟩ := h.left m hmem
    exact ⟨hnode, by simp [Cast.finish, hne, hfinished]⟩
  · by_cases hmn : m = n
    · exact .inl (hmn ▸ List.mem_cons_self)
    · rcases h.nodes m hm with hm | hm
      · exact .inl (List.mem_cons_of_mem _ hm)
      · exact .inr ((Shape.mem_toList_remove hat hnodup).2 ⟨hmn, hm⟩)

theorem visit (h : Staged c scene s) (hfit : s.Fit c) {rest ns : List Nat}
    (hpending : s.pending = n :: ns) (hns : Unrolls c.sibling ((c.sibling n).toList ++ rest) ns) :
    Staged c (c.visit scene n rest) (s.visit c n) := by
  have hstart : Staged c
      { scene with
        visited := scene.visited ++ [n]
        coming := (c.sibling n).toList ++ rest
        cues := scene.cues ++ c.cuesOf n }
      { s with visited := s.visited ++ [n], cues := s.cues ++ c.cuesOf n } := by
    refine ⟨by rw [h.visited], by rw [h.cues], ?_, h.next, h.sibling, h.left, h.nodes⟩
    rwa [Stage.pending_visited hfit.nodup hpending]
  unfold Cast.visit Stage.visit
  cases c.lasts n with
  | true => exact hstart
  | false =>
    obtain ⟨before, after, hfronts, hbefore, -, -⟩ := List.filter_eq_cons_iff.1 hpending
    have hmem : n ∈ s.shape.fronts := by simp [hfronts]
    refine hstart.finish hfit.tight hfit.nodup hfronts (fun m hm => ?_) (by simp) ?_
    · have hvisited : m ∈ s.visited := by simpa using hbefore m hm
      exact List.mem_append_left _ hvisited
    · exact List.forall_mem_append.2 ⟨fun m hm hleft => (hfit.lasts m hm hleft).2,
        List.forall_mem_singleton.2 fun _ => hmem⟩

theorem give (h : Staged c scene s) (hfit : s.Fit c) {x : Cue} {others : List Cue}
    (hpending : s.pending = []) (hx : x ∈ s.cues) :
    Staged c (c.give scene x others) (s.give x others) := by
  have hrest : Staged c { scene with cues := others } { s with cues := others } :=
    ⟨h.visited, rfl, h.coming, h.next, h.sibling, h.left, h.nodes⟩
  unfold Cast.give Stage.give
  cases hends : x.ends with
  | false => exact hrest
  | true =>
    obtain ⟨hvisited, hleft⟩ := hfit.ends x hx hends
    obtain ⟨before, after, hfronts⟩ := List.append_of_mem (hfit.lasts _ hvisited hleft).2
    refine hrest.finish hfit.tight hfit.nodup hfronts (fun m hm => ?_) hvisited fun m hm hleft =>
      (hfit.lasts m hm hleft).2
    exact (hfit.lasts_of_pending hpending m (by simp [hfronts, hm])).1

/-- **A step from the scene is a step from the stage.** -/
theorem step (h : Staged c scene s) (hfit : s.Fit c) (hstep : c.Step scene scene') :
    ∃ t, Stage.Step c s t ∧ Staged c scene' t := by
  have hunrolls := h.coming
  cases hstep with
  | visit hcoming =>
    rw [hcoming] at hunrolls
    obtain ⟨ns, hpending, hns⟩ := hunrolls.exists_cons
    exact ⟨_, .visit hpending, h.visit hfit hpending hns⟩
  | give hcoming hcues hbefore hafter =>
    rw [hcoming] at hunrolls
    rw [h.cues] at hcues
    exact ⟨_, .give hunrolls.eq_nil hcues hbefore hafter,
      h.give hfit hunrolls.eq_nil (by simp [hcues])⟩

theorem run (h : Staged c scene s) (hfit : s.Fit c) (hc : c.EndsOnce)
    (hrun : Relation.ReflTransGen c.Step scene scene') :
    ∃ t, Relation.ReflTransGen (Stage.Step c) s t ∧ Staged c scene' t ∧ t.Fit c := by
  induction hrun with
  | refl => exact ⟨s, .refl, h, hfit⟩
  | tail _ hstep ih =>
    obtain ⟨t, hrun, ht, hfit⟩ := ih
    obtain ⟨t', hstep', ht'⟩ := ht.step hfit hstep
    exact ⟨t', hrun.tail hstep', ht', hfit.step hc hstep'⟩

theorem halted (h : Staged c scene s) (hscene : scene.Halted) : s.Halted := by
  have hunrolls := h.coming
  rw [hscene.1] at hunrolls
  exact ⟨hunrolls.eq_nil, h.cues ▸ hscene.2⟩

end Staged

/-- A note ends with one event, and nothing else does. -/
theorem Score.endsOnce_cast (g : Score) (ns : List Nat) (division : Nat) (start : Nat → Nat) :
    (g.cast ns division start).EndsOnce := by
  intro n
  show ((((g.cuesAt division n (start n)).map _).filter _).map _).Nodup
  unfold Score.cuesAt
  split
  · simp
  · split <;> simp

/-- The nodes of a strand are started as from the stage of its shape. -/
theorem Queue.exists_stage {g : Score} {s : Strand} {w : Shape Nat} {division : Nat}
    {start : Nat → Nat} (hw : Woven g s w.toList) (hd : Drawn g s w) (htight : w.Tight)
    (hs : Starts g s.head w.toList (g.ticksOf division) start 0) (channel : Nat) :
    ∃ t, Relation.ReflTransGen (Stage.Step (g.cast w.toList division start)) { shape := w } t ∧
      t.Halted ∧ t.visited = (history g (some s.head) division channel).map (·.node) := by
  obtain ⟨scene, hreaches, hhalted, hvisited⟩ := exists_scene hw hs channel
  have hrun : Relation.ReflTransGen (g.cast w.toList division start).Step _ scene :=
    hreaches.lift id fun _ _ h => h.1
  have hstart : Staged (g.cast w.toList division start) { coming := [s.head] } { shape := w } :=
    .start htight hw.head hd.next hd.sibling rfl
  obtain ⟨t, hsteps, ht, -⟩ :=
    hstart.run (.start htight hw.nodup) (g.endsOnce_cast _ _ _) hrun
  exact ⟨t, hsteps, ht.halted hhalted, by rw [← ht.visited, hvisited]⟩

end Jianpu
