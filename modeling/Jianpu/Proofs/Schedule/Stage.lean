import Jianpu.Proofs.Schedule.Cues
import Jianpu.Proofs.Score.Fronts

/-!
# Starting the nodes of a shape

A `Stage` is what is left of a shape while its nodes are started and end, with the events to come. A
step starts the first node at the front that was not started yet; where there is none, the first of
the earliest events is given out. A node that does not last, or whose last event is given out, is
removed from the front.

Nothing but the shape and the ticks of the events matters here. So it is plain what becomes of the
steps when nodes that do not last are erased: a step is one of the stage without them, or none
(`Stage.erase_step`). Nor do the names of the nodes matter: `Stage.map_step`. So the nodes that are
left are started in the order in which they were started among the others (`Stage.visited_erase`).
-/

namespace Jianpu

/-- What is left of a shape, which nodes were started, and the events to come, in the order in which
they became known. -/
structure Stage where
  shape : Shape Nat
  visited : List Nat := []
  cues : List Cue := []

/-- A node ends with one of its events at most. -/
def Cast.EndsOnce (c : Cast) : Prop := ∀ n, (((c.cuesOf n).filter (·.ends)).map (·.node)).Nodup

theorem Cast.lasts_of_ends {c : Cast} {n : Nat} {x : Cue} (h : x ∈ c.cuesOf n)
    (hends : x.ends = true) :
    c.lasts n = true := by
  obtain ⟨y, hy, rfl⟩ := List.mem_map.1 h
  exact List.any_eq_true.2 ⟨y, hy, hends⟩

namespace Stage

variable {c c' : Cast} {s t : Stage} {n m : Nat}

/-- The nodes at the front that were not started yet. -/
def pending (s : Stage) : List Nat := s.shape.fronts.filter (· ∉ s.visited)

/-- Nothing is left to do. -/
def Halted (s : Stage) : Prop := s.pending = [] ∧ s.cues = []

/-- A node is started. -/
def visit (c : Cast) (s : Stage) (n : Nat) : Stage where
  shape := if c.lasts n then s.shape else s.shape.remove n
  visited := s.visited ++ [n]
  cues := s.cues ++ c.cuesOf n

/-- An event is given out. -/
def give (s : Stage) (x : Cue) (others : List Cue) : Stage :=
  { s with
    shape := if x.ends then s.shape.remove x.node else s.shape
    cues := others }

/-- A step: the first node is started, or, if there is none, the first of the earliest events is
given out. -/
inductive Step (c : Cast) : Stage → Stage → Prop
  | visit {s : Stage} {n : Nat} {rest : List Nat} (h : s.pending = n :: rest) :
      Step c s (s.visit c n)
  | give {s : Stage} {before after : List Cue} {x : Cue} (h : s.pending = [])
      (hcues : s.cues = before ++ x :: after) (hbefore : ∀ y ∈ before, x.tick < y.tick)
      (hafter : ∀ y ∈ after, x.tick ≤ y.tick) : Step c s (s.give x (before ++ after))

theorem Step.not_halted (h : Step c s t) : ¬s.Halted := by
  rintro ⟨hpending, hcues⟩
  cases h with
  | visit h => simp [hpending] at h
  | give h hc => simp [hcues] at hc

theorem Step.rightUnique : Relator.RightUnique (Step c) := by
  intro s t t' h h'
  cases h with
  | visit h =>
    cases h' with
    | visit h' => rw [(List.cons.inj (h.symm.trans h')).1]
    | give h' => simp [h] at h'
  | give h hc hb ha =>
    cases h' with
    | visit h' => simp [h] at h'
    | give h' hc' hb' ha' =>
      obtain ⟨rfl, rfl, rfl⟩ := Cast.first_unique (hc.symm.trans hc') hb ha hb' ha'
      rfl

/-- The steps from a stage lead to one end at most. -/
theorem halt_unique {t' : Stage} (h : Relation.ReflTransGen (Step c) s t)
    (h' : Relation.ReflTransGen (Step c) s t') (ht : t.Halted) (ht' : t'.Halted) : t = t' :=
  end_unique Step.rightUnique h h' (fun _ hstep => hstep.not_halted ht)
    fun _ hstep => hstep.not_halted ht'

/-! ## What holds at every stage -/

/-- What was started and is left lasts and is at the front, and what ends is there. -/
structure Fit (c : Cast) (s : Stage) : Prop where
  tight : s.shape.Tight
  nodup : s.shape.toList.Nodup
  lasts : ∀ n ∈ s.visited, n ∈ s.shape.toList → c.lasts n = true ∧ n ∈ s.shape.fronts
  ends : ∀ x ∈ s.cues, x.ends = true → x.node ∈ s.visited ∧ x.node ∈ s.shape.toList
  once : ((s.cues.filter (·.ends)).map (·.node)).Nodup

namespace Fit

theorem start {w : Shape Nat} (hw : w.Tight) (hnodup : w.toList.Nodup) : Fit c { shape := w } :=
  ⟨hw, hnodup, by simp, by simp, by simp⟩

theorem mem_of_pending {rest : List Nat} (h : s.pending = n :: rest) :
    n ∈ s.shape.fronts ∧ n ∉ s.visited := by
  have hmem : n ∈ s.pending := h ▸ List.mem_cons_self
  simpa [pending] using hmem

/-- A node at the front is over. -/
theorem remove (h : Fit c s) (hn : n ∈ s.shape.fronts)
    (hcues : ∀ x ∈ s.cues, x.ends = true → x.node ≠ n) :
    Fit c { s with shape := s.shape.remove n } := by
  have hat := Shape.atFront h.tight h.nodup hn
  refine ⟨h.tight.remove n, ?_, fun m hm hmem => ?_, fun x hx hends => ?_, h.once⟩
  · rw [Shape.toList_remove hat]
    exact h.nodup.erase n
  · obtain ⟨hne, hmem⟩ := (Shape.mem_toList_remove hat h.nodup).1 hmem
    obtain ⟨hlasts, hfront⟩ := h.lasts m hm hmem
    exact ⟨hlasts, Shape.mem_fronts_remove hat hfront hne⟩
  · obtain ⟨hvisited, hmem⟩ := h.ends x hx hends
    exact ⟨hvisited, (Shape.mem_toList_remove hat h.nodup).2 ⟨hcues x hx hends, hmem⟩⟩

/-- A node is started that is at the front if it lasts, and over otherwise. -/
theorem add (h : Fit c s) (hc : c.EndsOnce) (hnew : n ∉ s.visited)
    (hlasts : n ∈ s.shape.toList → c.lasts n = true ∧ n ∈ s.shape.fronts)
    (hmem : c.lasts n = true → n ∈ s.shape.toList) :
    Fit c { s with visited := s.visited ++ [n], cues := s.cues ++ c.cuesOf n } := by
  refine ⟨h.tight, h.nodup, ?_, ?_, ?_⟩
  · exact List.forall_mem_append.2 ⟨h.lasts, List.forall_mem_singleton.2 hlasts⟩
  · refine List.forall_mem_append.2 ⟨fun x hx hends => ?_, fun x hx hends => ?_⟩
    · exact ⟨List.mem_append_left _ (h.ends x hx hends).1, (h.ends x hx hends).2⟩
    · rw [Cast.node_of_mem_cuesOf hx]
      exact ⟨by simp, hmem (Cast.lasts_of_ends hx hends)⟩
  · rw [List.filter_append, List.map_append, List.nodup_append]
    refine ⟨h.once, hc n, fun m hm m' hm' heq => ?_⟩
    obtain ⟨x, hx, rfl⟩ := List.mem_map.1 hm
    obtain ⟨y, hy, rfl⟩ := List.mem_map.1 hm'
    obtain ⟨hx, hends⟩ := List.mem_filter.1 hx
    rw [Cast.node_of_mem_cuesOf (List.mem_filter.1 hy).1] at heq
    exact hnew (heq ▸ (h.ends x hx hends).1)

theorem visit (h : Fit c s) (hc : c.EndsOnce) {rest : List Nat} (hn : s.pending = n :: rest) :
    Fit c (s.visit c n) := by
  obtain ⟨hfront, hnew⟩ := mem_of_pending hn
  have hmem := s.shape.fronts_subset hfront
  unfold Stage.visit
  cases hlasts : c.lasts n with
  | true => exact h.add hc hnew (fun _ => ⟨hlasts, hfront⟩) fun _ => hmem
  | false =>
    have hat := Shape.atFront h.tight h.nodup hfront
    have hremove := h.remove hfront fun x hx hends heq => hnew (heq ▸ (h.ends x hx hends).1)
    refine hremove.add hc hnew (fun hmem' => ?_) fun hlasts' => ?_
    · exact absurd rfl ((Shape.mem_toList_remove hat h.nodup).1 hmem').1
    · simp [hlasts] at hlasts'

theorem give (h : Fit c s) {before after : List Cue} {x : Cue}
    (hcues : s.cues = before ++ x :: after) : Fit c (s.give x (before ++ after)) := by
  have hsub : (before ++ after).Sublist s.cues := by
    rw [hcues]
    exact (List.sublist_cons_self x after).append_left before
  have hrest : Fit c { s with cues := before ++ after } :=
    ⟨h.tight, h.nodup, h.lasts, fun y hy => h.ends y (hsub.subset hy),
      h.once.sublist ((hsub.filter _).map _)⟩
  unfold Stage.give
  cases hends : x.ends with
  | false => exact hrest
  | true =>
    obtain ⟨hvisited, hmem⟩ := h.ends x (by simp [hcues]) hends
    refine hrest.remove (h.lasts _ hvisited hmem).2 fun y hy hends' heq => ?_
    -- a node ends once
    have honce := h.once
    rw [hcues, List.filter_append, List.filter_cons_of_pos (by simpa using hends), List.map_append,
      List.map_cons, List.nodup_middle, List.nodup_cons, ← List.map_append, ← List.filter_append]
      at honce
    exact honce.1 (heq ▸ List.mem_map_of_mem (List.mem_filter.2 ⟨hy, hends'⟩))

theorem step (h : Fit c s) (hc : c.EndsOnce) (hstep : Step c s t) : Fit c t := by
  cases hstep with
  | visit hn => exact h.visit hc hn
  | give _ hcues => exact h.give hcues

/-- Where nothing is left to start, all that is at the front lasts. -/
theorem lasts_of_pending (h : Fit c s) (hp : s.pending = []) :
    ∀ n ∈ s.shape.fronts, n ∈ s.visited ∧ c.lasts n = true := by
  intro n hn
  have hvisited : n ∈ s.visited := by simpa using List.filter_eq_nil_iff.1 hp n hn
  exact ⟨hvisited, (h.lasts n hvisited (s.shape.fronts_subset hn)).1⟩

end Fit

/-! ## Erasing nodes -/

/-- The stage without some of the nodes. -/
def erase (keep : Nat → Bool) (s : Stage) : Stage where
  shape := s.shape.erase keep
  visited := s.visited.filter keep
  cues := s.cues.filter fun x => keep x.node

section Erase

variable {keep : Nat → Bool}

/-- The first node to be started is the first one without the others. -/
theorem pending_erase (h : Fit c s) (hkeep : ∀ n, c.lasts n = true → keep n = true)
    {rest : List Nat} (hn : s.pending = n :: rest) (hkn : keep n = true) :
    ∃ rest', (s.erase keep).pending = n :: rest' := by
  obtain ⟨before, after, hfronts, hbefore, hnew, -⟩ := List.filter_eq_cons_iff.1 hn
  have hvisited : ∀ m ∈ before, m ∈ s.visited ∧ keep m = true := by
    intro m hm
    have hmem : m ∈ s.visited := by simpa using hbefore m hm
    have hshape : m ∈ s.shape.toList := s.shape.fronts_subset (by simp [hfronts, hm])
    exact ⟨hmem, hkeep m (h.lasts m hmem hshape).1⟩
  have hprefix : s.shape.fronts.takeWhile keep <+: _ := Shape.takeWhile_fronts_isPrefix h.tight
  rw [hfronts, List.takeWhile_append_of_pos fun m hm => (hvisited m hm).2,
    List.takeWhile_cons_of_pos hkn] at hprefix
  obtain ⟨others, hothers⟩ := hprefix
  refine ⟨_, List.filter_eq_cons_iff.2
    ⟨before, after.takeWhile keep ++ others, ?_, fun m hm => ?_, ?_, rfl⟩⟩
  · rw [erase, ← hothers, List.append_assoc, List.cons_append]
  · simp [erase, hvisited m hm]
  · have hnew : n ∉ s.visited := by simpa using hnew
    simp [erase, hnew]

theorem pending_erase_nil (h : Fit c s) (hkeep : ∀ n, c.lasts n = true → keep n = true)
    (hp : s.pending = []) : (s.erase keep).pending = [] := by
  have hfronts := h.lasts_of_pending hp
  rw [pending, erase, Shape.fronts_erase h.tight fun n hn => hkeep n (hfronts n hn).2]
  refine List.filter_eq_nil_iff.2 fun n hn => ?_
  simp [hfronts n hn, hkeep n (hfronts n hn).2]

theorem visit_erase (h : Fit c s) (hn : n ∈ s.shape.fronts) (hkn : keep n = true) :
    (s.visit c n).erase keep = (s.erase keep).visit c n := by
  have hat := Shape.atFront h.tight h.nodup hn
  unfold Stage.visit erase
  rw [List.filter_append, List.filter_append, Cast.filter_cuesOf, if_pos hkn,
    List.filter_cons_of_pos hkn, List.filter_nil]
  cases c.lasts n with
  | true => rfl
  | false => exact congrArg (Stage.mk · _ _) (Shape.erase_remove hat hkn)

theorem visit_erase_of_not (h : Fit c s) (hn : n ∈ s.shape.fronts) (hkn : keep n = false)
    (hlasts : c.lasts n = false) : (s.visit c n).erase keep = s.erase keep := by
  have hat := Shape.atFront h.tight h.nodup hn
  have hcues : (c.cuesOf n).filter (fun x => keep x.node) = [] := by
    rw [Cast.filter_cuesOf, if_neg (by simp [hkn])]
  have hvisited : [n].filter keep = [] := by simp [hkn]
  unfold Stage.visit erase
  rw [if_neg (by simp [hlasts]), Shape.erase_remove_of_not hat hkn, List.filter_append,
    List.filter_append, hcues, hvisited, List.append_nil, List.append_nil]

/-- **Without the nodes that are erased a step is a step, or none.** -/
theorem erase_step (h : Fit c s) (hkeep : ∀ n, c.lasts n = true → keep n = true)
    (hstep : Step c s t) : t.erase keep = s.erase keep ∨ Step c (s.erase keep) (t.erase keep) := by
  cases hstep with
  | @visit n rest hn =>
    have hfront := (Fit.mem_of_pending hn).1
    cases hkn : keep n with
    | true =>
      obtain ⟨rest', hrest'⟩ := pending_erase h hkeep hn hkn
      rw [visit_erase h hfront hkn]
      exact .inr (.visit hrest')
    | false =>
      have hlasts : c.lasts n = false := by
        by_contra hlasts
        simp [hkeep n (by simpa using hlasts)] at hkn
      exact .inl (visit_erase_of_not h hfront hkn hlasts)
  | @give before after x hp hcues hbefore hafter =>
    have hp' := pending_erase_nil h hkeep hp
    have hends : x.ends = true → x.node ∈ s.shape.fronts ∧ keep x.node = true := by
      intro hends
      obtain ⟨hvisited, hmem⟩ := h.ends x (by simp [hcues]) hends
      obtain ⟨hlasts, hfront⟩ := h.lasts _ hvisited hmem
      exact ⟨hfront, hkeep _ hlasts⟩
    cases hkx : keep x.node with
    | true =>
      right
      have hcues' : (s.erase keep).cues = before.filter (fun y => keep y.node) ++
          x :: after.filter fun y => keep y.node := by
        rw [erase, hcues, List.filter_append, List.filter_cons_of_pos (by simpa using hkx)]
      have hgive : (s.give x (before ++ after)).erase keep = (s.erase keep).give x
          (before.filter (fun y => keep y.node) ++ after.filter fun y => keep y.node) := by
        unfold Stage.give erase
        rw [List.filter_append]
        cases hx : x.ends with
        | false => rfl
        | true =>
          have hat := Shape.atFront h.tight h.nodup (hends hx).1
          exact congrArg (Stage.mk · _ _) (Shape.erase_remove hat hkx)
      rw [hgive]
      exact .give hp' hcues' (fun y hy => hbefore y (List.mem_of_mem_filter hy))
        fun y hy => hafter y (List.mem_of_mem_filter hy)
    | false =>
      left
      have hx : x.ends = false := by
        by_contra hx
        simp [(hends (by simpa using hx)).2] at hkx
      unfold Stage.give erase
      rw [if_neg (by simp [hx]), hcues, List.filter_append, List.filter_append,
        List.filter_cons_of_neg (by simp [hkx])]

theorem erase_halted (h : Fit c s) (hkeep : ∀ n, c.lasts n = true → keep n = true)
    (hs : s.Halted) : (s.erase keep).Halted :=
  ⟨pending_erase_nil h hkeep hs.1, by rw [erase, hs.2, List.filter_nil]⟩

end Erase

/-! ## Other names -/

/-- The stage under other names. -/
def map (f : Nat → Nat) (s : Stage) : Stage where
  shape := s.shape.map f
  visited := s.visited.map f
  cues := s.cues.map (Cue.rename f)

/-- All nodes of a stage are among these. -/
structure Within (ns : List Nat) (s : Stage) : Prop where
  shape : s.shape.toList ⊆ ns
  visited : s.visited ⊆ ns
  cues : ∀ x ∈ s.cues, x.node ∈ ns

section Map

variable {ns : List Nat} {f : Nat → Nat}

theorem Within.start {w : Shape Nat} (h : w.toList ⊆ ns) : Within ns { shape := w } :=
  ⟨h, by simp, by simp⟩

theorem Within.remove (h : Within ns s) (n : Nat) :
    Within ns { s with shape := s.shape.remove n } :=
  ⟨List.Subset.trans (s.shape.toList_remove_subset n) h.shape, h.visited, h.cues⟩

theorem Within.step (h : Within ns s) (hstep : Step c s t) : Within ns t := by
  cases hstep with
  | @visit n rest hn =>
    have hmem := h.shape (s.shape.fronts_subset (Fit.mem_of_pending hn).1)
    have hadd : Within ns { s with visited := s.visited ++ [n], cues := s.cues ++ c.cuesOf n } := by
      refine ⟨h.shape, List.append_subset.2 ⟨h.visited, by simpa using hmem⟩,
        List.forall_mem_append.2 ⟨h.cues, fun x hx => ?_⟩⟩
      rwa [Cast.node_of_mem_cuesOf hx]
    unfold Stage.visit
    split
    · exact hadd
    · exact hadd.remove n
  | @give before after x hp hcues =>
    have hrest : Within ns { s with cues := before ++ after } := by
      refine ⟨h.shape, h.visited, fun y hy => h.cues y ?_⟩
      rw [hcues]
      exact ((List.sublist_cons_self x after).append_left before).subset hy
    unfold Stage.give
    split
    · exact hrest.remove x.node
    · exact hrest

theorem pending_map (h : Within ns s) (hinj : ∀ m ∈ ns, ∀ n ∈ ns, f m = f n → m = n) :
    (s.map f).pending = s.pending.map f := by
  rw [pending, map, Shape.fronts_map, List.filter_map, pending]
  refine congrArg (List.map f) (List.filter_congr fun n hn => ?_)
  have hmem := h.shape (s.shape.fronts_subset hn)
  have hiff : f n ∈ s.visited.map f ↔ n ∈ s.visited := by
    rw [List.mem_map]
    constructor
    · rintro ⟨m, hm, heq⟩
      rwa [← hinj m (h.visited hm) n hmem heq]
    · exact fun hn => ⟨n, hn, rfl⟩
  simp only [Function.comp_apply, hiff]

theorem map_remove (h : Within ns s) (hinj : ∀ m ∈ ns, ∀ n ∈ ns, f m = f n → m = n) (hn : n ∈ ns) :
    (s.shape.map f).remove (f n) = (s.shape.remove n).map f :=
  Shape.remove_map fun m hm => hinj m (h.shape hm) n hn

/-- The steps do not depend on the names of the nodes. -/
theorem map_step (h : Within ns s) (hinj : ∀ m ∈ ns, ∀ n ∈ ns, f m = f n → m = n)
    (hcues : ∀ n ∈ ns, c'.cues (f n) = c.cues n) (hstep : Step c s t) :
    Step c' (s.map f) (t.map f) := by
  cases hstep with
  | @visit n rest hn =>
    have hmem := h.shape (s.shape.fronts_subset (Fit.mem_of_pending hn).1)
    have hlasts : c'.lasts (f n) = c.lasts n := by rw [Cast.lasts, Cast.lasts, hcues n hmem]
    have hcuesOf : c'.cuesOf (f n) = (c.cuesOf n).map (Cue.rename f) := by
      rw [Cast.cuesOf, Cast.cuesOf, hcues n hmem, List.map_map]
      rfl
    have hvisit : (s.visit c n).map f = (s.map f).visit c' (f n) := by
      unfold Stage.visit map
      rw [hlasts, hcuesOf, List.map_append, List.map_append, map_remove h hinj hmem]
      split <;> rfl
    rw [hvisit]
    exact .visit (by rw [pending_map h hinj, hn, List.map_cons])
  | @give before after x hp hx hbefore hafter =>
    have hgive : (s.give x (before ++ after)).map f =
        (s.map f).give (x.rename f) (before.map (Cue.rename f) ++ after.map (Cue.rename f)) := by
      have hmem : x.node ∈ ns := h.cues x (by simp [hx])
      unfold Stage.give map
      rw [List.map_append, Cue.rename, map_remove h hinj hmem]
      split <;> rfl
    rw [hgive]
    refine .give (by rw [pending_map h hinj, hp, List.map_nil]) (by simp [map, hx]) ?_ ?_
    · simpa [Cue.rename] using hbefore
    · simpa [Cue.rename] using hafter

theorem map_halted (h : Within ns s) (hinj : ∀ m ∈ ns, ∀ n ∈ ns, f m = f n → m = n)
    (hs : s.Halted) : (s.map f).Halted := by
  refine ⟨by rw [pending_map h hinj, hs.1, List.map_nil], ?_⟩
  simp [map, hs.2]

end Map

/-- **Without nodes that do not last, and under other names, the same nodes are started in the same
order.** -/
theorem visited_erase {w : Shape Nat} {keep : Nat → Bool} {f : Nat → Nat} {t' : Stage}
    (hc : c.EndsOnce) (hw : w.Tight) (hnodup : w.toList.Nodup)
    (hkeep : ∀ n, c.lasts n = true → keep n = true)
    (hinj : ∀ m ∈ (w.erase keep).toList, ∀ n ∈ (w.erase keep).toList, f m = f n → m = n)
    (hcues : ∀ n ∈ (w.erase keep).toList, c'.cues (f n) = c.cues n)
    (h : Relation.ReflTransGen (Step c) { shape := w } t) (ht : t.Halted)
    (h' : Relation.ReflTransGen (Step c') { shape := (w.erase keep).map f } t') (ht' : t'.Halted) :
    t'.visited = (t.visited.filter keep).map f := by
  have hrun : Fit c t ∧ Within (w.erase keep).toList (t.erase keep) ∧
      Relation.ReflTransGen (Step c') { shape := (w.erase keep).map f } ((t.erase keep).map f) := by
    clear ht
    -- along the steps from `w`; where a node that is erased is started, the other stage waits
    induction h with
    | refl => exact ⟨.start hw hnodup, .start (List.Subset.refl _), .refl⟩
    | tail _ hstep ih =>
      obtain ⟨hfit, hin, hrun⟩ := ih
      refine ⟨hfit.step hc hstep, ?_⟩
      rcases erase_step hfit hkeep hstep with heq | hstep
      · rw [heq]
        exact ⟨hin, hrun⟩
      · exact ⟨hin.step hstep, hrun.tail (map_step hin hinj hcues hstep)⟩
  obtain ⟨hfit, hin, hrun⟩ := hrun
  have heq := halt_unique h' hrun ht' (map_halted hin hinj (erase_halted hfit hkeep ht))
  rw [heq]
  rfl

end Stage

end Jianpu
