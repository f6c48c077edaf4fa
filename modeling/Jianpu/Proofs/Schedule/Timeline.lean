import Jianpu.Schedule.Queue
import Mathlib.Algebra.Order.Ring.Int
import Mathlib.Data.List.Basic

/-!
# Timelines

Events at ticks counted from the start, in place of distances from one to the next.
`Timeline.deltas` gives the distances, cut down to the largest that is kept, and `Timeline.ofEvents`
adds distances up; where none was cut down, the second undoes the first (`ofEvents_deltas`).

`Timeline.sort` puts the events of a timeline in order of their ticks and leaves those of one tick
in the order in which they stood. A sorted timeline is determined by that (`eq_of_slice_eq`).
-/

namespace Jianpu

/-- Events at ticks counted from the start. -/
abbrev Timeline := List (Nat × Event)

namespace Timeline

/-- The distances between the events after a tick, each cut down to the largest that is kept. -/
def deltas (now : Nat) : Timeline → List TimedEvent
  | [] => []
  | (t, e) :: l => ⟨min (t - now) TimedEvent.farthest, e⟩ :: deltas t l

/-- The ticks of events after a tick. -/
def ofEvents (now : Nat) : List TimedEvent → Timeline
  | [] => []
  | e :: es => (now + e.delta, e.event) :: ofEvents (now + e.delta) es

/-- No event is farther from the one before it than the largest distance that is kept. -/
def Near (now : Nat) : Timeline → Prop
  | [] => True
  | (t, _) :: l => t - now ≤ TimedEvent.farthest ∧ Near t l

/-- In order of the ticks. -/
def Sorted (l : Timeline) : Prop := l.Pairwise fun a b => a.1 ≤ b.1

@[simp] theorem length_deltas (now : Nat) (l : Timeline) : (deltas now l).length = l.length := by
  induction l generalizing now with
  | nil => rfl
  | cons x l ih => rw [deltas, List.length_cons, ih, List.length_cons]

theorem map_deltas (now : Nat) (l : Timeline) : (deltas now l).map (·.event) = l.map (·.2) := by
  induction l generalizing now with
  | nil => rfl
  | cons x l ih => rw [deltas, List.map_cons, ih, List.map_cons]

theorem map_ofEvents (now : Nat) (es : List TimedEvent) :
    (ofEvents now es).map (·.2) = es.map (·.event) := by
  induction es generalizing now with
  | nil => rfl
  | cons e es ih => rw [ofEvents, List.map_cons, ih, List.map_cons]

theorem le_of_mem_ofEvents {now : Nat} {es : List TimedEvent} {x : Nat × Event}
    (h : x ∈ ofEvents now es) : now ≤ x.1 := by
  induction es generalizing now with
  | nil => simp [ofEvents] at h
  | cons e es ih =>
    rcases List.mem_cons.1 h with rfl | h
    · exact Nat.le_add_right ..
    · exact Nat.le_trans (Nat.le_add_right ..) (ih h)

theorem sorted_ofEvents (now : Nat) (es : List TimedEvent) : (ofEvents now es).Sorted := by
  induction es generalizing now with
  | nil => exact .nil
  | cons e es ih => exact List.pairwise_cons.2 ⟨fun x hx => le_of_mem_ofEvents hx, ih _⟩

/-- The last event comes when all ticks are over. -/
theorem getLast?_ofEvents (now : Nat) (es : List TimedEvent) :
    (ofEvents now es).getLast?.map (·.1) =
      es.getLast?.map fun _ => now + (es.map (·.delta)).sum := by
  induction es generalizing now with
  | nil => rfl
  | cons e es ih =>
    have hrest := ih (now + e.delta)
    rw [ofEvents, List.getLast?_cons, List.getLast?_cons, List.map_cons, List.sum_cons]
    cases hl : es.getLast? with
    | none =>
      obtain rfl := List.getLast?_eq_none_iff.1 hl
      rfl
    | some a =>
      rw [hl] at hrest
      obtain ⟨x, hx, hxt⟩ := Option.map_eq_some_iff.1 hrest
      simp only [hx, Option.getD_some, Option.map_some, hxt, Nat.add_assoc]

/-- Streams with the same last event, at the same tick, take the same time. -/
theorem sum_eq_of_getLast?_eq {now : Nat} {es es' : List TimedEvent}
    (h : (ofEvents now es).getLast? = (ofEvents now es').getLast?) :
    (es.map (·.delta)).sum = (es'.map (·.delta)).sum := by
  have htick := congrArg (Option.map (·.1)) h
  rw [getLast?_ofEvents, getLast?_ofEvents] at htick
  cases hl : es.getLast? with
  | none =>
    rw [hl, Option.map_none, eq_comm, Option.map_eq_none_iff] at htick
    rw [List.getLast?_eq_none_iff.1 hl, List.getLast?_eq_none_iff.1 htick]
  | some a =>
    rw [hl, Option.map_some, eq_comm, Option.map_eq_some_iff] at htick
    obtain ⟨b, -, hsum⟩ := htick
    omega

/-! ## Stable order -/

/-- The events in order of their ticks; those of one tick stay in order. -/
def sort (l : Timeline) : Timeline := l.mergeSort fun a b => a.1 ≤ b.1

theorem sort_perm (l : Timeline) : l.sort.Perm l := List.mergeSort_perm ..

theorem tick_trans (a b c : Nat × Event) (hab : decide (a.1 ≤ b.1)) (hbc : decide (b.1 ≤ c.1)) :
    decide (a.1 ≤ c.1) := by
  simp only [decide_eq_true_eq] at hab hbc ⊢
  omega

theorem tick_total (a b : Nat × Event) : decide (a.1 ≤ b.1) || decide (b.1 ≤ a.1) := by
  simp only [Bool.or_eq_true, decide_eq_true_eq]
  omega

theorem sorted_sort (l : Timeline) : l.sort.Sorted :=
  (List.pairwise_mergeSort tick_trans tick_total l).imp fun h => by simpa using h

/-- The events of one tick. -/
def slice (l : Timeline) (t : Nat) : Timeline := l.filter fun x => x.1 = t

theorem slice_append (l l' : Timeline) (t : Nat) : slice (l ++ l') t = slice l t ++ slice l' t :=
  List.filter_append ..

/-- Sorting leaves the events of one tick in order. -/
theorem slice_sort (l : Timeline) (t : Nat) : slice l.sort t = slice l t := by
  have hpair : (slice l t).Pairwise fun a b => decide (a.1 ≤ b.1) = true := by
    refine List.pairwise_of_forall_mem_list fun a ha b hb => ?_
    simp only [slice, List.mem_filter, decide_eq_true_eq] at ha hb ⊢
    omega
  have hsub : (slice l t).Sublist l.sort :=
    List.sublist_mergeSort tick_trans tick_total hpair List.filter_sublist
  -- a sublist of the events of tick `t`, and as long as they are
  have hfilter := hsub.filter fun x => decide (x.1 = t)
  rw [slice, List.filter_filter] at hfilter
  simp only [Bool.and_self] at hfilter
  exact (hfilter.eq_of_length ((l.sort_perm.filter _).length_eq.symm)).symm

theorem slice_eq_nil {l : Timeline} {t : Nat} (h : ∀ x ∈ l, t < x.1) : slice l t = [] := by
  rw [slice, List.filter_eq_nil_iff]
  intro x hx
  have := h x hx
  simp only [decide_eq_true_eq]
  omega

/-- A sorted timeline is determined by the order of the events of each tick. -/
theorem eq_of_slice_eq {l l' : Timeline} (hl : l.Sorted) (hl' : l'.Sorted)
    (h : ∀ t, slice l t = slice l' t) : l = l' := by
  induction l generalizing l' with
  | nil =>
    cases l' with
    | nil => rfl
    | cons y l' =>
      have := h y.1
      simp [slice] at this
  | cons x l ih =>
    cases l' with
    | nil =>
      have := h x.1
      simp [slice] at this
    | cons y l' =>
      -- neither head can come before the other, so both stand first among the events of one tick
      have hle : ∀ {a b : Nat × Event} {k k' : Timeline}, Sorted (b :: k') →
          slice (a :: k) a.1 = slice (b :: k') a.1 → b.1 ≤ a.1 := by
        intro a b k k' hs heq
        have hmem : a ∈ slice (b :: k') a.1 := by
          rw [← heq]
          simp [slice]
        rcases List.mem_cons.1 (List.mem_of_mem_filter hmem) with rfl | hmem
        · exact Nat.le_refl _
        · exact List.rel_of_pairwise_cons hs hmem
      have htick : x.1 = y.1 := Nat.le_antisymm (hle hl (h y.1).symm) (hle hl' (h x.1))
      have hhead := h x.1
      rw [slice, slice, List.filter_cons_of_pos (by simp),
        List.filter_cons_of_pos (by simp [htick])] at hhead
      obtain ⟨rfl, -⟩ := List.cons.inj hhead
      congr 1
      refine ih hl.tail hl'.tail fun t => ?_
      have ht := h t
      by_cases hx : x.1 = t
      · rw [slice, slice, List.filter_cons_of_pos (by simpa using hx),
          List.filter_cons_of_pos (by simpa using hx)] at ht
        exact (List.cons.inj ht).2
      · rw [slice, slice, List.filter_cons_of_neg (by simpa using hx),
          List.filter_cons_of_neg (by simpa using hx)] at ht
        exact ht

/-- What comes in later, at ticks that are not over, is sorted into what is left. -/
theorem sort_append {l e c n : Timeline} (hl : l.sort = e ++ c.sort)
    (hen : ∀ x ∈ e, ∀ y ∈ n, x.1 ≤ y.1) : (l ++ n).sort = e ++ (c ++ n).sort := by
  have hsorted : Sorted (e ++ c.sort) := hl ▸ l.sorted_sort
  obtain ⟨he, -, hec⟩ := List.pairwise_append.1 hsorted
  refine eq_of_slice_eq (sorted_sort _) (List.pairwise_append.2 ⟨he, sorted_sort _, ?_⟩) fun t => ?_
  · intro x hx y hy
    rcases List.mem_append.1 ((sort_perm _).mem_iff.1 hy) with hy | hy
    · exact hec x hx y ((sort_perm _).mem_iff.2 hy)
    · exact hen x hx y hy
  · rw [slice_sort, slice_append, ← l.slice_sort, hl, slice_append, slice_append, slice_sort,
      slice_sort, slice_append, List.append_assoc]

/-- The first of the smallest comes first. -/
theorem sort_middle {l l' : Timeline} {x : Nat × Event} (hl : ∀ y ∈ l, x.1 < y.1)
    (hl' : ∀ y ∈ l', x.1 ≤ y.1) : sort (l ++ x :: l') = x :: sort (l ++ l') := by
  have hmin : ∀ y ∈ (l ++ l').sort, x.1 ≤ y.1 := by
    intro y hy
    rcases List.mem_append.1 ((sort_perm _).mem_iff.1 hy) with hy | hy
    · exact Nat.le_of_lt (hl y hy)
    · exact hl' y hy
  refine eq_of_slice_eq (sorted_sort _) (List.pairwise_cons.2 ⟨hmin, sorted_sort _⟩) fun t => ?_
  rw [slice_sort, slice_append]
  by_cases hx : x.1 = t
  · have hnil : slice l t = [] := slice_eq_nil fun y hy => hx ▸ hl y hy
    have hcons : ∀ k : Timeline, slice (x :: k) t = x :: slice k t := fun k =>
      List.filter_cons_of_pos (by simpa using hx)
    rw [hcons, hcons, slice_sort, slice_append, hnil, List.nil_append, List.nil_append]
  · have hcons : ∀ k : Timeline, slice (x :: k) t = slice k t := fun k =>
      List.filter_cons_of_neg (by simpa using hx)
    rw [hcons, hcons, slice_sort, slice_append]

end Timeline

end Jianpu
