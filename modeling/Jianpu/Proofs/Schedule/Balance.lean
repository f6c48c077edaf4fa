import Jianpu.Proofs.Schedule.Drain
import Jianpu.Proofs.Schedule.Merge

/-!
# The streams of a queue

A note comes into a queue together with its end. The order in which a queue gives out events never
puts the end before the start, since it is no earlier and came in later. So the stream of a queue is
balanced (`Queue.Performs.balanced`), and `merge_merged` applies to it.
-/

namespace Jianpu

namespace Timeline

/-- What was given out of a stream in order, up to some event: all that is before a tick, and at
this tick what came in among the first `m`. -/
def upToNth (t m : Nat) (l : Timeline) : Timeline :=
  l.filter (·.1 < t) ++ slice (l.take m) t

theorem upToNth_append (t m : Nat) (l l' : Timeline) :
    (upToNth t m (l ++ l')).Perm (l.upToNth t m ++ l'.upToNth t (m - l.length)) := by
  rw [upToNth, upToNth, upToNth, List.filter_append, List.take_append, slice_append,
    List.append_assoc, List.append_assoc]
  refine List.Perm.append_left _ ?_
  rw [← List.append_assoc, ← List.append_assoc]
  exact List.perm_append_comm.append_right _

theorem Sorted.slice_isPrefix {l : Timeline} (h : Sorted l) {t : Nat} (hge : ∀ x ∈ l, t ≤ x.1) :
    slice l t <+: l := by
  induction l with
  | nil => exact List.prefix_rfl
  | cons x l ih =>
    obtain ⟨hx, hl⟩ := List.pairwise_cons.1 h
    by_cases heq : x.1 = t
    · rw [slice, List.filter_cons_of_pos (by simpa using heq), List.prefix_cons_inj]
      exact ih hl fun y hy => hge y (List.mem_cons_of_mem x hy)
    · have hlater : slice (x :: l) t = [] := by
        rw [slice, List.filter_eq_nil_iff]
        intro y hy
        have hxy : x.1 ≤ y.1 := by
          rcases List.mem_cons.1 hy with rfl | hy
          · exact Nat.le_refl _
          · exact hx y hy
        have := hge x List.mem_cons_self
        simp only [decide_eq_true_eq]
        omega
      rw [hlater]
      exact List.nil_prefix

/-- Of a stream that came in sorted, what came in first is given out first. -/
theorem Sorted.upToNth_isPrefix {l : Timeline} (h : Sorted l) (t m : Nat) :
    l.upToNth t m <+: l := by
  induction l generalizing m with
  | nil => simp [upToNth, slice]
  | cons x l ih =>
    obtain ⟨hx, hl⟩ := List.pairwise_cons.1 h
    rcases Nat.lt_or_ge x.1 t with hlt | hge
    · have hstep : upToNth t m (x :: l) = x :: upToNth t (m - 1) l := by
        have hslice : slice ((x :: l).take m) t = slice (l.take (m - 1)) t := by
          cases m with
          | zero => rfl
          | succ k => exact List.filter_cons_of_neg (by simpa using Nat.ne_of_lt hlt)
        rw [upToNth, hslice, List.filter_cons_of_pos (by simpa using hlt)]
        rfl
      rw [hstep, List.prefix_cons_inj]
      exact ih hl _
    · have hall : ∀ y ∈ x :: l, t ≤ y.1 := by
        intro y hy
        rcases List.mem_cons.1 hy with rfl | hy
        · exact hge
        · exact Nat.le_trans hge (hx y hy)
      have hnone : (x :: l).filter (fun y => decide (y.1 < t)) = [] := by
        rw [List.filter_eq_nil_iff]
        intro y hy
        have := hall y hy
        simp only [decide_eq_true_eq]
        omega
      have htake := List.take_prefix m (x :: l)
      rw [upToNth, hnone, List.nil_append]
      exact (Sorted.slice_isPrefix (h.sublist htake.sublist)
        fun y hy => hall y (htake.subset hy)).trans htake

/-- What is given out first of a sorted stream. -/
theorem exists_perm_upToNth {l q : Timeline} (h : q <+: l.sort) :
    ∃ t m, q.Perm (l.upToNth t m) := by
  obtain ⟨r, hr⟩ := h
  have hsorted : Sorted (q ++ r) := hr ▸ l.sorted_sort
  obtain ⟨hq, -, hqr⟩ := List.pairwise_append.1 hsorted
  rcases List.eq_nil_or_concat' q with rfl | ⟨q', x, rfl⟩
  · exact ⟨0, 0, by simp [upToNth, slice]⟩
  · -- `x` is the last event that was given out: what was not is no earlier
    have hle : ∀ y ∈ q' ++ [x], y.1 ≤ x.1 := by
      obtain ⟨-, -, hlast⟩ := List.pairwise_append.1 hq
      intro y hy
      rcases List.mem_append.1 hy with hy | hy
      · exact hlast y hy x (List.mem_singleton_self x)
      · rw [List.mem_singleton.1 hy]
    have hge : ∀ y ∈ r, x.1 ≤ y.1 := fun y hy => hqr x (by simp) y hy
    generalize q' ++ [x] = q at hr hle
    have hslice : slice l x.1 = slice q x.1 ++ slice r x.1 := by
      rw [← l.slice_sort, ← hr, slice_append]
    obtain ⟨l₁, l₂, rfl, h₁, -⟩ := List.filter_eq_append_iff.1 hslice
    have hlater : r.filter (fun y => decide (y.1 < x.1)) = [] := by
      rw [List.filter_eq_nil_iff]
      intro y hy
      have := hge y hy
      simp only [decide_eq_true_eq]
      omega
    have hbefore : ((l₁ ++ l₂).filter fun y => decide (y.1 < x.1)).Perm
        (q.filter fun y => decide (y.1 < x.1)) := by
      have hfilter : (q ++ r).filter (fun y => decide (y.1 < x.1)) =
          q.filter fun y => decide (y.1 < x.1) := by
        rw [List.filter_append, hlater, List.append_nil]
      rw [← hfilter, hr]
      exact ((sort_perm (l₁ ++ l₂)).filter _).symm
    have hat : q.filter (fun y => !decide (y.1 < x.1)) = slice q x.1 := by
      refine List.filter_congr fun y hy => ?_
      have := hle y hy
      rw [Bool.eq_iff_iff]
      simp only [Bool.not_eq_true', decide_eq_false_iff_not, decide_eq_true_eq]
      omega
    refine ⟨x.1, l₁.length, ?_⟩
    rw [upToNth, List.take_left, slice, h₁, ← hat]
    exact (List.filter_append_perm _ q).symm.trans (hbefore.symm.append_right _)

end Timeline

namespace Overlap

/-- Of streams that are sorted and balanced, mixed in any order, no end is given out without its
start. -/
theorem ends_upToNth_le {ls : List Timeline} (hsorted : ∀ l ∈ ls, l.Sorted)
    (hbal : ∀ l ∈ ls, Balanced [] (l.map (·.2))) (key : Nat × Nat) (t m : Nat) :
    ends key ((Timeline.upToNth t m ls.flatten).map (·.2)) ≤
      starts key ((Timeline.upToNth t m ls.flatten).map (·.2)) := by
  induction ls generalizing m with
  | nil => simp [Timeline.upToNth, Timeline.slice, ends]
  | cons l ls ih =>
    have hfirst := (balanced_nil_iff.1 (hbal l List.mem_cons_self)).1 key _
      (((hsorted l List.mem_cons_self).upToNth_isPrefix t m).map (·.2))
    have hrest := ih (fun l' h => hsorted l' (List.mem_cons_of_mem l h))
      (fun l' h => hbal l' (List.mem_cons_of_mem l h)) (m - l.length)
    have hsplit := (Timeline.upToNth_append t m l ls.flatten).map (·.2)
    rw [List.map_append] at hsplit
    rw [List.flatten_cons, ends, starts, hsplit.countP_eq, hsplit.countP_eq, List.countP_append,
      List.countP_append]
    exact Nat.add_le_add hfirst hrest

theorem ends_flatten {ls : List Timeline} (hbal : ∀ l ∈ ls, Balanced [] (l.map (·.2)))
    (key : Nat × Nat) : ends key (ls.flatten.map (·.2)) = starts key (ls.flatten.map (·.2)) := by
  induction ls with
  | nil => rfl
  | cons l ls ih =>
    have hfirst := (balanced_nil_iff.1 (hbal l List.mem_cons_self)).2 key
    have hrest := ih fun l' h => hbal l' (List.mem_cons_of_mem l h)
    rw [List.flatten_cons, List.map_append, ends, starts, List.countP_append, List.countP_append]
    exact congrArg₂ (· + ·) hfirst hrest

theorem balanced_sort {ls : List Timeline} (hsorted : ∀ l ∈ ls, l.Sorted)
    (hbal : ∀ l ∈ ls, Balanced [] (l.map (·.2))) :
    Balanced [] ((Timeline.sort ls.flatten).map (·.2)) := by
  refine balanced_nil_iff.2 ⟨fun key p hp => ?_, fun key => ?_⟩
  · obtain ⟨q, hq, rfl⟩ := List.prefix_map_iff.1 hp
    obtain ⟨t, m, hperm⟩ := Timeline.exists_perm_upToNth hq
    have hevents := hperm.map (·.2)
    rw [ends, starts, hevents.countP_eq, hevents.countP_eq]
    exact ends_upToNth_le hsorted hbal key t m
  · have hevents := (Timeline.sort_perm ls.flatten).map (·.2)
    rw [ends, starts, hevents.countP_eq, hevents.countP_eq]
    exact ends_flatten hbal key

theorem balanced_of_note?_eq_none {e : Event} (h : e.note? = none) : Balanced [] [e] := by
  have hsilent : ∀ key, e.startsNote key = false ∧ e.endsNote key = false := by
    intro key
    cases e with
    | noteOn | noteOff => simp [Event.note?] at h
    | tempo | key | time => exact ⟨rfl, rfl⟩
  refine balanced_nil_iff.2 ⟨fun key p hp => ?_, fun key => ?_⟩
  · have hzero : ends key p = 0 := by
      rw [ends, List.countP_eq_zero]
      intro x hx
      rw [List.mem_singleton.1 (hp.subset hx), (hsilent key).2]
      exact Bool.false_ne_true
    rw [hzero]
    exact Nat.zero_le _
  · simp [ends, starts, hsilent key]

theorem balanced_note (channel pitch velocity : Nat) :
    Balanced [] [.noteOn channel pitch velocity, .noteOff channel pitch velocity] := by
  refine balanced_nil_iff.2 ⟨fun key p hp => ?_, fun key => ?_⟩
  · rw [List.prefix_iff_eq_take.1 hp]
    rcases p with _ | ⟨_, _ | ⟨_, p⟩⟩
    · exact Nat.le_refl 0
    · exact Nat.zero_le _
    · simp [ends, starts, List.countP_cons, Event.startsNote, Event.endsNote]
  · simp [ends, starts, List.countP_cons, Event.startsNote, Event.endsNote]

end Overlap

theorem Score.sorted_soundsOf (g : Score) (division channel n t : Nat) :
    (g.soundsOf division channel n t).Sorted := by
  unfold soundsOf Timeline.Sorted
  split
  · exact .nil
  · split <;> simp

theorem Score.balanced_soundsOf (g : Score) (division channel n t : Nat) :
    Overlap.Balanced [] ((g.soundsOf division channel n t).map (·.2)) := by
  have hnil : Overlap.Balanced [] [] :=
    Overlap.balanced_nil_iff.2 (by simp [Overlap.ends, Overlap.starts])
  unfold soundsOf
  split
  · exact hnil
  · split
    · exact Overlap.balanced_note ..
    · exact hnil
    all_goals exact Overlap.balanced_of_note?_eq_none rfl

/-- A queue gives out no end of a note without its start. -/
theorem Queue.Performs.balanced {g : Score} {head : Option Nat} {ns : List Nat}
    {division channel : Nat} {start : Nat → Nat} (h : Performs g head ns division channel start) :
    Overlap.Balanced [] ((ofScore g head division channel).events.map (·.event)) := by
  have hevents : ∀ l ∈ (history g head division channel).map (·.events),
      ∃ n t, l = g.soundsOf division channel n t := by
    intro l hl
    obtain ⟨v, hv, rfl⟩ := List.mem_map.1 hl
    exact ⟨v.node, start v.node, (h.visits v hv).2⟩
  rw [h.events, Timeline.map_deltas, List.flatMap_def]
  refine Overlap.balanced_sort (fun l hl => ?_) (fun l hl => ?_)
  · obtain ⟨n, t, rfl⟩ := hevents l hl
    exact g.sorted_soundsOf division channel n t
  · obtain ⟨n, t, rfl⟩ := hevents l hl
    exact g.balanced_soundsOf division channel n t

namespace Overlap

/-- **Merging overlapping notes is exact** for every balanced stream, where no count exceeds the
number of events to come, and balanced are the streams of queues, whatever moves made their
strands. -/
theorem merge_merged :
    (∀ es : List TimedEvent, Balanced [] (es.map (·.event)) →
      (es.map (·.delta)).sum ≤ TimedEvent.farthest → Merged es (merge es)) ∧
    (∀ p l : List Event, Balanced [] (p ++ l) → ∀ key,
      (Sounding.after [] p).count key ≤ l.length) ∧
    ∀ (ms : List Builder.Move) (b : Builder), Builder.run {} ms = some b → ∀ i division channel,
      Balanced [] ((Queue.ofScore b.score ((b.line i).strand.map (·.head)) division
        channel).events.map (·.event)) := by
  refine ⟨fun es h hticks => h.merged hticks, fun p l h key => h.after.count_le key,
    fun ms b hr i division channel => ?_⟩
  have hsound := Builder.Sound.start.run ms hr
  obtain ⟨start, ht⟩ := hsound.exists_timing i division
  exact (hsound.performs ht channel).balanced

/-- A note that starts and ends while another one of its pitch sounds, and a change of tempo. -/
def doubled : List TimedEvent :=
  [⟨0, .noteOn 0 60 80⟩, ⟨240, .noteOn 0 60 80⟩, ⟨120, .noteOff 0 60 80⟩, ⟨60, .tempo 500000⟩,
    ⟨60, .noteOff 0 60 80⟩]

theorem balanced_doubled : Balanced [] (doubled.map (·.event)) := by
  have hother : ∀ key, key ≠ (0, 60) → ∀ e ∈ doubled.map (·.event),
      e.startsNote key = false ∧ e.endsNote key = false := by
    intro key hk
    simp [doubled, Event.startsNote, Event.endsNote, Ne.symm hk]
  refine balanced_nil_iff.2 ⟨fun key p hp => ?_, fun key => ?_⟩
  · by_cases hk : key = (0, 60)
    · subst hk
      have hlen : p.length < 6 := Nat.lt_succ_of_le hp.length_le
      rw [List.prefix_iff_eq_take.1 hp]
      generalize p.length = n at hlen
      revert n
      decide
    · have hzero : ends key p = 0 := by
        rw [ends, List.countP_eq_zero]
        intro e he
        simp [hother key hk e (hp.subset he)]
      omega
  · by_cases hk : key = (0, 60)
    · subst hk
      decide
    · rw [ends, starts, List.countP_eq_zero.2, List.countP_eq_zero.2]
      · intro e he
        simp [hother key hk e he]
      · intro e he
        simp [hother key hk e he]

theorem merge_doubled : Merged doubled (merge doubled) ∧
    merge doubled = [⟨0, .noteOn 0 60 80⟩, ⟨420, .tempo 500000⟩, ⟨60, .noteOff 0 60 80⟩] ∧
    (Sounding.after [] ((doubled.map (·.event)).take 2)).count (0, 60) ≤ 3 ∧
    ∃ b, Builder.run {} nestedGroup = some b ∧
      Balanced [] ((Queue.ofScore b.score (some 0) 480 0).events.map (·.event)) :=
  ⟨merge_merged.1 doubled balanced_doubled (by decide), by decide,
    merge_merged.2.1 _ ((doubled.map (·.event)).drop 2) balanced_doubled (0, 60), _, rfl,
    merge_merged.2.2 nestedGroup _ rfl 3 480 0⟩

end Overlap

end Jianpu
