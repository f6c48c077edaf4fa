import Jianpu.Proofs.Schedule.Merge

/-!
# Distances that were cut down

Every distance is cut down to the largest that is kept, first by the queue and again wherever the
ticks before an event that is not heard are added to those before the next one. That is as if they
were cut down once, at the end: `Overlap.merge_deltas`, where merging is `audible` on exact ticks.
-/

namespace Jianpu

namespace Timeline

/-- The exact distances between the events after a tick. -/
def gaps (now : Nat) : Timeline → List Nat
  | [] => []
  | (t, _) :: l => (t - now) :: gaps t l

theorem map_delta_deltas (now : Nat) (l : Timeline) :
    (deltas now l).map (·.delta) = (gaps now l).map (min · TimedEvent.farthest) := by
  induction l generalizing now with
  | nil => rfl
  | cons x l ih => rw [deltas, gaps, List.map_cons, List.map_cons, ih]

end Timeline

namespace Overlap

/-- The carry is the distance from the last event that was heard, at tick `now`, to the last event
at all, at tick `m`, cut down. -/
theorem mergeFrom_deltas (s : Sounding) {now m : Nat} {l : Timeline} (hl : l.Sorted)
    (hm : ∀ x ∈ l, m ≤ x.1) (hnow : now ≤ m) :
    mergeFrom s (min (m - now) TimedEvent.farthest) (Timeline.deltas m l) =
      Timeline.deltas now (audible s l) := by
  induction l generalizing s now m with
  | nil => rfl
  | cons x l ih =>
    obtain ⟨t, e⟩ := x
    obtain ⟨hmt, -⟩ := List.forall_mem_cons.1 hm
    obtain ⟨ht, hl⟩ := List.pairwise_cons.1 hl
    -- each summand was cut down before, and the sum is cut down again
    have hdelta : min (min (t - m) TimedEvent.farthest + min (m - now) TimedEvent.farthest)
        TimedEvent.farthest = min (t - now) TimedEvent.farthest := by
      dsimp only at hmt
      omega
    simp only [Timeline.deltas, mergeFrom, audible, hdelta]
    split
    · -- nothing is carried on: the last event that was heard is the last one at all
      have hrest := ih (hear s e).2 hl ht (Nat.le_refl t)
      rw [Nat.sub_self, Nat.zero_min] at hrest
      rw [hrest, Timeline.deltas]
    · exact ih (hear s e).2 hl ht (Nat.le_trans hnow hmt)

/-- Merging what was cut down is cutting down what is heard. -/
theorem merge_deltas {l : Timeline} (hl : l.Sorted) :
    merge (Timeline.deltas 0 l) = Timeline.deltas 0 (audible [] l) :=
  mergeFrom_deltas [] hl (fun _ _ => Nat.zero_le _) (Nat.le_refl 0)

end Overlap

end Jianpu
