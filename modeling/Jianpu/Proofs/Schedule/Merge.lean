import Jianpu.Proofs.Schedule.Timeline
import Jianpu.Schedule.Overlap

/-!
# Merging overlapping notes

What `Overlap.merge` leaves out cannot be heard. Its output is read as a timeline: as long as the
ticks can be kept, it is the input's timeline without the events that are not heard
(`ofEvents_merge`), so that only `audible`, which knows nothing of distances, is left to look at.

A stream is balanced if no more notes of a channel and pitch end than have started, and in the end
as many have. `Balanced.merged` says what merging does to such a stream: nothing but starts and ends
of notes is left out, those that are left alternate, and the same notes sound at every tick. No
count is larger than the number of events to come (`Balanced.count_le`), so 32 bits are enough for
the counts of a stream with fewer events than that.
-/

namespace Jianpu

namespace Event

/-- Whether the event starts a note of a channel and pitch. -/
def startsNote (key : Nat × Nat) : Event → Bool
  | noteOn channel note _ => (channel, note) = key
  | _ => false

/-- Whether the event ends a note of a channel and pitch. -/
def endsNote (key : Nat × Nat) : Event → Bool
  | noteOff channel note _ => (channel, note) = key
  | _ => false

end Event

namespace Overlap

/-- How many notes of a channel and pitch start. -/
def starts (key : Nat × Nat) (l : List Event) : Nat := l.countP (·.startsNote key)

/-- How many notes of a channel and pitch end. -/
def ends (key : Nat × Nat) (l : List Event) : Nat := l.countP (·.endsNote key)

theorem starts_cons (key : Nat × Nat) (e : Event) (l : List Event) :
    starts key (e :: l) = starts key l + if e.startsNote key then 1 else 0 := List.countP_cons

theorem ends_cons (key : Nat × Nat) (e : Event) (l : List Event) :
    ends key (e :: l) = ends key l + if e.endsNote key then 1 else 0 := List.countP_cons

/-- More notes of a channel and pitch have started than ended. -/
def Sounds (key : Nat × Nat) (l : List Event) : Prop := ends key l < starts key l

/-- Where notes of a channel and pitch start and end in turn, and it ends with an end. -/
def Alternates (key : Nat × Nat) : Bool → List Event → Prop
  | sounding, [] => sounding = false
  | false, e :: l => e.startsNote key ∧ Alternates key true l
  | true, e :: l => e.endsNote key ∧ Alternates key false l

/-- The events up to a tick. -/
def upTo (t : Nat) (l : Timeline) : List Event := (l.filter (·.1 ≤ t)).map (·.2)

/-- No more notes end than have started, and in the end as many have, if those of `s` have started
before. -/
structure Balanced (s : Sounding) (l : List Event) : Prop where
  le : ∀ key p, p <+: l → ends key p ≤ s.count key + starts key p
  eq : ∀ key, ends key l = s.count key + starts key l

theorem balanced_nil_iff {l : List Event} : Balanced [] l ↔
    (∀ key p, p <+: l → ends key p ≤ starts key p) ∧ ∀ key, ends key l = starts key l := by
  have hnone : ∀ key, Sounding.count [] key = 0 := fun _ => rfl
  constructor
  · intro h
    refine ⟨fun key p hp => ?_, fun key => ?_⟩
    · simpa only [hnone, Nat.zero_add] using h.le key p hp
    · simpa only [hnone, Nat.zero_add] using h.eq key
  · rintro ⟨hle, heq⟩
    refine ⟨fun key p hp => ?_, fun key => ?_⟩
    · simpa only [hnone, Nat.zero_add] using hle key p hp
    · simpa only [hnone, Nat.zero_add] using heq key

/-- The notes that sound after some events. -/
def Sounding.after (s : Sounding) : List Event → Sounding
  | [] => s
  | e :: l => Sounding.after (hear s e).2 l

/-- `out` is what is left when a stream is merged. -/
structure Merged (es out : List TimedEvent) : Prop where
  /-- Events are left out, and the others stay at their ticks. -/
  sublist : (Timeline.ofEvents 0 out).Sublist (Timeline.ofEvents 0 es)
  /-- Nothing is left out but starts and ends of notes. -/
  others : (Timeline.ofEvents 0 out).filter (·.2.note?.isNone) =
    (Timeline.ofEvents 0 es).filter (·.2.note?.isNone)
  last : (Timeline.ofEvents 0 out).getLast? = (Timeline.ofEvents 0 es).getLast?
  total : (out.map (·.delta)).sum = (es.map (·.delta)).sum
  alternates : ∀ key,
    Alternates key false ((out.map (·.event)).filter fun e => e.note? = some key)
  sounds : ∀ key t, Sounds key (upTo t (Timeline.ofEvents 0 out)) ↔
    Sounds key (upTo t (Timeline.ofEvents 0 es))

/-! ## One event -/

/-- What an event does to the notes of a channel and pitch. It is heard if it starts the first of
them or ends the last. -/
theorem hear_cases (s : Sounding) (e : Event) (key : Nat × Nat) :
    (e.note? ≠ some key ∧ e.startsNote key = false ∧ e.endsNote key = false ∧
        (hear s e).2.count key = s.count key) ∨
      (e.note? = some key ∧ e.startsNote key = true ∧ e.endsNote key = false ∧
        (hear s e).2.count key = s.count key + 1 ∧ ((hear s e).1 = true ↔ s.count key = 0)) ∨
      (e.note? = some key ∧ e.startsNote key = false ∧ e.endsNote key = true ∧
        (hear s e).2.count key = s.count key - 1 ∧ ((hear s e).1 = true ↔ s.count key ≤ 1)) := by
  cases e with
  | noteOn channel note velocity =>
    by_cases hk : (channel, note) = key
    · subst hk
      refine .inr (.inl ⟨rfl, by simp [Event.startsNote], rfl, ?_, ?_⟩)
      · simp [hear, Sounding.count_insert]
      · simp [hear]
    · refine .inl ⟨by simpa [Event.note?] using hk, by simp [Event.startsNote, hk], rfl, ?_⟩
      simp [hear, Sounding.count_insert, Ne.symm hk]
  | noteOff channel note velocity =>
    by_cases hk : (channel, note) = key
    · subst hk
      refine .inr (.inr ⟨rfl, rfl, by simp [Event.endsNote], ?_, ?_⟩)
      · simp [hear, Sounding.count_insert]
      · simp only [hear, decide_eq_true_eq]
        omega
    · refine .inl ⟨by simpa [Event.note?] using hk, rfl, by simp [Event.endsNote, hk], ?_⟩
      simp [hear, Sounding.count_insert, Ne.symm hk]
  | tempo m => exact .inl ⟨by simp [Event.note?], rfl, rfl, rfl⟩
  | key k => exact .inl ⟨by simp [Event.note?], rfl, rfl, rfl⟩
  | time a b => exact .inl ⟨by simp [Event.note?], rfl, rfl, rfl⟩

/-- What is neither the start nor the end of a note is heard. -/
theorem hear_of_note?_eq_none {e : Event} (s : Sounding) (h : e.note? = none) :
    (hear s e).1 = true := by
  cases e with
  | noteOn | noteOff => simp [Event.note?] at h
  | tempo | key | time => rfl

namespace Balanced

variable {s : Sounding} {e : Event} {l : List Event}

/-- A note that ends has started. -/
theorem count_pos {key : Nat × Nat} (h : Balanced s (e :: l)) (he : e.endsNote key = true)
    (hs : e.startsNote key = false) : 0 < s.count key := by
  have hle := h.le key [e] (by simp)
  simp only [ends, starts, List.countP_singleton, he, hs, if_true, Bool.false_eq_true,
    if_false] at hle
  omega

theorem tail (h : Balanced s (e :: l)) : Balanced (hear s e).2 l where
  le key p hp := by
    have hle := h.le key (e :: p) (by simpa using hp)
    rw [ends_cons, starts_cons] at hle
    rcases hear_cases s e key with ⟨-, hst, hen, hc⟩ | ⟨-, hst, hen, hc, -⟩ |
      ⟨-, hst, hen, hc, -⟩ <;>
      simp only [hst, hen, hc, if_true, Bool.false_eq_true, if_false] at hle ⊢ <;>
      omega
  eq key := by
    have heq := h.eq key
    rw [ends_cons, starts_cons] at heq
    rcases hear_cases s e key with ⟨-, hst, hen, hc⟩ | ⟨-, hst, hen, hc, -⟩ | ⟨-, hst, hen, hc, -⟩
    · simp only [hst, hen, hc, Bool.false_eq_true, if_false] at heq ⊢
      omega
    · simp only [hst, hen, hc, if_true, Bool.false_eq_true, if_false] at heq ⊢
      omega
    · have := h.count_pos hen hst
      simp only [hst, hen, hc, if_true, Bool.false_eq_true, if_false] at heq ⊢
      omega

theorem after {p : List Event} (h : Balanced s (p ++ l)) : Balanced (s.after p) l := by
  induction p generalizing s with
  | nil => exact h
  | cons e p ih => exact ih h.tail

/-- No more notes sound than are still to end. -/
theorem count_le (h : Balanced s l) (key : Nat × Nat) : s.count key ≤ l.length := by
  have hends : ends key l ≤ l.length := List.countP_le_length
  have heq := h.eq key
  omega

/-- The last event is heard. -/
theorem hear_last (h : Balanced s [e]) : (hear s e).1 = true := by
  cases hn : e.note? with
  | none => exact hear_of_note?_eq_none s hn
  | some key =>
    have heq := h.tail.eq key
    simp only [ends, starts, List.countP_nil] at heq
    rcases hear_cases s e key with ⟨hne, -⟩ | ⟨-, -, -, hc, -⟩ | ⟨-, -, -, hc, hheard⟩
    · exact absurd hn hne
    · omega
    · rw [hheard]
      omega

end Balanced

/-! ## What is heard of a timeline -/

/-- The events of a timeline that are heard. -/
def audible (s : Sounding) : Timeline → Timeline
  | [] => []
  | x :: l => if (hear s x.2).1 then x :: audible (hear s x.2).2 l else audible (hear s x.2).2 l

/-- Ticks that are left over are added to those of the next event, so no other event moves. -/
theorem ofEvents_mergeFrom (s : Sounding) (carry now : Nat) (es : List TimedEvent)
    (h : carry + (es.map (·.delta)).sum ≤ TimedEvent.farthest) :
    Timeline.ofEvents now (mergeFrom s carry es) =
      audible s (Timeline.ofEvents (now + carry) es) := by
  induction es generalizing s carry now with
  | nil => rfl
  | cons e es ih =>
    rw [List.map_cons, List.sum_cons] at h
    have hmin : min (e.delta + carry) TimedEvent.farthest = e.delta + carry :=
      Nat.min_eq_left (by omega)
    have htick : now + (e.delta + carry) = now + carry + e.delta := by omega
    simp only [mergeFrom, hmin, Timeline.ofEvents, audible]
    split
    · rw [Timeline.ofEvents, htick, ih _ 0 _ (by omega), Nat.add_zero]
    · rw [ih _ _ _ (by omega), htick]

theorem ofEvents_merge {es : List TimedEvent}
    (h : (es.map (·.delta)).sum ≤ TimedEvent.farthest) :
    Timeline.ofEvents 0 (merge es) = audible [] (Timeline.ofEvents 0 es) :=
  ofEvents_mergeFrom [] 0 0 es (by omega)

theorem audible_sublist (s : Sounding) (l : Timeline) : (audible s l).Sublist l := by
  induction l generalizing s with
  | nil => exact .slnil
  | cons x l ih =>
    rw [audible]
    split
    · exact (ih _).cons_cons x
    · exact (ih _).cons x

theorem filter_audible (s : Sounding) (l : Timeline) :
    (audible s l).filter (·.2.note?.isNone) = l.filter (·.2.note?.isNone) := by
  induction l generalizing s with
  | nil => rfl
  | cons x l ih =>
    rw [audible]
    by_cases hn : x.2.note? = none
    · rw [if_pos (hear_of_note?_eq_none s hn), List.filter_cons_of_pos (by simpa using hn),
        List.filter_cons_of_pos (by simpa using hn), ih]
    · rw [List.filter_cons_of_neg (by simpa using hn)]
      split
      · rw [List.filter_cons_of_neg (by simpa using hn), ih]
      · exact ih _

theorem getLast?_audible {s : Sounding} {l : Timeline} (h : Balanced s (l.map (·.2))) :
    (audible s l).getLast? = l.getLast? := by
  induction l generalizing s with
  | nil => rfl
  | cons x l ih =>
    have hlast := ih h.tail
    rw [audible, List.getLast?_cons]
    split
    · rw [List.getLast?_cons, hlast]
    · rename_i hnot
      cases l with
      | nil => exact absurd h.hear_last hnot
      | cons y l =>
        rw [hlast, List.getLast?_cons]
        rfl

/-- The starts and ends that are heard alternate. -/
theorem alternates_audible {s : Sounding} {l : Timeline} (h : Balanced s (l.map (·.2)))
    (key : Nat × Nat) :
    Alternates key (0 < s.count key)
      (((audible s l).map (·.2)).filter fun e => e.note? = some key) := by
  induction l generalizing s with
  | nil =>
    have heq := h.eq key
    simp only [ends, starts, List.map_nil, List.countP_nil] at heq
    simp only [audible, List.map_nil, List.filter_nil, Alternates, decide_eq_false_iff_not]
    omega
  | cons x l ih =>
    have hrest := ih h.tail
    rw [audible]
    rcases hear_cases s x.2 key with ⟨hne, -, -, hc⟩ | ⟨hn, hst, -, hc, hheard⟩ |
      ⟨hn, hst, hen, hc, hheard⟩
    · rw [hc] at hrest
      split
      · rwa [List.map_cons, List.filter_cons_of_neg (by simpa using hne)]
      · exact hrest
    · by_cases hzero : s.count key = 0
      · rw [if_pos (hheard.2 hzero), List.map_cons, List.filter_cons_of_pos (by simpa using hn)]
        simp only [hc, hzero, Nat.zero_add, Nat.lt_irrefl, decide_false, Alternates] at hrest ⊢
        exact ⟨hst, hrest⟩
      · rw [if_neg fun hb => hzero (hheard.1 hb)]
        have hpos : 0 < s.count key := Nat.pos_of_ne_zero hzero
        simpa [hc, hpos] using hrest
    · have hpos := h.count_pos hen hst
      by_cases hone : s.count key ≤ 1
      · rw [if_pos (hheard.2 hone), List.map_cons, List.filter_cons_of_pos (by simpa using hn)]
        have hcount : s.count key = 1 := by omega
        simp only [hc, hcount, Nat.sub_self, Nat.lt_irrefl, Nat.zero_lt_one, decide_true,
          decide_false, Alternates] at hrest ⊢
        exact ⟨hen, hrest⟩
      · rw [if_neg fun hb => hone (hheard.1 hb)]
        have hmore : 0 < s.count key - 1 := by omega
        simpa [hc, hpos, hmore] using hrest

theorem upTo_cons_of_le {t : Nat} {x : Nat × Event} (l : Timeline) (h : x.1 ≤ t) :
    upTo t (x :: l) = x.2 :: upTo t l := by
  rw [upTo, List.filter_cons_of_pos (by simpa using h), List.map_cons, upTo]

theorem upTo_eq_nil {t : Nat} {l : Timeline} (h : ∀ x ∈ l, t < x.1) : upTo t l = [] := by
  rw [upTo, List.map_eq_nil_iff, List.filter_eq_nil_iff]
  intro x hx
  have := h x hx
  simp only [decide_eq_true_eq]
  omega

/-- The same notes sound at every tick, if the notes of `s` count as one each where only what is
heard counts. -/
theorem sounds_audible {s : Sounding} {l : Timeline} (h : Balanced s (l.map (·.2)))
    (hl : l.Sorted) (key : Nat × Nat) (t : Nat) :
    ends key (upTo t (audible s l)) <
        min 1 (s.count key) + starts key (upTo t (audible s l)) ↔
      ends key (upTo t l) < s.count key + starts key (upTo t l) := by
  induction l generalizing s with
  | nil =>
    simp only [audible, upTo, ends, starts, List.filter_nil, List.map_nil, List.countP_nil]
    omega
  | cons x l ih =>
    by_cases hx : x.1 ≤ t
    · have hrest := ih h.tail hl.tail
      rw [audible, upTo_cons_of_le l hx, ends_cons, starts_cons]
      rcases hear_cases s x.2 key with ⟨-, hst, hen, hc⟩ | ⟨-, hst, hen, hc, hheard⟩ |
        ⟨-, hst, hen, hc, hheard⟩
      · rw [hc] at hrest
        split
        · rw [upTo_cons_of_le _ hx, ends_cons, starts_cons]
          simpa [hst, hen] using hrest
        · simpa [hst, hen] using hrest
      · by_cases hzero : s.count key = 0
        · rw [if_pos (hheard.2 hzero), upTo_cons_of_le _ hx, ends_cons, starts_cons]
          simp only [hc, hst, hen, if_true, Bool.false_eq_true, if_false] at hrest ⊢
          omega
        · rw [if_neg fun hb => hzero (hheard.1 hb)]
          simp only [hc, hst, hen, if_true, Bool.false_eq_true, if_false] at hrest ⊢
          omega
      · have hpos := h.count_pos hen hst
        by_cases hone : s.count key ≤ 1
        · rw [if_pos (hheard.2 hone), upTo_cons_of_le _ hx, ends_cons, starts_cons]
          simp only [hc, hst, hen, if_true, Bool.false_eq_true, if_false] at hrest ⊢
          omega
        · rw [if_neg fun hb => hone (hheard.1 hb)]
          simp only [hc, hst, hen, if_true, Bool.false_eq_true, if_false] at hrest ⊢
          omega
    · -- no event is left up to `t`
      have hlate : ∀ y ∈ x :: l, t < y.1 := by
        intro y hy
        rcases List.mem_cons.1 hy with rfl | hy
        · omega
        · have := List.rel_of_pairwise_cons hl hy
          omega
      rw [upTo_eq_nil hlate, upTo_eq_nil fun y hy => hlate y ((audible_sublist _ _).subset hy)]
      simp only [ends, starts, List.countP_nil]
      omega

/-- **Merging overlapping notes is exact**: events stay at their ticks, nothing is left out but
starts and ends of notes, the starts and ends of a channel and pitch that are left alternate, and it
sounds at the same ticks as before. -/
theorem Balanced.merged {es : List TimedEvent} (h : Balanced [] (es.map (·.event)))
    (hticks : (es.map (·.delta)).sum ≤ TimedEvent.farthest) : Merged es (merge es) := by
  have hmerge := ofEvents_merge hticks
  have hnone : ∀ key, Sounding.count [] key = 0 := fun _ => rfl
  have hbal : Balanced [] ((Timeline.ofEvents 0 es).map (·.2)) := by
    rwa [Timeline.map_ofEvents]
  have hlast : (Timeline.ofEvents 0 (merge es)).getLast? = (Timeline.ofEvents 0 es).getLast? := by
    rw [hmerge]
    exact getLast?_audible hbal
  refine ⟨?_, ?_, hlast, ?_, fun key => ?_, fun key t => ?_⟩
  · rw [hmerge]
    exact audible_sublist ..
  · rw [hmerge]
    exact filter_audible ..
  · exact Timeline.sum_eq_of_getLast?_eq hlast
  · have halt := alternates_audible hbal key
    rw [← hmerge, Timeline.map_ofEvents] at halt
    exact halt
  · have hsounds := sounds_audible hbal (Timeline.sorted_ofEvents 0 es) key t
    rw [← hmerge, hnone, Nat.min_zero, Nat.zero_add, Nat.zero_add] at hsounds
    exact hsounds

end Overlap

end Jianpu
