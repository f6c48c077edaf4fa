import Jianpu.Proofs.Schedule.Play
import Jianpu.Proofs.Score.ForkJoin
import Mathlib.Order.Bounds.Defs

/-!
# Everything a queue gives out

`Timing` says when the nodes of a strand start, by the links of the score alone. Whatever moves made
the strand, there are such ticks, and a queue for it starts every node once, at its tick, and gives
out all their events in order: `performs_of_run`.
-/

namespace Jianpu

/-- When the nodes `ns` of a strand start: the head at the start, a sibling with the node it belongs
to, and a successor at the last of the ends of its predecessors. -/
structure Timing (g : Score) (division : Nat) (head : Option Nat) (ns : List Nat)
    (start : Nat → Nat) : Prop where
  head : ∀ n, head = some n → start n = 0
  sibling : ∀ n ∈ ns, ∀ m, g.sibling? m = some n → start n = start m
  next : ∀ n ∈ ns, (∃ m, g.next? m = some n) →
    IsGreatest {t | ∃ m, g.next? m = some n ∧ t = start m + g.ticksOf division m} (start n)

namespace Builder.Sound

variable {b : Builder} {i division : Nat} {s : Strand} {start : Nat → Nat}

/-- What the whole score asks for is what the links of the line ask for. -/
theorem starts (h : b.Sound) (hs : (b.line i).strand = some s)
    (ht : Timing b.score division (some s.head) (b.line i).nodes start) :
    Starts b.score s.head (b.line i).nodes (b.score.ticksOf division) start 0 where
  head := ht.head s.head rfl
  sibling m hm n hmn := ht.sibling n ((h.woven hs).forward m hm n (.inr hmn)).1 m hmn
  next_le m hm n hmn := by
    have hn := ((h.woven hs).forward m hm n (.inl hmn)).1
    exact (ht.next n hn ⟨m, hmn⟩).2 ⟨m, hmn, rfl⟩
  next_eq m hm n hmn := by
    have hn := ((h.woven hs).forward m hm n (.inl hmn)).1
    obtain ⟨c, hcn, heq⟩ := (ht.next n hn ⟨m, hmn⟩).1
    exact ⟨c, h.mem_of_link hn (.inl hcn), hcn, heq⟩

theorem timing (h : b.Sound)
    (ht : Starts b.score s.head (b.line i).nodes (b.score.ticksOf division) start 0) :
    Timing b.score division (some s.head) (b.line i).nodes start where
  head n hn := by
    rw [← Option.some.inj hn]
    exact ht.head
  sibling n hn m hmn := ht.sibling m (h.mem_of_link hn (.inr hmn)) n hmn
  next n hn := by
    rintro ⟨m, hmn⟩
    constructor
    · obtain ⟨c, -, hcn, heq⟩ := ht.next_eq m (h.mem_of_link hn (.inl hmn)) n hmn
      exact ⟨c, hcn, heq⟩
    · rintro t ⟨c, hcn, rfl⟩
      exact ht.next_le c (h.mem_of_link hn (.inl hcn)) n hcn

/-- There are such ticks: those of the plan. -/
theorem exists_timing (h : b.Sound) (i division : Nat) :
    ∃ start, Timing b.score division ((b.line i).strand.map (·.head)) (b.line i).nodes start := by
  cases hs : (b.line i).strand with
  | none =>
    have hl := h.line i
    rw [Line.Sound, hs] at hl
    refine ⟨fun _ => 0, by simp, ?_, ?_⟩ <;> simp [hl]
  | some s =>
    obtain ⟨start, hstart⟩ :=
      (b.line i).plan.exists_start (b.score.ticksOf division) 0 (h.woven hs).nodup
    exact ⟨start, h.timing (h.timed hs _ start 0 hstart).toStarts⟩

/-- Where the nodes have start ticks, a queue plays by them. -/
theorem performs (h : b.Sound)
    (ht : Timing b.score division ((b.line i).strand.map (·.head)) (b.line i).nodes start)
    (channel : Nat) :
    Queue.Performs b.score ((b.line i).strand.map (·.head)) (b.line i).nodes division channel
      start := by
  cases hs : (b.line i).strand with
  | none =>
    have hl := h.line i
    rw [Line.Sound, hs] at hl
    rw [hl]
    exact Queue.performs_none ..
  | some s =>
    rw [hs] at ht
    exact Queue.performs (h.woven hs) (h.starts hs ht) channel

end Builder.Sound

end Jianpu
