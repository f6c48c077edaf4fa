import Jianpu.Proofs.Schedule.Merge

/-!
# Notes in turn

`Sounded` says, between two events of a stream in which the notes of every pitch start and end in
turn, which pitches sound. The next event changes that for its own pitch only (`Sounded.turn`), or
not at all (`Sounded.silent`).
-/

namespace Jianpu

open Overlap (starts ends Sounds Alternates)

namespace Event

variable {e : Event} {key : Nat × Nat}

theorem startsNote_of_ne (h : e.note? ≠ some key) :
    e.startsNote key = false ∧ e.endsNote key = false := by
  rcases Overlap.hear_cases [] e key with ⟨-, hstarts, hends, -⟩ | ⟨hn, -⟩ | ⟨hn, -⟩
  · exact ⟨hstarts, hends⟩
  · exact absurd hn h
  · exact absurd hn h

theorem endsNote_eq (h : e.note? = some key) : e.endsNote key = !e.startsNote key := by
  rcases Overlap.hear_cases [] e key with ⟨hn, -⟩ | ⟨-, hstarts, hends, -⟩ | ⟨-, hstarts, hends, -⟩
  · exact absurd h hn
  · rw [hstarts, hends]
    rfl
  · rw [hstarts, hends]
    rfl

end Event

theorem Overlap.starts_concat (key : Nat × Nat) (l : List Event) (e : Event) :
    starts key (l ++ [e]) = starts key l + (e.startsNote key).toNat := by
  rw [starts, List.countP_append, List.countP_singleton, ← starts]
  cases e.startsNote key <;> rfl

theorem Overlap.ends_concat (key : Nat × Nat) (l : List Event) (e : Event) :
    ends key (l ++ [e]) = ends key l + (e.endsNote key).toNat := by
  rw [ends, List.countP_append, List.countP_singleton, ← ends]
  cases e.endsNote key <;> rfl

/-- After the events `before`, notes of the pitches `sounding` sound, one of each, and in the events
to come the notes of every pitch start and end in turn. -/
structure Sounded (sounding : Nat × Nat → Bool) (before l : List Event) : Prop where
  count : ∀ key, starts key before = ends key before + (sounding key).toNat
  rest : ∀ key, Alternates key (sounding key) (l.filter fun e => e.note? = some key)

namespace Sounded

variable {sounding : Nat × Nat → Bool} {before l : List Event} {e : Event} {key : Nat × Nat}

theorem sounds_iff (h : Sounded sounding before l) : Sounds key before ↔ sounding key = true := by
  have hcount := h.count key
  rw [Sounds, hcount]
  cases sounding key <;> simp

theorem count_of_ne (h : Sounded sounding before (e :: l)) (he : e.note? ≠ some key) :
    starts key (before ++ [e]) = ends key (before ++ [e]) + (sounding key).toNat := by
  obtain ⟨hstarts, hends⟩ := Event.startsNote_of_ne he
  rw [Overlap.starts_concat, Overlap.ends_concat, hstarts, hends, h.count key]
  rfl

theorem rest_of_ne (h : Sounded sounding before (e :: l)) (he : e.note? ≠ some key) :
    Alternates key (sounding key) (l.filter fun e => e.note? = some key) := by
  have hrest := h.rest key
  rwa [List.filter_cons_of_neg (by simpa using he)] at hrest

/-- What is neither the start nor the end of a note changes nothing. -/
theorem silent (h : Sounded sounding before (e :: l)) (he : e.note? = none) :
    Sounded sounding (before ++ [e]) l :=
  have hne : ∀ key, e.note? ≠ some key := fun _ => he ▸ nofun
  ⟨fun key => h.count_of_ne (hne key), fun key => h.rest_of_ne (hne key)⟩

/-- A note starts if none of its pitch sounds, and otherwise one ends. -/
theorem turn (h : Sounded sounding before (e :: l)) (he : e.note? = some key) :
    e.startsNote key = !sounding key ∧
      Sounded (Function.update sounding key (!sounding key)) (before ++ [e]) l := by
  have hrest := h.rest key
  rw [List.filter_cons_of_pos (by simpa using he)] at hrest
  have hends := Event.endsNote_eq he
  have hturn : e.startsNote key = (!sounding key) ∧
      Alternates key (!sounding key) (l.filter fun e => e.note? = some key) := by
    cases hk : sounding key with
    | false =>
      rw [hk] at hrest
      exact hrest
    | true =>
      rw [hk, Alternates, hends] at hrest
      exact ⟨by simpa using hrest.1, hrest.2⟩
  refine ⟨hturn.1, fun other => ?_, fun other => ?_⟩ <;> by_cases hother : other = key
  · subst hother
    rw [Function.update_self, Overlap.starts_concat, Overlap.ends_concat, hends, hturn.1,
      h.count other]
    cases sounding other <;> simp
  · rw [Function.update_of_ne hother]
    exact h.count_of_ne (by simpa [he] using Ne.symm hother)
  · subst hother
    rw [Function.update_self]
    exact hturn.2
  · rw [Function.update_of_ne hother]
    exact h.rest_of_ne (by simpa [he] using Ne.symm hother)

end Sounded

end Jianpu
