import Jianpu.Text.Position
import Mathlib.Data.Prod.Lex

/-!
# The order of positions

Positions are ordered by line and then by column. Every character moves a position on, so a run of
characters leaves it where it is only if there are none: `Position.advanceAll_eq_self`.
-/

namespace Jianpu.Position

/-- By line, and within a line by column. -/
instance : LinearOrder Position :=
  LinearOrder.lift' (fun p => toLex (p.line, p.column)) fun ⟨_, _⟩ ⟨_, _⟩ h => by
    rw [mk.injEq]
    exact Prod.mk.inj h

variable {p q : Position}

theorem lt_iff : p < q ↔ p.line < q.line ∨ p.line = q.line ∧ p.column < q.column :=
  Prod.Lex.toLex_lt_toLex

theorem le_iff : p ≤ q ↔ p.line < q.line ∨ p.line = q.line ∧ p.column ≤ q.column :=
  Prod.Lex.toLex_le_toLex

theorem width_pos (c : Char) : 0 < width c := by
  unfold width
  split <;> simp

theorem lt_advance (p : Position) (c : Char) : p < p.advance c := by
  rw [lt_iff, advance]
  split
  · exact .inl (Nat.lt_succ_self _)
  · exact .inr ⟨rfl, Nat.lt_add_of_pos_right (width_pos c)⟩

theorem le_advanceAll (p : Position) (cs : List Char) : p ≤ p.advanceAll cs := by
  induction cs generalizing p with
  | nil => exact le_rfl
  | cons c cs ih => exact (p.lt_advance c).le.trans (ih _)

/-- A position stays where it is if there are no characters, and only then. -/
theorem advanceAll_eq_self {cs : List Char} : p.advanceAll cs = p ↔ cs = [] := by
  cases cs with
  | nil => simp
  | cons c cs =>
    have hlt : p < p.advanceAll (c :: cs) := (p.lt_advance c).trans_le (le_advanceAll _ cs)
    simpa using hlt.ne'

end Jianpu.Position
