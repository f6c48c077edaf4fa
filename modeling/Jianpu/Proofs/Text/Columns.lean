import Jianpu.Proofs.Text.Order

/-!
# Columns of a line

Which characters of a line stand in which columns: one after another from the first column on, each
in as many columns as it takes. `Text.occupying` cuts out of a line what stands in some columns, and
`Position.advanceAll_of_notMem` says that positions count columns in the same way.
-/

namespace Jianpu

namespace Text

/-- The number of columns that characters take. -/
def width : List Char → Nat
  | [] => 0
  | c :: cs => Position.width c + width cs

/-- The characters with the columns where they start, from a column on. -/
def placed (column : Nat) : List Char → List (Nat × Char)
  | [] => []
  | c :: cs => (column, c) :: placed (column + Position.width c) cs

/-- The characters of a line that take a column from `start` up to, and without, `stop`. -/
def occupying (start stop : Nat) (line : List Char) : List Char :=
  ((placed 1 line).filter fun x => start < x.1 + Position.width x.2 && x.1 < stop).map (·.2)

theorem width_append (cs ds : List Char) : width (cs ++ ds) = width cs + width ds := by
  induction cs with
  | nil => simp [width]
  | cons c cs ih => rw [List.cons_append, width, width, ih, Nat.add_assoc]

theorem placed_append (column : Nat) (cs ds : List Char) :
    placed column (cs ++ ds) = placed column cs ++ placed (column + width cs) ds := by
  induction cs generalizing column with
  | nil => rfl
  | cons c cs ih => rw [List.cons_append, placed, placed, ih, width, Nat.add_assoc]; rfl

theorem map_snd_placed (column : Nat) (cs : List Char) : (placed column cs).map (·.2) = cs := by
  induction cs generalizing column with
  | nil => rfl
  | cons c cs ih => rw [placed, List.map_cons, ih]

/-- Characters stand between the first column and the last one. -/
theorem bounds_of_mem_placed {column : Nat} {cs : List Char} {x : Nat × Char}
    (hx : x ∈ placed column cs) :
    column ≤ x.1 ∧ x.1 + Position.width x.2 ≤ column + width cs := by
  induction cs generalizing column with
  | nil => cases hx
  | cons c cs ih =>
    rw [width]
    rcases List.mem_cons.1 hx with rfl | hx
    · exact ⟨Nat.le_refl _, by dsimp only; omega⟩
    · have := ih hx
      omega

/-- What stands in the columns that a piece of a line takes is the piece. -/
theorem occupying_append (before cs after : List Char) :
    occupying (1 + width before) (1 + width (before ++ cs)) (before ++ (cs ++ after)) = cs := by
  rw [occupying, placed_append, placed_append, width_append, List.filter_append, List.filter_append]
  generalize hp : (fun x : Nat × Char => (1 + width before < x.1 + Position.width x.2 &&
    x.1 < 1 + (width before + width cs) : Bool)) = p
  have hbefore : (placed 1 before).filter p = [] := by
    refine List.filter_eq_nil_iff.2 fun x hx => ?_
    have := bounds_of_mem_placed hx
    simp only [← hp, Bool.and_eq_true, decide_eq_true_eq]
    omega
  have hcs : (placed (1 + width before) cs).filter p = placed (1 + width before) cs := by
    refine List.filter_eq_self.2 fun x hx => ?_
    have := bounds_of_mem_placed hx
    have := Position.width_pos x.2
    simp only [← hp, Bool.and_eq_true, decide_eq_true_eq]
    omega
  have hafter : (placed (1 + width before + width cs) after).filter p = [] := by
    refine List.filter_eq_nil_iff.2 fun x hx => ?_
    have := bounds_of_mem_placed hx
    simp only [← hp, Bool.and_eq_true, decide_eq_true_eq]
    omega
  rw [hbefore, hcs, hafter, List.nil_append, List.append_nil, map_snd_placed]

end Text

/-- Within a line, a position moves on by the columns of the characters. -/
theorem Position.advanceAll_of_notMem (p : Position) {cs : List Char} (h : '\n' ∉ cs) :
    p.advanceAll cs = ⟨p.line, p.column + Text.width cs⟩ := by
  induction cs generalizing p with
  | nil => rfl
  | cons c cs ih =>
    rw [List.mem_cons, not_or] at h
    rw [advanceAll_cons, ih _ h.2, advance, if_neg (Ne.symm h.1), Text.width, Nat.add_assoc]

end Jianpu
