/-!
# Tables

Finite maps as lists of a key and what it stands for, each key once. Looking a key up is the list's
own `lookup`; binding a key takes the place of what it stood for before (`lookup_insert`).
-/

namespace Jianpu

/-- Keys and what they stand for; each key occurs once. -/
abbrev Table (κ α : Type) := List (κ × α)

namespace Table

variable {κ α : Type} [BEq κ]

/-- Binds a key, in place of what it stood for. -/
def insert (t : Table κ α) (key : κ) (a : α) : Table κ α :=
  (key, a) :: t.filter fun p => p.1 != key

theorem lookup_filter_ne [LawfulBEq κ] (t : Table κ α) {key other : κ}
    (h : (other == key) = false) :
    (t.filter fun p => p.1 != key).lookup other = t.lookup other := by
  induction t with
  | nil => rfl
  | cons p t ih =>
    obtain ⟨k, a⟩ := p
    cases hk : k == key with
    | true =>
      have ho : (other == k) = false := by rwa [eq_of_beq hk]
      rw [List.filter_cons_of_neg (by simpa using hk), List.lookup_cons, ho]
      exact ih
    | false =>
      rw [List.filter_cons_of_pos (by simpa using hk), List.lookup_cons, List.lookup_cons, ih]

theorem lookup_insert [LawfulBEq κ] (t : Table κ α) (key other : κ) (a : α) :
    (t.insert key a).lookup other = if other == key then some a else t.lookup other := by
  rw [insert, List.lookup_cons]
  cases h : other == key with
  | true => rfl
  | false => exact lookup_filter_ne t h

end Table

end Jianpu
