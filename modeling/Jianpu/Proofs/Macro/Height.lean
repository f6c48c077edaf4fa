import Jianpu.Macro.Stack
import Mathlib.Data.DFinsupp.WellFounded

/-!
# How far a stack of sources has come

A stack is compared with an earlier one by the number of tokens of its sources, the lowest source
first (`Stack.height`). Taking tokens lowers the height of the source that the last of them came
from and leaves the sources below it alone. So it stays progress when a source of any size is put
upon what is left, and also when all sources but the lowest are given up (`Stack.Lower`). Where the
number of sources is bounded, there is no endless progress: `Stack.wellFounded_lower`.
-/

namespace Jianpu.Macro.Stack

/-! ## Taking tokens -/

/-- The tokens are taken off the sources one by one. A source that has run dry is dropped when a
token is taken from below it. -/
inductive Takes : List Source → List Token → List Source → Prop
  | nil (ss : List Source) : Takes ss [] ss
  | token {t : Token} {us : List Token} {endless : Option Position} {rest ss' : List Source}
      {ts : List Token} : Takes (⟨us, endless⟩ :: rest) ts ss' →
        Takes (⟨t :: us, endless⟩ :: rest) (t :: ts) ss'
  | dry {t : Token} {rest ss' : List Source} {ts : List Token} : Takes rest (t :: ts) ss' →
      Takes (⟨[], none⟩ :: rest) (t :: ts) ss'

/-- What is left of sources, whatever was taken off them or dropped. -/
inductive Rest : List Source → List Source → Prop
  | refl (ss : List Source) : Rest ss ss
  | token {t : Token} {us : List Token} {endless : Option Position} {rest ss' : List Source} :
      Rest (⟨us, endless⟩ :: rest) ss' → Rest (⟨t :: us, endless⟩ :: rest) ss'
  | drop {rest ss' : List Source} : Rest rest ss' → Rest (⟨[], none⟩ :: rest) ss'

variable {ss ss' ss'' below : List Source} {s b : Source} {t : Token} {ts us : List Token}
  {i : Nat}

theorem Takes.trans (h : Takes ss ts ss') (h' : Takes ss' us ss'') : Takes ss (ts ++ us) ss'' := by
  induction h with
  | nil ss => exact h'
  | token _ ih => exact .token (ih h')
  | dry _ ih => exact .dry (ih h')

theorem Takes.rest (h : Takes ss ts ss') : Rest ss ss' := by
  induction h with
  | nil ss => exact .refl ss
  | token _ ih => exact .token ih
  | dry _ ih => exact .drop ih

theorem Rest.trans (h : Rest ss ss') (h' : Rest ss' ss'') : Rest ss ss'' := by
  induction h with
  | refl ss => exact h'
  | token _ ih => exact .token (ih h')
  | drop _ ih => exact .drop (ih h')

/-- What is taken stood at the front of the tokens ahead. -/
theorem Takes.tokens_eq (h : Takes ss ts ss') :
    ss.flatMap (·.tokens) = ts ++ ss'.flatMap (·.tokens) := by
  induction h with
  | nil ss => rfl
  | token _ ih => exact congrArg (List.cons _) ih
  | dry _ ih => exact ih

/-- The source that a token came from, and those below it. -/
theorem Takes.exists_sources (h : Takes ss [t] ss') :
    ∃ above us endless rest, ss = above ++ ⟨t :: us, endless⟩ :: rest ∧
      ss' = ⟨us, endless⟩ :: rest := by
  generalize hts : [t] = ts at h
  induction h with
  | nil ss => cases hts
  | @token u us endless rest ss' ts h ih =>
    obtain ⟨rfl, rfl⟩ := List.cons.inj hts
    cases h
    exact ⟨[], us, endless, rest, rfl, rfl⟩
  | dry _ ih =>
    obtain ⟨above, us, endless, rest, rfl, rfl⟩ := ih hts
    exact ⟨⟨[], none⟩ :: above, us, endless, rest, rfl, rfl⟩

/-- The last token came from a source below which nothing has changed. -/
theorem Takes.exists_split (h : Takes ss (t :: ts) ss') :
    ∃ above vs us endless rest, ss = above ++ ⟨vs ++ us, endless⟩ :: rest ∧ vs ≠ [] ∧
      ss' = ⟨us, endless⟩ :: rest := by
  generalize hts : t :: ts = ts' at h
  induction h generalizing t ts with
  | nil ss => cases hts
  | @token u us endless rest ss' ts' h ih =>
    cases ts' with
    | nil =>
      cases h
      exact ⟨[], [u], us, endless, rest, rfl, List.cons_ne_nil u [], rfl⟩
    | cons t' ts' =>
      obtain ⟨above, vs, us', endless', rest', heq, hvs, rfl⟩ := ih rfl
      cases above with
      | nil =>
        obtain ⟨hs, rfl⟩ := List.cons.inj heq
        obtain ⟨rfl, rfl⟩ := Source.mk.inj hs
        exact ⟨[], u :: vs, us', endless, rest, rfl, List.cons_ne_nil u vs, rfl⟩
      | cons a above =>
        obtain ⟨-, rfl⟩ := List.cons.inj heq
        exact ⟨⟨u :: us, endless⟩ :: above, vs, us', endless', rest', rfl, hvs, rfl⟩
  | dry _ ih =>
    obtain ⟨above, vs, us', endless', rest', rfl, hvs, rfl⟩ := ih hts
    exact ⟨⟨[], none⟩ :: above, vs, us', endless', rest', rfl, hvs, rfl⟩

theorem Takes.ne_nil (h : Takes ss (t :: ts) ss') : ss' ≠ [] := by
  obtain ⟨above, vs, us, endless, rest, -, -, rfl⟩ := h.exists_split
  exact List.cons_ne_nil _ _

/-! ## Heights -/

/-- The number of tokens of a source, counted from the lowest one. Where there is no source it is
zero. -/
def height (ss : List Source) (i : Nat) : Nat := (ss.reverse[i]?.map (·.tokens.length)).getD 0

theorem height_of_length_le (h : ss.length ≤ i) : height ss i = 0 := by
  rw [height, List.getElem?_eq_none (by simpa using h)]
  rfl

theorem lt_length_of_height_pos (h : 0 < height ss i) : i < ss.length := by
  by_contra hle
  rw [height_of_length_le (Nat.le_of_not_lt hle)] at h
  exact Nat.lt_irrefl 0 h

/-- What stands above does not matter. -/
theorem height_append (above : List Source) (h : i < below.length) :
    height (above ++ below) i = height below i := by
  rw [height, height, List.reverse_append, List.getElem?_append_left (by simpa using h)]

theorem height_cons (s : Source) (h : i < below.length) : height (s :: below) i = height below i :=
  height_append [s] h

theorem height_cons_length (s : Source) (below : List Source) :
    height (s :: below) below.length = s.tokens.length := by
  simp [height]

theorem height_cons_le (h : s.tokens.length ≤ b.tokens.length) :
    height (s :: below) i ≤ height (b :: below) i := by
  rcases Nat.lt_trichotomy i below.length with hlt | rfl | hgt
  · rw [height_cons s hlt, height_cons b hlt]
  · rwa [height_cons_length, height_cons_length]
  · rw [height_of_length_le (by rw [List.length_cons]; omega)]
    exact Nat.zero_le _

/-- Nothing that is left is higher than it was. -/
theorem Rest.height_le (h : Rest ss ss') (i : Nat) : height ss' i ≤ height ss i := by
  induction h with
  | refl ss => exact Nat.le_refl _
  | token _ ih => exact Nat.le_trans ih (height_cons_le (Nat.le_succ _))
  | @drop rest ss' _ ih =>
    refine Nat.le_trans ih ?_
    by_cases hi : i < rest.length
    · rw [height_cons _ hi]
    · rw [height_of_length_le (Nat.le_of_not_lt hi)]
      exact Nat.zero_le _

theorem Rest.length_le (h : Rest ss ss') : ss'.length ≤ ss.length := by
  induction h with
  | refl ss => exact Nat.le_refl _
  | token _ ih => exact ih
  | drop _ ih => exact Nat.le_succ_of_le ih

/-! ## Progress -/

/-- The lowest source that has changed has become lower. -/
def Lower (ss ss' : List Source) : Prop :=
  ∃ i, height ss' i < height ss i ∧ ∀ j < i, height ss' j = height ss j

/-- The lowest source that has changed has become lower, and is still there. -/
def Spends (ss ss' : List Source) : Prop :=
  ∃ i < ss'.length, height ss' i < height ss i ∧ ∀ j < i, height ss' j = height ss j

theorem Takes.spends (h : Takes ss (t :: ts) ss') : Spends ss ss' := by
  obtain ⟨above, vs, us, endless, rest, rfl, hvs, rfl⟩ := h.exists_split
  have hpos : 0 < vs.length := List.length_pos_of_ne_nil hvs
  refine ⟨rest.length, Nat.lt_succ_self _, ?_, fun j hj => ?_⟩
  · rw [height_append above (Nat.lt_succ_self _), height_cons_length, height_cons_length]
    dsimp only
    rw [List.length_append]
    omega
  · rw [height_append above (Nat.lt_succ_of_lt hj), height_cons _ hj, height_cons _ hj]

/-- Whatever is put upon what is left, there was progress. -/
theorem Spends.push (h : Spends ss ss') (s : Source) : Lower ss (s :: ss') := by
  obtain ⟨i, hi, hlt, heq⟩ := h
  refine ⟨i, by rwa [height_cons s hi], fun j hj => ?_⟩
  rw [height_cons s (Nat.lt_trans hj hi)]
  exact heq j hj

/-- If no source has become higher, one that has become lower is progress. -/
theorem Lower.of_forall_le (hle : ∀ j, height ss' j ≤ height ss j)
    (h : height ss' i < height ss i) :
    Lower ss ss' := by
  have hex : ∃ i, height ss' i < height ss i := ⟨i, h⟩
  refine ⟨Nat.find hex, Nat.find_spec hex, fun j hj => ?_⟩
  exact Nat.le_antisymm (hle j) (Nat.le_of_not_lt (Nat.find_min hex hj))

/-- What is left after progress is progress. -/
theorem Takes.lower (h : Takes ss (t :: ts) ss') (h' : Rest ss' ss'') : Lower ss ss'' := by
  obtain ⟨i, -, hlt, -⟩ := h.spends
  exact .of_forall_le (fun j => Nat.le_trans (h'.height_le j) (h.rest.height_le j))
    (Nat.lt_of_le_of_lt (h'.height_le i) hlt)

/-- Giving up all sources but the lowest keeps progress. -/
theorem Spends.drop (h : Spends ss ss') : Lower ss (ss'.drop (ss'.length - 1)) := by
  obtain ⟨i, hi, hlt, heq⟩ := h
  obtain ⟨above, b, rfl⟩ : ∃ above b, ss' = above ++ [b] :=
    ⟨_, _, (List.dropLast_append_getLast (List.ne_nil_of_length_pos (Nat.zero_lt_of_lt hi))).symm⟩
  have hdrop : (above ++ [b]).drop ((above ++ [b]).length - 1) = [b] := by simp
  have hbottom : height [b] 0 = height (above ++ [b]) 0 :=
    (height_append above Nat.zero_lt_one).symm
  rw [hdrop]
  refine .of_forall_le (i := i) (fun j => ?_) ?_
  · cases j with
    | zero =>
      rw [hbottom]
      cases i with
      | zero => exact Nat.le_of_lt hlt
      | succ i => exact Nat.le_of_eq (heq 0 (Nat.zero_lt_succ i))
    | succ j =>
      rw [height_of_length_le (by simp)]
      exact Nat.zero_le _
  · cases i with
    | zero => rwa [hbottom]
    | succ i =>
      rw [height_of_length_le (by simp)]
      exact Nat.zero_lt_of_lt hlt

/-- **There is no endless progress on stacks of bounded size.** -/
theorem wellFounded_lower (n : Nat) :
    WellFounded fun ss' ss : List Source => Lower ss ss' ∧ ss.length ≤ n := by
  have hlex := Pi.Lex.wellFounded (fun i j : Fin n => i < j) fun _ : Fin n => Nat.lt_wfRel.wf
  refine Subrelation.wf (fun {ss' ss} h => ?_)
    (InvImage.wf (fun ss (i : Fin n) => height ss i) hlex)
  obtain ⟨⟨i, hlt, heq⟩, hle⟩ := h
  have hi := lt_length_of_height_pos (Nat.zero_lt_of_lt hlt)
  exact ⟨⟨i, Nat.lt_of_lt_of_le hi hle⟩, fun j hj => heq j hj, hlt⟩

end Jianpu.Macro.Stack
