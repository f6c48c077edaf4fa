import Jianpu.Macro.Expansion

/-!
# Reports accumulate

Whatever an expander reads, what it reported before stays reported. So a source on which nothing was
reported in the end was in order at every step.
-/

namespace Jianpu.Macro.Expander

variable {δ : Type}

/-- What was reported to begin with is the older part of what is reported. -/
def Grows (e e' : Expander δ) : Prop := e.reported <:+ e'.reported

namespace Grows

variable {e e' e'' : Expander δ}

theorem refl (e : Expander δ) : e.Grows e := List.suffix_rfl

theorem trans (h : e.Grows e') (h' : e'.Grows e'') : e.Grows e'' := List.IsSuffix.trans h h'

theorem report (h : e.Grows e') (c : Cause) (s : Span) : e.Grows (e'.report c s) :=
  List.IsSuffix.trans h (List.suffix_cons ..)

/-- Where nothing is reported in the end, nothing was before. -/
theorem eq_nil (h : e.Grows e') (hclean : e'.reported = []) : e.reported = [] := by
  rw [Grows, hclean] at h
  exact List.suffix_nil.1 h

end Grows

theorem reported_pull (e : Expander δ) : e.pull.2.reported = e.reported := by
  unfold pull
  split <;> rfl

theorem grows_pull (e : Expander δ) : e.Grows e.pull.2 := by
  unfold Grows
  exact (reported_pull e).symm ▸ List.suffix_rfl

theorem grows_track (e : Expander δ) (t : Token) : e.Grows (e.track t) := by
  unfold track
  split
  · exact .refl e
  · split
    · exact .refl e
    · exact (Grows.refl e).report ..
  · split
    · exact (Grows.refl e).report ..
    · exact .refl e
  · exact .refl e

theorem grows_nextRaw (e : Expander δ) : e.Grows e.nextRaw.2 := by
  unfold nextRaw
  split
  · exact .refl e
  · exact (grows_pull e).trans (grows_track ..)

theorem grows_groupRestRaw (level : Nat) (e : Expander δ) : e.Grows (groupRestRaw level e).2 := by
  fun_induction groupRestRaw level e with
  | case1 level e r hend => exact grows_nextRaw e
  | case2 level e r hend hlt hl => exact grows_nextRaw e
  | case3 level e r hend hlt level' hl g ih => exact (grows_nextRaw e).trans ih

theorem grows_groupRaw (t : Token) (e : Expander δ) : e.Grows (groupRaw t e).2 := by
  unfold groupRaw
  split
  · exact grows_groupRestRaw 0 e
  · exact .refl e

theorem grows_untilDelimiter (delimiter : String) (e : Expander δ) :
    e.Grows (untilDelimiter delimiter e).2 := by
  fun_induction untilDelimiter delimiter e with
  | case1 e r hend => exact grows_nextRaw e
  | case2 e r hend htext => exact grows_nextRaw e
  | case3 e r hend htext g hlt rest ih =>
    exact ((grows_nextRaw e).trans (grows_groupRaw ..)).trans ih

theorem grows_matchPattern (name : String) (pattern : List Token) (args : Arguments)
    (e : Expander δ) :
    e.Grows (matchPattern name pattern args e).2 := by
  induction pattern generalizing args e with
  | nil => exact .refl e
  | cons p pattern ih =>
    have hnext := grows_nextRaw e
    rw [matchPattern]
    split
    · dsimp only
      split
      · exact hnext.report ..
      · split
        · exact hnext.report ..
        · exact hnext.trans (ih ..)
    · dsimp only
      split
      · exact hnext.report ..
      · exact (hnext.trans (grows_groupRaw ..)).trans (ih ..)
    · dsimp only
      split
      · exact ((grows_untilDelimiter ..).trans (grows_nextRaw _)).report ..
      · exact (grows_untilDelimiter ..).trans (ih ..)

theorem grows_expand (e : Expander δ) (call : Token) (d : Definition) :
    e.Grows (e.expand call d) := by
  have hmatch := grows_matchPattern d.name d.pattern .empty e
  unfold expand
  split <;> rename_i heq <;> rw [heq] at hmatch
  · exact hmatch
  · split
    · exact hmatch.report ..
    · exact hmatch

theorem grows_readPattern (count : Nat) (e : Expander δ) : e.Grows (readPattern count e).2 := by
  fun_induction readPattern count e with
  | case1 count e r hend => exact grows_nextRaw e
  | case2 count e r hend hopening => exact grows_nextRaw e
  | case3 count e r hend hopening hlt count' bad rest ih =>
    refine ((grows_nextRaw e).trans ?_).trans ih
    cases bad with
    | false => exact .refl _
    | true => exact (Grows.refl _).report ..

/-- Reporting the same cause for several tokens. -/
theorem foldl_report (c : Cause) (ts : List Token) (e : Expander δ) :
    ts.foldl (fun e t => e.report c t.span) e =
      { e with reported := (ts.map fun t => ⟨c, t.span⟩).reverse ++ e.reported } := by
  induction ts generalizing e with
  | nil => rfl
  | cons t ts ih =>
    rw [List.foldl_cons, ih]
    simp [report]

theorem grows_define (e : Expander δ) (everywhere : Bool) : e.Grows (e.define everywhere) := by
  have hname := grows_nextRaw e
  have hpattern := hname.trans (grows_readPattern 0 _)
  unfold define
  dsimp only
  split
  · exact hname.report ..
  · split
    · exact hpattern.report ..
    · rw [foldl_report]
      exact (hpattern.trans (grows_groupRaw ..)).trans (List.suffix_append ..)

/-! ## Unfinished reads -/

/-- Where a read is after a number of steps, whether it has come to a token or not. -/
def reached : Nat → Expander δ → Expander δ
  | 0, e => e
  | fuel + 1, e =>
    let r := e.pull
    if r.1.kind = .control then
      match r.2.scopes.get? r.1.text with
      | some (.directive _) => r.2
      | some (.define everywhere) => reached fuel (r.2.define everywhere)
      | some (.user d) => reached fuel (r.2.expand r.1 d)
      | none => reached fuel (r.2.report (.undefinedControl r.1.text) r.1.span)
    else r.2.track r.1

theorem reached_of_read {fuel : Nat} {e : Expander δ} {r : Token × Expander δ}
    (h : e.read fuel = some r) : e.reached fuel = r.2 := by
  induction fuel generalizing e with
  | zero => simp [read] at h
  | succ fuel ih =>
    rw [read] at h
    rw [reached]
    by_cases hcontrol : e.pull.1.kind = .control
    · rw [if_pos hcontrol] at h ⊢
      cases hb : e.pull.2.scopes.get? e.pull.1.text with
      | none =>
        rw [hb] at h
        exact ih h
      | some b =>
        rw [hb] at h
        cases b with
        | directive x => exact congrArg Prod.snd (Option.some.inj h)
        | define everywhere => exact ih h
        | user d => exact ih h
    · rw [if_neg hcontrol] at h ⊢
      exact congrArg Prod.snd (Option.some.inj h)

/-- An unfinished read goes on from where it is. -/
theorem read_add {m n : Nat} {e : Expander δ} (h : e.read m = none) :
    e.read (m + n) = (e.reached m).read n := by
  induction m generalizing e with
  | zero => rw [Nat.zero_add, reached]
  | succ m ih =>
    rw [read] at h
    rw [Nat.succ_add, read, reached]
    by_cases hcontrol : e.pull.1.kind = .control
    · rw [if_pos hcontrol] at h ⊢
      rw [if_pos hcontrol]
      cases hb : e.pull.2.scopes.get? e.pull.1.text with
      | none =>
        rw [hb] at h
        exact ih h
      | some b =>
        rw [hb] at h
        cases b with
        | directive x => cases h
        | define everywhere => exact ih h
        | user d => exact ih h
    · rw [if_neg hcontrol] at h
      cases h

theorem grows_reached (fuel : Nat) (e : Expander δ) : e.Grows (e.reached fuel) := by
  induction fuel generalizing e with
  | zero => exact .refl e
  | succ fuel ih =>
    have hpull := grows_pull e
    rw [reached]
    split
    · split
      · exact hpull
      · exact (hpull.trans (grows_define ..)).trans (ih _)
      · exact (hpull.trans (grows_expand ..)).trans (ih _)
      · exact (hpull.report ..).trans (ih _)
    · exact hpull.trans (grows_track ..)

theorem grows_read {fuel : Nat} {e : Expander δ} {r : Token × Expander δ}
    (h : e.read fuel = some r) : e.Grows r.2 := by
  rw [← reached_of_read h]
  exact grows_reached fuel e

end Jianpu.Macro.Expander
