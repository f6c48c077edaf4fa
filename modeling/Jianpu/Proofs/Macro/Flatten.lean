import Jianpu.Proofs.Macro.Flat
import Jianpu.Proofs.Macro.Reports

/-!
# The stack of sources and the list of tokens

An expander is seen flat by forgetting where one source ends and the next begins
(`Expander.flatten`). As long as no call is given up at the limit, the flat interpreter goes the
same way as the expander (`mirrors_read`, `mirrors_groupRest`), one lemma for each function of the
expander. What makes this work is that a source that has run dry adds nothing to the tokens ahead,
so that it does not matter when it is dropped.
-/

namespace Jianpu.Macro

variable {δ : Type}

/-! ## Sources one upon another -/

namespace Stack

/-- Where the end marks after all sources stand. -/
def finish (sources : List Source) : Option Position := sources.getLast?.bind (·.endless)

/-- Only the lowest source can give end marks for ever. -/
def Grounded (sources : List Source) : Prop := ∀ s ∈ sources.dropLast, s.endless = none

theorem finish_cons {s : Source} (h : s.endless = none) (rest : List Source) :
    finish (s :: rest) = finish rest := by
  cases rest with
  | nil => exact h
  | cons s' rest => rfl

theorem Grounded.cons {s : Source} {rest : List Source} (h : Grounded rest)
    (hs : s.endless = none) :
    Grounded (s :: rest) := by
  cases rest with
  | nil => intro t ht; cases ht
  | cons s' rest => exact List.forall_mem_cons.2 ⟨hs, h⟩

theorem Grounded.tail {s : Source} {rest : List Source} (h : Grounded (s :: rest)) :
    Grounded rest := by
  cases rest with
  | nil => intro t ht; cases ht
  | cons s' rest => exact (List.forall_mem_cons.1 h).2

end Stack

namespace Expander

/-- An expander without the bounds between its sources. -/
def flatten (e : Expander δ) : Flat δ where
  ahead := e.stack.tokens
  finish := Stack.finish e.stack.sources
  scopes := e.scopes
  looked := e.peeked
  diagnostics := e.diagnostics
  position := e.position

/-- The flat interpreter comes to the same result as an expander, and to the state that is its state
seen flat. -/
structure Mirrors {α : Type} (q : α × Flat δ) (r : α × Expander δ) : Prop where
  value : q.1 = r.1
  state : q.2 = r.2.flatten
  grounded : Stack.Grounded r.2.stack.sources

/-- What is made of results that mirror each other. -/
theorem Mirrors.map {α β : Type} {q : Option (α × Flat δ)} {r : Option (α × Expander δ)}
    {f : α × Flat δ → β × Flat δ} {g : α × Expander δ → β × Expander δ}
    (h : Option.Rel Mirrors q r) (hfg : ∀ a b, Mirrors a b → Mirrors (f a) (g b)) :
    Option.Rel Mirrors (q.map f) (r.map g) := by
  cases h with
  | none => exact .none
  | some h => exact .some (hfg _ _ h)

theorem mirrors_pull {e : Expander δ} (h : Stack.Grounded e.stack.sources) :
    Mirrors e.flatten.pull e.pull := by
  obtain ⟨scopes, ⟨sources, size, hsize⟩, peeked, reported, remarked, limit, position⟩ := e
  induction sources generalizing size with
  | nil => exact ⟨rfl, rfl, h⟩
  | cons s rest ih =>
    obtain ⟨tokens, endless⟩ := s
    cases tokens with
    | cons t ts =>
      refine ⟨rfl, ?_, ?_⟩
      · cases rest <;> rfl
      · cases rest with
        | nil => exact h
        | cons s' rest => exact List.forall_mem_cons.2 (List.forall_mem_cons.1 h)
    | nil =>
      cases endless with
      | none =>
        -- a source that ran dry leaves no trace among the tokens ahead
        have hflat : flatten ⟨scopes, ⟨⟨[], none⟩ :: rest, size, hsize⟩, peeked, reported, remarked,
            limit, position⟩ = flatten ⟨scopes, ⟨rest, size - 1, congrArg (· - 1) hsize⟩, peeked,
            reported, remarked, limit, position⟩ := by
          simp [flatten, Stack.tokens, Stack.finish_cons, diagnostics]
        rw [hflat]
        exact ih (size - 1) (congrArg (· - 1) hsize) h.tail
      | some p =>
        cases rest with
        | nil => exact ⟨rfl, rfl, h⟩
        | cons s' rest => cases h _ List.mem_cons_self

/-! ## Plain reads -/

@[simp] theorem flatten_report (e : Expander δ) (c : Cause) (s : Span) :
    (e.report c s).flatten = e.flatten.report c s := by
  simp only [flatten, Flat.report, diagnostics_report]
  rfl

@[simp] theorem flatten_reportIf (e : Expander δ) (bad : Bool) (c : Cause) (s : Span) :
    (e.reportIf bad c s).flatten = e.flatten.reportIf bad c s := by
  cases bad with
  | false => rfl
  | true => exact flatten_report ..

@[simp] theorem stack_reportIf (e : Expander δ) (bad : Bool) (c : Cause) (s : Span) :
    (e.reportIf bad c s).stack = e.stack := by
  cases bad <;> rfl

@[simp] theorem flatten_track (e : Expander δ) (t : Token) :
    (e.track t).flatten = e.flatten.brace t := by
  have hscopes : e.flatten.scopes = e.scopes := rfl
  unfold track Flat.brace
  rw [hscopes]
  cases t.kind with
  | closing =>
    cases e.scopes.leave? with
    | some scopes => rfl
    | none => exact flatten_report ..
  | eof =>
    dsimp only
    by_cases hdepth : e.scopes.depth > 1
    · rw [if_pos hdepth, if_pos hdepth, ← flatten_report]
      rfl
    · rw [if_neg hdepth, if_neg hdepth]
  | opening | control | param n | other => rfl

@[simp] theorem stack_track (e : Expander δ) (t : Token) : (e.track t).stack = e.stack := by
  unfold track
  split <;> (try split) <;> rfl

theorem mirrors_nextRaw {e : Expander δ} (h : Stack.Grounded e.stack.sources) :
    Mirrors e.flatten.nextRaw e.nextRaw := by
  have hlooked : e.flatten.looked = e.peeked := rfl
  have hpull := mirrors_pull h
  unfold nextRaw Flat.nextRaw
  rw [hlooked]
  cases e.peeked with
  | some t => exact ⟨rfl, rfl, h⟩
  | none =>
    refine ⟨hpull.value, ?_, ?_⟩
    · rw [flatten_track, ← hpull.state, ← hpull.value]
    · rw [stack_track]
      exact hpull.grounded

theorem mirrors_groupRestRaw (level : Nat) {e : Expander δ} (h : Stack.Grounded e.stack.sources) :
    Mirrors (Flat.groupRestRaw level e.flatten) (groupRestRaw level e) := by
  fun_induction groupRestRaw level e with
  | case1 level e r hend =>
    have hr := mirrors_nextRaw h
    rw [Flat.groupRestRaw]
    simp only [hr.value, hr.state]
    rw [dif_pos hend]
    exact ⟨rfl, rfl, hr.grounded⟩
  | case2 level e r hend hlt hl =>
    have hr := mirrors_nextRaw h
    rw [Flat.groupRestRaw]
    simp only [hr.value, hr.state]
    rw [dif_neg hend, hl]
    exact ⟨rfl, rfl, hr.grounded⟩
  | case3 level e r hend hlt level' hl g ih =>
    have hr := mirrors_nextRaw h
    have hg := ih hr.grounded
    rw [Flat.groupRestRaw]
    simp only [hr.value, hr.state]
    rw [dif_neg hend, hl]
    exact ⟨congrArg _ hg.value, hg.state, hg.grounded⟩

theorem mirrors_groupRaw (t : Token) {e : Expander δ} (h : Stack.Grounded e.stack.sources) :
    Mirrors (Flat.groupRaw t e.flatten) (groupRaw t e) := by
  unfold groupRaw Flat.groupRaw
  split
  · have hg := mirrors_groupRestRaw 0 h
    exact ⟨congrArg _ hg.value, hg.state, hg.grounded⟩
  · exact ⟨rfl, rfl, h⟩

/-! ## Calls and definitions -/

theorem mirrors_untilDelimiter (delimiter : String) {e : Expander δ}
    (h : Stack.Grounded e.stack.sources) :
    Mirrors (Flat.untilDelimiter delimiter e.flatten) (untilDelimiter delimiter e) := by
  fun_induction untilDelimiter delimiter e with
  | case1 e r hend =>
    have hr := mirrors_nextRaw h
    rw [Flat.untilDelimiter]
    simp only [hr.value, hr.state]
    rw [dif_pos hend]
    exact ⟨rfl, rfl, hr.grounded⟩
  | case2 e r hend htext =>
    have hr := mirrors_nextRaw h
    rw [Flat.untilDelimiter]
    simp only [hr.value, hr.state]
    rw [dif_neg hend, if_pos htext]
    exact ⟨rfl, rfl, hr.grounded⟩
  | case3 e r hend htext g hlt rest ih =>
    have hr := mirrors_nextRaw h
    have hg := mirrors_groupRaw r.1 hr.grounded
    have hrest := ih hg.grounded
    rw [Flat.untilDelimiter]
    simp only [hr.value, hr.state]
    rw [dif_neg hend, if_neg htext, hg.state]
    refine ⟨?_, hrest.state, hrest.grounded⟩
    rw [hg.value, hrest.value]

theorem mirrors_matchPattern (name : String) (pattern : List Token) (args : Arguments)
    {e : Expander δ} (h : Stack.Grounded e.stack.sources) :
    Mirrors (Flat.matchPattern name pattern args e.flatten) (matchPattern name pattern args e) := by
  induction pattern generalizing args e with
  | nil => exact ⟨rfl, rfl, h⟩
  | cons p pattern ih =>
    have hr := mirrors_nextRaw h
    rw [matchPattern, Flat.matchPattern]
    cases slot? p with
    | none =>
      simp only [hr.value, hr.state]
      split
      · exact ⟨rfl, (flatten_report ..).symm, hr.grounded⟩
      · split
        · exact ⟨rfl, (flatten_report ..).symm, hr.grounded⟩
        · exact ih args hr.grounded
    | some i =>
      cases pattern.head?.filter (!·.isParam) with
      | none =>
        simp only [hr.value, hr.state]
        split
        · exact ⟨rfl, (flatten_report ..).symm, hr.grounded⟩
        · have hg := mirrors_groupRaw e.nextRaw.1 hr.grounded
          rw [hg.value, hg.state]
          exact ih _ hg.grounded
      | some delimiter =>
        have hg := mirrors_untilDelimiter delimiter.text h
        have hlast := mirrors_nextRaw hg.grounded
        simp only [hg.value, hg.state]
        split
        · simp only [hlast.value, hlast.state]
          exact ⟨rfl, (flatten_report ..).symm, hlast.grounded⟩
        · exact ih _ hg.grounded

/-- No call was given up at the limit. -/
def Quiet (e : Expander δ) : Prop := ∀ d ∈ e.reported, d.cause ≠ .nestingExceeded

instance (e : Expander δ) : Decidable e.Quiet :=
  inferInstanceAs (Decidable (∀ d ∈ e.reported, d.cause ≠ .nestingExceeded))

theorem Quiet.of_grows {e e' : Expander δ} (h : e'.Quiet) (hgrows : e.Grows e') : e.Quiet :=
  fun d hd => h d (hgrows.mem hd)

/-- A call that is not given up at the limit is replaced where it stands. -/
theorem mirrors_expand {e : Expander δ} (call : Token) (d : Definition)
    (h : Stack.Grounded e.stack.sources) (hquiet : (e.expand call d).Quiet) :
    e.flatten.expand call d = (e.expand call d).flatten ∧
      Stack.Grounded (e.expand call d).stack.sources := by
  have hmatch := mirrors_matchPattern d.name d.pattern .empty h
  obtain ⟨hvalue, hstate, hgrounded⟩ := hmatch
  unfold expand at hquiet ⊢
  unfold Flat.expand
  generalize matchPattern d.name d.pattern .empty e = r at *
  generalize Flat.matchPattern d.name d.pattern .empty e.flatten = q at *
  obtain ⟨args, e'⟩ := r
  obtain ⟨args', f⟩ := q
  obtain rfl : args' = args := hvalue
  obtain rfl : f = e'.flatten := hstate
  cases args' with
  | none => exact ⟨rfl, hgrounded⟩
  | some args =>
    dsimp only at hquiet ⊢
    by_cases hlimit : e'.stack.size ≥ e'.limit
    · -- here the call is given up
      rw [if_pos hlimit] at hquiet
      exact absurd rfl (hquiet _ List.mem_cons_self)
    · rw [if_neg hlimit]
      refine ⟨?_, hgrounded.cons rfl⟩
      simp [flatten, Stack.push, Stack.tokens, Source.ofTokens, Stack.finish_cons, diagnostics]

theorem mirrors_readPattern (count : Nat) {e : Expander δ} (h : Stack.Grounded e.stack.sources) :
    Mirrors (Flat.readPattern count e.flatten) (readPattern count e) := by
  fun_induction readPattern count e with
  | case1 count e r hend =>
    have hr := mirrors_nextRaw h
    rw [Flat.readPattern]
    simp only [hr.value, hr.state]
    rw [dif_pos hend]
    exact ⟨rfl, rfl, hr.grounded⟩
  | case2 count e r hend hopening =>
    have hr := mirrors_nextRaw h
    rw [Flat.readPattern]
    simp only [hr.value, hr.state]
    rw [dif_neg hend, if_pos hopening]
    exact ⟨rfl, rfl, hr.grounded⟩
  | case3 count e r hend hopening hlt count' bad rest ih =>
    have hr := mirrors_nextRaw h
    have hrest := ih (by rw [stack_reportIf]; exact hr.grounded)
    rw [flatten_reportIf] at hrest
    rw [Flat.readPattern]
    simp only [hr.value, hr.state]
    rw [dif_neg hend, if_neg hopening]
    exact ⟨congrArg (fun q => (r.1 :: q.1, q.2)) hrest.value, hrest.state, hrest.grounded⟩

theorem mirrors_define {e : Expander δ} (everywhere : Bool) (h : Stack.Grounded e.stack.sources) :
    e.flatten.define everywhere = (e.define everywhere).flatten ∧
      Stack.Grounded (e.define everywhere).stack.sources := by
  have hname := mirrors_nextRaw h
  have hpattern := mirrors_readPattern 0 hname.grounded
  have hgroup := mirrors_groupRaw (readPattern 0 e.nextRaw.2).1.2.2 hpattern.grounded
  unfold define Flat.define
  simp only [hname.value, hname.state, hpattern.value, hpattern.state]
  split
  · exact ⟨(flatten_report ..).symm, hname.grounded⟩
  · split
    · exact ⟨(flatten_report ..).symm, hpattern.grounded⟩
    · rw [foldl_report]
      refine ⟨?_, hgroup.grounded⟩
      rw [hgroup.value, hgroup.state, List.partition_eq_filter_filter]
      simp only [flatten, remark, diagnostics, List.reverse_append, List.reverse_reverse]
      rfl

/-! ## Expanding reads -/

theorem mirrors_read {fuel : Nat} {e : Expander δ} (h : Stack.Grounded e.stack.sources)
    (hquiet : (e.reached fuel).Quiet) : Option.Rel Mirrors (e.flatten.read fuel) (e.read fuel) := by
  induction fuel generalizing e with
  | zero => exact .none
  | succ fuel ih =>
    have hpull := mirrors_pull h
    have hscopes : e.pull.2.flatten.scopes = e.pull.2.scopes := rfl
    rw [reached] at hquiet
    rw [read, Flat.read]
    simp only [hpull.value, hpull.state, hscopes]
    by_cases hcontrol : e.pull.1.kind = .control
    · rw [if_pos hcontrol] at hquiet
      rw [if_pos hcontrol, if_pos hcontrol]
      cases hb : e.pull.2.scopes.get? e.pull.1.text with
      | none =>
        rw [hb] at hquiet
        rw [← flatten_report]
        exact ih hpull.grounded hquiet
      | some b =>
        rw [hb] at hquiet
        cases b with
        | directive x => exact .some hpull
        | define everywhere =>
          obtain ⟨hstate, hgrounded⟩ := mirrors_define everywhere hpull.grounded
          dsimp only
          rw [hstate]
          exact ih hgrounded hquiet
        | user d =>
          obtain ⟨hstate, hgrounded⟩ := mirrors_expand e.pull.1 d hpull.grounded
            (hquiet.of_grows (grows_reached ..))
          dsimp only
          rw [hstate]
          exact ih hgrounded hquiet
    · rw [if_neg hcontrol, if_neg hcontrol, ← flatten_track]
      refine .some ⟨rfl, rfl, ?_⟩
      rw [stack_track]
      exact hpull.grounded

theorem mirrors_next {fuel : Nat} {e : Expander δ} (h : Stack.Grounded e.stack.sources)
    (hquiet : ((e.next fuel).elim (e.reached fuel) (·.2)).Quiet) :
    Option.Rel Mirrors (e.flatten.next fuel) (e.next fuel) := by
  have hlooked : e.flatten.looked = e.peeked := rfl
  unfold next at hquiet ⊢
  unfold Flat.next
  rw [hlooked]
  cases hp : e.peeked with
  | some t => exact .some ⟨rfl, rfl, h⟩
  | none =>
    rw [hp] at hquiet
    refine mirrors_read h ?_
    cases hread : e.read fuel with
    | none => simpa [hread] using hquiet
    | some r => simpa [hread, reached_of_read hread] using hquiet

/-- Where the reading of a group is after a number of steps, whether it is finished or not. -/
def groupReached : Nat → Nat → Expander δ → Expander δ
  | 0, _, e => e
  | fuel + 1, level, e =>
    match e.next fuel with
    | none => e.reached fuel
    | some (t, e) =>
      if t.isEof then e
      else
        match levelAfter t.kind level with
        | none => e
        | some level => groupReached fuel level e

theorem grows_next {fuel : Nat} {e : Expander δ} {r : Token × Expander δ}
    (h : e.next fuel = some r) : e.Grows r.2 := by
  unfold next at h
  split at h
  · obtain rfl := Option.some.inj h
    exact .refl e
  · rw [← reached_of_read h]
    exact grows_reached ..

theorem grows_groupReached (fuel level : Nat) (e : Expander δ) :
    e.Grows (groupReached fuel level e) := by
  induction fuel generalizing level e with
  | zero => exact .refl e
  | succ fuel ih =>
    rw [groupReached]
    split
    · exact grows_reached ..
    · rename_i t e' hnext
      have hgrows := grows_next hnext
      split
      · exact hgrows
      · split
        · exact hgrows
        · exact hgrows.trans (ih ..)

theorem mirrors_groupRest {fuel level : Nat} {e : Expander δ} (h : Stack.Grounded e.stack.sources)
    (hquiet : (groupReached fuel level e).Quiet) :
    Option.Rel Mirrors (Flat.groupRest fuel level e.flatten) (groupRest fuel level e) := by
  induction fuel generalizing level e with
  | zero => exact .none
  | succ fuel ih =>
    rw [groupReached] at hquiet
    have hnext : Option.Rel Mirrors (e.flatten.next fuel) (e.next fuel) := by
      refine mirrors_next h ?_
      cases hr : e.next fuel with
      | none => simpa [hr] using hquiet
      | some r =>
        rw [hr] at hquiet
        refine hquiet.of_grows ?_
        dsimp only
        split
        · exact .refl _
        · split
          · exact .refl _
          · exact grows_groupReached ..
    rw [groupRest, Flat.groupRest]
    generalize e.flatten.next fuel = q, e.next fuel = r at hnext hquiet
    cases hnext with
    | none => exact .none
    | @some q r hm =>
      obtain ⟨t', f⟩ := q
      obtain ⟨t, e'⟩ := r
      obtain rfl : t' = t := hm.value
      obtain rfl : f = e'.flatten := hm.state
      dsimp only [Option.bind_eq_bind, Option.bind_some] at hquiet ⊢
      by_cases hend : t'.isEof = true
      · rw [if_pos hend, if_pos hend]
        exact .some ⟨rfl, rfl, hm.grounded⟩
      · rw [if_neg hend] at hquiet
        rw [if_neg hend, if_neg hend]
        cases hl : levelAfter t'.kind level with
        | none => exact .some ⟨rfl, rfl, hm.grounded⟩
        | some level' =>
          rw [hl] at hquiet
          have hrest := ih hm.grounded hquiet
          dsimp only
          generalize Flat.groupRest fuel level' e'.flatten = q,
            groupRest fuel level' e' = r at hrest
          cases hrest with
          | none => exact .none
          | some hrest => exact .some ⟨congrArg _ hrest.value, hrest.state, hrest.grounded⟩

theorem groupReached_of_groupRest {fuel level : Nat} {e : Expander δ} {r : List Token × Expander δ}
    (h : groupRest fuel level e = some r) : groupReached fuel level e = r.2 := by
  induction fuel generalizing level e r with
  | zero => simp [groupRest] at h
  | succ fuel ih =>
    rw [groupRest] at h
    obtain ⟨⟨t, e'⟩, hnext, h⟩ := Option.bind_eq_some_iff.1 h
    rw [groupReached, hnext]
    dsimp only at h ⊢
    by_cases hend : t.isEof = true
    · rw [if_pos hend] at h ⊢
      exact congrArg Prod.snd (Option.some.inj h)
    · rw [if_neg hend] at h ⊢
      cases hl : levelAfter t.kind level with
      | none =>
        rw [hl] at h
        exact congrArg Prod.snd (Option.some.inj h)
      | some level' =>
        rw [hl] at h
        obtain ⟨r', hrest, h⟩ := Option.bind_eq_some_iff.1 h
        obtain rfl := Option.some.inj h
        exact (ih hrest :)

end Expander

end Jianpu.Macro
