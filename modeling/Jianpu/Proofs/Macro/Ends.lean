import Jianpu.Proofs.Macro.Matched

/-!
# Whether expansion ends

A call is replaced by a source of any size, but the number of sources is limited, and the tokens of
the call are spent: the lowest source that has changed has become lower (`lower_advance`). So
expansion comes to an end, with one exception. A group of an argument that the end of the source
cuts short is taken all the same, and the end can be read again. A call can then be replaced by
itself without end: in `exists_endless_call` each replacement is the call again, with the brace that
is never closed. This is the only way not to end (`passes_ends`), and there is no such call if the
source and the bodies of the definitions given with it close the groups that they open.
-/

namespace Jianpu.Macro

namespace Expander

variable {δ : Type} {e e' m : Expander δ} {t : Token} {fuel level n : Nat}

/-! ## The limit -/

/-- At most `n` sources are in use, and `n` is the limit. -/
structure Bounded (n : Nat) (e : Expander δ) : Prop where
  pos : 1 ≤ n
  limit : e.limit = n
  length_le : e.stack.sources.length ≤ n

namespace Bounded

theorem reads (h : Bounded n e) (hreads : e.Reads e') : Bounded n e' :=
  ⟨h.pos, hreads.limit.trans h.limit, Nat.le_trans hreads.rest.length_le h.length_le⟩

theorem define (h : Bounded n e) (everywhere : Bool) : Bounded n (e.define everywhere) := by
  obtain ⟨g, scopes, hg, heq⟩ := reads_define everywhere e
  have hg := h.reads hg
  rw [heq]
  exact ⟨hg.pos, hg.limit, hg.length_le⟩

theorem expand (h : Bounded n e) (call : Token) (d : Definition) : Bounded n (e.expand call d) := by
  have hmatch := h.reads (reads_matchPattern d.name d.pattern .empty e)
  rcases expand_cases e call d with
    ⟨m, hm, heq⟩ | ⟨args, m, hm, ⟨-, remarked, heq⟩ | ⟨hlt, heq⟩⟩ <;>
    rw [hm] at hmatch <;> rw [heq]
  · exact hmatch
  · refine ⟨hmatch.pos, hmatch.limit, ?_⟩
    have hbottom := m.stack.size_bottom_le
    rw [m.stack.bottom.size_eq] at hbottom
    exact Nat.le_trans hbottom hmatch.pos
  · refine ⟨hmatch.pos, hmatch.limit, ?_⟩
    rw [m.stack.size_eq, hmatch.limit] at hlt
    exact hlt

theorem moves (h : Bounded n e) (hmoves : e.Moves e') : Bounded n e' := by
  induction hmoves with
  | refl => exact h
  | reads _ hreads ih => exact ih.reads hreads
  | define everywhere _ ih => exact ih.define everywhere
  | call _ _ _ _ ih => exact (ih.reads (reads_pull _)).expand _ _

end Bounded

theorem bounded_ofSource (s : Source) (scopes : Scopes δ) (limit : Nat) :
    Bounded (max limit 1) (ofSource s scopes limit) :=
  ⟨Nat.le_max_right .., rfl, Nat.le_max_right ..⟩

/-! ## Step by step -/

/-- One step of reading with calls replaced: a token is taken, or what stands before it is carried
out. -/
def advance (e : Expander δ) : Expander δ :=
  match e.peeked with
  | some _ => { e with peeked := none }
  | none => e.reached 1

/-- Where reading with calls replaced is after a number of steps. -/
def trail : Nat → Expander δ → Expander δ
  | 0, e => e
  | n + 1, e => trail n e.advance

theorem trail_add (m n : Nat) (e : Expander δ) : e.trail (m + n) = (e.trail m).trail n := by
  induction m generalizing e with
  | zero => rw [Nat.zero_add, trail]
  | succ m ih => rw [Nat.succ_add, trail, trail, ih]

theorem advance_of_peeked_eq_none (h : e.peeked = none) : e.advance = e.reached 1 := by
  rw [advance, h]

theorem peeked_advance (e : Expander δ) : e.advance.peeked = none := by
  unfold advance
  split
  · rfl
  · exact (moves_reached 1 ‹_›).2

theorem moves_advance (e : Expander δ) : e.Moves e.advance := by
  unfold advance
  split
  · exact .reads .refl ⟨.refl _, rfl, rfl, fun _ h => h⟩
  · exact (moves_reached 1 ‹_›).1

theorem moves_trail (n : Nat) (e : Expander δ) : e.Moves (e.trail n) := by
  induction n generalizing e with
  | zero => exact .refl
  | succ n ih => exact (moves_advance e).trans (ih e.advance)

theorem next_of_peeked_eq_none (h : e.peeked = none) (fuel : Nat) : e.next fuel = e.read fuel := by
  rw [next, h]

/-- A step gives a token, or the next token is the one that comes after the step. -/
theorem next_cases (e : Expander δ) : (∃ t, ∀ n, e.next (n + 1) = some (t, e.advance)) ∨
    ∀ n, e.next (n + 1) = e.advance.next n := by
  cases hp : e.peeked with
  | some t =>
    refine .inl ⟨t, fun n => ?_⟩
    simp only [next, advance, hp]
  | none =>
    have hpeeked := peeked_advance e
    rw [advance_of_peeked_eq_none hp] at hpeeked ⊢
    simp only [next_of_peeked_eq_none hp, next_of_peeked_eq_none hpeeked, read]
    rw [reached]
    by_cases hcontrol : e.pull.1.kind = .control
    · simp only [if_pos hcontrol]
      cases e.pull.2.scopes.get? e.pull.1.text with
      | none => exact .inr fun n => rfl
      | some b =>
        cases b with
        | directive x => exact .inl ⟨_, fun n => rfl⟩
        | define everywhere => exact .inr fun n => rfl
        | user d => exact .inr fun n => rfl
    · simp only [if_neg hcontrol]
      exact .inl ⟨_, fun n => rfl⟩

/-! ## Coming to an end -/

/-- All reads with calls replaced come to an end. -/
structure Returns (e : Expander δ) : Prop where
  next : ∃ n r, e.next n = some r
  groupRest : ∀ level, ∃ n r, e.groupRest n level = some r
  untilEof : ∃ n r, e.untilEof n = some r

theorem groupRest_of_next (h : e.next n = some (t, e')) : e.groupRest (n + 1) level =
    if t.isEof then some ([], e') else
      match levelAfter t.kind level with
      | none => some ([t], e')
      | some l => (e'.groupRest n l).map fun g => (t :: g.1, g.2) := by
  rw [groupRest, h]
  cases ht : t.isEof with
  | true => simp [ht]
  | false => cases hl : levelAfter t.kind level <;> simp [ht, hl, Option.map_eq_bind]

theorem untilEof_of_next (h : e.next n = some (t, e')) : e.untilEof (n + 1) =
    if t.isEof then some ([t], e') else (e'.untilEof n).map fun g => (t :: g.1, g.2) := by
  rw [untilEof, h]
  cases ht : t.isEof with
  | true => simp [ht]
  | false => simp [ht, Option.map_eq_bind]

/-- At the end of the source all reads stop. -/
theorem returns_of_eof (h : e.next (n + 1) = some (t, e')) (heof : t.isEof = true) : e.Returns where
  next := ⟨_, _, h⟩
  groupRest level := ⟨n + 2, ([], e'), by rw [groupRest_of_next h, if_pos heof]⟩
  untilEof := ⟨n + 2, ([t], e'), by rw [untilEof_of_next h, if_pos heof]⟩

/-- What comes to an end after a step does so before it. -/
theorem Returns.of_advance (h : e.advance.Returns) : e.Returns := by
  rcases next_cases e with ⟨t, ht⟩ | hstep
  · by_cases heof : t.isEof = true
    · exact returns_of_eof (ht 0) heof
    · refine ⟨⟨1, _, ht 0⟩, fun level => ?_, ?_⟩
      · cases hl : levelAfter t.kind level with
        | none =>
          refine ⟨2, ([t], e.advance), ?_⟩
          rw [groupRest_of_next (ht 0), if_neg heof, hl]
        | some l =>
          obtain ⟨n, r, hr⟩ := h.groupRest l
          refine ⟨n + 2, (t :: r.1, r.2), ?_⟩
          rw [groupRest_of_next (ht n), if_neg heof, hl]
          dsimp only
          rw [groupRest_mono (Nat.le_succ n) hr, Option.map_some]
      · obtain ⟨n, r, hr⟩ := h.untilEof
        refine ⟨n + 2, (t :: r.1, r.2), ?_⟩
        rw [untilEof_of_next (ht n), if_neg heof, untilEof_mono (Nat.le_succ n) hr, Option.map_some]
  · obtain ⟨n, r, hnext⟩ := h.next
    refine ⟨⟨n + 1, r, (hstep n).trans hnext⟩, fun level => ?_, ?_⟩
    · obtain ⟨n, r, hr⟩ := h.groupRest level
      cases n with
      | zero => cases hr
      | succ n =>
        obtain ⟨⟨t, e'⟩, hnext, -⟩ := Option.bind_eq_some_iff.1 hr
        refine ⟨n + 2, r, ?_⟩
        rw [groupRest_of_next hnext] at hr
        rw [groupRest_of_next ((hstep n).trans hnext)]
        split at hr
        · rwa [if_pos ‹_›]
        · rw [if_neg ‹_›]
          split at hr
          · exact hr
          · obtain ⟨g, hg, rfl⟩ := Option.map_eq_some_iff.1 hr
            rw [groupRest_mono (Nat.le_succ n) hg, Option.map_some]
    · obtain ⟨n, r, hr⟩ := h.untilEof
      cases n with
      | zero => cases hr
      | succ n =>
        obtain ⟨⟨t, e'⟩, hnext, -⟩ := Option.bind_eq_some_iff.1 hr
        refine ⟨n + 2, r, ?_⟩
        rw [untilEof_of_next hnext] at hr
        rw [untilEof_of_next ((hstep n).trans hnext)]
        split at hr
        · rwa [if_pos ‹_›]
        · obtain ⟨g, hg, rfl⟩ := Option.map_eq_some_iff.1 hr
          rw [if_neg ‹_›, untilEof_mono (Nat.le_succ n) hg, Option.map_some]

/-- **A step that takes a token is progress**, unless it carries out a call that is cut short. -/
theorem lower_advance (hpeeked : e.peeked = none) (heof : e.pull.1.isEof = false)
    (hcut : ¬e.CutsShort) : Stack.Lower e.stack.sources e.advance.stack.sources := by
  have htakes := takes_pull heof
  have hpulled : e.pull.2.peeked = none := by rw [peeked_pull, hpeeked]
  rw [advance_of_peeked_eq_none hpeeked, reached]
  by_cases hcontrol : e.pull.1.kind = .control
  · rw [if_pos hcontrol]
    cases hb : e.pull.2.scopes.get? e.pull.1.text with
    | none => exact htakes.lower (.refl _)
    | some b =>
      cases b with
      | directive x => exact htakes.lower (.refl _)
      | define everywhere =>
        refine htakes.lower ?_
        obtain ⟨g, scopes, hg, heq⟩ := reads_define everywhere e.pull.2
        change Stack.Rest _ (e.pull.2.define everywhere).stack.sources
        rw [heq]
        exact hg.rest
      | user d =>
        change Stack.Lower _ (e.pull.2.expand e.pull.1 d).stack.sources
        have hreads := reads_matchPattern d.name d.pattern .empty e.pull.2
        rcases expand_cases e.pull.2 e.pull.1 d with ⟨m, hm, heq⟩ | ⟨args, m, hm, hcases⟩
        · rw [hm] at hreads
          rw [heq]
          exact htakes.lower hreads.rest
        · obtain ⟨us, hplain, -, -⟩ := (matchPattern_cases hm inPieces_empty
            (.inl hpulled)).resolve_right fun hmeets => by
              have hlt := hmeets.missing_lt
              rw [missing_pull] at hlt
              exact hcut ⟨hpeeked, hcontrol, d, args, m, hb, hm, hlt⟩
          -- the call and what it takes are spent, whatever is put in their place
          have hspends := (htakes.trans (hplain.takes hpulled)).spends
          rcases hcases with ⟨-, remarked, heq⟩ | ⟨-, heq⟩ <;> rw [heq]
          · have hdrop := hspends.drop
            rwa [← m.stack.size_eq] at hdrop
          · exact hspends.push _
  · rw [if_neg hcontrol, stack_track]
    exact htakes.lower (.refl _)

/-- Reading comes to an end if no call on the way is cut short. -/
theorem returns_of_forall_not_cutsShort (hb : Bounded n e)
    (h : ∀ k, ¬(e.trail k).CutsShort) : e.Returns := by
  have hnone : ∀ ss (e : Expander δ), e.stack.sources = ss → Bounded n e → e.peeked = none →
      (∀ k, ¬(e.trail k).CutsShort) → e.Returns := by
    intro ss
    induction ss using (Stack.wellFounded_lower n).induction with
    | _ ss ih =>
      rintro e rfl hb hpeeked h
      cases heof : e.pull.1.isEof with
      | true =>
        have hkind : e.pull.1.kind ≠ .control := by
          intro hk
          simp [Token.isEof, hk] at heof
        have hnext : e.next 1 = some (e.pull.1, e.pull.2.track e.pull.1) := by
          rw [next_of_peeked_eq_none hpeeked, read]
          exact if_neg hkind
        exact returns_of_eof hnext heof
      | false =>
        have hlower := lower_advance hpeeked heof (h 0)
        exact .of_advance (ih _ ⟨hlower, hb.length_le⟩ e.advance rfl (hb.moves (moves_advance e))
          (peeked_advance e) fun k => h (k + 1))
  refine .of_advance (hnone _ e.advance rfl (hb.moves (moves_advance e)) (peeked_advance e) ?_)
  exact fun k => h (k + 1)

/-- Reading comes to an end, or meets calls that are cut short again and again. -/
theorem returns_or_cutsShort (hb : Bounded n e) :
    e.Returns ∨ ∀ k, ∃ l ≥ k, (e.trail l).CutsShort := by
  by_cases h : ∀ k, ∃ l ≥ k, (e.trail l).CutsShort
  · exact .inr h
  · left
    obtain ⟨k, hk⟩ := not_forall.1 h
    replace hk : ∀ l, ¬((e.trail k).trail l).CutsShort := by
      intro l hcut
      rw [← trail_add] at hcut
      exact hk ⟨k + l, Nat.le_add_right k l, hcut⟩
    clear h
    induction k generalizing e with
    | zero => exact returns_of_forall_not_cutsShort hb hk
    | succ k ih => exact .of_advance (ih (hb.moves (moves_advance e)) hk)

end Expander

/-! ## Calls that are given up -/

namespace Stack

variable {t : Token} {s : Source} {ss ss' : List Source}

/-- The number of control sequences. -/
def controls (ts : List Token) : Nat := ts.countP (·.kind = .control)

/-- The number of control sequences of the lowest source. -/
def lowest (ss : List Source) : Nat := (ss.getLast?.map fun s => controls s.tokens).getD 0

/-- The number of calls that can still be given up: one for every control sequence of the lowest
source, and one if the call under way stems from a control sequence that was taken before. -/
def charge (ss : List Source) : Nat := lowest ss + if 1 < ss.length then 1 else 0

theorem lowest_append (above : List Source) (h : ss ≠ []) : lowest (above ++ ss) = lowest ss := by
  rw [lowest, List.getLast?_append_of_ne_nil above h, lowest]

theorem lowest_cons (s : Source) (h : ss ≠ []) : lowest (s :: ss) = lowest ss := lowest_append [s] h

theorem Rest.lowest_le (h : Rest ss ss') : lowest ss' ≤ lowest ss := by
  induction h with
  | refl ss => exact Nat.le_refl _
  | @token t us endless below ss' _ ih =>
    refine Nat.le_trans ih ?_
    by_cases hbelow : below = []
    · rw [hbelow]
      exact (List.sublist_cons_self t us).countP_le
    · rw [lowest_cons _ hbelow, lowest_cons _ hbelow]
  | @drop below ss' _ ih =>
    refine Nat.le_trans ih ?_
    by_cases hbelow : below = []
    · rw [hbelow]
      exact Nat.zero_le _
    · rw [lowest_cons _ hbelow]

theorem Rest.charge_le (h : Rest ss ss') : charge ss' ≤ charge ss := by
  have hlowest := h.lowest_le
  have hlength := h.length_le
  unfold charge
  split <;> split <;> omega

/-- A control sequence that is taken was in the lowest source or above it. -/
theorem Takes.lowest_lt (h : Takes ss [t] ss') (ht : t.kind = .control) :
    lowest ss' < charge ss := by
  obtain ⟨above, us, endless, below, rfl, rfl⟩ := h.exists_sources
  by_cases hbelow : below = []
  · rw [hbelow]
    have hlowest : lowest (above ++ [⟨t :: us, endless⟩]) = controls (t :: us) := by
      rw [lowest, List.getLast?_concat]
      rfl
    rw [charge, hlowest, controls, List.countP_cons_of_pos (by simpa using ht)]
    exact Nat.lt_of_lt_of_le (Nat.lt_succ_self _) (Nat.le_add_right ..)
  · have hlength : 1 < (above ++ ⟨t :: us, endless⟩ :: below).length := by
      have hpos := List.length_pos_of_ne_nil hbelow
      rw [List.length_append, List.length_cons]
      omega
    rw [charge, if_pos hlength, lowest_cons _ hbelow, lowest_append _ (List.cons_ne_nil _ _),
      lowest_cons _ hbelow]
    exact Nat.lt_succ_self _

theorem charge_push (s : Source) (h : ss ≠ []) : charge (s :: ss) = lowest ss + 1 := by
  have hlength : 1 < (s :: ss).length := Nat.succ_lt_succ (List.length_pos_of_ne_nil h)
  rw [charge, if_pos hlength, lowest_cons s h]

theorem charge_bottom_le (stack : Stack) : charge stack.bottom.sources ≤ lowest stack.sources := by
  have hlength : ¬1 < stack.bottom.sources.length := by
    rw [← stack.bottom.size_eq]
    exact Nat.not_lt.2 stack.size_bottom_le
  rw [charge, if_neg hlength, Nat.add_zero, lowest, bottom, List.getLast?_drop]
  split
  · exact Nat.zero_le _
  · exact Nat.le_refl _

theorem Rest.finish_eq (h : Rest ss ss') : finish ss' = finish ss := by
  induction h with
  | refl ss => rfl
  | @token t us endless below ss' _ ih =>
    rw [ih]
    cases below <;> rfl
  | drop _ ih => rw [ih, finish_cons rfl]

theorem finish_bottom (stack : Stack) : finish stack.bottom.sources = finish stack.sources := by
  have hsize := stack.size_eq
  rw [finish, bottom, List.getLast?_drop]
  split
  · rename_i hle
    have hnil : stack.sources = [] := List.eq_nil_of_length_eq_zero (by omega)
    rw [hnil]
    rfl
  · rfl

end Stack

namespace Expander

variable {δ : Type} {e e' m : Expander δ} {t : Token}

/-- The lowest source gives end marks for ever, or all groups are closed. In both cases a call
leaves a source to put its replacement upon. -/
def Kept (e : Expander δ) : Prop := (Stack.finish e.stack.sources).isSome ∨ e.Tidy

theorem Kept.reads (h : e.Kept) (hreads : e.Reads e') : e'.Kept := by
  rcases h with h | h
  · left
    rwa [hreads.rest.finish_eq]
  · exact .inr (h.reads hreads)

/-- No more calls are given up than `n`. -/
structure Charged (n : Nat) (e : Expander δ) : Prop where
  kept : e.Kept
  le : e.exceeded + Stack.charge e.stack.sources ≤ n

namespace Charged

variable {n : Nat}

theorem reads (h : Charged n e) (hreads : e.Reads e') : Charged n e' where
  kept := h.kept.reads hreads
  le := by
    rw [hreads.exceeded]
    exact Nat.le_trans (Nat.add_le_add_left hreads.rest.charge_le _) h.le

theorem define (h : Charged n e) (everywhere : Bool) : Charged n (e.define everywhere) := by
  obtain ⟨g, scopes, hg, heq⟩ := reads_define everywhere e
  have hcharged := h.reads hg
  refine ⟨?_, by rw [heq]; exact hcharged.le⟩
  rcases h.kept with hfinish | htidy
  · left
    rw [heq]
    exact hg.rest.finish_eq ▸ hfinish
  · exact .inr (htidy.define everywhere)

/-- A call that takes its arguments leaves the source that the last of them came from. -/
theorem sources_ne_nil (h : e.Kept) (hpeeked : e.peeked = none) (heof : e.pull.1.isEof = false)
    {name : String} {pattern : List Token} {args : Arguments}
    (hm : matchPattern name pattern .empty e.pull.2 = (some args, m)) : m.stack.sources ≠ [] := by
  have hreads := (reads_pull e).trans (reads_matchPattern name pattern .empty e.pull.2)
  rw [hm] at hreads
  rcases h with hfinish | htidy
  · rw [← hreads.rest.finish_eq] at hfinish
    intro hnil
    rw [hnil] at hfinish
    cases hfinish
  · have hpulled : e.pull.2.peeked = none := by rw [peeked_pull, hpeeked]
    obtain ⟨us, hplain, -, -⟩ := (matchPattern_cases hm inPieces_empty (.inl hpulled)).resolve_right
      (htidy.reads (reads_pull e)).not_meetsCut
    exact ((takes_pull heof).trans (hplain.takes hpulled)).ne_nil

/-- A call spends its own token: it is given up, or its replacement is put upon the others, at the
expense of one control sequence. -/
theorem call (h : Charged n e) (hpeeked : e.peeked = none) (hcontrol : e.pull.1.kind = .control)
    {d : Definition} (hd : e.pull.2.scopes.get? e.pull.1.text = some (.user d)) :
    Charged n (e.pull.2.expand e.pull.1 d) := by
  have heof : e.pull.1.isEof = false := by simp [Token.isEof, hcontrol]
  have hpulled : e.pull.2.peeked = none := by rw [peeked_pull, hpeeked]
  have hmatch := reads_matchPattern d.name d.pattern .empty e.pull.2
  have hlt := (takes_pull heof).lowest_lt hcontrol
  have hle := h.le
  rcases expand_cases e.pull.2 e.pull.1 d with
    ⟨m, hm, heq⟩ | ⟨args, m, hm, hcases⟩ <;> rw [hm] at hmatch
  · rw [heq]
    exact h.reads ((reads_pull e).trans hmatch)
  · have hlowest : Stack.lowest m.stack.sources ≤ Stack.lowest e.pull.2.stack.sources :=
      hmatch.rest.lowest_le
    have hreads := (reads_pull e).trans hmatch
    have hexceeded : m.exceeded = e.exceeded := hreads.exceeded
    have hkept : (e.pull.2.expand e.pull.1 d).Kept := by
      rcases h.kept with hfinish | htidy
      · left
        rw [← hreads.rest.finish_eq] at hfinish
        rcases hcases with ⟨-, remarked, heq⟩ | ⟨-, heq⟩ <;> rw [heq]
        · rwa [Stack.finish_bottom]
        · rwa [Stack.sources_push, Stack.finish_cons rfl]
      · exact .inr ((htidy.reads (reads_pull e)).expand hpulled hd _)
    refine ⟨hkept, ?_⟩
    rcases hcases with ⟨-, remarked, heq⟩ | ⟨-, heq⟩
    · have hbottom := Stack.charge_bottom_le m.stack
      have hstack : (e.pull.2.expand e.pull.1 d).stack = m.stack.bottom := by rw [heq]
      have hreport : (e.pull.2.expand e.pull.1 d).exceeded = m.exceeded + 1 := by
        rw [heq]
        exact List.countP_cons_of_pos (by simp)
      rw [hreport, hstack]
      omega
    · have hpush := Stack.charge_push (.ofTokens (replacement e.pull.1 args d.body))
        (sources_ne_nil h.kept hpeeked heof hm)
      rw [heq, Stack.sources_push, hpush]
      change m.exceeded + _ ≤ n
      omega

theorem moves (h : Charged n e) (hmoves : e.Moves e') : Charged n e' := by
  induction hmoves with
  | refl => exact h
  | reads _ hreads ih => exact ih.reads hreads
  | define everywhere _ ih => exact ih.define everywhere
  | call _ hpeeked hcontrol hd ih => exact ih.call hpeeked hcontrol hd

end Charged

theorem charged_ofSource {s : Source} {scopes : Scopes δ} (limit : Nat)
    (h : (ofSource s scopes limit).Kept) :
    Charged (Stack.controls s.tokens) (ofSource s scopes limit) :=
  ⟨h, Nat.le_of_eq (Nat.zero_add _)⟩

theorem tidy_ofSource {s : Source} {scopes : Scopes δ} (limit : Nat)
    (hs : matched s.tokens = true) (hscopes : scopes.Each fun d => matched d.body = true) :
    (ofSource s scopes limit).Tidy :=
  ⟨List.forall_mem_singleton.2 hs, hscopes⟩

/-! ## All of it -/

/-- Every call returns, and reading on comes to an end mark. -/
structure Ends (e : Expander δ) : Prop where
  answer : ∀ c, ∃ n r, e.answer n c = some r
  untilEof : ∃ n r, e.untilEof n = some r

theorem Returns.ends (h : e.Returns) : e.Ends where
  answer c := by
    obtain ⟨n, r, hnext⟩ := h.next
    match c with
    | .next false => exact ⟨0, _, rfl⟩
    | .peek false => exact ⟨0, _, rfl⟩
    | .group t false => exact ⟨0, _, rfl⟩
    | .next true => exact ⟨n, _, Option.map_eq_some_iff.2 ⟨r, hnext, rfl⟩⟩
    | .peek true =>
      exact ⟨n, _, Option.map_eq_some_iff.2 ⟨_, Option.map_eq_some_iff.2 ⟨r, hnext, rfl⟩, rfl⟩⟩
    | .group t true =>
      obtain ⟨n, r, hrest⟩ := h.groupRest 0
      by_cases ht : t.kind = .opening
      · exact ⟨n, _, (if_pos ht).trans (Option.map_eq_some_iff.2 ⟨r, hrest, rfl⟩)⟩
      · exact ⟨0, _, if_neg ht⟩
  untilEof := h.untilEof

/-- **What a caller can rely on at every moment.** The number of sources stays within the limit.
Every call returns and the end is reached, unless calls are cut short again and again. A source that
never runs dry, such as a text, has at least as many control sequences as calls are given up. Where
the source and the definitions given with it close all groups that they open, all of this holds
without exception. -/
theorem passes_ends {s : Source} {scopes : Scopes δ} {limit : Nat} {e : Expander δ}
    (h : (ofSource s scopes limit).Passes e) :
    e.stack.size ≤ max limit 1 ∧
    (e.Ends ∨ ∀ n, ∃ k ≥ n, (e.trail k).CutsShort) ∧
    (s.endless.isSome → e.exceeded ≤ Stack.controls s.tokens) ∧
    (matched s.tokens = true → scopes.Each (fun d => matched d.body = true) →
      e.Ends ∧ e.exceeded ≤ Stack.controls s.tokens) := by
  have hbounded := (bounded_ofSource s scopes limit).moves h.moves
  have hreturns := returns_or_cutsShort hbounded
  have hcount : (ofSource s scopes limit).Kept →
      e.exceeded ≤ Stack.controls s.tokens := fun hkept =>
    Nat.le_trans (Nat.le_add_right ..) ((charged_ofSource limit hkept).moves h.moves).le
  refine ⟨?_, hreturns.imp_left Returns.ends, fun hendless => hcount (.inl hendless),
    fun hs hscopes => ?_⟩
  · rw [e.stack.size_eq]
    exact hbounded.length_le
  · have htidy := tidy_ofSource limit hs hscopes
    refine ⟨Returns.ends ?_, hcount (.inr htidy)⟩
    refine returns_of_forall_not_cutsShort hbounded fun k => ?_
    exact ((htidy.moves h.moves).moves (moves_trail k e)).not_cutsShort

/-- A call in the middle of which the limit is reached. -/
theorem passes_ends_recursive : ∃ e : Expander Unit,
    (ofSource (.ofText .tex "\\def\\a\x7b\\a\\a\x7d\\a x") .builtin 3).Passes e ∧
      e.stack.size = 3 ∧ e.stack.size ≤ max 3 1 ∧ e.Ends ∧
      e.exceeded ≤ Stack.controls (Token.scan .tex "\\def\\a\x7b\\a\\a\x7d\\a x") := by
  have hpasses := Passes.call 3 (.next true) (Passes.start (e :=
    (ofSource (.ofText .tex "\\def\\a\x7b\\a\\a\x7d\\a x") .builtin 3 : Expander Unit)))
  have hmatched : matched (Token.scan .tex "\\def\\a\x7b\\a\\a\x7d\\a x") = true := by
    decide +kernel
  obtain ⟨hsize, -, -, hends⟩ := passes_ends hpasses
  obtain ⟨hends, hexceeded⟩ := hends hmatched (Scopes.each_builtin _)
  exact ⟨_, hpasses, by decide +kernel, hsize, hends, hexceeded⟩

/-! ## A call without end -/

/-- Ahead is a call with a brace that is never closed, upon a source that gives end marks for ever.
-/
structure Loops (call brace : Token) (d : Definition) (p : Position) (e : Expander δ) : Prop where
  peeked : e.peeked = none
  sources : e.stack.sources = [⟨[call, brace], none⟩, ⟨[], some p⟩]
  inner : e.scopes.inner = []
  bound : e.scopes.get? call.text = some (.user d)
  limit : 1 < e.limit

section Loops

variable {call brace f : Token} {d : Definition} {p : Position} {i : Nat}

theorem scopes_track_opening (ht : t.kind = .opening) : (e.track t).scopes = e.scopes.enter := by
  rw [track, ht]

/-- An end mark closes the frame that is left open. -/
theorem nextRaw_of_dry (hpeeked : e.peeked = none)
    (h : e.stack.sources = [⟨[], none⟩, ⟨[], some p⟩]) (hopened : 0 < e.opened) :
    e.nextRaw.1 = Token.eof p false ∧ e.nextRaw.2.stack.sources = [⟨[], some p⟩] ∧
      e.nextRaw.2.scopes = e.scopes.reset := by
  obtain ⟨scopes, ⟨sources, size, hsize⟩, peeked, reported, remarked, limit, position⟩ := e
  obtain rfl : sources = [⟨[], none⟩, ⟨[], some p⟩] := h
  obtain rfl : peeked = none := hpeeked
  have hdepth : scopes.depth > 1 := Nat.succ_lt_succ hopened
  refine ⟨rfl, ?_, ?_⟩
  · rw [nextRaw_of_peeked_eq_none rfl, stack_track]
    rfl
  · rw [nextRaw_of_peeked_eq_none rfl]
    exact congrArg Expander.scopes (if_pos hdepth)

/-- The argument is the brace alone, and the end mark can be read again. -/
theorem Loops.matchPattern_eq (h : e.Loops call brace d p) (hbrace : brace.kind = .opening)
    (hpattern : d.pattern = [f]) (hf : slot? f = some i) :
    ∃ m, matchPattern d.name d.pattern .empty e.pull.2 =
        (some (Arguments.empty.bind i [brace]), m) ∧
      m.peeked = none ∧ m.stack.sources = [⟨[], some p⟩] ∧ m.scopes = e.scopes := by
  have hpeeked : e.pull.2.peeked = none := by rw [peeked_pull, h.peeked]
  obtain ⟨hnext, hsources⟩ := nextRaw_of_sources hpeeked (pull_of_sources h.sources).2
  have hscopes : e.pull.2.nextRaw.2.scopes = e.scopes.enter := by
    rw [nextRaw_of_peeked_eq_none hpeeked] at hnext ⊢
    rw [scopes_track_opening (by rw [hnext, hbrace]), scopes_pull, scopes_pull]
  have hopened : 0 < e.pull.2.nextRaw.2.opened := by
    rw [opened, hscopes]
    exact Nat.succ_pos _
  obtain ⟨hend, hlast, hreset⟩ := nextRaw_of_dry (peeked_nextRaw _) hsources hopened
  have hgroup : groupRaw brace e.pull.2.nextRaw.2 = ([brace], e.pull.2.nextRaw.2.nextRaw.2) := by
    rw [groupRaw, if_pos hbrace, groupRestRaw]
    dsimp only
    rw [dif_pos (by rw [hend]; rfl)]
  refine ⟨e.pull.2.nextRaw.2.nextRaw.2, ?_, peeked_nextRaw _, hlast, ?_⟩
  · have heof : brace.isEof = false := by simp [Token.isEof, hbrace]
    rw [hpattern, matchPattern]
    simp only [hf, List.head?_nil, Option.filter_none, hnext, heof, hgroup]
    rfl
  · rw [hreset, hscopes]
    change { e.scopes with inner := [] } = e.scopes
    rw [← h.inner]

/-- The call is replaced by itself. -/
theorem Loops.expand (h : e.Loops call brace d p) (hbrace : brace.kind = .opening)
    (hpattern : d.pattern = [f]) (hf : slot? f = some i)
    (hbody : replacement call (Arguments.empty.bind i [brace]) d.body = [call, brace]) :
    (e.pull.2.expand call d).Loops call brace d p := by
  obtain ⟨m, hm, hpeeked, hsources, hscopes⟩ := h.matchPattern_eq hbrace hpattern hf
  have hlimit : m.limit = e.limit := by
    have hreads := (reads_pull e).trans (reads_matchPattern d.name d.pattern .empty e.pull.2)
    rw [hm] at hreads
    exact hreads.limit
  have hsize : m.stack.size = 1 := by
    rw [m.stack.size_eq, hsources]
    rfl
  rcases expand_cases e.pull.2 call d with ⟨m', hm', -⟩ | ⟨args, m', hm', hcases⟩ <;> rw [hm] at hm'
  · cases hm'
  · obtain ⟨hargs, rfl⟩ := Prod.mk.inj hm'
    obtain rfl := Option.some.inj hargs
    rcases hcases with ⟨hle, -⟩ | ⟨-, heq⟩
    · rw [hsize, hlimit] at hle
      exact absurd h.limit (Nat.not_lt.2 hle)
    · rw [heq]
      refine ⟨hpeeked, ?_, by rw [hscopes, h.inner], by rw [hscopes, h.bound],
        by rw [hlimit]; exact h.limit⟩
      rw [Stack.sources_push, hbody, hsources]
      rfl

theorem Loops.read_eq_none (h : e.Loops call brace d p) (hcall : call.kind = .control)
    (hbrace : brace.kind = .opening) (hpattern : d.pattern = [f]) (hf : slot? f = some i)
    (hbody : replacement call (Arguments.empty.bind i [brace]) d.body = [call, brace])
    (fuel : Nat) : e.read fuel = none := by
  induction fuel generalizing e with
  | zero => rfl
  | succ fuel ih =>
    obtain ⟨ht, -⟩ := pull_of_sources h.sources
    have hd : e.pull.2.scopes.get? call.text = some (.user d) := by rw [scopes_pull, h.bound]
    rw [read, ht, if_pos hcall, hd]
    exact ih (h.expand hbrace hpattern hf hbody)

end Loops

/-- A call that is replaced by itself, with a brace that is never closed. -/
def selfCall : Expander Unit :=
  ofSource (.ofText .music "\\def\\a$1\x7b\\a$1\x7d\\a\x7b") .builtin 100

/-- A call that repeats its argument five times, with an argument that calls it and is never closed.
-/
def fivefold : List Token :=
  [⟨.control, "\\def", {}, false⟩, ⟨.control, "\\a", {}, false⟩, ⟨.param (some 1), "#1", {}, false⟩,
    ⟨.opening, "\x7b", {}, false⟩] ++ List.replicate 5 ⟨.param (some 1), "#1", {}, false⟩ ++
  [⟨.closing, "\x7d", {}, false⟩, ⟨.control, "\\a", {}, false⟩, ⟨.opening, "\x7b", {}, false⟩,
    ⟨.control, "\\a", {}, false⟩, ⟨.other, "x", {}, false⟩]

theorem loops_selfCall : (selfCall.reached 2).Loops ⟨.control, "\\a", ⟨⟨1, 10⟩, ⟨1, 12⟩⟩, false⟩
    ⟨.opening, "\x7b", ⟨⟨1, 17⟩, ⟨1, 18⟩⟩, false⟩
    ⟨"\\a", [⟨.param (some 1), "$1", ⟨⟨1, 7⟩, ⟨1, 9⟩⟩, false⟩],
      [⟨.control, "\\a", ⟨⟨1, 10⟩, ⟨1, 12⟩⟩, false⟩,
        ⟨.param (some 1), "$1", ⟨⟨1, 12⟩, ⟨1, 14⟩⟩, false⟩]⟩ ⟨1, 18⟩ := by
  constructor <;> decide +kernel

/-- **Expansion need not end.** From one source the next token is never reached. From another more
calls are given up than it has control sequences. -/
theorem exists_endless_call : (∀ fuel, selfCall.next fuel = none) ∧
    ∃ r, (ofSource (.ofTokens fivefold) (.builtin : Scopes Unit) 1).untilEof 20 = some r ∧
      Stack.controls fivefold < r.2.exceeded := by
  refine ⟨fun fuel => ?_, ?_⟩
  · have hnone : selfCall.read 2 = none := by
      rw [← Option.isNone_iff_eq_none]
      decide +kernel
    rw [next_of_peeked_eq_none rfl]
    by_contra hsome
    obtain ⟨r, hr⟩ := Option.ne_none_iff_exists'.1 hsome
    have hr := read_mono (Nat.le_add_left fuel 2) hr
    rw [read_add hnone, loops_selfCall.read_eq_none rfl rfl rfl rfl rfl fuel] at hr
    cases hr
  · have hrun : ((ofSource (.ofTokens fivefold) (.builtin : Scopes Unit) 1).untilEof 20).any
        (fun r => Stack.controls fivefold < r.2.exceeded) = true := by decide +kernel
    obtain ⟨r, hrun, hr⟩ := (Option.any_eq_true _ _).1 hrun
    exact ⟨r, hrun, of_decide_eq_true hr⟩

end Expander

end Jianpu.Macro
