import Jianpu.Proofs.Macro.Dialogue
import Jianpu.Proofs.Macro.PlainReads

/-!
# What a caller can do to an expander

Plain reads take tokens off the sources, and neither bind a name to a new definition nor give up a
call (`Reads`). Whatever a caller asks for comes down to plain reads, definitions and calls one
after another (`Moves`): `Passes.moves` says so of every state that an expander passes, those in the
middle of a call included. So what holds at every moment has to be shown for these three only.
-/

namespace Jianpu.Macro

/-- What is left of sources after one token or an end mark is taken. -/
theorem Stack.rest_pullFrom (sources : List Source) (size : Nat) (h : size = sources.length) :
    Stack.Rest sources (pullFrom sources size h).2.sources := by
  induction sources generalizing size with
  | nil => exact .refl _
  | cons s below ih =>
    obtain ⟨tokens, endless⟩ := s
    cases tokens with
    | cons t ts => exact .token (.refl _)
    | nil =>
      cases endless with
      | none => exact .drop (ih _ _)
      | some p => exact .refl _

namespace Expander

variable {δ : Type} {e e' m : Expander δ} {t : Token} {fuel : Nat}

/-! ## Plain reads -/

/-- The number of calls that were given up at the limit. -/
def exceeded (e : Expander δ) : Nat := e.reported.countP (·.cause = .nestingExceeded)

/-- What can have changed after plain reads. -/
structure Reads (e e' : Expander δ) : Prop where
  rest : Stack.Rest e.stack.sources e'.stack.sources
  limit : e'.limit = e.limit
  exceeded : e'.exceeded = e.exceeded
  /-- The definitions in force were in force before. -/
  each : ∀ P, e.scopes.Each P → e'.scopes.Each P

namespace Reads

theorem refl (e : Expander δ) : e.Reads e := ⟨.refl _, rfl, rfl, fun _ h => h⟩

theorem trans (h : e.Reads m) (h' : m.Reads e') : e.Reads e' where
  rest := h.rest.trans h'.rest
  limit := h'.limit.trans h.limit
  exceeded := h'.exceeded.trans h.exceeded
  each P he := h'.each P (h.each P he)

theorem report (h : e.Reads e') {c : Cause} (hc : c ≠ .nestingExceeded) (s : Span) :
    e.Reads (e'.report c s) where
  rest := h.rest
  limit := h.limit
  exceeded := by
    rw [← h.exceeded, Expander.exceeded, Expander.report,
      List.countP_cons_of_neg (by simpa using hc)]
    rfl
  each := h.each

end Reads

theorem reads_pull (e : Expander δ) : e.Reads e.pull.2 := by
  have hrest : Stack.Rest e.stack.sources e.stack.pull.2.sources := Stack.rest_pullFrom ..
  unfold pull
  split <;> rename_i hp <;> rw [hp] at hrest <;> exact ⟨hrest, rfl, rfl, fun _ h => h⟩

theorem reads_track (e : Expander δ) (t : Token) : e.Reads (e.track t) where
  rest := by
    rw [stack_track]
    exact .refl _
  limit := by
    unfold track
    split <;> (try split) <;> rfl
  exceeded := by
    unfold track
    split
    · rfl
    · split
      · rfl
      · exact ((Reads.refl e).report (by simp) _).exceeded
    · split
      · exact ((Reads.refl e).report (by simp) _).exceeded
      · rfl
    · rfl
  each P h := each_track h t

theorem reads_nextRaw (e : Expander δ) : e.Reads e.nextRaw.2 := by
  unfold nextRaw
  split
  · exact ⟨.refl _, rfl, rfl, fun _ h => h⟩
  · exact (reads_pull e).trans (reads_track ..)

theorem reads_peekRaw (e : Expander δ) : e.Reads e.peekRaw.2 :=
  (reads_nextRaw e).trans ⟨.refl _, rfl, rfl, fun _ h => h⟩

theorem reads_groupRestRaw (level : Nat) (e : Expander δ) : e.Reads (groupRestRaw level e).2 := by
  fun_induction groupRestRaw level e with
  | case1 level e r hend => exact reads_nextRaw e
  | case2 level e r hend hlt hl => exact reads_nextRaw e
  | case3 level e r hend hlt level' hl g ih => exact (reads_nextRaw e).trans ih

theorem reads_groupRaw (t : Token) (e : Expander δ) : e.Reads (groupRaw t e).2 := by
  unfold groupRaw
  split
  · exact reads_groupRestRaw 0 e
  · exact .refl e

theorem reads_untilDelimiter (delimiter : String) (e : Expander δ) :
    e.Reads (untilDelimiter delimiter e).2 := by
  fun_induction untilDelimiter delimiter e with
  | case1 e r hend => exact reads_peekRaw e
  | case2 e r hend htext => exact reads_peekRaw e
  | case3 e r hend htext g hlt rest ih =>
    exact ((reads_nextRaw e).trans (reads_groupRaw ..)).trans ih

/-! ## Calls -/

theorem reads_matchPattern (name : String) (pattern : List Token) (args : Arguments)
    (e : Expander δ) : e.Reads (matchPattern name pattern args e).2 := by
  induction pattern generalizing args e with
  | nil => exact .refl e
  | cons f pattern ih =>
    have hnext := reads_nextRaw e
    rw [matchPattern]
    split
    · dsimp only
      split
      · exact hnext.report (by simp) _
      · split
        · exact hnext.report (by simp) _
        · exact hnext.trans (ih ..)
    · dsimp only
      split
      · exact hnext.report (by simp) _
      · exact (hnext.trans (reads_groupRaw ..)).trans (ih ..)
    · dsimp only
      split
      · exact ((reads_untilDelimiter ..).trans (reads_nextRaw _)).report (by simp) _
      · exact (reads_untilDelimiter ..).trans (ih ..)

/-- No token that was looked at is left over by a call. -/
theorem peeked_matchPattern (name : String) {pattern : List Token} (args : Arguments)
    (h : e.peeked = none ∨ ∃ f, pattern.head? = some f ∧ slot? f = none) :
    (matchPattern name pattern args e).2.peeked = none := by
  induction pattern generalizing args e with
  | nil =>
    refine h.resolve_right ?_
    rintro ⟨f, hf, -⟩
    cases hf
  | cons f pattern ih =>
    have hnext := peeked_nextRaw e
    rw [matchPattern]
    split
    · dsimp only
      split
      · exact hnext
      · split
        · exact hnext
        · exact ih _ (.inl hnext)
    · dsimp only
      split
      · exact hnext
      · exact ih _ (.inl (peeked_groupRaw _ hnext))
    · rename_i delimiter _ hd
      dsimp only
      split
      · exact peeked_nextRaw _
      · exact ih _ (.inr ⟨delimiter, slot?_of_head?_filter hd⟩)

/-- What a call comes to: the source does not match, or the call is given up at the limit, or its
replacement is put upon the other sources. -/
theorem expand_cases (e : Expander δ) (call : Token) (d : Definition) :
    (∃ m, matchPattern d.name d.pattern .empty e = (none, m) ∧ e.expand call d = m) ∨
    ∃ args m, matchPattern d.name d.pattern .empty e = (some args, m) ∧
      ((m.limit ≤ m.stack.size ∧ ∃ remarked, e.expand call d =
          { m with stack := m.stack.bottom, remarked,
                   reported := ⟨.nestingExceeded, call.span⟩ :: m.reported }) ∨
        (m.stack.size < m.limit ∧ e.expand call d =
          { m with stack := m.stack.push (.ofTokens (replacement call args d.body)) })) := by
  unfold expand
  cases h : matchPattern d.name d.pattern .empty e with
  | mk args m =>
    cases args with
    | none => exact .inl ⟨m, rfl, rfl⟩
    | some args =>
      refine .inr ⟨args, m, rfl, ?_⟩
      dsimp only
      split
      · exact .inl ⟨‹_›, _, rfl⟩
      · exact .inr ⟨Nat.lt_of_not_le ‹_›, rfl⟩

theorem peeked_expand {call : Token} {d : Definition} (h : e.peeked = none) :
    (e.expand call d).peeked = none := by
  have hmatch : (matchPattern d.name d.pattern .empty e).2.peeked = none :=
    peeked_matchPattern d.name .empty (.inl h)
  rcases expand_cases e call d with ⟨m, hm, heq⟩ | ⟨args, m, hm, ⟨-, _, heq⟩ | ⟨-, heq⟩⟩ <;>
    rw [hm] at hmatch <;> rw [heq] <;> exact hmatch

/-! ## Definitions -/

theorem reads_reportIf {bad : Bool} {c : Cause} (hc : c ≠ .nestingExceeded) (e : Expander δ)
    (s : Span) : e.Reads (e.reportIf bad c s) := by
  cases bad with
  | false => exact .refl e
  | true => exact (Reads.refl e).report hc s

theorem reads_readPattern (count : Nat) (e : Expander δ) : e.Reads (readPattern count e).2 := by
  fun_induction readPattern count e with
  | case1 count e r hend => exact reads_nextRaw e
  | case2 count e r hend hopening => exact reads_nextRaw e
  | case3 count e r hend hopening hlt count' bad rest ih =>
    exact ((reads_nextRaw e).trans (reads_reportIf (by simp) _ _)).trans ih

/-- The last token of a pattern was read from a state where none was looked at. -/
theorem exists_nextRaw_readPattern (count : Nat) (h : e.peeked = none) :
    ∃ m, e.Reads m ∧ m.peeked = none ∧
      m.nextRaw = ((readPattern count e).1.2.2, (readPattern count e).2) := by
  fun_induction readPattern count e with
  | case1 count e r hend => exact ⟨e, .refl e, h, rfl⟩
  | case2 count e r hend hopening => exact ⟨e, .refl e, h, rfl⟩
  | case3 count e r hend hopening hlt count' bad rest ih =>
    have hpeeked : (r.2.reportIf bad .parameterOrder r.1.span).peeked = none := by
      cases bad <;> exact peeked_nextRaw e
    obtain ⟨m, hreads, hm, hnext⟩ := ih hpeeked
    exact ⟨m, ((reads_nextRaw e).trans (reads_reportIf (by simp) _ _)).trans hreads, hm, hnext⟩

/-- What a definition comes to: plain reads and a report, or the reading of a group and a name that
is bound to what stands in it. -/
theorem define_cases (everywhere : Bool) (e : Expander δ) :
    e.Reads (e.define everywhere) ∧ (e.define everywhere).peeked = none ∨
    ∃ m g name d count, e.Reads m ∧ m.peeked = none ∧ m.nextRaw.1.kind = .opening ∧
      (groupRestRaw 0 m.nextRaw.2).2.Reads g ∧ g.peeked = none ∧
      d.body = (unwrap (m.nextRaw.1 :: (groupRestRaw 0 m.nextRaw.2).1)).filter (legal count) ∧
      e.define everywhere = { g with scopes := g.scopes.define name (.user d) everywhere } := by
  have hname := reads_nextRaw e
  unfold define
  dsimp only
  split
  · exact .inl ⟨hname.report (by simp) _, peeked_nextRaw e⟩
  · obtain ⟨m, hm, hpeeked, hnext⟩ := exists_nextRaw_readPattern 0 (peeked_nextRaw e)
    split
    · refine .inl ⟨(hname.trans (reads_readPattern 0 _)).report (by simp) _, ?_⟩
      have hlast := peeked_nextRaw m
      rw [hnext] at hlast
      exact hlast
    · rename_i ht
      have ht := Decidable.not_not.1 ht
      have hgroup : groupRaw (readPattern 0 e.nextRaw.2).1.2.2 (readPattern 0 e.nextRaw.2).2 =
          (m.nextRaw.1 :: (groupRestRaw 0 m.nextRaw.2).1, (groupRestRaw 0 m.nextRaw.2).2) := by
        rw [hnext, groupRaw, if_pos ht]
      refine .inr ⟨m, _, _, _, (readPattern 0 e.nextRaw.2).1.2.1, hname.trans hm, hpeeked,
        by rw [hnext]; exact ht, ?_, ?_, ?_, rfl⟩
      · rw [hgroup, foldl_report]
        refine ⟨.refl _, rfl, ?_, fun _ h => h⟩
        simp [exceeded, remark, List.countP_append, List.countP_eq_zero]
      · rw [foldl_report]
        exact peeked_groupRaw _ (by rw [← congrArg Prod.snd hnext]; exact peeked_nextRaw m)
      · rw [hgroup]

/-- Apart from the scopes, a definition is plain reads. -/
theorem reads_define (everywhere : Bool) (e : Expander δ) :
    ∃ g scopes, e.Reads g ∧ e.define everywhere = { g with scopes } := by
  rcases define_cases everywhere e with
    ⟨hreads, -⟩ | ⟨m, g, name, d, count, hm, -, -, hg, -, -, heq⟩
  · exact ⟨_, _, hreads, rfl⟩
  · exact ⟨g, _, ((hm.trans (reads_nextRaw m)).trans (reads_groupRestRaw 0 _)).trans hg, heq⟩

theorem peeked_define (everywhere : Bool) (e : Expander δ) :
    (e.define everywhere).peeked = none := by
  rcases define_cases everywhere e with
    ⟨-, hpeeked⟩ | ⟨m, g, name, d, count, -, -, -, -, hg, -, heq⟩
  · exact hpeeked
  · rw [heq]
    exact hg

/-! ## Moves -/

/-- Plain reads, definitions and calls, one after another. -/
inductive Moves (e : Expander δ) : Expander δ → Prop
  | refl : Moves e e
  | reads {m e' : Expander δ} : Moves e m → m.Reads e' → Moves e e'
  | define {m : Expander δ} (everywhere : Bool) : Moves e m → Moves e (m.define everywhere)
  | call {m : Expander δ} {d : Definition} : Moves e m → m.peeked = none →
      m.pull.1.kind = .control → m.pull.2.scopes.get? m.pull.1.text = some (.user d) →
      Moves e (m.pull.2.expand m.pull.1 d)

theorem Moves.trans (h : e.Moves m) (h' : m.Moves e') : e.Moves e' := by
  induction h' with
  | refl => exact h
  | reads _ hreads ih => exact ih.reads hreads
  | define everywhere _ ih => exact ih.define everywhere
  | call _ hpeeked hcontrol hd ih => exact ih.call hpeeked hcontrol hd

theorem moves_reached (fuel : Nat) (h : e.peeked = none) :
    e.Moves (e.reached fuel) ∧ (e.reached fuel).peeked = none := by
  induction fuel generalizing e with
  | zero => exact ⟨.refl, h⟩
  | succ fuel ih =>
    have hpull := reads_pull e
    have hpeeked : e.pull.2.peeked = none := by rw [peeked_pull, h]
    rw [reached]
    split
    · rename_i hcontrol
      split
      · exact ⟨.reads .refl hpull, hpeeked⟩
      · rename_i everywhere _
        obtain ⟨hmoves, hlast⟩ := ih (peeked_define everywhere e.pull.2)
        exact ⟨(Moves.define everywhere (.reads .refl hpull)).trans hmoves, hlast⟩
      · rename_i d hd
        obtain ⟨hmoves, hlast⟩ := ih (peeked_expand hpeeked)
        exact ⟨(Moves.call .refl h hcontrol hd).trans hmoves, hlast⟩
      · obtain ⟨hmoves, hlast⟩ := ih (e := e.pull.2.report _ e.pull.1.span) hpeeked
        exact ⟨(Moves.reads .refl (hpull.report (by simp) _)).trans hmoves, hlast⟩
    · refine ⟨.reads .refl (hpull.trans (reads_track ..)), ?_⟩
      rw [peeked_track, hpeeked]

theorem moves_next {r : Token × Expander δ} (h : e.next fuel = some r) :
    e.Moves r.2 ∧ r.2.peeked = none := by
  unfold next at h
  split at h
  · obtain rfl := Option.some.inj h
    exact ⟨.reads .refl ⟨.refl _, rfl, rfl, fun _ h => h⟩, rfl⟩
  · rw [← reached_of_read h]
    exact moves_reached fuel ‹_›

theorem peeked_of_next_eq_none (h : e.next fuel = none) : e.peeked = none := by
  unfold next at h
  split at h
  · cases h
  · assumption

theorem moves_groupReached (fuel level : Nat) (e : Expander δ) :
    e.Moves (groupReached fuel level e) := by
  induction fuel generalizing level e with
  | zero => exact .refl
  | succ fuel ih =>
    rw [groupReached]
    split
    · exact (moves_reached fuel (peeked_of_next_eq_none ‹_›)).1
    · rename_i t e' hnext
      have hmoves := (moves_next hnext).1
      split
      · exact hmoves
      · split
        · exact hmoves
        · exact hmoves.trans (ih ..)

theorem moves_answerReached (fuel : Nat) (c : Call) (e : Expander δ) :
    e.Moves (e.answerReached fuel c) := by
  unfold answerReached
  split
  · rename_i r hr
    match c with
    | .next false =>
      obtain rfl := Option.some.inj hr
      exact .reads .refl (reads_nextRaw e)
    | .peek false =>
      obtain rfl := Option.some.inj hr
      exact .reads .refl (reads_peekRaw e)
    | .group t false =>
      obtain rfl := Option.some.inj hr
      exact .reads .refl (reads_groupRaw t e)
    | .next true =>
      obtain ⟨q, hnext, rfl⟩ := Option.map_eq_some_iff.1 hr
      exact (moves_next hnext).1
    | .peek true =>
      obtain ⟨q, hpeek, rfl⟩ := Option.map_eq_some_iff.1 hr
      obtain ⟨q, hnext, rfl⟩ := Option.map_eq_some_iff.1 hpeek
      exact (moves_next hnext).1.reads ⟨.refl _, rfl, rfl, fun _ h => h⟩
    | .group t true =>
      have hr : e.group fuel t = some r := hr
      unfold group at hr
      split at hr
      · obtain ⟨q, hrest, rfl⟩ := Option.map_eq_some_iff.1 hr
        rw [← groupReached_of_groupRest hrest]
        exact moves_groupReached ..
      · obtain rfl := Option.some.inj hr
        exact .refl
  · rename_i hnone
    split
    · exact moves_groupReached ..
    · rename_i expand
      cases expand with
      | false => cases hnone
      | true =>
        have hnone := peeked_of_next_eq_none (Option.map_eq_none_iff.1 hnone)
        exact (moves_reached fuel hnone).1
    · rename_i expand
      cases expand with
      | false => cases hnone
      | true =>
        have hnone := Option.map_eq_none_iff.1 (Option.map_eq_none_iff.1 hnone)
        exact (moves_reached fuel (peeked_of_next_eq_none hnone)).1

/-- The states that an expander passes while a caller asks for one thing after another. A call that
has not returned counts with where it is after any number of steps. -/
inductive Passes (e : Expander δ) : Expander δ → Prop
  | start : Passes e e
  | call {m : Expander δ} (fuel : Nat) (c : Call) : Passes e m → Passes e (m.answerReached fuel c)

theorem Passes.moves (h : e.Passes e') : e.Moves e' := by
  induction h with
  | start => exact .refl
  | call fuel c _ ih => exact ih.trans (moves_answerReached fuel c _)

end Expander

end Jianpu.Macro
