import Jianpu.Proofs.Macro.Pattern

/-!
# Calls bind their arguments

A call looks at the tokens ahead of the expander (`upcoming`). Where every group that they open is
closed, the call is replaced exactly if they begin with a match of its pattern; it takes that match
and no more, and what comes instead is the body with the arguments in the stead of the placeholders
(`resolve_binds`). Otherwise the call is reported once. Each kind of read is told by what it takes
off the tokens ahead (`Took`), so that the calls come down to lists.

A definition that is read without a report numbers its placeholders one after another. There are ten
places for arguments: an eleventh placeholder takes the place of the first
(`resolve_eleven`). One digit is all that the number of a placeholder has in a text, so there this
cannot happen.
-/

namespace Jianpu.Macro.Expander

variable {δ : Type} {e e' m : Expander δ} {t : Token} {ts us pattern : List Token} {level n : Nat}

/-! ## The tokens ahead -/

/-- The tokens that plain reads give up to the end mark. -/
def upcoming (e : Expander δ) : List Token :=
  if h : e.nextRaw.1.isEof then []
  else
    have hlt : e.nextRaw.2.remaining < e.remaining := remaining_nextRaw_lt e (by simpa using h)
    e.nextRaw.1 :: e.nextRaw.2.upcoming
termination_by e.remaining

theorem upcoming_of_eof (h : e.nextRaw.1.isEof = true) : e.upcoming = [] := by
  rw [upcoming, dif_pos h]

theorem upcoming_of_nextRaw (h : e.nextRaw.1.isEof = false) :
    e.upcoming = e.nextRaw.1 :: e.nextRaw.2.upcoming := by
  rw [upcoming, dif_neg (by simp [h])]

theorem upcoming_congr (h : e.nextRaw = m.nextRaw) : e.upcoming = m.upcoming := by
  cases heof : m.nextRaw.1.isEof with
  | true => rw [upcoming_of_eof heof, upcoming_of_eof (by rw [h, heof])]
  | false => rw [upcoming_of_nextRaw heof, upcoming_of_nextRaw (by rw [h, heof]), h]

/-- An expander that has not read yet has the tokens of its source ahead. -/
theorem upcoming_of_sources {endless : Option Position} (hpeeked : e.peeked = none)
    (h : e.stack.sources = [⟨ts, endless⟩]) : e.upcoming = ts.takeWhile (!·.isEof) := by
  induction ts generalizing e with
  | nil =>
    refine upcoming_of_eof ?_
    rw [nextRaw_of_peeked_eq_none hpeeked]
    obtain ⟨scopes, ⟨sources, size, hsize⟩, peeked, reported, remarked, limit, position⟩ := e
    obtain rfl : sources = [⟨[], endless⟩] := h
    cases endless <;> rfl
  | cons t ts ih =>
    obtain ⟨hnext, hsources⟩ := nextRaw_of_sources hpeeked h
    cases heof : t.isEof with
    | true => rw [upcoming_of_eof (by rw [hnext, heof]),
        List.takeWhile_cons_of_neg (by simp [heof])]
    | false =>
      rw [upcoming_of_nextRaw (by rw [hnext, heof]), List.takeWhile_cons_of_pos (by simp [heof]),
        hnext, ih (peeked_nextRaw e) hsources]

/-! ## Reports about braces -/

/-- Only braces that do not match are reported. -/
def AboutBraces (log : List Diagnostic) : Prop :=
  ∀ d ∈ log, d.cause = .closingWithoutOpening ∨ d.cause = .missingClosing

/-- All that is reported between two states is about braces. -/
def Notes (e e' : Expander δ) : Prop :=
  ∃ log, e'.reported = log ++ e.reported ∧ AboutBraces log

namespace Notes

theorem of_eq (h : e'.reported = e.reported) : e.Notes e' := ⟨[], h, by simp [AboutBraces]⟩

theorem trans (h : e.Notes m) (h' : m.Notes e') : e.Notes e' := by
  obtain ⟨log, heq, hlog⟩ := h
  obtain ⟨log', heq', hlog'⟩ := h'
  refine ⟨log' ++ log, by rw [heq', heq, List.append_assoc], fun d hd => ?_⟩
  exact (List.mem_append.1 hd).elim (hlog' d) (hlog d)

end Notes

theorem notes_track (e : Expander δ) (t : Token) : e.Notes (e.track t) := by
  unfold track
  split
  · exact .of_eq rfl
  · split
    · exact .of_eq rfl
    · exact ⟨[_], rfl, by simp [AboutBraces]⟩
  · split
    · exact ⟨[_], rfl, by simp [AboutBraces]⟩
    · exact .of_eq rfl
  · exact .of_eq rfl

theorem notes_nextRaw (e : Expander δ) : e.Notes e.nextRaw.2 := by
  unfold nextRaw
  split
  · exact .of_eq rfl
  · exact (Notes.of_eq (reported_pull e)).trans (notes_track ..)

/-! ## Taking tokens -/

/-- Reads take the tokens `ts` off those ahead. -/
structure Took (e : Expander δ) (ts : List Token) (e' : Expander δ) : Prop where
  upcoming : e.upcoming = ts ++ e'.upcoming
  notes : e.Notes e'

namespace Took

theorem refl (e : Expander δ) : e.Took [] e := ⟨rfl, .of_eq rfl⟩

theorem trans (h : e.Took ts m) (h' : m.Took us e') : e.Took (ts ++ us) e' :=
  ⟨by rw [h.upcoming, h'.upcoming, List.append_assoc], h.notes.trans h'.notes⟩

theorem matched (h : e.Took ts e') (he : matched e.upcoming = true) :
    matched e'.upcoming = true := by
  rw [h.upcoming] at he
  clear h
  induction ts with
  | nil => exact he
  | cons t ts ih => exact ih (matched_cons_iff.1 he).2

end Took

theorem took_nextRaw (h : e.nextRaw.1.isEof = false) : e.Took [e.nextRaw.1] e.nextRaw.2 :=
  ⟨upcoming_of_nextRaw h, notes_nextRaw e⟩

theorem took_peekRaw (e : Expander δ) : e.Took [] e.peekRaw.2 :=
  ⟨upcoming_congr (nextRaw_looked e).symm, (notes_nextRaw e).trans (.of_eq rfl)⟩

theorem took_groupRestRaw (h : closesWithin level e.upcoming = true) :
    e.Took (groupRestRaw level e).1 (groupRestRaw level e).2 ∧
      Closes level (groupRestRaw level e).1 := by
  fun_induction groupRestRaw level e with
  | case1 level e r hend =>
    rw [upcoming_of_eof hend] at h
    cases h
  | case2 level e r hend hlt hl =>
    exact ⟨took_nextRaw (by simpa using hend), .last hl⟩
  | case3 level e r hend hlt level' hl g ih =>
    have heof : e.nextRaw.1.isEof = false := by simpa using hend
    rw [upcoming_of_nextRaw heof] at h
    obtain ⟨htook, hcloses⟩ := ih ((closesWithin_cons_iff.1 h).2 level' hl)
    exact ⟨(took_nextRaw heof).trans htook, .more heof hl hcloses⟩

/-- A token with its group is a unit. -/
theorem took_groupRaw (heof : e.nextRaw.1.isEof = false) (h : matched e.upcoming = true) :
    e.Took (groupRaw e.nextRaw.1 e.nextRaw.2).1 (groupRaw e.nextRaw.1 e.nextRaw.2).2 ∧
      IsUnit (groupRaw e.nextRaw.1 e.nextRaw.2).1 ∧
      (groupRaw e.nextRaw.1 e.nextRaw.2).1.head? = some e.nextRaw.1 := by
  unfold groupRaw
  split
  · rename_i ht
    rw [upcoming_of_nextRaw heof] at h
    obtain ⟨htook, hcloses⟩ := took_groupRestRaw ((matched_cons_iff.1 h).1 ht)
    exact ⟨(took_nextRaw heof).trans htook, .group ht hcloses, rfl⟩
  · exact ⟨took_nextRaw heof, .token ‹_›, rfl⟩

theorem took_untilDelimiter (delimiter : String) (h : matched e.upcoming = true) :
    e.Took (untilDelimiter delimiter e).1 (untilDelimiter delimiter e).2 ∧
      (∃ units, UnitsBefore delimiter units ∧ (untilDelimiter delimiter e).1 = units.flatten) ∧
      stopsAt delimiter (untilDelimiter delimiter e).2.upcoming = true := by
  have hlooked : ∀ e : Expander δ,
      upcoming { e.nextRaw.2 with peeked := some e.nextRaw.1 } = e.upcoming :=
    fun e => upcoming_congr (nextRaw_looked e)
  fun_induction untilDelimiter delimiter e with
  | case1 e r hend =>
    refine ⟨took_peekRaw e, ⟨[], by simp [UnitsBefore], rfl⟩, ?_⟩
    rw [hlooked, upcoming_of_eof hend]
    rfl
  | case2 e r hend htext =>
    refine ⟨took_peekRaw e, ⟨[], by simp [UnitsBefore], rfl⟩, ?_⟩
    rw [hlooked, upcoming_of_nextRaw (by simpa using hend)]
    simpa [stopsAt] using htext
  | case3 e r hend htext g hlt rest ih =>
    obtain ⟨htook, hunit, hhead⟩ := took_groupRaw (by simpa using hend) h
    obtain ⟨hrest, ⟨units, hunits, hflatten⟩, hstop⟩ := ih (htook.matched h)
    refine ⟨htook.trans hrest, ⟨g.1 :: units, ?_, ?_⟩, hstop⟩
    · refine List.forall_mem_cons.2 ⟨⟨hunit, ?_⟩, hunits⟩
      rw [startsWith, hhead]
      simpa using htext
    · rw [List.flatten_cons, ← hflatten]

/-! ## Matching a pattern -/

/-- The call is reported, once. -/
def Refused (name : String) (e e' : Expander δ) : Prop :=
  ∃ cause span log, e'.reported = ⟨cause, span⟩ :: (log ++ e.reported) ∧ AboutBraces log ∧
    (cause = .callMismatch name ∨ cause = .callCutShort name)

theorem Notes.refused {name : String} {cause : Cause} (h : e.Notes m) (span : Span)
    (hcause : cause = .callMismatch name ∨ cause = .callCutShort name) :
    Refused name e (m.report cause span) := by
  obtain ⟨log, heq, hlog⟩ := h
  exact ⟨cause, span, log, congrArg _ heq, hlog, hcause⟩

theorem Refused.of_notes {name : String} (h' : Refused name m e') (h : e.Notes m) :
    Refused name e e' := by
  obtain ⟨log, heq, hlog⟩ := h
  obtain ⟨cause, span, log', heq', hlog', hcause⟩ := h'
  refine ⟨cause, span, log' ++ log, by rw [heq', heq, List.append_assoc], fun d hd => ?_, hcause⟩
  exact (List.mem_append.1 hd).elim (hlog' d) (hlog d)

/-- No match of the pattern is ahead. -/
def NoMatch (pattern : List Token) (e : Expander δ) : Prop :=
  ∀ ts args rest, Matches pattern ts args → e.upcoming ≠ ts ++ rest

namespace NoMatch

variable {f delimiter : Token}

/-- A literal is not matched at the end, nor by a token of another text. -/
theorem of_head (hf : f.isParam = false) (h : startsWith f.text e.upcoming = false) :
    e.NoMatch (f :: pattern) := by
  intro ts args rest hmatches heq
  rw [heq, hmatches.startsWith_append hf rest] at h
  cases h

theorem of_literal (hf : f.isParam = false) (htook : e.Took [t] m) (h : m.NoMatch pattern) :
    e.NoMatch (f :: pattern) := by
  intro ts args rest hmatches heq
  rw [htook.upcoming] at heq
  cases hmatches with
  | literal _ _ hmatches => exact h _ _ _ hmatches (List.cons.inj heq).2
  | unit hf' => simp [hf] at hf'
  | units hf' => simp [hf] at hf'

/-- At the end there is nothing that a placeholder could stand for. -/
theorem of_nil (hf : f.isParam = true) (h : e.upcoming = []) : e.NoMatch (f :: pattern) := by
  intro ts args rest hmatches heq
  rw [h] at heq
  obtain ⟨rfl, -⟩ := List.append_eq_nil_iff.1 heq.symm
  generalize hts : ([] : List Token) = ts at hmatches
  cases hmatches with
  | literal hf' => simp [hf] at hf'
  | unit _ _ hunit => exact hunit.ne_nil (List.append_eq_nil_iff.1 hts.symm).1
  | units _ _ hne hunits => exact hunits.flatten_ne_nil hne (List.append_eq_nil_iff.1 hts.symm).1

theorem of_unit (hf : f.isParam = true) (hhead : pattern.head?.all (·.isParam) = true)
    (hunit : IsUnit us) (htook : e.Took us m) (h : m.NoMatch pattern) :
    e.NoMatch (f :: pattern) := by
  intro ts args rest hmatches heq
  rw [htook.upcoming] at heq
  cases hmatches with
  | literal hf' => simp [hf] at hf'
  | unit _ _ hunit' hmatches =>
    rw [List.append_assoc] at heq
    exact h _ _ _ hmatches (hunit.append_inj hunit' heq).2
  | units _ hd => simp [hd] at hhead

theorem of_units {units : List (List Token)} (hf : f.isParam = true)
    (hd : delimiter.isParam = false) (hunits : UnitsBefore delimiter.text units)
    (htook : e.Took units.flatten m) (hstop : stopsAt delimiter.text m.upcoming = true)
    (h : units.flatten = [] ∨ m.NoMatch (delimiter :: pattern)) :
    e.NoMatch (f :: delimiter :: pattern) := by
  intro ts args rest hmatches heq
  rw [htook.upcoming] at heq
  cases hmatches with
  | literal hf' => simp [hf] at hf'
  | unit _ hhead => simp [hd] at hhead
  | units _ _ hne hunits' hmatches =>
    rw [List.append_assoc] at heq
    obtain ⟨hflatten, hrest⟩ := hunits.append_inj hunits' hstop
      (stopsAt_of_startsWith (hmatches.startsWith_append hd _)) heq
    rcases h with hnil | h
    · rw [hnil] at hflatten
      exact hunits'.flatten_ne_nil hne hflatten.symm
    · exact h _ _ _ hmatches hrest

end NoMatch

/-- The pattern is matched if and only if the tokens ahead begin with a match, which is then what is
taken. -/
def Binds (name : String) (pattern : List Token) (n : Nat) (bound : Arguments) (e : Expander δ) :
    Prop :=
  (∃ ts args e', matchPattern name pattern bound e = (some (bound.bindFrom n args), e') ∧
    Matches pattern ts args ∧ e.Took ts e') ∨
  ∃ e', matchPattern name pattern bound e = (none, e') ∧ Refused name e e' ∧ e.NoMatch pattern

section Steps

variable {name : String} {bound : Arguments} {f : Token}

theorem binds_literal (hf : f.isParam = false) (h : matched e.upcoming = true)
    (ih : ∀ m : Expander δ, matched m.upcoming = true → Binds name pattern n bound m) :
    Binds name (f :: pattern) n bound e := by
  have hnotes := notes_nextRaw e
  rw [Binds, matchPattern, slot?_eq_none_iff.2 hf]
  dsimp only
  split
  · rename_i hend
    refine .inr ⟨_, rfl, hnotes.refused _ (.inr rfl), .of_head hf ?_⟩
    rw [upcoming_of_eof hend]
    rfl
  · rename_i hend
    have htook := took_nextRaw (by simpa using hend : e.nextRaw.1.isEof = false)
    split
    · rename_i htext
      refine .inr ⟨_, rfl, hnotes.refused _ (.inl rfl), .of_head hf ?_⟩
      rw [htook.upcoming]
      simpa [startsWith] using htext
    · rename_i htext
      rcases ih _ (htook.matched h) with
        ⟨ts, args, e', heq, hmatches, hrest⟩ | ⟨e', heq, hrefused, hno⟩
      · exact .inl ⟨_, args, e', heq, .literal hf (Decidable.not_not.1 htext) hmatches,
          htook.trans hrest⟩
      · exact .inr ⟨e', heq, hrefused.of_notes hnotes, hno.of_literal hf htook⟩

theorem binds_unit (hf : f.kind = .param (some (n + 1)))
    (hhead : pattern.head?.all (·.isParam) = true) (h : matched e.upcoming = true)
    (ih : ∀ bound (m : Expander δ), matched m.upcoming = true →
      Binds name pattern (n + 1) bound m) :
    Binds name (f :: pattern) n bound e := by
  have hparam : f.isParam = true := by simp [Token.isParam, hf]
  have hslot : slot? f = some ((n + 1) % 10) := by simp [slot?, hf]
  have hnone : pattern.head?.filter (!·.isParam) = none := by
    cases pattern with
    | nil => rfl
    | cons g pattern => simpa [Option.filter_some] using hhead
  rw [Binds, matchPattern, hslot, hnone]
  dsimp only
  split
  · rename_i hend
    exact .inr ⟨_, rfl, (notes_nextRaw e).refused _ (.inr rfl),
      .of_nil hparam (upcoming_of_eof hend)⟩
  · rename_i hend
    obtain ⟨htook, hunit, -⟩ := took_groupRaw (by simpa using hend) h
    rcases ih (bound.bind ((n + 1) % 10) _) _ (htook.matched h) with
      ⟨ts, args, e', heq, hmatches, hrest⟩ | ⟨e', heq, hrefused, hno⟩
    · exact .inl ⟨_, _ :: args, e', heq, .unit hparam hhead hunit hmatches, htook.trans hrest⟩
    · exact .inr ⟨e', heq, hrefused.of_notes htook.notes, hno.of_unit hparam hhead hunit htook⟩

theorem binds_units {delimiter : Token} (hf : f.kind = .param (some (n + 1)))
    (hd : delimiter.isParam = false) (h : matched e.upcoming = true)
    (ih : ∀ bound (m : Expander δ), matched m.upcoming = true →
      Binds name (delimiter :: pattern) (n + 1) bound m) :
    Binds name (f :: delimiter :: pattern) n bound e := by
  have hparam : f.isParam = true := by simp [Token.isParam, hf]
  have hslot : slot? f = some ((n + 1) % 10) := by simp [slot?, hf]
  have hsome : (delimiter :: pattern).head?.filter (!·.isParam) = some delimiter := by
    simp [Option.filter_some, hd]
  obtain ⟨htook, ⟨units, hunits, hflatten⟩, hstop⟩ := took_untilDelimiter delimiter.text h
  rw [hflatten] at htook
  rw [Binds, matchPattern, hslot, hsome]
  dsimp only
  rw [hflatten]
  split
  · rename_i hempty
    refine .inr ⟨_, rfl, (htook.notes.trans (notes_nextRaw _)).refused _ (.inl rfl), ?_⟩
    exact .of_units hparam hd hunits htook hstop (.inl (List.isEmpty_iff.1 hempty))
  · rename_i hempty
    have hne : units ≠ [] := by
      rintro rfl
      exact hempty rfl
    rcases ih (bound.bind ((n + 1) % 10) _) _ (htook.matched h) with
      ⟨ts, args, e', heq, hmatches, hrest⟩ | ⟨e', heq, hrefused, hno⟩
    · exact .inl ⟨_, _ :: args, e', heq, .units hparam hd hne hunits hmatches, htook.trans hrest⟩
    · exact .inr ⟨e', heq, hrefused.of_notes htook.notes,
        .of_units hparam hd hunits htook hstop (.inr hno)⟩

end Steps

theorem matchPattern_binds (name : String) (hpattern : Numbered n pattern) (bound : Arguments)
    (h : matched e.upcoming = true) : Binds name pattern n bound e := by
  induction pattern generalizing n bound e with
  | nil => exact .inl ⟨[], [], e, rfl, .nil, .refl e⟩
  | cons f pattern ih =>
    cases hf : f.isParam with
    | false =>
      rw [Numbered, hf, if_neg (by simp)] at hpattern
      exact binds_literal hf h fun m => ih hpattern bound
    | true =>
      rw [Numbered, hf, if_pos rfl] at hpattern
      obtain ⟨hkind, hrest⟩ := hpattern
      have ih := fun bound (m : Expander δ) => ih (e := m) hrest bound
      cases hhead : pattern.head?.all (·.isParam) with
      | true => exact binds_unit hkind hhead h ih
      | false =>
        cases pattern with
        | nil => cases hhead
        | cons delimiter pattern => exact binds_units hkind hhead h ih

/-! ## Calls -/

/-- What replaces a call, and the expander after the call has taken its arguments. -/
def resolve (e : Expander δ) (call : Token) (d : Definition) : Option (List Token) × Expander δ :=
  let r := matchPattern d.name d.pattern .empty e
  (r.1.map (replacement call · d.body), r.2)

/-- A call is resolved, and what replaces it becomes a source, unless there are too many. -/
theorem expand_eq_resolve (e : Expander δ) (call : Token) (d : Definition) :
    e.expand call d = match e.resolve call d with
      | (none, e) => e
      | (some ts, e) =>
        if e.stack.size ≥ e.limit then
          let e := e.remark .trace
            ("expansion of " ++ d.name ++ " abandoned at depth " ++ e.stack.size.repr)
          let e := e.report .nestingExceeded call.span
          { e with stack := e.stack.bottom }
        else { e with stack := e.stack.push (.ofTokens ts) } := by
  unfold expand resolve
  cases matchPattern d.name d.pattern .empty e with
  | mk args m => cases args <;> rfl

/-! ## Definitions -/

/-- A definition is read without a report, and stored. -/
structure Defines (e : Expander δ) (everywhere : Bool) (d : Definition) : Prop where
  quiet : (e.define everywhere).reported = e.reported
  stored : ∃ scopes : Scopes δ,
    (e.define everywhere).scopes = scopes.define e.nextRaw.1.text (.user d) everywhere

/-- Where nothing is reported in the end, nothing was in between. -/
theorem Grows.eq_of_eq (h : e.Grows m) (h' : m.Grows e') (heq : e'.reported = e.reported) :
    m.reported = e.reported := by
  unfold Grows at h h'
  rw [heq] at h'
  exact h'.eq_of_length_le h.length_le

theorem Grows.reported_report_ne (h : e.Grows m) (c : Cause) (s : Span) :
    (m.report c s).reported ≠ e.reported := by
  intro heq
  have hlength := congrArg List.length heq
  rw [Expander.report, List.length_cons] at hlength
  exact absurd h.length_le (by omega)

theorem numbered_readPattern {count : Nat} (h : (readPattern count e).2.reported = e.reported) :
    Numbered count (readPattern count e).1.1 ∧
      (readPattern count e).1.2.1 = count + (readPattern count e).1.1.countP (·.isParam) := by
  fun_induction readPattern count e with
  | case1 count e r hend => exact ⟨trivial, rfl⟩
  | case2 count e r hend hopening => exact ⟨trivial, rfl⟩
  | case3 count e r hend hopening hlt count' bad rest ih =>
    have hnext := grows_nextRaw e
    have hreportIf : e.Grows (r.2.reportIf bad .parameterOrder r.1.span) := by
      cases bad with
      | false => exact hnext
      | true => exact hnext.report ..
    have hquiet := hreportIf.eq_of_eq (grows_readPattern count' _) h
    have hbad : bad = false := by
      cases hb : bad with
      | false => rfl
      | true =>
        rw [hb] at hquiet
        exact absurd hquiet (hnext.reported_report_ne _ _)
    obtain ⟨hnumbered, hcount⟩ := ih (h.trans hquiet.symm)
    refine ⟨?_, hcount.trans ?_⟩
    · rw [Numbered]
      cases hparam : r.1.isParam with
      | false =>
        have hsame : count' = count := by simp [count', hparam]
        rw [if_neg (by simp), ← hsame]
        exact hnumbered
      | true =>
        have hsucc : count' = count + 1 := by simp [count', hparam]
        have hkind : r.1.kind = .param (some count') := by simpa [bad, hparam] using hbad
        rw [if_pos rfl, ← hsucc]
        exact ⟨hkind, hnumbered⟩
    · cases hparam : r.1.isParam with
      | false => simp [count', rest, hparam]
      | true =>
        simp [count', rest, hparam]
        omega

theorem define_inj {s s' : Scopes δ} {name : String} {b b' : Binding δ} {everywhere : Bool}
    (h : s.define name b everywhere = s'.define name b' everywhere) : b = b' := by
  have hinsert : ∀ {f f' : Frame δ}, f.insert name b = f'.insert name b' → b = b' := fun h =>
    (Prod.mk.inj (List.cons.inj h).1).2
  unfold Scopes.define at h
  obtain ⟨inner, global⟩ := s
  obtain ⟨inner', global'⟩ := s'
  cases everywhere with
  | true => exact hinsert (Scopes.mk.inj h).2
  | false =>
    cases inner with
    | nil =>
      cases inner' with
      | nil => exact hinsert (Scopes.mk.inj h).2
      | cons => cases (Scopes.mk.inj h).1
    | cons =>
      cases inner' with
      | nil => cases (Scopes.mk.inj h).1
      | cons => exact hinsert (List.cons.inj (Scopes.mk.inj h).1).1

namespace Defines

variable {everywhere : Bool} {d : Definition}

/-- The placeholders of a definition are numbered one after another, and those of its body are among
them. -/
theorem numbered (h : e.Defines everywhere d) : Numbered 0 d.pattern ∧
    ∀ t ∈ d.body, legal (d.pattern.countP (·.isParam)) t = true := by
  obtain ⟨hquiet, scopes, hstored⟩ := h
  have hname := grows_nextRaw e
  have hpattern := hname.trans (grows_readPattern 0 _)
  unfold define at hquiet hstored
  dsimp only at hquiet hstored
  split at hquiet
  · exact absurd hquiet (hname.reported_report_ne _ _)
  · rename_i hcontrol
    rw [if_neg hcontrol] at hstored
    split at hquiet
    · exact absurd hquiet (hpattern.reported_report_ne _ _)
    · rename_i hopening
      rw [if_neg hopening] at hstored
      rw [foldl_report] at hquiet
      have hsuffix := List.IsSuffix.trans (grows_groupRaw ..) ⟨_, hquiet⟩
      have hread := hsuffix.eq_of_length_le hpattern.length_le
      have hfirst := hname.eq_of_eq (grows_readPattern 0 _) hread
      obtain ⟨hnumbered, hcount⟩ := numbered_readPattern (hread.trans hfirst.symm)
      obtain rfl := Binding.user.inj (define_inj hstored)
      refine ⟨hnumbered, fun t ht => ?_⟩
      rw [← Nat.zero_add (List.countP ..), ← hcount]
      exact (List.mem_filter.1 ht).2

end Defines

/-! ## What a call comes to -/

/-- **A call is replaced exactly if a match of its pattern is ahead.** It takes the match and no
more, and its arguments stand in the stead of the placeholders; with up to ten of them each is
replaced by its own argument. Otherwise the call is reported, once. -/
theorem resolve_binds {e₀ : Expander δ} {everywhere : Bool} {d : Definition}
    (hd : e₀.Defines everywhere d) (call : Token) (e : Expander δ)
    (h : matched e.upcoming = true) :
    (∀ ts args rest, Matches d.pattern ts args → e.upcoming = ts ++ rest →
      ∃ e', e.resolve call d = (some (inPlaceOf call (spliced (argument args) d.body)), e') ∧
        (args.length ≤ 10 → spliced (argument args) d.body =
          spliced (fun k => args.getD (k - 1) []) d.body) ∧
        e'.upcoming = rest ∧ e.Notes e') ∧
    (e.NoMatch d.pattern → ∃ e', e.resolve call d = (none, e') ∧ Refused d.name e e') ∧
    (e.peeked = none → (e.resolve call d).2.peeked = none) := by
  obtain ⟨hpattern, hbody⟩ := hd.numbered
  have hbinds := matchPattern_binds d.name hpattern .empty h
  refine ⟨fun ts args rest hmatches hup => ?_, fun hno => ?_, fun hpeeked => ?_⟩
  · rw [← hmatches.length_args] at hbody
    rcases hbinds with ⟨ts', args', e', heq, hmatches', htook⟩ | ⟨e', -, -, hno⟩
    · obtain ⟨-, rfl, hrest⟩ := hmatches.unique hmatches' (hup.symm.trans htook.upcoming)
      refine ⟨e', ?_, fun hten => spliced_congr fun t ht k hk => ?_, hrest.symm, htook.notes⟩
      · rw [resolve, heq, ← replacement_bindFrom call args hbody]
        rfl
      · have hlegal := hbody t ht
        rw [legal, hk] at hlegal
        exact argument_of_length_le hten (by simp at hlegal; omega)
    · exact absurd hup (hno _ _ _ hmatches)
  · rcases hbinds with ⟨ts, args, e', -, hmatches, htook⟩ | ⟨e', heq, hrefused, -⟩
    · exact absurd htook.upcoming (hno _ _ _ hmatches)
    · exact ⟨e', by rw [resolve, heq]; rfl, hrefused⟩
  · exact peeked_matchPattern d.name .empty (.inl hpeeked)

/-- An argument up to a point, and one more, in the other order. -/
def swap : Definition where
  name := "\\a"
  pattern := [⟨.param (some 1), "#1", {}, false⟩, ⟨.other, ".", {}, false⟩,
    ⟨.param (some 2), "#2", {}, false⟩]
  body := [⟨.param (some 2), "#2", {}, false⟩, ⟨.param (some 1), "#1", {}, true⟩]

/-- The definition as it stands in a source, after the command that reads it. -/
def written (d : Definition) : Expander Unit :=
  ofSource (.ofTokens (⟨.control, d.name, {}, false⟩ :: (d.pattern ++
    ⟨.opening, "\x7b", {}, false⟩ :: (d.body ++ [⟨.closing, "\x7d", {}, false⟩])))) .builtin 100

/-- The point within the group does not end the first argument. -/
theorem resolve_swap :
    let group := [⟨.opening, "\x7b", {}, true⟩, ⟨.other, ".", {}, false⟩,
      ⟨.closing, "\x7d", {}, false⟩]
    let x : Token := ⟨.other, "x", {}, true⟩
    let point : Token := ⟨.other, ".", {}, false⟩
    let y : Token := ⟨.other, "y", {}, false⟩
    let e : Expander Unit := ofSource (.ofTokens (group ++ [x, point, y, x])) .builtin 100
    (written swap).Defines false swap ∧ matched e.upcoming = true ∧
      ∃ e', e.resolve ⟨.control, "\\a", {}, true⟩ swap =
        (some ({ y with spaced := true } :: (group ++ [x])), e') ∧ e'.upcoming = [x] := by
  intro group x point y e
  have hdefines : (written swap).Defines false swap :=
    ⟨by decide +kernel, .builtin, by decide +kernel⟩
  have hup : e.upcoming = group ++ [x, point, y, x] :=
    (upcoming_of_sources (e := e) rfl rfl).trans (by decide)
  have hmatched : matched e.upcoming = true := by rw [hup]; decide
  have hunits : UnitsBefore "." [group, [x]] := by
    refine List.forall_mem_cons.2 ⟨⟨.group rfl (.more rfl rfl (.last rfl)), by decide⟩, ?_⟩
    exact List.forall_mem_singleton.2 ⟨.token (by simp [x]), by decide⟩
  have hmatches : Matches swap.pattern ((([group, [x]].flatten) ++ [point, y]))
      [group ++ [x], [y]] :=
    .units rfl rfl (by simp) hunits (.literal rfl rfl (.unit rfl rfl (.token (by simp [y])) .nil))
  obtain ⟨e', heq, -, hrest, -⟩ := (resolve_binds hdefines ⟨.control, "\\a", {}, true⟩ e hmatched).1
    _ _ [x] hmatches hup
  have hspliced : inPlaceOf ⟨.control, "\\a", {}, true⟩
      (spliced (argument [group ++ [x], [y]]) swap.body) =
        { y with spaced := true } :: (group ++ [x]) := by decide
  rw [hspliced] at heq
  exact ⟨hdefines, hmatched, e', heq, hrest⟩

/-- Eleven placeholders in a row, the first of which is the body. -/
def eleven : Definition where
  name := "\\a"
  pattern := (List.range' 1 11).map fun k => ⟨.param (some k), "#", {}, false⟩
  body := [⟨.param (some 1), "#", {}, false⟩]

/-- **An eleventh placeholder takes the place of the first**: the body comes to the last
argument. -/
theorem resolve_eleven :
    let ts := (List.range' 1 11).map fun k => (⟨.other, k.repr, {}, false⟩ : Token)
    let e : Expander Unit := ofSource (.ofTokens ts) .builtin 100
    (written eleven).Defines false eleven ∧ matched e.upcoming = true ∧
      Matches eleven.pattern e.upcoming (ts.map fun t => [t]) ∧
      (e.resolve ⟨.control, "\\a", {}, false⟩ eleven).1 = some [⟨.other, "11", {}, false⟩] ∧
      inPlaceOf ⟨.control, "\\a", {}, false⟩
        (spliced (fun k => (ts.map fun t => [t]).getD (k - 1) []) eleven.body) =
          [⟨.other, "1", {}, false⟩] := by
  intro ts e
  have hup : e.upcoming = ts := (upcoming_of_sources (e := e) rfl rfl).trans (by decide)
  rw [hup]
  exact ⟨⟨by decide +kernel, .builtin, by decide +kernel⟩, by decide,
    .tokens (by decide) (by decide) rfl, by decide +kernel, by decide +kernel⟩

end Jianpu.Macro.Expander
