import Jianpu.Proofs.Macro.Moves
import Jianpu.Proofs.Token.Scanned

/-!
# Braces of what is delivered

The braces that an expander delivers and those that definitions and calls take all open and close
the same frames. While nothing is reported, definitions and calls take whole groups and single
tokens (`Pieces`), so all that they do to the frames is to close some by braces that stand outside
the groups they take (`strays`). A text on which nothing is reported therefore never delivers a
brace that closes nothing, but as many braces are left open as such braces were taken:
`untilEof_openings`.
-/

namespace Jianpu

/-- The brace that opens a group, and no other token, has its text. -/
def Token.Spelled (t : Token) : Prop := t.kind = .opening ↔ t.text = "\x7b"

namespace Macro.Expander

variable {δ : Type} {e e' m : Expander δ} {t : Token} {ts us : List Token} {level fuel : Nat}

/-! ## Counting braces -/

/-- The number of opening braces. -/
def openings (ts : List Token) : Nat := ts.countP (·.kind = .opening)

/-- The number of closing braces. -/
def closings (ts : List Token) : Nat := ts.countP (·.kind = .closing)

/-- The number of closing braces that close none of the tokens, nor one of the `level` that are open
before them. -/
def strays : Nat → List Token → Nat
  | _, [] => 0
  | level, t :: ts =>
    match levelAfter t.kind level with
    | some level => strays level ts
    | none => strays 0 ts + 1

theorem openings_cons (t : Token) (ts : List Token) :
    openings (t :: ts) = openings [t] + openings ts := by
  rw [openings, ← List.singleton_append, List.countP_append, ← openings, ← openings]

theorem closings_cons (t : Token) (ts : List Token) :
    closings (t :: ts) = closings [t] + closings ts := by
  rw [closings, ← List.singleton_append, List.countP_append, ← closings, ← closings]

theorem add_closings_of_levelAfter {level' : Nat} (h : levelAfter t.kind level = some level') :
    level' + closings [t] = level + openings [t] := by
  cases hk : t.kind with
  | closing =>
    rw [hk] at h
    cases level with
    | zero => cases h
    | succ level =>
      obtain rfl := Option.some.inj h
      simp [closings, openings, hk]
  | eof | control | param n | opening | other =>
    rw [hk] at h
    obtain rfl := Option.some.inj h
    simp [closings, openings, hk]

theorem closings_of_levelAfter_eq_none (h : levelAfter t.kind level = none) :
    closings [t] = openings [t] + 1 := by
  simp [closings, openings, (levelAfter_eq_none_iff.1 h).1]

/-- The brace that closes a group is one more than the group opens. -/
theorem Closes.closings_eq (h : Closes level ts) : closings ts = openings ts + level + 1 := by
  induction h with
  | @last t level hl =>
    rw [closings_of_levelAfter_eq_none hl, (levelAfter_eq_none_iff.1 hl).2, Nat.add_zero]
  | @more t level level' ts _ hl _ ih =>
    have hlevel := add_closings_of_levelAfter hl
    rw [closings_cons, openings_cons, ih]
    omega

/-- No brace is left over up to the end of a group. -/
theorem Closes.strays_append (h : Closes level ts) (us : List Token) :
    strays (level + 1) (ts ++ us) = strays 0 us := by
  induction h with
  | @last t level hl =>
    obtain ⟨hk, rfl⟩ := levelAfter_eq_none_iff.1 hl
    rw [List.singleton_append, strays, hk]
    rfl
  | @more t level level' ts _ hl _ ih =>
    rw [List.cons_append, strays, levelAfter_add 1 hl]
    exact ih

/-- Of pieces, the braces outside of the groups are left over. -/
theorem Pieces.closings_eq (h : Pieces ts) : closings ts = openings ts + strays 0 ts := by
  induction h with
  | nil => rfl
  | @token t ts _ ht _ ih =>
    rw [closings_cons, openings_cons, strays, ih]
    cases hl : levelAfter t.kind 0 with
    | none =>
      rw [closings_of_levelAfter_eq_none hl]
      dsimp only
      omega
    | some level =>
      have hlevel := add_closings_of_levelAfter hl
      have hopenings : openings [t] = 0 := by simpa [openings] using ht
      obtain rfl : level = 0 := by omega
      dsimp only
      omega
  | @group t vs ts ht hvs _ ih =>
    have hl : levelAfter t.kind 0 = some 1 := by rw [ht]; rfl
    have hlevel := add_closings_of_levelAfter hl
    have happend : ∀ p : Token → Bool, (vs ++ ts).countP p = vs.countP p + ts.countP p := fun p =>
      List.countP_append
    have hclosings : closings (vs ++ ts) = closings vs + closings ts := happend _
    have hopenings : openings (vs ++ ts) = openings vs + openings ts := happend _
    rw [closings_cons, openings_cons, strays, hl]
    dsimp only
    rw [hvs.strays_append, hclosings, hopenings, hvs.closings_eq, ih]
    omega

/-! ## Frames -/

/-- As long as nothing is reported, braces open and close frames one for one. -/
theorem opened_track_add (h : (e.track t).reported = []) :
    (e.track t).opened + closings [t] = e.opened + openings [t] := by
  rw [opened_track]
  cases hk : t.kind with
  | opening | control | param n | other => simp [closings, openings, hk]
  | closing =>
    have hpos : 0 < e.opened := by
      unfold track at h
      rw [hk] at h
      cases hi : e.scopes.inner with
      | nil => simp [Scopes.leave?, hi, report] at h
      | cons f fs => simp [opened, hi]
    simp [closings, openings, hk]
    omega
  | eof =>
    have hzero : e.opened = 0 := by
      unfold track at h
      rw [hk] at h
      dsimp only at h
      split at h
      · simp [report] at h
      · simp_all [Scopes.depth, opened]
    simp [closings, openings, hk, hzero]

theorem Plainly.opened_add (h : Plainly e ts e') (hclean : e'.reported = [])
    (hpeeked : e.peeked = none) : e'.opened + closings ts = e.opened + openings ts := by
  induction h with
  | nil e => rfl
  | @cons e e' ts heof hrest ih =>
    have hrest := ih hclean (peeked_nextRaw e)
    have hfirst : e.nextRaw.2.opened + closings [e.nextRaw.1] =
        e.opened + openings [e.nextRaw.1] := by
      have hnext := (Plainly.grows ‹_›).eq_nil hclean
      rw [nextRaw_of_peeked_eq_none hpeeked] at hnext ⊢
      rw [opened_track_add hnext, opened, scopes_pull]
      rfl
    rw [closings_cons, openings_cons]
    omega

/-- What definitions and calls take closes frames by its left over braces. -/
theorem Plainly.opened_add_strays (h : Plainly e ts e') (hclean : e'.reported = [])
    (hpeeked : e.peeked = none) (hts : Pieces ts) : e'.opened + strays 0 ts = e.opened := by
  have hopened := h.opened_add hclean hpeeked
  rw [hts.closings_eq] at hopened
  omega

/-! ## Spelling -/

/-- The tokens ahead and those of definitions are spelled in one way, and no pattern has a brace
that opens a group. -/
structure Spelled (e : Expander δ) : Prop where
  ahead : ∀ t ∈ e.stack.tokens, t.Spelled
  bound : e.scopes.Each fun d => (∀ f ∈ d.pattern, f.Spelled ∧ f.kind ≠ .opening) ∧
    ∀ t ∈ d.body, t.Spelled

theorem Plainly.tokens_eq (h : Plainly e ts e') (hpeeked : e.peeked = none) :
    e.stack.tokens = ts ++ e'.stack.tokens := (h.takes hpeeked).tokens_eq

theorem Spelled.of_plainly (h : e.Spelled) (hplain : Plainly e ts e') (hpeeked : e.peeked = none) :
    e'.Spelled where
  ahead t ht := h.ahead t (by
    rw [hplain.tokens_eq hpeeked]
    exact List.mem_append_right ts ht)
  bound := hplain.each h.bound

/-- A literal is matched by its text, so that no brace opens a group where a pattern has none. -/
theorem Fits.pieces {pattern : List Token} (h : Fits pattern ts)
    (hpattern : ∀ f ∈ pattern, f.Spelled ∧ f.kind ≠ .opening) (hts : ∀ t ∈ ts, t.Spelled) :
    Pieces ts := by
  induction h with
  | nil => exact .nil
  | @literal f t pattern ts _ heof htext _ ih =>
    obtain ⟨⟨hf, hopening⟩, hpattern⟩ := List.forall_mem_cons.1 hpattern
    obtain ⟨ht, hts⟩ := List.forall_mem_cons.1 hts
    refine .token heof (fun hkind => hopening (hf.2 ?_)) (ih hpattern hts)
    rw [← htext, ht.1 hkind]
  | argument _ hus _ ih =>
    exact hus.append (ih (List.forall_mem_cons.1 hpattern).2 fun t ht =>
      hts t (List.mem_append_right _ ht))

theorem spelled_replacement {call : Token} {args : Arguments} {body : List Token}
    (hargs : ∀ i, ∀ t ∈ args i, t.Spelled) (hbody : ∀ t ∈ body, t.Spelled) :
    ∀ t ∈ replacement call args body, t.Spelled := by
  have hsubstitute : ∀ t ∈ substitute args body, t.Spelled := by
    intro t ht
    obtain ⟨b, hb, ht⟩ := List.mem_flatMap.1 ht
    split at ht
    · rename_i i _
      have harg := hargs i
      unfold withSpace at ht
      split at ht
      · cases ht
      · rename_i a as heq
        rw [heq] at harg
        rcases List.mem_cons.1 ht with rfl | ht
        · exact harg a List.mem_cons_self
        · exact harg t (List.mem_cons_of_mem a ht)
    · rw [List.mem_singleton.1 ht]
      exact hbody b hb
  intro t ht
  unfold replacement at ht
  split at ht
  · cases ht
  · rename_i a as heq
    rw [heq] at hsubstitute
    rcases List.mem_cons.1 ht with rfl | ht
    · exact hsubstitute a List.mem_cons_self
    · exact hsubstitute t (List.mem_cons_of_mem a ht)

/-! ## Calls and definitions without a report -/

theorem missing_eq_zero (h : e.reported = []) : e.missing = 0 := by
  rw [missing, h]
  rfl

theorem MeetsCut.reported_ne_nil (h : e.MeetsCut e') : e'.reported ≠ [] := by
  intro hclean
  have hlt := h.missing_lt
  rw [missing_eq_zero hclean] at hlt
  exact Nat.not_lt_zero _ hlt

theorem reported_ne_nil_of_matchPattern {name : String} {pattern : List Token} {args : Arguments}
    (h : matchPattern name pattern args e = (none, e')) : e'.reported ≠ [] := by
  induction pattern generalizing args e with
  | nil => cases h
  | cons f pattern ih =>
    rw [matchPattern] at h
    split at h
    · dsimp only at h
      split at h
      · obtain ⟨-, rfl⟩ := Prod.mk.inj h
        exact List.cons_ne_nil _ _
      · split at h
        · obtain ⟨-, rfl⟩ := Prod.mk.inj h
          exact List.cons_ne_nil _ _
        · exact ih h
    · dsimp only at h
      split at h
      · obtain ⟨-, rfl⟩ := Prod.mk.inj h
        exact List.cons_ne_nil _ _
      · exact ih h
    · dsimp only at h
      split at h
      · obtain ⟨-, rfl⟩ := Prod.mk.inj h
        exact List.cons_ne_nil _ _
      · exact ih h

/-- Pieces are taken from the tokens ahead, and what has changed besides is in order. -/
structure TakesPieces (e m e' : Expander δ) : Prop where
  pieces : ∃ ts, Plainly e ts m ∧ Pieces ts
  clean : m.reported = []
  opened : e'.opened = m.opened
  peeked : e'.peeked = none
  spelled : e'.Spelled

/-- A call on which nothing is reported takes pieces. -/
theorem takesPieces_expand {call : Token} {d : Definition} (h : (e.expand call d).reported = [])
    (hpeeked : e.peeked = none) (hs : e.Spelled) {name : String}
    (hd : e.scopes.get? name = some (.user d)) :
    e.TakesPieces (matchPattern d.name d.pattern .empty e).2 (e.expand call d) := by
  obtain ⟨hpattern, hbody⟩ := hs.bound.get? hd
  rcases expand_cases e call d with
    ⟨m, hm, heq⟩ | ⟨args, m, hm, ⟨-, remarked, heq⟩ | ⟨-, heq⟩⟩ <;> rw [heq] at h ⊢
  · exact absurd h (reported_ne_nil_of_matchPattern hm)
  · cases h
  · have hclean : m.reported = [] := h
    obtain ⟨ts, hplain, hfits, hargs⟩ := (matchPattern_cases hm inPieces_empty
      (.inl hpeeked)).resolve_right fun hcut => hcut.reported_ne_nil hclean
    have hts : ∀ t ∈ ts, t.Spelled := fun t ht => hs.ahead t (by
      rw [hplain.tokens_eq hpeeked]
      exact List.mem_append_left _ ht)
    have hafter := hs.of_plainly hplain hpeeked
    rw [hm]
    refine ⟨⟨ts, hplain, hfits.pieces hpattern hts⟩, hclean, rfl, hplain.peeked_eq_none hpeeked,
      fun t ht => ?_, hafter.bound⟩
    rcases List.mem_append.1 ht with ht | ht
    · exact spelled_replacement (fun i t ht => hts t ((hargs i).2 ht)) hbody t ht
    · exact hafter.ahead t ht

/-- A pattern on which nothing is reported is taken by plain reads, up to the brace that follows. -/
theorem readPattern_cases {count : Nat} (h : (readPattern count e).2.reported = [])
    (ht : (readPattern count e).1.2.2.kind = .opening) :
    ∃ m, Plainly e (readPattern count e).1.1 m ∧
      m.nextRaw = ((readPattern count e).1.2.2, (readPattern count e).2) ∧
      ∀ f ∈ (readPattern count e).1.1, f.isEof = false ∧ f.kind ≠ .opening := by
  fun_induction readPattern count e with
  | case1 count e r hend => exact ⟨e, .nil e, rfl, by simp⟩
  | case2 count e r hend hopening => exact ⟨e, .nil e, rfl, by simp⟩
  | case3 count e r hend hopening hlt count' bad rest ih =>
    have heof : e.nextRaw.1.isEof = false := by simpa using hend
    have hbad : r.2.reportIf bad .parameterOrder r.1.span = e.nextRaw.2 := by
      have hreported := (grows_readPattern count' _).eq_nil h
      cases hb : bad with
      | false => rfl
      | true =>
        rw [hb] at hreported
        cases hreported
    obtain ⟨m, hplain, hnext, hpattern⟩ := ih h ht
    have hrest : Plainly e.nextRaw.2 rest.1.1 m := by
      rw [← hbad]
      exact hplain
    exact ⟨m, .cons heof hrest, hnext, List.forall_mem_cons.2 ⟨⟨heof, hopening⟩, hpattern⟩⟩

theorem pieces_of_forall (h : ∀ t ∈ ts, t.isEof = false ∧ t.kind ≠ .opening) : Pieces ts := by
  induction ts with
  | nil => exact .nil
  | cons t ts ih =>
    obtain ⟨⟨heof, ht⟩, hts⟩ := List.forall_mem_cons.1 h
    exact .token heof ht (ih hts)

theorem unwrap_subset (ts : List Token) : unwrap ts ⊆ ts := by
  unfold unwrap
  split
  · exact List.Subset.refl _
  · split
    · exact List.Subset.trans (List.dropLast_subset _) (List.subset_cons_self ..)
    · exact List.subset_cons_self ..

theorem length_inner_define (s : Scopes δ) (name : String) (b : Binding δ) (everywhere : Bool) :
    (s.define name b everywhere).inner.length = s.inner.length := by
  unfold Scopes.define
  split
  · rename_i f fs hinner
    rw [hinner]
    rfl
  · rfl

/-- A definition on which nothing is reported takes pieces. -/
theorem takesPieces_define {everywhere : Bool} (h : (e.define everywhere).reported = [])
    (hpeeked : e.peeked = none) (hs : e.Spelled) :
    ∃ m, e.TakesPieces m (e.define everywhere) ∧ (e.define everywhere).stack = m.stack := by
  unfold define at h ⊢
  dsimp only at h ⊢
  split at h
  · cases h
  · rename_i hname
    rw [if_neg hname]
    split at h
    · cases h
    · rename_i ht
      have ht := Decidable.not_not.1 ht
      rw [if_neg (not_not_intro ht)]
      rw [foldl_report] at h ⊢
      obtain ⟨hillegal, hgroup⟩ := List.append_eq_nil_iff.1 h
      obtain ⟨m, hformat, hnext, hliterals⟩ :=
        readPattern_cases ((grows_groupRaw ..).eq_nil hgroup) ht
      have hnameEof : e.nextRaw.1.isEof = false := by
        simp [Token.isEof, Decidable.not_not.1 hname]
      have hm : m.peeked = none := hformat.peeked_eq_none (peeked_nextRaw e)
      have heof : m.nextRaw.1.isEof = false := by
        rw [hnext]
        simp [Token.isEof, ht]
      have hcases := groupRaw_cases hm heof
      rw [hnext] at hcases
      obtain ⟨hbody, hpieces⟩ := hcases.resolve_right fun hcut => hcut.reported_ne_nil hgroup
      have hplain := (Plainly.cons hnameEof hformat).trans hbody
      have hts := fun t ht => hs.ahead t (by
        rw [hplain.tokens_eq hpeeked]
        exact List.mem_append_left _ ht)
      have hg := hs.of_plainly hplain hpeeked
      refine ⟨_, ⟨⟨_, hplain, ?_⟩, hgroup, length_inner_define .., ?_, hg.ahead, ?_⟩, rfl⟩
      · exact .token hnameEof (fun hk => hname (by simp [hk]))
          ((pieces_of_forall hliterals).append hpieces)
      · exact hplain.peeked_eq_none hpeeked
      · refine hg.bound.define ⟨fun f hf => ⟨?_, (hliterals f hf).2⟩, fun t ht => ?_⟩ _ _
        · exact hts f (List.mem_cons_of_mem _ (List.mem_append_left _ hf))
        · exact hts t (List.mem_cons_of_mem _ (List.mem_append_right _
            (unwrap_subset _ (List.mem_filter.1 ht).1)))

/-! ## Whole runs -/

/-- The tokens that were taken between two states. -/
def taken (e e' : Expander δ) : List Token :=
  e.stack.tokens.take (e.stack.tokens.length - e'.stack.tokens.length)

theorem Plainly.taken_eq (h : Plainly e ts m) (hpeeked : e.peeked = none)
    (hstack : e'.stack = m.stack) : e.taken e' = ts := by
  rw [taken, hstack, h.tokens_eq hpeeked, List.length_append, Nat.add_sub_cancel_right,
    List.take_left]

/-- The braces left over of all that definitions and calls take before the next token. -/
def strayRead : Nat → Expander δ → Nat
  | 0, _ => 0
  | fuel + 1, e =>
    let r := e.pull
    if r.1.kind = .control then
      match r.2.scopes.get? r.1.text with
      | some (.directive _) => 0
      | some (.define everywhere) =>
        let e := r.2.define everywhere
        strays 0 (r.2.taken e) + strayRead fuel e
      | some (.user d) =>
        strays 0 (r.2.taken (matchPattern d.name d.pattern .empty r.2).2) +
          strayRead fuel (r.2.expand r.1 d)
      | none => strayRead fuel (r.2.report (.undefinedControl r.1.text) r.1.span)
    else 0

/-- The braces left over of all that definitions and calls take up to the first end mark. -/
def strayUntilEof : Nat → Expander δ → Nat
  | 0, _ => 0
  | fuel + 1, e =>
    match e.next fuel with
    | none => 0
    | some (t, e') => e.strayRead fuel + if t.isEof then 0 else strayUntilEof fuel e'

theorem TakesPieces.opened_add {s e₁ : Expander δ} (h : s.TakesPieces m e₁)
    (hpeeked : s.peeked = none) (hstack : e'.stack = m.stack) :
    e₁.opened + strays 0 (s.taken e') = s.opened := by
  obtain ⟨ts, hplain, hpieces⟩ := h.pieces
  rw [hplain.taken_eq hpeeked hstack, h.opened]
  exact hplain.opened_add_strays h.clean hpeeked hpieces

theorem spelled_pull (hs : e.Spelled) (heof : e.pull.1.isEof = false) : e.pull.2.Spelled where
  ahead t ht := by
    have htokens : e.stack.tokens = e.pull.1 :: e.pull.2.stack.tokens := (takes_pull heof).tokens_eq
    refine hs.ahead t ?_
    rw [htokens]
    exact List.mem_cons_of_mem _ ht
  bound := by
    rw [scopes_pull]
    exact hs.bound

theorem grows_untilEof {r : List Token × Expander δ} (h : e.untilEof fuel = some r) :
    e.Grows r.2 := by
  induction fuel generalizing e r with
  | zero => cases h
  | succ fuel ih =>
    rw [untilEof] at h
    obtain ⟨⟨t, e₁⟩, hnext, h⟩ := Option.bind_eq_some_iff.1 h
    have hgrows := grows_next hnext
    dsimp only at h
    split at h
    · obtain rfl := Option.some.inj h
      exact hgrows
    · obtain ⟨g, hrest, h⟩ := Option.bind_eq_some_iff.1 h
      obtain rfl := Option.some.inj h
      have hrest := ih hrest
      exact hgrows.trans hrest

/-- What a read on which nothing is reported does to the frames: the token that is delivered opens
or closes one if it is a brace, and the braces left over close one each. -/
theorem opened_read {r : Token × Expander δ} (h : e.read fuel = some r) (hclean : r.2.reported = [])
    (hpeeked : e.peeked = none) (hs : e.Spelled) :
    r.2.opened + closings [r.1] + e.strayRead fuel = e.opened + openings [r.1] ∧
      r.2.peeked = none ∧ (r.1.isEof = true → r.2.opened = 0) ∧
      (r.1.isEof = false → r.2.Spelled) := by
  induction fuel generalizing e with
  | zero => cases h
  | succ fuel ih =>
    have hpulled : e.pull.2.peeked = none := by rw [peeked_pull, hpeeked]
    have hopened : e.pull.2.opened = e.opened := by rw [opened, scopes_pull, opened]
    rw [read] at h
    rw [strayRead]
    dsimp only at h ⊢
    by_cases hcontrol : e.pull.1.kind = .control
    · have heof : e.pull.1.isEof = false := by simp [Token.isEof, hcontrol]
      have hs := spelled_pull hs heof
      rw [if_pos hcontrol] at h ⊢
      cases hb : e.pull.2.scopes.get? e.pull.1.text with
      | none =>
        rw [hb] at h
        cases (grows_read h).eq_nil hclean
      | some b =>
        rw [hb] at h
        cases b with
        | directive x =>
          obtain rfl := Option.some.inj h
          refine ⟨?_, hpulled, fun hend => ?_, fun _ => hs⟩
          · simp [closings, openings, hcontrol, hopened]
          · rw [heof] at hend
            cases hend
        | define everywhere =>
          obtain ⟨m, htakes, hstack⟩ :=
            takesPieces_define ((grows_read h).eq_nil hclean) hpulled hs
          have hstray := htakes.opened_add hpulled hstack
          obtain ⟨hrest, hafter⟩ := ih h htakes.peeked htakes.spelled
          refine ⟨?_, hafter⟩
          dsimp only
          omega
        | user d =>
          have htakes := takesPieces_expand ((grows_read h).eq_nil hclean) hpulled hs hb
          have hstray := htakes.opened_add hpulled rfl
          obtain ⟨hrest, hafter⟩ := ih h htakes.peeked htakes.spelled
          refine ⟨?_, hafter⟩
          dsimp only
          omega
    · rw [if_neg hcontrol] at h ⊢
      obtain rfl := Option.some.inj h
      refine ⟨?_, by rw [peeked_track, hpulled], fun heof => ?_, fun heof => ?_⟩
      · rw [Nat.add_zero, opened_track_add hclean, hopened]
      · have hk : e.pull.1.kind = .eof := by simpa [Token.isEof] using heof
        rw [opened_track, hk]
      · have hs := spelled_pull hs heof
        exact ⟨by rw [stack_track]; exact hs.ahead, each_track hs.bound _⟩

/-- From any state, the braces that are delivered and the frames that are open to begin with account
for each other. -/
theorem openings_of_untilEof {r : List Token × Expander δ} (h : e.untilEof fuel = some r)
    (hclean : r.2.reported = []) (hpeeked : e.peeked = none) (hs : e.Spelled) :
    (∀ us, us <+: r.1 → closings us ≤ e.opened + openings us) ∧
      e.opened + openings r.1 = closings r.1 + e.strayUntilEof fuel := by
  induction fuel generalizing e r with
  | zero => cases h
  | succ fuel ih =>
    rw [untilEof] at h
    obtain ⟨⟨t, e₁⟩, hnext, h⟩ := Option.bind_eq_some_iff.1 h
    have hread : e.read fuel = some (t, e₁) := by rwa [next, hpeeked] at hnext
    rw [strayUntilEof, hnext]
    dsimp only at h ⊢
    cases heof : t.isEof with
    | true =>
      rw [if_pos heof] at h
      obtain rfl := Option.some.inj h
      obtain ⟨hopened, -, hend, -⟩ := opened_read hread hclean hpeeked hs
      have hend : e₁.opened = 0 := hend heof
      dsimp only at hopened ⊢
      refine ⟨fun us hus => ?_, by rw [if_pos rfl]; omega⟩
      rcases List.prefix_cons_iff.1 hus with rfl | ⟨vs, rfl, hvs⟩
      · exact Nat.zero_le _
      · rw [List.prefix_nil.1 hvs]
        omega
    | false =>
      rw [if_neg (by simp [heof])] at h
      obtain ⟨⟨ts, e₂⟩, hrest, h⟩ := Option.bind_eq_some_iff.1 h
      obtain rfl := Option.some.inj h
      have hgrows : e₁.Grows e₂ := grows_untilEof hrest
      obtain ⟨hopened, hpeeked₁, -, hs₁⟩ := opened_read hread (hgrows.eq_nil hclean) hpeeked hs
      obtain ⟨hprefixes, htotal⟩ := ih hrest hclean hpeeked₁ (hs₁ heof)
      dsimp only at hopened hprefixes htotal ⊢
      rw [if_neg Bool.false_ne_true]
      refine ⟨fun us hus => ?_, by rw [closings_cons, openings_cons]; omega⟩
      rcases List.prefix_cons_iff.1 hus with rfl | ⟨vs, rfl, hvs⟩
      · exact Nat.zero_le _
      · have hle := hprefixes vs hvs
        rw [closings_cons, openings_cons]
        omega

end Macro.Expander

/-! ## Texts -/

theorem Token.kind_shape_eq_opening_iff {a : Alphabet} (hescape : a.escape ≠ a.opening)
    (c : Char) (cs : List Char) :
    (shape a c cs).1 = .opening ↔ c :: (shape a c cs).2 = [a.opening] := by
  have hplain : (if c = a.opening then Kind.opening else
      if c = a.closing then .closing else .other) = .opening ↔ [c] = [a.opening] := by
    by_cases hc : c = a.opening
    · simp [hc]
    · by_cases hc' : c = a.closing <;> simp [hc, hc']
  unfold shape
  dsimp only
  split
  · rename_i hc
    split
    · simp [hc, hescape]
    · exact hplain
  · split
    · rename_i hc
      split
      · split
        · simp
        · exact hplain
      · exact hplain
    · exact hplain

theorem Token.Shaped.spelled {a : Alphabet} {t : Token} (h : t.Shaped a)
    (ha : a = .tex ∨ a = .music) : t.Spelled := by
  obtain ⟨c, cs, hkind, htext⟩ := h
  have hbrace : "\x7b" = String.ofList [a.opening] ∧ a.escape ≠ a.opening := by
    rcases ha with rfl | rfl <;> decide
  rw [Spelled, hkind, htext, hbrace.1, String.ofList_inj]
  exact kind_shape_eq_opening_iff hbrace.2 c cs

namespace Macro.Expander

theorem spelled_ofText {δ : Type} {a : Alphabet} (ha : a = .tex ∨ a = .music) (text : String)
    (limit : Nat) : (ofSource (.ofText a text) (.builtin : Scopes δ) limit).Spelled where
  ahead t ht := by
    obtain ⟨ts, q, spaced, hscan, hts⟩ := Token.exists_scan a text
    have htokens : (ofSource (.ofText a text) (.builtin : Scopes δ) limit).stack.tokens =
        ts ++ [Token.eof q spaced] := by
      rw [← hscan]
      exact List.append_nil _
    rw [htokens] at ht
    rcases List.mem_append.1 ht with ht | ht
    · exact (hts t ht).spelled ha
    · rw [List.mem_singleton.1 ht]
      simp [Token.Spelled, Token.eof]
  bound := Scopes.each_builtin _

/-- **On a text on which nothing is reported, no delivered brace closes what was not opened, and the
braces that are left open are as many as the braces outside of groups that definitions and calls
took.** Where they took none, all braces match. -/
theorem untilEof_openings {δ : Type} {a : Alphabet} (ha : a = .tex ∨ a = .music) {text : String}
    {limit fuel : Nat} {ts : List Token} {e' : Expander δ}
    (h : (ofSource (.ofText a text) .builtin limit).untilEof fuel = some (ts, e'))
    (hclean : e'.diagnostics = []) :
    (∀ us, us <+: ts → closings us ≤ openings us) ∧ openings ts = closings ts +
      (ofSource (.ofText a text) (.builtin : Scopes δ) limit).strayUntilEof fuel := by
  have hreported : e'.reported = [] := List.reverse_eq_nil_iff.1 hclean
  have hbalance := openings_of_untilEof h hreported rfl (spelled_ofText ha text limit)
  have hopened : (ofSource (.ofText a text) (.builtin : Scopes δ) limit).opened = 0 := rfl
  simpa only [hopened, Nat.zero_add] using hbalance

/-- A brace is left open since the call takes the brace that would close it. -/
theorem openings_of_braceTaken : ∃ ts e',
    (ofSource (.ofText .tex "\x7b\x7b\\def\\a#1\x7b#1\x7dx\\a\x7dy")
      (.builtin : Scopes Unit) 100).untilEof 20 = some (ts, e') ∧ e'.diagnostics = [] ∧
    (∀ us, us <+: ts → closings us ≤ openings us) ∧ openings ts = closings ts +
      (ofSource (.ofText .tex "\x7b\x7b\\def\\a#1\x7b#1\x7dx\\a\x7dy")
        (.builtin : Scopes Unit) 100).strayUntilEof 20 ∧ closings ts = 1 ∧ openings ts = 2 := by
  have hrun : ((ofSource (.ofText .tex "\x7b\x7b\\def\\a#1\x7b#1\x7dx\\a\x7dy")
      (.builtin : Scopes Unit) 100).untilEof 20).any (fun r => r.2.diagnostics = [] ∧
        closings r.1 = 1 ∧ openings r.1 = 2) = true := by decide +kernel
  obtain ⟨⟨ts, e'⟩, hrun, hr⟩ := (Option.any_eq_true _ _).1 hrun
  obtain ⟨hclean, hclosings, hopenings⟩ := of_decide_eq_true hr
  obtain ⟨hprefixes, htotal⟩ := untilEof_openings (.inl rfl) hrun hclean
  exact ⟨ts, e', hrun, hclean, hprefixes, htotal, hclosings, hopenings⟩

/-- A text on which nothing is reported can leave a brace open. -/
theorem exists_untilEof_unbalanced : ∃ ts e',
    (ofSource (.ofText .tex "\x7b\\def\\a#1\x7b\x7d\\a\x7d")
      (.builtin : Scopes Unit) 100).untilEof 20 = some (ts, e') ∧ e'.diagnostics = [] ∧
    openings ts ≠ closings ts := by
  have hrun : ((ofSource (.ofText .tex "\x7b\\def\\a#1\x7b\x7d\\a\x7d")
      (.builtin : Scopes Unit) 100).untilEof 20).any (fun r => r.2.diagnostics = [] ∧
        openings r.1 ≠ closings r.1) = true := by decide +kernel
  obtain ⟨⟨ts, e'⟩, hrun, hr⟩ := (Option.any_eq_true _ _).1 hrun
  obtain ⟨hclean, hne⟩ := of_decide_eq_true hr
  exact ⟨ts, e', hrun, hclean, hne⟩

end Macro.Expander

end Jianpu
