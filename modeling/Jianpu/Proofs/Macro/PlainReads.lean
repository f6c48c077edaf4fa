import Jianpu.Proofs.Macro.Flatten
import Jianpu.Proofs.Macro.Height

/-!
# Calls as plain reads

A call takes its literals and arguments by plain reads, one token after another (`Plainly`). An
argument is made of tokens and of whole groups (`Pieces`), and what a call takes fits its pattern
(`Fits`), except where the end of the source cuts a group short: `matchPattern_cases`. A group that
is cut short counts as an argument all the same; that the brace is missing is reported, since the
frame of the group is still open at the end (`Cut.missing_lt`).
-/

namespace Jianpu.Macro

/-! ## Definitions in force -/

namespace Scopes

variable {δ : Type} {s : Scopes δ} {P : Definition → Prop}

/-- All definitions from the source satisfy `P`. -/
def Each (s : Scopes δ) (P : Definition → Prop) : Prop :=
  ∀ f ∈ s.global :: s.inner, ∀ p ∈ f, ∀ d, p.2 = .user d → P d

theorem Each.get? (h : s.Each P) {name : String} {d : Definition}
    (hd : s.get? name = some (.user d)) : P d := by
  obtain ⟨f, hf, hlookup⟩ := List.exists_of_findSome?_eq_some hd
  have hmem : f ∈ s.global :: s.inner := by
    rcases List.mem_append.1 hf with hf | hf
    · exact List.mem_cons_of_mem _ hf
    · rw [List.mem_singleton.1 hf]
      exact List.mem_cons_self
  obtain ⟨before, after, rfl, -⟩ := List.lookup_eq_some_iff.1 hlookup
  exact h _ hmem _ (List.mem_append_right before List.mem_cons_self) d rfl

theorem Each.enter (h : s.Each P) : s.enter.Each P := by
  intro f hf
  rcases List.mem_cons.1 hf with rfl | hf
  · exact h _ List.mem_cons_self
  · rcases List.mem_cons.1 hf with rfl | hf
    · exact fun p hp => nomatch hp
    · exact h f (List.mem_cons_of_mem _ hf)

theorem Each.leave? (h : s.Each P) {s' : Scopes δ} (hs' : s.leave? = some s') : s'.Each P := by
  unfold Scopes.leave? at hs'
  split at hs'
  · cases hs'
  · rename_i g fs hinner
    obtain rfl := Option.some.inj hs'
    intro f hf
    refine h f ?_
    rw [hinner]
    rcases List.mem_cons.1 hf with rfl | hf
    · exact List.mem_cons_self
    · exact List.mem_cons_of_mem _ (List.mem_cons_of_mem _ hf)

theorem Each.reset (h : s.Each P) : s.reset.Each P := by
  intro f hf
  rw [List.mem_singleton.1 hf]
  exact h _ List.mem_cons_self

theorem Each.define (h : s.Each P) {d : Definition} (hd : P d) (name : String) (everywhere : Bool) :
    (s.define name (.user d) everywhere).Each P := by
  have hinsert : ∀ f ∈ s.global :: s.inner, ∀ p ∈ f.insert name (.user d), ∀ d', p.2 = .user d' →
      P d' := by
    intro f hf p hp d' hd'
    rcases List.mem_cons.1 hp with rfl | hp
    · cases hd'
      exact hd
    · exact h f hf p (List.mem_filter.1 hp).1 d' hd'
  unfold Scopes.define
  split
  · rename_i g fs hinner
    rw [hinner] at hinsert
    intro f hf
    rcases List.mem_cons.1 hf with rfl | hf
    · exact h _ List.mem_cons_self
    · rcases List.mem_cons.1 hf with rfl | hf
      · exact hinsert g (List.mem_cons_of_mem _ List.mem_cons_self)
      · refine h f (List.mem_cons_of_mem _ ?_)
        rw [hinner]
        exact List.mem_cons_of_mem _ hf
  · intro f hf
    rcases List.mem_cons.1 hf with rfl | hf
    · exact hinsert _ List.mem_cons_self
    · exact h f (List.mem_cons_of_mem _ hf)

theorem each_builtin (P : Definition → Prop) : (builtin : Scopes δ).Each P := by
  intro f hf p hp d hd
  rw [List.mem_singleton.1 hf] at hp
  rcases List.mem_cons.1 hp with rfl | hp
  · cases hd
  · rw [List.mem_singleton.1 hp] at hd
    cases hd

end Scopes

namespace Expander

variable {δ : Type} {e e' m : Expander δ} {t : Token} {ts us vs : List Token} {level : Nat}

/-! ## Frames and missing braces -/

/-- The number of open frames. -/
def opened (e : Expander δ) : Nat := e.scopes.inner.length

/-- The number of reports that a brace is missing. -/
def missing (e : Expander δ) : Nat := e.reported.countP (·.cause = .missingClosing)

theorem Grows.missing_le (h : e.Grows e') : e.missing ≤ e'.missing := h.sublist.countP_le

theorem opened_track (e : Expander δ) (t : Token) : (e.track t).opened =
    match t.kind with
    | .opening => e.opened + 1
    | .closing => e.opened - 1
    | .eof => 0
    | _ => e.opened := by
  unfold track
  cases t.kind with
  | opening | control | param n | other => rfl
  | closing =>
    cases hi : e.scopes.inner with
    | nil => simp [Scopes.leave?, hi, opened, report]
    | cons f fs => simp [Scopes.leave?, hi, opened]
  | eof =>
    dsimp only
    split
    · rfl
    · simp_all [Scopes.depth, opened]

theorem missing_track (heof : t.isEof = false) : (e.track t).missing = e.missing := by
  unfold track
  cases hk : t.kind with
  | eof => simp [Token.isEof, hk] at heof
  | opening | control | param n | other => rfl
  | closing =>
    dsimp only
    split
    · rfl
    · simp [missing, report]

theorem missing_track_eof (heof : t.isEof = true) (h : 0 < e.opened) :
    (e.track t).missing = e.missing + 1 := by
  have hkind : t.kind = .eof := by simpa [Token.isEof] using heof
  have hdepth : e.scopes.depth > 1 := Nat.succ_lt_succ h
  simp [track, hkind, hdepth, missing, report]

theorem scopes_pull (e : Expander δ) : e.pull.2.scopes = e.scopes := by
  unfold pull
  split <;> rfl

theorem missing_pull (e : Expander δ) : e.pull.2.missing = e.missing := by
  rw [missing, reported_pull, missing]

theorem each_track {P : Definition → Prop} (h : e.scopes.Each P) (t : Token) :
    (e.track t).scopes.Each P := by
  unfold track
  split
  · exact h.enter
  · split
    · exact h.leave? (by assumption)
    · exact h
  · split
    · exact h.reset
    · exact h
  · exact h

theorem nextRaw_of_peeked_eq_none (h : e.peeked = none) :
    e.nextRaw = (e.pull.1, e.pull.2.track e.pull.1) := by
  simp only [nextRaw, h]

theorem opened_nextRaw (h : e.peeked = none) : e.nextRaw.2.opened =
    match e.nextRaw.1.kind with
    | .opening => e.opened + 1
    | .closing => e.opened - 1
    | .eof => 0
    | _ => e.opened := by
  rw [nextRaw_of_peeked_eq_none h, opened_track, opened, scopes_pull]
  rfl

theorem missing_nextRaw (heof : e.nextRaw.1.isEof = false) : e.nextRaw.2.missing = e.missing := by
  cases hp : e.peeked with
  | some t =>
    simp only [nextRaw, hp]
    rfl
  | none =>
    rw [nextRaw_of_peeked_eq_none hp] at heof ⊢
    rw [missing_track heof, missing_pull]

theorem missing_nextRaw_eof (hpeeked : e.peeked = none) (heof : e.nextRaw.1.isEof = true)
    (h : 0 < e.opened) : e.nextRaw.2.missing = e.missing + 1 := by
  rw [nextRaw_of_peeked_eq_none hpeeked] at heof ⊢
  have hopened : 0 < e.pull.2.opened := by rwa [opened, scopes_pull]
  rw [missing_track_eof heof hopened, missing_pull]

theorem each_nextRaw {P : Definition → Prop} (h : e.scopes.Each P) : e.nextRaw.2.scopes.Each P := by
  unfold nextRaw
  split
  · exact h
  · refine each_track ?_ _
    rwa [scopes_pull]

/-- A token that was looked at is taken as it was then. -/
theorem nextRaw_looked (e : Expander δ) :
    nextRaw { e.nextRaw.2 with peeked := some e.nextRaw.1 } = e.nextRaw := by
  have hpeeked := peeked_nextRaw e
  generalize e.nextRaw = r at hpeeked ⊢
  obtain ⟨t, scopes, stack, peeked, reported, remarked, limit, position⟩ := r
  obtain rfl : peeked = none := hpeeked
  rfl

theorem takes_pull (heof : e.pull.1.isEof = false) :
    Stack.Takes e.stack.sources [e.pull.1] e.pull.2.stack.sources := by
  have hpullFrom : ∀ sources size hsize t, (Stack.pullFrom sources size hsize).1 = some t →
      t.isEof = false →
      Stack.Takes sources [t] (Stack.pullFrom sources size hsize).2.sources := by
    intro sources
    induction sources with
    | nil =>
      intro size hsize t ht
      cases ht
    | cons s below ih =>
      intro size hsize t ht hteof
      obtain ⟨tokens, endless⟩ := s
      cases tokens with
      | cons u us =>
        obtain rfl : u = t := Option.some.inj ht
        exact .token (.nil _)
      | nil =>
        cases endless with
        | none => exact .dry (ih (size - 1) (congrArg (· - 1) hsize) t ht hteof)
        | some p =>
          obtain rfl : Token.eof p false = t := Option.some.inj ht
          cases hteof
  have hpull := hpullFrom e.stack.sources e.stack.size e.stack.size_eq
  rw [← Stack.pull] at hpull
  unfold pull at heof ⊢
  split <;> rename_i hp <;> rw [hp] at hpull
  · rw [hp] at heof
    exact hpull _ rfl heof
  · rw [hp] at heof
    cases heof

theorem takes_nextRaw (hpeeked : e.peeked = none) (heof : e.nextRaw.1.isEof = false) :
    Stack.Takes e.stack.sources [e.nextRaw.1] e.nextRaw.2.stack.sources := by
  rw [nextRaw_of_peeked_eq_none hpeeked] at heof ⊢
  rw [stack_track]
  exact takes_pull heof

/-! ## Reads one after another -/

/-- Plain reads of tokens, none of which is an end mark, lead from one state to another. -/
inductive Plainly : Expander δ → List Token → Expander δ → Prop
  | nil (e : Expander δ) : Plainly e [] e
  | cons {e e' : Expander δ} {ts : List Token} : e.nextRaw.1.isEof = false →
      Plainly e.nextRaw.2 ts e' → Plainly e (e.nextRaw.1 :: ts) e'

namespace Plainly

theorem one (heof : e.nextRaw.1.isEof = false) : Plainly e [e.nextRaw.1] e.nextRaw.2 :=
  .cons heof (.nil _)

theorem trans (h : Plainly e ts m) (h' : Plainly m us e') : Plainly e (ts ++ us) e' := by
  induction h with
  | nil e => exact h'
  | cons heof _ ih => exact .cons heof (ih h')

theorem peeked_eq_none (h : Plainly e ts e') (hpeeked : e.peeked = none) : e'.peeked = none := by
  induction h with
  | nil e => exact hpeeked
  | cons _ _ ih => exact ih (peeked_nextRaw _)

theorem grows (h : Plainly e ts e') : e.Grows e' := by
  induction h with
  | nil e => exact .refl e
  | cons _ _ ih => exact (grows_nextRaw _).trans ih

theorem missing_eq (h : Plainly e ts e') : e'.missing = e.missing := by
  induction h with
  | nil e => rfl
  | cons heof _ ih => rw [ih, missing_nextRaw heof]

theorem each {P : Definition → Prop} (h : Plainly e ts e') (he : e.scopes.Each P) :
    e'.scopes.Each P := by
  induction h with
  | nil e => exact he
  | cons _ _ ih => exact ih (each_nextRaw he)

/-- The tokens are taken off the sources. -/
theorem takes (h : Plainly e ts e') (hpeeked : e.peeked = none) :
    Stack.Takes e.stack.sources ts e'.stack.sources := by
  induction h with
  | nil e => exact .nil _
  | cons heof _ ih => exact (takes_nextRaw hpeeked heof).trans (ih (peeked_nextRaw _))

/-- Only what the first read gives matters. -/
theorem of_nextRaw_eq (h : Plainly m (t :: ts) e') (heq : e.nextRaw = m.nextRaw) :
    Plainly e (t :: ts) e' := by
  cases h with
  | cons heof h =>
    rw [← heq] at heof h ⊢
    exact .cons heof h

end Plainly

/-! ## Groups -/

theorem levelAfter_eq_none_iff {k : Token.Kind} :
    levelAfter k level = none ↔ k = .closing ∧ level = 0 := by
  cases k with
  | closing => cases level <;> simp [levelAfter]
  | eof | control | param n | opening | other => simp [levelAfter]

/-- Braces that are open outside make no difference. -/
theorem levelAfter_add {k : Token.Kind} {level' : Nat} (n : Nat)
    (h : levelAfter k level = some level') : levelAfter k (level + n) = some (level' + n) := by
  cases k with
  | closing =>
    cases level with
    | zero => cases h
    | succ level =>
      obtain rfl := Option.some.inj h
      rw [Nat.succ_add]
      rfl
  | opening =>
    obtain rfl := Option.some.inj h
    exact congrArg some (Nat.succ_add ..).symm
  | eof | control | param m | other =>
    obtain rfl := Option.some.inj h
    rfl

/-- Tokens up to the brace that closes a group in which `level` further braces are open. -/
inductive Closes : Nat → List Token → Prop
  | last {t : Token} {level : Nat} : levelAfter t.kind level = none → Closes level [t]
  | more {t : Token} {level level' : Nat} {ts : List Token} : t.isEof = false →
      levelAfter t.kind level = some level' → Closes level' ts → Closes level (t :: ts)

/-- While braces are open, so are frames. -/
theorem lt_opened_nextRaw (hpeeked : e.peeked = none) (heof : e.nextRaw.1.isEof = false)
    {level' : Nat} (hl : levelAfter e.nextRaw.1.kind level = some level') (h : level < e.opened) :
    level' < e.nextRaw.2.opened := by
  rw [opened_nextRaw hpeeked]
  cases hk : e.nextRaw.1.kind with
  | eof => simp [Token.isEof, hk] at heof
  | opening =>
    rw [hk] at hl
    obtain rfl := Option.some.inj hl
    exact Nat.succ_lt_succ h
  | closing =>
    rw [hk] at hl
    cases level with
    | zero => cases hl
    | succ level =>
      obtain rfl := Option.some.inj hl
      exact Nat.lt_sub_of_add_lt h
  | control | param n | other =>
    rw [hk] at hl
    obtain rfl := Option.some.inj hl
    exact h

/-- A group is closed, or the end comes while its frame is still open. -/
theorem groupRestRaw_cases (level : Nat) (e : Expander δ) (hpeeked : e.peeked = none)
    (h : level < e.opened) :
    (Plainly e (groupRestRaw level e).1 (groupRestRaw level e).2 ∧
        Closes level (groupRestRaw level e).1) ∨
      ∃ m, Plainly e (groupRestRaw level e).1 m ∧ m.nextRaw.1.isEof = true ∧ 0 < m.opened ∧
        (groupRestRaw level e).2 = m.nextRaw.2 := by
  fun_induction groupRestRaw level e with
  | case1 level e r hend => exact .inr ⟨e, .nil e, hend, Nat.zero_lt_of_lt h, rfl⟩
  | case2 level e r hend hlt hl =>
    exact .inl ⟨.one (by simpa using hend), .last hl⟩
  | case3 level e r hend hlt level' hl g ih =>
    have heof : e.nextRaw.1.isEof = false := by simpa using hend
    rcases ih (peeked_nextRaw e) (lt_opened_nextRaw hpeeked heof hl h) with
      ⟨hg, hcloses⟩ | ⟨m, hg, hm, hopened, heq⟩
    · exact .inl ⟨.cons heof hg, .more heof hl hcloses⟩
    · exact .inr ⟨m, .cons heof hg, hm, hopened, heq⟩

/-- The next token opens a group, and the end comes before the brace that closes it. -/
structure Cut (m : Expander δ) : Prop where
  peeked : m.peeked = none
  opening : m.nextRaw.1.kind = .opening
  ends : ∃ m', Plainly m.nextRaw.2 (groupRestRaw 0 m.nextRaw.2).1 m' ∧ m'.nextRaw.1.isEof = true ∧
    0 < m'.opened ∧ (groupRestRaw 0 m.nextRaw.2).2 = m'.nextRaw.2

theorem Cut.missing_lt (h : m.Cut) : m.missing < (groupRestRaw 0 m.nextRaw.2).2.missing := by
  obtain ⟨m', hplain, heof, hopened, heq⟩ := h.ends
  have hm : m.nextRaw.1.isEof = false := by simp [Token.isEof, h.opening]
  rw [heq, missing_nextRaw_eof (hplain.peeked_eq_none (peeked_nextRaw m)) heof hopened,
    hplain.missing_eq, missing_nextRaw hm]
  exact Nat.lt_succ_self _

theorem closes_of_not_cut (hpeeked : m.peeked = none) (ht : m.nextRaw.1.kind = .opening)
    (h : ¬m.Cut) :
    Plainly m.nextRaw.2 (groupRestRaw 0 m.nextRaw.2).1 (groupRestRaw 0 m.nextRaw.2).2 ∧
      Closes 0 (groupRestRaw 0 m.nextRaw.2).1 := by
  have hopened : 0 < m.nextRaw.2.opened := by
    rw [opened_nextRaw hpeeked, ht]
    exact Nat.succ_pos _
  exact (groupRestRaw_cases 0 _ (peeked_nextRaw m) hopened).resolve_right fun hends =>
    h ⟨hpeeked, ht, hends⟩

/-! ## Arguments -/

/-- Tokens and whole groups. -/
inductive Pieces : List Token → Prop
  | nil : Pieces []
  | token {t : Token} {ts : List Token} : t.isEof = false → t.kind ≠ .opening → Pieces ts →
      Pieces (t :: ts)
  | group {t : Token} {vs ts : List Token} : t.kind = .opening → Closes 0 vs → Pieces ts →
      Pieces (t :: (vs ++ ts))

theorem Pieces.append (h : Pieces ts) (h' : Pieces us) : Pieces (ts ++ us) := by
  induction h with
  | nil => exact h'
  | token heof ht _ ih => exact .token heof ht ih
  | group ht hvs _ ih =>
    rw [List.cons_append, List.append_assoc]
    exact .group ht hvs ih

/-- Plain reads come to a group that is cut short, and what is reported then is reported in the end.
-/
def MeetsCut (e e' : Expander δ) : Prop :=
  ∃ ts m, Plainly e ts m ∧ m.Cut ∧ (groupRestRaw 0 m.nextRaw.2).2.Grows e'

theorem MeetsCut.missing_lt (h : e.MeetsCut e') : e.missing < e'.missing := by
  obtain ⟨ts, m, hplain, hcut, hgrows⟩ := h
  rw [← hplain.missing_eq]
  exact Nat.lt_of_lt_of_le hcut.missing_lt hgrows.missing_le

theorem MeetsCut.of_plainly (h : Plainly e ts m) (h' : m.MeetsCut e') : e.MeetsCut e' := by
  obtain ⟨us, m', hplain, hcut, hgrows⟩ := h'
  exact ⟨ts ++ us, m', h.trans hplain, hcut, hgrows⟩

theorem MeetsCut.grows (h : e.MeetsCut m) (h' : m.Grows e') : e.MeetsCut e' := by
  obtain ⟨us, m', hplain, hcut, hgrows⟩ := h
  exact ⟨us, m', hplain, hcut, hgrows.trans h'⟩

/-- A token with its group is a piece, unless the group is cut short. -/
theorem groupRaw_cases (hpeeked : e.peeked = none) (heof : e.nextRaw.1.isEof = false) :
    (Plainly e (groupRaw e.nextRaw.1 e.nextRaw.2).1 (groupRaw e.nextRaw.1 e.nextRaw.2).2 ∧
        Pieces (groupRaw e.nextRaw.1 e.nextRaw.2).1) ∨
      e.MeetsCut (groupRaw e.nextRaw.1 e.nextRaw.2).2 := by
  unfold groupRaw
  by_cases ht : e.nextRaw.1.kind = .opening
  · rw [if_pos ht]
    dsimp only
    by_cases hcut : e.Cut
    · exact .inr ⟨[], e, .nil e, hcut, .refl _⟩
    · obtain ⟨hplain, hcloses⟩ := closes_of_not_cut hpeeked ht hcut
      refine .inl ⟨.cons heof hplain, ?_⟩
      rw [← List.append_nil (groupRestRaw 0 e.nextRaw.2).1]
      exact .group ht hcloses .nil
  · rw [if_neg ht]
    exact .inl ⟨.one heof, .token heof ht .nil⟩

theorem peeked_groupRaw (t : Token) (hpeeked : e.peeked = none) :
    (groupRaw t e).2.peeked = none := by
  have hrest : ∀ level (e : Expander δ), (groupRestRaw level e).2.peeked = none := by
    intro level e
    fun_induction groupRestRaw level e with
    | case1 level e r hend => exact peeked_nextRaw e
    | case2 level e r hend hlt hl => exact peeked_nextRaw e
    | case3 level e r hend hlt level' hl g ih => exact ih
  unfold groupRaw
  split
  · exact hrest 0 e
  · exact hpeeked

/-- Pieces are taken up to a token that is only looked at: the delimiter or an end mark. -/
theorem untilDelimiter_cases (delimiter : String) (e : Expander δ) (hpeeked : e.peeked = none) :
    (∃ m, Plainly e (untilDelimiter delimiter e).1 m ∧ Pieces (untilDelimiter delimiter e).1 ∧
        (untilDelimiter delimiter e).2 = { m.nextRaw.2 with peeked := some m.nextRaw.1 }) ∨
      e.MeetsCut (untilDelimiter delimiter e).2 := by
  fun_induction untilDelimiter delimiter e with
  | case1 e r hend => exact .inl ⟨e, .nil e, .nil, rfl⟩
  | case2 e r hend htext => exact .inl ⟨e, .nil e, .nil, rfl⟩
  | case3 e r hend htext g hlt rest ih =>
    have heof : e.nextRaw.1.isEof = false := by simpa using hend
    have hg : g.2.peeked = none := peeked_groupRaw _ (peeked_nextRaw e)
    rcases groupRaw_cases hpeeked heof with ⟨hplain, hpieces⟩ | hcut
    · rcases ih hg with ⟨m, hrest, hpieces', heq⟩ | hcut
      · exact .inl ⟨m, hplain.trans hrest, hpieces.append hpieces', heq⟩
      · exact .inr (hcut.of_plainly hplain)
    · exact .inr (hcut.grows (grows_untilDelimiter ..))

/-! ## Patterns -/

/-- Tokens that fit a pattern: at a literal a token with its text, at a placeholder pieces. -/
inductive Fits : List Token → List Token → Prop
  | nil : Fits [] []
  | literal {f t : Token} {pattern ts : List Token} : slot? f = none → t.isEof = false →
      t.text = f.text → Fits pattern ts → Fits (f :: pattern) (t :: ts)
  | argument {f : Token} {pattern us ts : List Token} : slot? f ≠ none → Pieces us →
      Fits pattern ts → Fits (f :: pattern) (us ++ ts)

/-- Every argument is made of pieces of some tokens. -/
def InPieces (ts : List Token) (args : Arguments) : Prop := ∀ i, Pieces (args i) ∧ args i ⊆ ts

theorem inPieces_empty : InPieces [] .empty := fun _ => ⟨.nil, List.nil_subset _⟩

theorem InPieces.bind {args : Arguments} (h : InPieces ts args) (slot : Nat) (hus : Pieces us) :
    InPieces (ts ++ us) (args.bind slot us) := by
  intro i
  unfold Arguments.bind
  split
  · exact ⟨hus, List.subset_append_right ts us⟩
  · exact ⟨(h i).1, List.subset_append_of_subset_left us (h i).2⟩

theorem InPieces.mono {args : Arguments} (h : InPieces ts args) (hts : ts ⊆ us) :
    InPieces us args := fun i => ⟨(h i).1, List.Subset.trans (h i).2 hts⟩

theorem slot?_of_head?_filter {pattern : List Token} {f : Token}
    (h : pattern.head?.filter (!·.isParam) = some f) :
    pattern.head? = some f ∧ slot? f = none := by
  obtain ⟨hhead, hparam⟩ := Option.filter_eq_some_iff.1 h
  refine ⟨hhead, ?_⟩
  unfold Token.isParam at hparam
  unfold slot?
  split
  · simp_all
  · rfl

/-- A literal that comes first takes a token. -/
theorem Fits.exists_cons {pattern : List Token} {f : Token} (h : Fits pattern ts)
    (hf : pattern.head? = some f) (hslot : slot? f = none) : ∃ t us, ts = t :: us := by
  cases h with
  | nil => cases hf
  | literal => exact ⟨_, _, rfl⟩
  | argument hne =>
    obtain rfl := Option.some.inj hf
    exact absurd hslot hne

/-- **What a call takes fits its pattern, and is taken by plain reads**, unless a group of it is cut
short. A token can have been looked at only if a literal comes first. -/
theorem matchPattern_cases {name : String} {pattern : List Token} {args args' : Arguments}
    (h : matchPattern name pattern args e = (some args', e')) (hargs : InPieces ts args)
    (hpeeked : e.peeked = none ∨ ∃ f, pattern.head? = some f ∧ slot? f = none) :
    (∃ us, Plainly e us e' ∧ Fits pattern us ∧ InPieces (ts ++ us) args') ∨ e.MeetsCut e' := by
  induction pattern generalizing args e ts with
  | nil =>
    obtain ⟨hargs', rfl⟩ := Prod.mk.inj h
    obtain rfl := Option.some.inj hargs'
    refine .inl ⟨[], .nil e, .nil, ?_⟩
    rwa [List.append_nil]
  | cons f pattern ih =>
    have hgrows : ∀ args (e : Expander δ), e.Grows (matchPattern name pattern args e).2 :=
      grows_matchPattern name pattern
    rw [matchPattern] at h
    cases hf : slot? f with
    | none =>
      simp only [hf] at h
      split at h
      · cases h
      · rename_i hend
        split at h
        · cases h
        · rename_i htext
          have heof : e.nextRaw.1.isEof = false := by simpa using hend
          rcases ih h hargs (.inl (peeked_nextRaw e)) with ⟨us, hplain, hfits, hargs'⟩ | hcut
          · refine .inl ⟨_, .cons heof hplain,
              .literal hf heof (Decidable.not_not.1 htext) hfits, hargs'.mono ?_⟩
            exact List.append_subset.2 ⟨List.subset_append_left ..,
              List.Subset.trans (List.subset_cons_self ..) (List.subset_append_right ..)⟩
          · exact .inr (hcut.of_plainly (.one heof))
    | some i =>
      have hslot : slot? f ≠ none := by simp [hf]
      have hpeeked : e.peeked = none := by
        refine hpeeked.resolve_right ?_
        rintro ⟨g, hg, hnone⟩
        obtain rfl := Option.some.inj hg
        exact hslot hnone
      simp only [hf] at h
      cases hd : pattern.head?.filter (!·.isParam) with
      | none =>
        simp only [hd] at h
        split at h
        · cases h
        · rename_i hend
          have heof : e.nextRaw.1.isEof = false := by simpa using hend
          rcases groupRaw_cases hpeeked heof with ⟨hplain, hpieces⟩ | hcut
          · rcases ih h (hargs.bind i hpieces) (.inl (peeked_groupRaw _ (peeked_nextRaw e))) with
              ⟨us, hrest, hfits, hargs'⟩ | hcut
            · rw [List.append_assoc] at hargs'
              exact .inl ⟨_, hplain.trans hrest, .argument hslot hpieces hfits, hargs'⟩
            · exact .inr (hcut.of_plainly hplain)
          · refine .inr (hcut.grows ?_)
            have hrest := hgrows (args.bind i (groupRaw e.nextRaw.1 e.nextRaw.2).1)
              (groupRaw e.nextRaw.1 e.nextRaw.2).2
            rwa [h] at hrest
      | some delimiter =>
        simp only [hd] at h
        split at h
        · cases h
        · obtain ⟨hhead, hliteral⟩ := slot?_of_head?_filter hd
          rcases untilDelimiter_cases delimiter.text e hpeeked with ⟨m, hplain, hpieces, heq⟩ | hcut
          · -- the delimiter was looked at, so the literal takes it as the read before would have
            have hlooked : m.nextRaw = (untilDelimiter delimiter.text e).2.nextRaw := by
              rw [heq, nextRaw_looked]
            rcases ih h (hargs.bind i hpieces) (.inr ⟨delimiter, hhead, hliteral⟩) with
              ⟨us, hrest, hfits, hargs'⟩ | ⟨us, m', hrest, hcut, hreported⟩
            · obtain ⟨t, us, rfl⟩ := hfits.exists_cons hhead hliteral
              rw [List.append_assoc] at hargs'
              exact .inl ⟨_, hplain.trans (hrest.of_nextRaw_eq hlooked),
                .argument hslot hpieces hfits, hargs'⟩
            · cases us with
              | nil =>
                cases hrest
                have hnone := hcut.peeked
                rw [heq] at hnone
                cases hnone
              | cons t us =>
                exact .inr ⟨_, m', hplain.trans (hrest.of_nextRaw_eq hlooked), hcut, hreported⟩
          · refine .inr (hcut.grows ?_)
            have hrest := hgrows (args.bind i (untilDelimiter delimiter.text e).1)
              (untilDelimiter delimiter.text e).2
            rwa [h] at hrest

end Expander

end Jianpu.Macro
