import Jianpu.Proofs.Macro.Level
import Jianpu.Proofs.Sheet.Grammar
import Jianpu.Proofs.Sheet.Meaning
import Jianpu.Proofs.Token.Scanned

/-!
# The reader accepts its grammar

A source without control sequences is read to its end, and nothing is reported if and only if its
tokens can be derived from the grammar: `Sheet.parse_accepts_iff`.

Where the braces are not in order or a token is out of place, the reader goes on, so the statements
about it are of two kinds. What it takes without a report is derived from the grammar (`Consumes`),
and what is derived is taken without a report (`TakesCleanly`). Both are put together from the same
steps.
-/

namespace Jianpu

open Macro.Expander (Ahead HasLevel levelAfter levelAtEnd)

/-! ## Tokens and marks -/

section Readers

variable {e : Macro.Expander Directive} {t : Token} {us : List Token} {l : Option Nat} {fuel : Nat}

/-- An ordinary token leaves the level alone. -/
theorem bind_levelAfter_other (l : Option Nat) (h : t.kind = .other) :
    l.bind (levelAfter t.kind) = l := by
  rw [h]
  cases l <;> rfl

theorem Reading.succeeds_look {Q : Token → Macro.Expander Directive → Prop} (h : e.Ahead us l)
    (hf : 1 ≤ fuel)
    (hQ : ∀ t e', e'.Ahead us l → us.head? = some t ∨ us = [] ∧ t.isEof = true → Q t e') :
    Succeeds (Reading.peek fuel) e Q := by
  obtain ⟨t, e', hpeek, h', ht⟩ := h.look hf
  exact .of_eq hpeek (hQ t e' h' ht)

theorem Reading.succeeds_peek {Q : Token → Macro.Expander Directive → Prop}
    (h : e.Ahead (t :: us) l) (hf : 1 ≤ fuel) (hQ : ∀ e', e'.Ahead (t :: us) l → Q t e') :
    Succeeds (Reading.peek fuel) e Q := by
  obtain ⟨e', hpeek, h'⟩ := h.peek hf
  exact .of_eq hpeek (hQ e' h')

theorem Reading.succeeds_next {Q : Token → Macro.Expander Directive → Prop}
    (h : e.Ahead (t :: us) l) (hf : 1 ≤ fuel)
    (hQ : ∀ e', e'.Ahead us (l.bind (levelAfter t.kind)) → Q t e') :
    Succeeds (Reading.next fuel) e Q := by
  obtain ⟨e', hnext, h'⟩ := h.next hf
  exact .of_eq hnext (hQ e' h')

namespace Writing

/-- A run of a character is taken as far as it goes. -/
theorem succeeds_run (c : Char) (h : e.Ahead us l) (hf : us.length + 2 ≤ fuel) (count : UInt32)
    (last : Span) : Succeeds (run c fuel count last) e fun _ e' =>
      ∃ ms us', us = ms ++ us' ∧ (∀ t ∈ ms, t.single? = some c) ∧
        (∀ t, us'.head? = some t → t.single? ≠ some c) ∧ e'.Ahead us' l := by
  induction us generalizing e fuel count last with
  | nil =>
    obtain ⟨fuel, rfl⟩ : ∃ k, fuel = k + 1 := ⟨fuel - 1, by omega⟩
    rw [run]
    refine .bind (Reading.succeeds_look h (by simpa using hf) fun t e₁ h₁ ht => ?_)
    obtain ⟨-, heof⟩ := ht.resolve_left (by simp)
    rw [if_neg (by simp [Token.single?_of_isEof heof])]
    exact .of_pure ⟨[], [], rfl, by simp, by simp, h₁⟩
  | cons u us ih =>
    rw [List.length_cons] at hf
    obtain ⟨fuel, rfl⟩ : ∃ k, fuel = k + 1 := ⟨fuel - 1, by omega⟩
    rw [run]
    refine .bind (Reading.succeeds_peek h (by omega) fun e₁ h₁ => ?_)
    split
    · rename_i hu
      refine .bind (Reading.succeeds_next h₁ (by omega) fun e₂ h₂ => ?_)
      rw [bind_levelAfter_other l (Token.kind_of_single? hu)] at h₂
      refine (ih h₂ (by omega) (count + 1) u.span).mono fun _ e' hrun => ?_
      obtain ⟨ms, us', rfl, hms, hhead, h'⟩ := hrun
      exact ⟨u :: ms, us', rfl, List.forall_mem_cons.2 ⟨hu, hms⟩, hhead, h'⟩
    · rename_i hu
      refine .of_pure ⟨[], u :: us, rfl, by simp, fun t ht => ?_, h₁⟩
      rwa [← Option.some.inj ht]

/-- A modifier takes marks, and where there is none no mark comes first. -/
theorem succeeds_modifier? (h : e.Ahead us l) (hf : us.length + 2 ≤ fuel) :
    Succeeds (modifier? fuel) e fun r e' =>
      (r = none ∧ Unmarked us ∧ e'.Ahead us l) ∨
        ∃ x ms us', r = some x ∧ us = ms ++ us' ∧ ms ≠ [] ∧ (∀ t ∈ ms, t.IsMark) ∧
          e'.Ahead us' l := by
  unfold modifier?
  cases us with
  | nil =>
    refine .bind (Reading.succeeds_look h (by omega) fun t e₁ h₁ ht => ?_)
    obtain ⟨-, heof⟩ := ht.resolve_left (by simp)
    rw [Token.single?_of_isEof heof]
    exact .of_pure (.inl ⟨rfl, nofun, h₁⟩)
  | cons t us =>
    refine .bind (Reading.succeeds_peek h (by omega) fun e₁ h₁ => ?_)
    have hunmarked : (∀ m : Mark, t.single? ≠ some m.char) → Unmarked (t :: us) := by
      intro ht u hu m
      rw [← Option.some.inj hu]
      exact ht m
    cases hc : t.single? with
    | none => exact .of_pure (.inl ⟨rfl, hunmarked (by rw [hc]; exact fun _ => nofun), h₁⟩)
    | some c =>
      by_cases hm : ∃ m : Mark, c = m.char
      · obtain ⟨m, rfl⟩ := hm
        rcases m.single_or_counted with hsingle | ⟨f, hcounted⟩
        · simp only [hsingle.ofChar?]
          refine .bind (Reading.succeeds_next h₁ (by omega) fun e₂ h₂ => .of_pure (.inr ?_))
          rw [bind_levelAfter_other l (Token.kind_of_single? hc)] at h₂
          refine ⟨_, [t], us, rfl, rfl, List.cons_ne_nil t [], fun u hu => ?_, h₂⟩
          rw [List.mem_singleton.1 hu]
          exact ⟨m, hc⟩
        · simp only [hcounted.ofChar?, hcounted.counted?]
          refine .bind ((succeeds_run m.char h₁ hf 0 t.span).mono fun r e₂ hrun => ?_)
          obtain ⟨ms, us', heq, hms, hhead, h₂⟩ := hrun
          refine .of_pure (.inr ⟨_, ms, us', rfl, heq, ?_, fun u hu => ⟨m, hms u hu⟩, h₂⟩)
          -- the run holds at least the mark that was looked at
          rintro rfl
          exact hhead t (by rw [show us' = _ from heq.symm]; rfl) hc
      · have hne : ∀ m : Mark, c ≠ m.char := fun m heq => hm ⟨m, heq⟩
        simp only [Modifier.Kind.ofChar?_eq_none hne, Modifier.Kind.counted?_eq_none hne]
        refine .of_pure (.inl ⟨rfl, hunmarked fun m heq => ?_, h₁⟩)
        exact hne m (Option.some.inj (hc.symm.trans heq))

end Writing

end Readers

namespace Writing

variable {b : Body} {us : List Token} {l : Option Nat} {fuel : Nat} {a : Ambient}

theorem succeeds_read {α : Type} {m : Reading α} {Q : α → Body → Prop}
    (h : Succeeds m b.input fun x e => Q x { b with input := e }) : Succeeds (read m) b Q := by
  obtain ⟨x, e, hm, hQ⟩ := h
  exact .of_eq (read_of_eq_some hm b.score b.settings) hQ

theorem succeeds_write {α : Type} (f : Score → α × Score) :
    Succeeds (write f) b fun _ b' => b'.input = b.input := .of_eq rfl rfl

theorem succeeds_insert (slot : Option Slot) (kind : Modifier.Kind) (span : Span) :
    Succeeds (insert slot kind span) b fun _ b' => b'.input = b.input := by
  cases slot with
  | none => exact .of_pure rfl
  | some slot =>
    unfold insert
    exact succeeds_write _

/-- All marks that come next are taken. -/
theorem succeeds_modifiers (h : b.input.Ahead us l) (hf : us.length + 3 ≤ fuel)
    (slot : Option Slot) :
    Succeeds (modifiers fuel slot) b fun _ b' =>
      ∃ ms us', us = ms ++ us' ∧ (∀ t ∈ ms, t.IsMark) ∧ Unmarked us' ∧ b'.input.Ahead us' l := by
  induction fuel generalizing b us slot with
  | zero => omega
  | succ fuel ih =>
    rw [modifiers]
    refine .bind (succeeds_read ((succeeds_modifier? h (by omega)).mono fun r e₁ hr => ?_))
    rcases hr with ⟨rfl, hunmarked, h₁⟩ | ⟨x, ms, us', rfl, rfl, hne, hms, h₁⟩
    · exact .of_pure ⟨[], us, rfl, by simp, hunmarked, h₁⟩
    · have hlen : 0 < ms.length := List.length_pos_of_ne_nil hne
      rw [List.length_append] at hf
      refine .bind ((succeeds_insert slot x.1 x.2).mono fun slot' b₂ hb₂ => ?_)
      have h₂ : b₂.input.Ahead us' l := by rwa [hb₂]
      refine (ih h₂ (by omega) slot').mono fun _ b' hrest => ?_
      obtain ⟨ms', us'', rfl, hms', hunmarked, h'⟩ := hrest
      exact ⟨ms ++ ms', us'', (List.append_assoc ..).symm, List.forall_mem_append.2 ⟨hms, hms'⟩,
        hunmarked, h'⟩

/-! ## Steps of the reader -/

theorem sequence_of_stops (h : b.input.Ahead us l) (hus : Stops us) (hf : 2 ≤ fuel)
    (s : Option Strand) (a : Ambient) :
    Succeeds (sequence fuel s a) b fun _ b' => b'.input.Ahead us l := by
  obtain ⟨fuel, rfl⟩ : ∃ k, fuel = k + 1 := ⟨fuel - 1, by omega⟩
  rw [sequence]
  refine .bind (succeeds_read (Reading.succeeds_look h (by omega) fun t e₁ h₁ ht => ?_))
  have hstop : (t.isEof || t.kind = .closing || t.isSeparator) = true := by
    rcases ht with hhead | ⟨-, heof⟩
    · rcases hus t hhead with hk | hs
      · simp [hk]
      · simp [hs]
    · simp [heof]
  rw [if_pos hstop]
  exact .of_pure h₁

/-- A note is read without a report, and anything else with one. -/
theorem succeeds_content (t : Token) (a : Ambient) (e : Macro.Expander Directive) :
    Succeeds (content t a) e fun _ e' =>
      (t.IsNote ∧ e' = e) ∨ (¬t.IsNote ∧ ∃ c, e' = e.report c t.span) := by
  by_cases ht : t.IsNote
  · obtain ⟨degree, hdegree⟩ := ht.exists_degree
    exact .of_eq (content_digit (Token.lexeme_of_single? hdegree) a e) (.inl ⟨ht, rfl⟩)
  · unfold content
    split
    · exact .bind (.of_modify (.of_pure (.inr ⟨ht, _, rfl⟩)))
    · rename_i c hc
      obtain ⟨hsingle, hdigit⟩ := Option.filter_eq_some_iff.1 hc
      have hlarge : ¬c.toNat - '0'.toNat ≤ 7 := by
        intro hle
        obtain ⟨degree, rfl⟩ := Token.exists_degree_of_isDigit hdigit hle
        exact ht (Token.isNote_of_degree hsingle)
      dsimp only
      rw [if_neg (by omega), if_neg hlarge]
      exact .bind (.of_modify (.of_pure (.inr ⟨ht, _, rfl⟩)))

/-- The step of the reader for a token that neither ends the sequence nor opens a group. -/
theorem sequence_of_token {t : Token} {s : Option Strand}
    {Q : Option Strand × Ambient → Body → Prop} (h : b.input.Ahead (t :: us) l)
    (ht : ¬(t.kind = .closing ∨ t.isSeparator = true)) (hopening : t.kind ≠ .opening)
    (hf : 1 ≤ fuel)
    (hrest : ∀ l' s' slot b', b'.input.Ahead us l' → (t.IsNote ∧ l' = l) ∨ (¬t.IsNote ∧ l' = none) →
      Succeeds (do modifiers fuel slot; sequence fuel s' a) b' Q) :
    Succeeds (sequence (fuel + 1) s a) b Q := by
  obtain ⟨hcontrol, heof⟩ := h.plain t List.mem_cons_self
  have hlevel : l.bind (levelAfter t.kind) = l := by
    have hkind : t.kind ≠ .closing := fun hk => ht (.inl hk)
    have heof' : t.kind ≠ .eof := by simpa [Token.isEof] using heof
    cases l with
    | none => rfl
    | some n =>
      rw [Option.bind_some]
      unfold levelAfter
      split <;> first | contradiction | rfl
  rw [sequence]
  refine .bind (succeeds_read (Reading.succeeds_peek h hf fun e₁ h₁ => ?_))
  have hdirective : e₁.directive? t = none := by
    unfold Macro.Expander.directive?
    split
    · exact absurd (by assumption) hcontrol
    · rfl
  rw [if_neg (by simpa [heof] using ht), if_neg hopening]
  refine .bind (.of_get ?_)
  simp only [hdirective]
  refine .bind (succeeds_read (Reading.succeeds_next h₁ hf fun e₂ h₂ => ?_))
  rw [hlevel] at h₂
  refine .bind (succeeds_read ((succeeds_content t a e₂).mono fun c e₃ hc => ?_))
  refine .bind ((succeeds_write _).mono fun x b₄ hb₄ => ?_)
  have hb₄ : b₄.input = e₃ := hb₄
  rcases hc with ⟨hnote, rfl⟩ | ⟨hnote, cause, rfl⟩
  · exact hrest l _ _ b₄ (by rwa [hb₄]) (.inl ⟨hnote, rfl⟩)
  · exact hrest none _ _ b₄ (by rw [hb₄]; exact h₂.report ..) (.inr ⟨hnote, rfl⟩)

/-- The step of the reader for a group. -/
theorem sequence_of_opening {t : Token} {s : Option Strand}
    {Q : Option Strand × Ambient → Body → Prop} (h : b.input.Ahead (t :: us) l)
    (ht : t.kind = .opening) (hf : 1 ≤ fuel)
    (hgroup : ∀ b', b'.input.Ahead (t :: us) l → Succeeds (group fuel a) b' fun _ b₁ =>
      ∀ s' slot b₂, b₂.input = b₁.input →
        Succeeds (do modifiers fuel slot; sequence fuel s' a) b₂ Q) :
    Succeeds (sequence (fuel + 1) s a) b Q := by
  obtain ⟨-, heof⟩ := h.plain t List.mem_cons_self
  have hseparator : t.isSeparator = false :=
    Token.isSeparator_of_kind (by rw [ht]; exact nofun)
  rw [sequence]
  refine .bind (succeeds_read (Reading.succeeds_peek h hf fun e₁ h₁ => ?_))
  rw [if_neg (by simp [heof, ht, hseparator]), if_pos ht]
  refine .bind ((hgroup _ h₁).mono fun o b₁ hrest => ?_)
  exact .bind ((succeeds_write _).mono fun x b₂ hb₂ => hrest _ _ b₂ hb₂)

/-- No further branch is read where none comes next. -/
theorem branches_of_closing (h : b.input.Ahead us l)
    (hus : ∀ t, us.head? = some t → t.isSeparator = false) (hf : 2 ≤ fuel) (s : Option Strand)
    (a : Ambient) : Succeeds (branches fuel s a) b fun _ b' => b'.input.Ahead us l := by
  obtain ⟨fuel, rfl⟩ : ∃ k, fuel = k + 1 := ⟨fuel - 1, by omega⟩
  rw [branches]
  refine .bind (succeeds_read (Reading.succeeds_look h (by omega) fun t e₁ h₁ ht => ?_))
  have hseparator : t.isSeparator = false := by
    rcases ht with hhead | ⟨-, heof⟩
    · exact hus t hhead
    · simp [Token.isSeparator, Token.single?_of_isEof heof]
  rw [if_neg (by simp [hseparator])]
  exact .of_pure h₁

/-- The step of the reader for a further branch. -/
theorem branches_of_separator {t : Token} {s : Option Strand} {Q : Option Strand → Body → Prop}
    (h : b.input.Ahead (t :: us) l) (ht : t.isSeparator = true) (hf : 1 ≤ fuel)
    (hsequence : ∀ b', b'.input.Ahead us l → Succeeds (sequence fuel none a) b' fun _ b₁ =>
      ∀ s' b₂, b₂.input = b₁.input → Succeeds (branches fuel s' a) b₂ Q) :
    Succeeds (branches (fuel + 1) s a) b Q := by
  obtain ⟨c, -, hc⟩ := Token.isSeparator_iff.1 ht
  rw [branches]
  refine .bind (succeeds_read (Reading.succeeds_peek h hf fun e₁ h₁ => ?_))
  rw [if_pos ht]
  refine .bind (succeeds_read (Reading.succeeds_next h₁ hf fun e₂ h₂ => ?_))
  rw [bind_levelAfter_other l (Token.kind_of_single? hc)] at h₂
  refine .bind ((hsequence _ h₂).mono fun r b₁ hrest => ?_)
  exact .bind ((succeeds_write _).mono fun s' b₂ hb₂ => hrest s' b₂ hb₂)

/-! ## What is taken without a report is derived -/

/-- A part of the tokens ahead was taken, up to tokens that satisfy `R`. If nothing is reported, the
level is as it was before and what was taken satisfies `P`. -/
def Consumes (P R : List Token → Prop) (us : List Token) (l : Option Nat)
    (e : Macro.Expander Directive) : Prop :=
  ∃ vs us' l', us = vs ++ us' ∧ R us' ∧ e.Ahead us' l' ∧ ∀ n, l' = some n → l = some n ∧ P vs

/-- With this many steps the readers return, and what they take is derived from the grammar. -/
structure TakesDerived (fuel : Nat) : Prop where
  sequence : ∀ ⦃us l b⦄ s a, b.input.Ahead us l → 2 * us.length + 2 ≤ fuel →
    Succeeds (Writing.sequence fuel s a) b fun _ b' =>
      Consumes (Derives .sequence) Stops us l b'.input
  group : ∀ ⦃t us l b⦄ a, t.kind = .opening → b.input.Ahead (t :: us) l → 2 * us.length + 3 ≤ fuel →
    Succeeds (Writing.group fuel a) b fun _ b' =>
      Consumes (Derives .group) (·.length ≤ us.length) (t :: us) l b'.input
  branches : ∀ ⦃us l b⦄ s a, Stops us → b.input.Ahead us l → 2 * us.length + 2 ≤ fuel →
    Succeeds (Writing.branches fuel s a) b fun _ b' =>
      Consumes (fun vs => ∀ ts, Derives .sequence ts → Derives .branches (ts ++ vs))
        (fun us' => ∀ t, us'.head? = some t → t.kind = .closing) us l b'.input

namespace TakesDerived

/-- The modifiers of a note or a group, and what comes after them. -/
theorem rest (h : TakesDerived fuel) (hb : b.input.Ahead us l) (hf : 2 * us.length + 3 ≤ fuel)
    (slot : Option Slot) (s : Option Strand) :
    Succeeds (do modifiers fuel slot; Writing.sequence fuel s a) b fun _ b' =>
      Consumes (fun vs => ∃ ms ts, vs = ms ++ ts ∧ Derives .modifiers ms ∧ Derives .sequence ts)
        Stops us l b'.input := by
  refine .bind ((succeeds_modifiers hb (by omega) slot).mono fun _ b₁ hmods => ?_)
  obtain ⟨ms, us₁, rfl, hms, -, h₁⟩ := hmods
  rw [List.length_append] at hf
  refine (h.sequence s a h₁ (by omega)).mono fun _ b' hseq => ?_
  obtain ⟨ts, us', l', rfl, hstops, h', hlevel⟩ := hseq
  refine ⟨ms ++ ts, us', l', (List.append_assoc ..).symm, hstops, h', fun n hn => ?_⟩
  obtain ⟨hl, hts⟩ := hlevel n hn
  exact ⟨hl, ms, ts, rfl, derives_modifiers_iff.2 hms, hts⟩

theorem sequence_succ (ih : TakesDerived fuel) (s : Option Strand) (a : Ambient)
    (h : b.input.Ahead us l) (hf : 2 * us.length + 2 ≤ fuel + 1) :
    Succeeds (Writing.sequence (fuel + 1) s a) b fun _ b' =>
      Consumes (Derives .sequence) Stops us l b'.input := by
  have hnothing : Stops us → Succeeds (Writing.sequence (fuel + 1) s a) b fun _ b' =>
      Consumes (Derives .sequence) Stops us l b'.input := by
    intro hstops
    refine (sequence_of_stops h hstops (by omega) s a).mono fun _ b' h' => ?_
    exact ⟨[], us, l, rfl, hstops, h', fun n hn => ⟨hn, .nil⟩⟩
  cases us with
  | nil => exact hnothing nofun
  | cons t us =>
    rw [List.length_cons] at hf
    by_cases hstop : t.kind = .closing ∨ t.isSeparator = true
    · refine hnothing fun u hu => ?_
      rwa [← Option.some.inj hu]
    by_cases hopening : t.kind = .opening
    · refine sequence_of_opening h hopening (by omega) fun b₀ h₀ => ?_
      refine (ih.group a hopening h₀ (by omega)).mono fun _ b₁ hgroup s' slot b₂ hb₂ => ?_
      obtain ⟨gs, us₁, l₁, heq, hlen, h₁, hlevel₁⟩ := hgroup
      rw [← hb₂] at h₁
      refine (ih.rest h₁ (by omega) slot s').mono fun _ b' hrest => ?_
      obtain ⟨vs, us', l', rfl, hstops, h', hlevel⟩ := hrest
      refine ⟨gs ++ vs, us', l', by rw [heq, List.append_assoc], hstops, h', fun n hn => ?_⟩
      obtain ⟨hl₁, ms, ts, rfl, hms, hts⟩ := hlevel n hn
      obtain ⟨hl, hgs⟩ := hlevel₁ n hl₁
      exact ⟨hl, .group hgs hms hts⟩
    · refine sequence_of_token h hstop hopening (by omega) fun l₁ s' slot b₁ h₁ hnote => ?_
      refine (ih.rest h₁ (by omega) slot s').mono fun _ b' hrest => ?_
      obtain ⟨vs, us', l', rfl, hstops, h', hlevel⟩ := hrest
      refine ⟨t :: vs, us', l', rfl, hstops, h', fun n hn => ?_⟩
      obtain ⟨hl₁, ms, ts, rfl, hms, hts⟩ := hlevel n hn
      rcases hnote with ⟨hnote, rfl⟩ | ⟨-, rfl⟩
      · exact ⟨hl₁, .note hnote hms hts⟩
      · cases hl₁

theorem branches_succ (ih : TakesDerived fuel) (s : Option Strand) (a : Ambient) (hstops : Stops us)
    (h : b.input.Ahead us l) (hf : 2 * us.length + 2 ≤ fuel + 1) :
    Succeeds (Writing.branches (fuel + 1) s a) b fun _ b' =>
      Consumes (fun vs => ∀ ts, Derives .sequence ts → Derives .branches (ts ++ vs))
        (fun us' => ∀ t, us'.head? = some t → t.kind = .closing) us l b'.input := by
  have hlast : (∀ t, us.head? = some t → t.isSeparator = false) →
      Succeeds (Writing.branches (fuel + 1) s a) b fun _ b' =>
        Consumes (fun vs => ∀ ts, Derives .sequence ts → Derives .branches (ts ++ vs))
          (fun us' => ∀ t, us'.head? = some t → t.kind = .closing) us l b'.input := by
    intro hus
    refine (branches_of_closing h hus (by omega) s a).mono fun _ b' h' => ?_
    refine ⟨[], us, l, rfl, fun t ht => ?_, h', fun n hn => ⟨hn, fun ts hts => ?_⟩⟩
    · exact (hstops t ht).resolve_right (by rw [hus t ht]; exact nofun)
    · rw [List.append_nil]
      exact .last hts
  cases us with
  | nil => exact hlast nofun
  | cons t us =>
    rw [List.length_cons] at hf
    cases hseparator : t.isSeparator with
    | false =>
      refine hlast fun u hu => ?_
      rwa [← Option.some.inj hu]
    | true =>
      refine branches_of_separator h hseparator (by omega) fun b₀ h₀ => ?_
      refine (ih.sequence none a h₀ (by omega)).mono fun _ b₁ hseq s' b₂ hb₂ => ?_
      obtain ⟨vs, us₁, l₁, rfl, hstops₁, h₁, hlevel₁⟩ := hseq
      rw [← hb₂] at h₁
      rw [List.length_append] at hf
      refine (ih.branches s' a hstops₁ h₁ (by omega)).mono fun _ b' hrest => ?_
      obtain ⟨ws, us', l', rfl, hclosing, h', hlevel⟩ := hrest
      refine ⟨t :: (vs ++ ws), us', l', by rw [List.cons_append, List.append_assoc], hclosing, h',
        fun n hn => ?_⟩
      obtain ⟨hl₁, hws⟩ := hlevel n hn
      obtain ⟨hl, hvs⟩ := hlevel₁ n hl₁
      exact ⟨hl, fun ts hts => .more hts (Token.isSeparator_iff.1 hseparator) (hws vs hvs)⟩

theorem group_succ (ih : TakesDerived fuel) {t : Token} (a : Ambient) (ht : t.kind = .opening)
    (h : b.input.Ahead (t :: us) l) (hf : 2 * us.length + 3 ≤ fuel + 1) :
    Succeeds (Writing.group (fuel + 1) a) b fun _ b' =>
      Consumes (Derives .group) (·.length ≤ us.length) (t :: us) l b'.input := by
  rw [Writing.group]
  refine .bind (succeeds_read (Reading.succeeds_next h (by omega) fun e₁ h₁ => ?_))
  refine .bind ((ih.sequence none a h₁ (by omega)).mono fun r b₂ hseq => ?_)
  obtain ⟨vs, us₂, l₂, rfl, hstops, h₂, hlevel₂⟩ := hseq
  rw [List.length_append] at hf
  refine .bind ((ih.branches r.1 a hstops h₂ (by omega)).mono fun s b₃ hrest => ?_)
  obtain ⟨ws, us₃, l₃, rfl, hclosing, h₃, hlevel₃⟩ := hrest
  cases us₃ with
  | nil =>
    -- the source ends within the group
    refine .bind (succeeds_read (Reading.succeeds_look h₃ (by omega) fun u e₄ h₄ hu => ?_))
    obtain ⟨-, heof⟩ := hu.resolve_left (by simp)
    have hkind : u.kind = .eof := by simpa [Token.isEof] using heof
    rw [if_neg (by simp [hkind])]
    refine .bind (succeeds_read (.of_modify (.of_pure ?_)))
    exact ⟨t :: (vs ++ (ws ++ [])), [], none, (List.append_nil _).symm, Nat.zero_le _, h₄.report ..,
      by simp⟩
  | cons c us' =>
    have hc : c.kind = .closing := hclosing c rfl
    refine .bind (succeeds_read (Reading.succeeds_peek h₃ (by omega) fun e₄ h₄ => ?_))
    rw [if_pos hc]
    refine .bind (succeeds_read (Reading.succeeds_next h₄ (by omega) fun e₅ h₅ => .of_pure ?_))
    refine ⟨t :: (vs ++ ws ++ [c]), us', _, by simp, ?_, h₅, fun n hn => ?_⟩
    · simp
      omega
    -- the closing brace takes the level back to what it was before the opening one
    obtain ⟨m, hl₃, hm⟩ := Option.bind_eq_some_iff.1 hn
    obtain ⟨hl₂, hws⟩ := hlevel₃ m hl₃
    obtain ⟨hl₁, hvs⟩ := hlevel₂ m hl₂
    obtain ⟨k, hl, hk⟩ := Option.bind_eq_some_iff.1 hl₁
    rw [ht] at hk
    rw [hc] at hm
    obtain rfl : k + 1 = m := Option.some.inj hk
    obtain rfl : k = n := Option.some.inj hm
    exact ⟨hl, .braces ht (hws vs hvs) hc⟩

end TakesDerived

/-- **The readers return, and what they take without a report is derived from the grammar.** -/
theorem takesDerived (fuel : Nat) : TakesDerived fuel := by
  induction fuel with
  | zero => exact ⟨fun us l b s a h hf => by omega, fun t us l b a ht h hf => by omega,
      fun us l b s a hus h hf => by omega⟩
  | succ fuel ih => exact ⟨fun us l b s a h hf => ih.sequence_succ s a h hf,
      fun t us l b a ht h hf => ih.group_succ a ht h hf,
      fun us l b s a hus h hf => ih.branches_succ s a hus h hf⟩

/-! ## What is derived is taken without a report -/

/-- The readers take tokens of a symbol without a report. -/
def TakesCleanly : Symbol → List Token → Prop
  | .sequence, ts => ∀ ⦃us n fuel b⦄ s a, b.input.Ahead (ts ++ us) (some n) → Stops us →
      2 * (ts ++ us).length + 2 ≤ fuel →
      Succeeds (sequence fuel s a) b fun _ b' => b'.input.Ahead us (some n)
  | .group, ts => ∀ ⦃us n fuel b⦄ a, b.input.Ahead (ts ++ us) (some n) →
      2 * (ts ++ us).length + 1 ≤ fuel →
      Succeeds (group fuel a) b fun _ b' => b'.input.Ahead us (some n)
  | .branches, ts => ∀ ⦃c us n fuel b⦄ a, c.kind = .closing →
      b.input.Ahead (ts ++ c :: us) (some n) →
      2 * (ts ++ c :: us).length + 2 ≤ fuel →
      Succeeds (sequence fuel none a) b fun _ b₁ => ∀ s b₂, b₂.input = b₁.input →
        Succeeds (branches fuel s a) b₂ fun _ b' => b'.input.Ahead (c :: us) (some n)
  | .modifiers, _ | .modifier, _ => True

section Cleanly

variable {n : Nat} {ms ts bs : List Token} {t c : Token}

theorem TakesCleanly.rest (hts : TakesCleanly .sequence ts) (hms : Derives .modifiers ms)
    (hderives : Derives .sequence ts) (h : b.input.Ahead (ms ++ ts ++ us) (some n)) (hus : Stops us)
    (hf : 2 * (ms ++ ts ++ us).length + 3 ≤ fuel) (slot : Option Slot) (s : Option Strand) :
    Succeeds (do modifiers fuel slot; sequence fuel s a) b fun _ b' =>
      b'.input.Ahead us (some n) := by
  refine .bind ((succeeds_modifiers h (by omega) slot).mono fun _ b₁ hmods => ?_)
  obtain ⟨ms', us₁, heq, hms', hunmarked, h₁⟩ := hmods
  rw [List.append_assoc] at heq hf
  -- the reader takes no more and no fewer marks than the derivation has
  obtain ⟨rfl, rfl⟩ := Unmarked.append_inj heq (derives_modifiers_iff.1 hms) hms'
    (hderives.unmarked hus.unmarked) hunmarked
  rw [List.length_append] at hf
  exact hts s a h₁ hus (by omega)

theorem takesCleanly_nil : TakesCleanly .sequence [] :=
  fun _ _ _ _ s a h hus hf => sequence_of_stops h hus (by omega) s a

theorem takesCleanly_note (ht : t.IsNote) (hms : Derives .modifiers ms) (hts : Derives .sequence ts)
    (ih : TakesCleanly .sequence ts) : TakesCleanly .sequence (t :: (ms ++ ts)) := by
  intro us n fuel b s a h hus hf
  obtain ⟨degree, hdegree⟩ := ht.exists_degree
  have hkind := Token.kind_of_single? hdegree
  have hstop : ¬(t.kind = .closing ∨ t.isSeparator = true) := by
    rw [hkind, Token.isSeparator_of_digit (Token.lexeme_of_single? hdegree)]
    simp
  rw [List.cons_append, List.length_cons] at hf
  obtain ⟨fuel, rfl⟩ : ∃ k, fuel = k + 1 := ⟨fuel - 1, by omega⟩
  refine sequence_of_token h hstop (by rw [hkind]; exact nofun) (by omega)
    fun l₁ s' slot b₁ h₁ hnote => ?_
  obtain ⟨-, rfl⟩ := hnote.resolve_right fun hnot => hnot.1 ht
  exact ih.rest hms hts h₁ hus (by omega) slot s'

theorem takesCleanly_group {gs : List Token} (hgs : Derives .group gs) (hms : Derives .modifiers ms)
    (hts : Derives .sequence ts) (ihg : TakesCleanly .group gs) (ih : TakesCleanly .sequence ts) :
    TakesCleanly .sequence (gs ++ (ms ++ ts)) := by
  intro us n fuel b s a h hus hf
  cases hgs with
  | @braces o c bs ho hbs hc =>
    rw [List.append_assoc] at h hf
    have hlen : (o :: (bs ++ [c]) ++ (ms ++ ts ++ us)).length =
        bs.length + 2 + (ms ++ ts ++ us).length := by
      simp
      omega
    obtain ⟨fuel, rfl⟩ : ∃ k, fuel = k + 1 := ⟨fuel - 1, by omega⟩
    refine sequence_of_opening h ho (by omega) fun b₀ h₀ => ?_
    refine (ihg a h₀ (by omega)).mono fun _ b₁ h₁ s' slot b₂ hb₂ => ?_
    rw [← hb₂] at h₁
    exact ih.rest hms hts h₁ hus (by omega) slot s'

theorem takesCleanly_braces {o : Token} (ho : o.kind = .opening) (hc : c.kind = .closing)
    (ih : TakesCleanly .branches bs) : TakesCleanly .group (o :: (bs ++ [c])) := by
  intro us n fuel b a h hf
  have hassoc : o :: (bs ++ [c]) ++ us = o :: (bs ++ c :: us) := by simp
  rw [hassoc] at h hf
  rw [List.length_cons] at hf
  obtain ⟨fuel, rfl⟩ : ∃ k, fuel = k + 1 := ⟨fuel - 1, by omega⟩
  rw [group]
  refine .bind (succeeds_read (Reading.succeeds_next h (by omega) fun e₁ h₁ => ?_))
  rw [ho] at h₁
  refine .bind ((ih a hc h₁ (by omega)).mono fun r b₂ hbranches => ?_)
  refine .bind ((hbranches r.1 b₂ rfl).mono fun s' b₃ h₃ => ?_)
  refine .bind (succeeds_read (Reading.succeeds_peek h₃ (by omega) fun e₄ h₄ => ?_))
  rw [if_pos hc]
  refine .bind (succeeds_read (Reading.succeeds_next h₄ (by omega) fun e₅ h₅ => .of_pure ?_))
  rwa [hc] at h₅

theorem takesCleanly_last (ih : TakesCleanly .sequence ts) : TakesCleanly .branches ts := by
  intro c us n fuel b a hc h hf
  have hstops : Stops (c :: us) := by
    intro t ht
    exact .inl (by rwa [← Option.some.inj ht])
  have hnone : ∀ t, (c :: us).head? = some t → t.isSeparator = false := by
    intro t ht
    rw [← Option.some.inj ht]
    exact Token.isSeparator_of_kind (by rw [hc]; exact nofun)
  refine (ih none a h hstops hf).mono fun _ b₁ h₁ s b₂ hb₂ => ?_
  rw [← hb₂] at h₁
  exact branches_of_closing h₁ hnone (by omega) s a

theorem takesCleanly_more (ht : t.IsOneOf ['|', ',']) (ih : TakesCleanly .sequence ts)
    (ihb : TakesCleanly .branches bs) : TakesCleanly .branches (ts ++ t :: bs) := by
  intro c us n fuel b a hc h hf
  have hseparator := Token.isSeparator_iff.2 ht
  have hstops : Stops (t :: (bs ++ c :: us)) := by
    intro u hu
    exact .inr (by rwa [← Option.some.inj hu])
  rw [List.append_assoc, List.cons_append] at h hf
  refine (ih none a h hstops hf).mono fun _ b₁ h₁ s b₂ hb₂ => ?_
  rw [← hb₂] at h₁
  rw [List.length_append, List.length_cons] at hf
  obtain ⟨fuel, rfl⟩ : ∃ k, fuel = k + 1 := ⟨fuel - 1, by omega⟩
  exact branches_of_separator h₁ hseparator (by omega) fun b₃ h₃ => ihb a hc h₃ (by omega)

end Cleanly

/-- **What is derived from the grammar is taken without a report.** -/
theorem takesCleanly {x : Symbol} {ts : List Token} (h : Derives x ts) : TakesCleanly x ts := by
  induction h with
  | nil => exact takesCleanly_nil
  | note ht hms hts _ ih => exact takesCleanly_note ht hms hts ih
  | group hgs hms hts ihg _ ih => exact takesCleanly_group hgs hms hts ihg ih
  | braces ho _ hc ih => exact takesCleanly_braces ho hc ih
  | last _ ih => exact takesCleanly_last ih
  | more _ ht _ ih ihb => exact takesCleanly_more ht ih ihb
  | noModifier | modifiers | single | run => trivial

end Writing

/-! ## Sheets -/

/-- The part and the voice in use exist. -/
def Part.Placed (p : Part) : Prop := ∀ v, p.selected = some v → v < p.voices.length

def Draft.Placed (d : Draft) : Prop :=
  ∀ i, d.selected = some i → ∃ p, d.parts[i]? = some p ∧ p.Placed

/-- There is always a voice to go on with. -/
theorem Part.Placed.exists_voice {p : Part} (h : p.Placed) (defaults : Ambient) :
    ∃ v p' voice, p.currentVoice defaults = (v, p') ∧ p'.selected = some v ∧
      p'.voices[v]? = some voice := by
  unfold Part.currentVoice
  split
  · rename_i v hv
    exact ⟨v, p, _, rfl, hv, List.getElem?_eq_getElem (h v hv)⟩
  · unfold Part.selectVoice
    split
    · rename_i v hv
      have hlt := (List.findIdx?_eq_some_iff_findIdx_eq.1 hv).1
      exact ⟨v, _, _, rfl, rfl, List.getElem?_eq_getElem hlt⟩
    · exact ⟨_, _, _, rfl, rfl, List.getElem?_concat_length⟩

namespace Drafting

variable {d : Draft} {t : Token} {us : List Token} {l : Option Nat} {fuel : Nat}

theorem succeeds_read {α : Type} {m : Reading α} {Q : α → Draft → Prop}
    (h : Succeeds m d.input fun x e => Q x { d with input := e }) : Succeeds (read m) d Q := by
  obtain ⟨x, e, hm, hQ⟩ := h
  exact .of_eq (read_of_eq_some hm) hQ

theorem succeeds_currentPart (h : d.Placed) : Succeeds currentPart d fun i d' =>
    d'.input = d.input ∧ d'.selected = some i ∧ ∃ p, d'.parts[i]? = some p ∧ p.Placed := by
  unfold currentPart
  refine .bind (.of_get ?_)
  split
  · rename_i i hi
    exact .of_pure ⟨rfl, hi, h i hi⟩
  · refine .bind (.of_eq rfl (.bind (.of_modify (.of_pure ⟨rfl, rfl, ?_⟩))))
    exact ⟨_, List.getElem?_concat_length, nofun⟩

/-- Music is read as a sequence, whichever voice it goes to. -/
theorem succeeds_music {Q : Macro.Expander Directive → Prop} (hd : d.Placed)
    (h : ∀ a g settings, Succeeds (Writing.sequence fuel none a) ⟨d.input, g, settings⟩ fun _ b =>
      Q b.input) : Succeeds (music fuel) d fun _ d' => d'.Placed ∧ Q d'.input := by
  unfold music
  have hstarted : Draft.Placed { d with started := true } := hd
  refine .bind (.of_modify (.bind ((succeeds_currentPart hstarted).mono fun i d₁ hpart => ?_)))
  obtain ⟨hinput, hselected, p, hp, hplaced⟩ := hpart
  obtain ⟨v, p', voice, hcurrent, hv, hvoice⟩ := hplaced.exists_voice d₁.defaults
  refine .bind (.of_get ?_)
  simp only [hp, hcurrent, hvoice]
  obtain ⟨⟨s, a⟩, b, hseq, hQ⟩ := h voice.ambient p'.score p'.settings
  have hlift : (liftM (Writing.sequence fuel none voice.ambient ⟨d₁.input, p'.score, p'.settings⟩) :
      Drafting _) d₁ = some (((s, a), b), d₁) := by
    rw [show d₁.input = d.input from hinput, hseq]
    rfl
  refine .bind (.of_eq hlift (.of_eq rfl ⟨fun j hj => ?_, hQ⟩))
  -- the part and the voice that were read into are the ones in use
  obtain rfl : i = j := Option.some.inj (hselected.symm.trans hj)
  have hi : i < d₁.parts.length := (List.getElem?_eq_some_iff.1 hp).1
  refine ⟨_, List.getElem?_set_self hi, fun w hw => ?_⟩
  obtain rfl : v = w := Option.some.inj (hv.symm.trans hw)
  rw [List.length_set]
  exact (List.getElem?_eq_some_iff.1 hvoice).1

/-- The step of the reader for music at the top. -/
theorem all_of_token {R : Macro.Expander Directive → Prop} {Q : Draft → Prop}
    (h : d.input.Ahead (t :: us) l) (hd : d.Placed)
    (ht : ¬(t.kind = .closing ∨ t.isSeparator = true)) (hf : 1 ≤ fuel)
    (hsequence : ∀ a b, b.input.Ahead (t :: us) l →
      Succeeds (Writing.sequence fuel none a) b fun _ b' => R b'.input)
    (hrest : ∀ d' : Draft, d'.Placed → R d'.input → Succeeds (all fuel) d' fun _ => Q) :
    Succeeds (all (fuel + 1)) d fun _ => Q := by
  obtain ⟨hcontrol, heof⟩ := h.plain t List.mem_cons_self
  obtain ⟨hclosing, hseparator⟩ := not_or.1 ht
  rw [all]
  refine .bind (succeeds_read (Reading.succeeds_peek h hf fun e₁ h₁ => ?_))
  have hdirective : e₁.directive? t = none := by
    unfold Macro.Expander.directive?
    split
    · exact absurd (by assumption) hcontrol
    · rfl
  rw [if_neg (by simp [heof]), if_neg hclosing, if_neg hseparator]
  refine .bind (.of_get ?_)
  simp only [hdirective]
  have hmusic := succeeds_music (d := { d with input := e₁ }) hd fun a g settings =>
    hsequence a ⟨e₁, g, settings⟩ h₁
  exact .bind (hmusic.mono fun _ d' hd' => hrest d' hd'.1 hd'.2)

/-- At the end all braces have to be closed. -/
theorem all_of_nil (h : d.input.Ahead [] l) (hf : 2 ≤ fuel) :
    Succeeds (all fuel) d fun _ d' => d'.input.HasLevel (l.bind levelAtEnd) := by
  obtain ⟨fuel, rfl⟩ : ∃ k, fuel = k + 1 := ⟨fuel - 1, by omega⟩
  obtain ⟨t, e, hpeek, heof, -, hlevel⟩ := h.peek_end (by omega : 1 ≤ fuel)
  rw [all]
  refine .bind (succeeds_read (.of_eq hpeek ?_))
  rw [if_pos heof]
  exact .of_pure hlevel

/-- The step of the reader for a token that cannot stand at the top. -/
theorem all_of_stray {Q : Draft → Prop} (h : d.input.Ahead (t :: us) l) (hd : d.Placed)
    (hl : ∀ n, l = some n → n = 0) (ht : t.kind = .closing ∨ t.isSeparator = true) (hf : 1 ≤ fuel)
    (hrest : ∀ d' : Draft, d'.Placed → d'.input.Ahead us none → Succeeds (all fuel) d' fun _ => Q) :
    Succeeds (all (fuel + 1)) d fun _ => Q := by
  obtain ⟨-, heof⟩ := h.plain t List.mem_cons_self
  rw [all]
  refine .bind (succeeds_read (Reading.succeeds_peek h hf fun e₁ h₁ => ?_))
  rw [if_neg (by simp [heof])]
  by_cases hclosing : t.kind = .closing
  · rw [if_pos hclosing]
    refine .bind (succeeds_read (Reading.succeeds_next h₁ hf fun e₂ h₂ => hrest _ hd ?_))
    have hnone : l.bind (levelAfter t.kind) = none := by
      rw [hclosing]
      cases l with
      | none => rfl
      | some n =>
        rw [hl n rfl]
        rfl
    rwa [hnone] at h₂
  · rw [if_neg hclosing, if_pos (ht.resolve_left hclosing)]
    refine .bind (succeeds_read (Reading.succeeds_next h₁ hf fun e₂ h₂ => ?_))
    exact .bind (succeeds_read (.of_modify (hrest _ hd (h₂.report ..))))

/-- **All of a source without control sequences is read, and if nothing is reported it is derived
from the grammar.** -/
theorem all_takesDerived (h : d.input.Ahead us l) (hd : d.Placed) (hl : ∀ n, l = some n → n = 0)
    (hf : 2 * us.length + 3 ≤ fuel) :
    Succeeds (all fuel) d fun _ d' =>
      d'.input.reported = [] → l = some 0 ∧ Derives .sequence us := by
  induction fuel generalizing d us l with
  | zero => omega
  | succ fuel ih =>
    cases us with
    | nil =>
      refine (all_of_nil h (by omega)).mono fun _ d' hlevel hreported => ?_
      obtain ⟨n, hn, -⟩ := Option.bind_eq_some_iff.1 (hlevel.eq_some hreported)
      rw [hl n hn] at hn
      exact ⟨hn, .nil⟩
    | cons t us =>
      rw [List.length_cons] at hf
      by_cases hstop : t.kind = .closing ∨ t.isSeparator = true
      · refine all_of_stray h hd hl hstop (by omega) fun d' hd' h' => ?_
        refine (ih h' hd' nofun (by omega)).mono fun _ d'' hderives hreported => ?_
        cases (hderives hreported).1
      refine all_of_token h hd hstop (by omega)
        (fun a b hb =>
          (Writing.takesDerived fuel).sequence none a hb (by rw [List.length_cons]; omega))
        fun d' hd' hseq => ?_
      obtain ⟨vs, us', l', heq, hstops, h', hlevel⟩ := hseq
      cases vs with
      | nil => exact absurd (hstops t (by rw [show us' = _ from heq.symm]; rfl)) hstop
      | cons v vs =>
        have hlen := congrArg List.length heq
        rw [List.length_cons, List.length_append, List.length_cons] at hlen
        refine (ih h' hd' (fun n hn => hl n (hlevel n hn).1) (by omega)).mono
          fun _ d'' hderives hreported => ?_
        obtain ⟨hl', hus'⟩ := hderives hreported
        obtain ⟨hl, hvs⟩ := hlevel 0 hl'
        -- what is left after a sequence starts no other
        cases us' with
        | nil =>
          rw [heq, List.append_nil]
          exact ⟨hl, hvs⟩
        | cons u us' => exact absurd (hstops u rfl) hus'.not_stop

/-- **What is derived from the grammar is read without a report.** -/
theorem all_takesCleanly (h : d.input.Ahead us (some 0)) (hd : d.Placed)
    (hus : Derives .sequence us) (hf : 2 * us.length + 3 ≤ fuel) :
    Succeeds (all fuel) d fun _ d' => d'.input.reported = [] := by
  have hend : ∀ {d : Draft} {fuel : Nat}, d.input.Ahead [] (some 0) → 2 ≤ fuel →
      Succeeds (all fuel) d fun _ d' => d'.input.reported = [] :=
    fun h hf => (all_of_nil h hf).mono fun _ _ hlevel => hlevel.1
  cases us with
  | nil => exact hend h (by omega)
  | cons t us =>
    rw [List.length_cons] at hf
    obtain ⟨fuel, rfl⟩ : ∃ k, fuel = k + 1 := ⟨fuel - 1, by omega⟩
    refine all_of_token (R := fun e => e.Ahead [] (some 0)) h hd hus.not_stop (by omega)
      (fun a b hb => ?_) fun d' _ h' => hend h' (by omega)
    rw [← List.append_nil (t :: us)] at hb
    refine Writing.takesCleanly hus none a hb nofun ?_
    rw [List.append_nil, List.length_cons]
    omega

end Drafting

namespace Sheet

/-- **The reader accepts its grammar.** A text without control sequences is read within a number of
steps that only depends on its length, and nothing is reported if and only if its tokens, up to the
end mark, can be derived as a sequence. -/
theorem parse_accepts_iff (text : String) (limit fuel : Nat)
    (hplain : ∀ t ∈ Token.scan .music text, t.kind ≠ .control)
    (hf : 2 * (Token.scan .music text).length + 1 ≤ fuel) :
    ∃ r, parse fuel (.ofText .music text) limit = some r ∧
      (r.diagnostics = [] ↔
        Derives .sequence ((Token.scan .music text).takeWhile fun t => !t.isEof)) := by
  obtain ⟨ts, q, spaced, hscan, hshaped⟩ := Token.exists_scan .music text
  have hsource : Source.ofText .music text =
      ⟨ts ++ [.eof q spaced], (Token.scan .music text).getLast?.map (·.span.start)⟩ := by
    rw [Source.ofText, hscan]
  have htake : (Token.scan .music text).takeWhile (fun t => !t.isEof) = ts := by
    rw [hscan, List.takeWhile_append_of_pos fun t ht => by simp [(hshaped t ht).isEof_eq_false]]
    exact List.append_nil ts
  rw [htake, hsource]
  rw [hscan] at hplain hf
  rw [List.length_append, List.length_singleton] at hf
  have hends : ∀ t ∈ [Token.eof q spaced], t.isEof = true := by simp [Token.isEof, Token.eof]
  have hahead := Macro.Expander.ahead_ofSource
    ((Token.scan .music text).getLast?.map (·.span.start))
    Directive.scopes limit rfl
    (fun t ht => ⟨hplain t (List.mem_append_left _ ht), (hshaped t ht).isEof_eq_false⟩) hends
  have hplaced : ∀ input, Draft.Placed { input } := fun _ _ hi => by cases hi
  have hzero : ∀ n, some 0 = some n → n = 0 := fun n hn => (Option.some.inj hn).symm
  obtain ⟨_, d, hall, hderives⟩ :=
    Drafting.all_takesDerived (d := { input := _ }) hahead (hplaced _) hzero (by omega)
  refine ⟨_, parse_of_all hall, ?_⟩
  rw [Macro.Expander.diagnostics, List.reverse_eq_nil_iff]
  constructor
  · exact fun hreported => (hderives hreported).2
  · intro hts
    obtain ⟨_, d', hall', hreported⟩ :=
      Drafting.all_takesCleanly (d := { input := _ }) hahead (hplaced _) hts (by omega)
    have heq := hall.symm.trans hall'
    rwa [(Prod.mk.inj (Option.some.inj heq)).2]

/-- Groups in groups with both separators, empty branches, and all marks. -/
def groupsAndMarks : String := "1_-\x7b2#--,\x7b\x7d.*/ |\x7b|3b',\x7d--//\x7d** 0'7"

theorem parse_accepts_groupsAndMarks :
    ∃ r, parse 70 (.ofText .music groupsAndMarks) 100 = some r ∧ r.diagnostics = [] ∧
      ((Token.scan .music groupsAndMarks).takeWhile fun t => !t.isEof).length = 32 ∧
      Derives .sequence ((Token.scan .music groupsAndMarks).takeWhile fun t => !t.isEof) := by
  obtain ⟨r, hparse, hiff⟩ := parse_accepts_iff groupsAndMarks 100 70 (by decide +kernel)
    (by decide +kernel)
  have hdiagnostics : (parse 70 (.ofText .music groupsAndMarks) 100).any (·.diagnostics = []) := by
    decide +kernel
  rw [hparse] at hdiagnostics
  have hnil : r.diagnostics = [] := of_decide_eq_true hdiagnostics
  exact ⟨r, hparse, hnil, by decide +kernel, hiff.1 hnil⟩

end Sheet

end Jianpu
