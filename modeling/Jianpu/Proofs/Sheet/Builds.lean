import Jianpu.Proofs.Sheet.PhraseReading

/-!
# Whatever is read could have been made by a builder

The music of a voice is read into the score by the moves of a builder, whether or not the source is
in order: `Writing.builds`. A sequence grows on a line, a group on the line above, and a further
branch of it on the line above that.
-/

namespace Jianpu

/-! ## Steps that leave the score alone -/

namespace Writing

variable {fuel : Nat} {body : Body}

/-- Reading from the source leaves the score alone. -/
theorem yields_read_score {α : Type} {m : Reading α} {Q : α → Body → Prop}
    (h : ∀ x body', body'.score = body.score → Q x body') : Yields (read m) body Q :=
  yields_read fun x _ _ => h x _ rfl

theorem yields_directive (d : Directive) (t : Token) (a : Ambient) :
    Yields (directive fuel d t a) body fun _ body' => body'.score = body.score := by
  cases d with
  | tempo | bpm | times | div =>
    unfold directive
    exact .bind (yields_read_score fun x body' heq => .of_pure heq)
  | major | minor | vel | octave =>
    unfold directive
    refine .bind (yields_read_score fun x body' heq => ?_)
    cases x <;> exact .of_pure heq
  | instrument | volume =>
    unfold directive
    refine .bind (.of_get (.bind (yields_read_score fun x body' heq => ?_)))
    exact .bind (.of_modify (.of_pure heq))
  | track | voice =>
    unfold directive
    exact .of_pure rfl

/-! ## Suffixes -/

variable {b b' : Builder} {i : Nat}

/-- The suffixes of an empty group are lost. -/
theorem yields_modifiers_none :
    Yields (modifiers fuel none) body fun _ body' => body'.score = body.score := by
  induction fuel generalizing body with
  | zero => exact .of_failure
  | succ fuel ih =>
    rw [modifiers]
    refine .bind (yields_read_score fun x body' heq => ?_)
    cases x with
    | none => exact .of_pure heq
    | some x => exact .bind (.of_pure (ih.mono fun _ _ heq' => heq'.trans heq))

/-- Suffixes go into the last slot. -/
theorem yields_modifiers_some {ps : List FilledSlot} {slot : Slot} {ks : List Modifier.Kind}
    (hs : b.Suffixed b' ps slot ks) (hscore : b'.score = body.score) :
    Yields (modifiers fuel (some slot)) body fun _ body' =>
      ∃ b'' slot' ks', b.Suffixed b'' ps slot' ks' ∧ b''.score = body'.score := by
  induction fuel generalizing body b' slot ks with
  | zero => exact .of_failure
  | succ fuel ih =>
    rw [modifiers]
    refine .bind (yields_read_score fun x body₁ heq => ?_)
    have hscore₁ := hscore.trans heq.symm
    cases x with
    | none => exact .of_pure ⟨b', slot, ks, hs, hscore₁⟩
    | some x =>
      obtain ⟨b'', slot', hinsert, hs'⟩ := hs.suffix x.1 x.2
      have hstep : insert (some slot) x.1 x.2 body₁ =
          some (some slot', { body₁ with score := b''.score }) := by
        rw [hscore₁] at hinsert
        simp only [insert, write, hinsert]
      exact .bind (.of_eq hstep (ih hs' rfl))

/-- Suffixes go into the slot of what was just made, if it has one. -/
theorem yields_modifiers (slot : Option Slot) (hext : b.Extends b' i)
    (hslots : b'.slots = b.slots ++ slot.toList.map (⟨·, []⟩))
    (hscore : b'.score = body.score) :
    Yields (modifiers fuel slot) body fun _ body' =>
      ∃ b'', b.Extends b'' i ∧ b''.line = b'.line ∧ b''.score = body'.score := by
  cases slot with
  | none =>
    refine yields_modifiers_none.mono fun _ body' heq => ⟨b', hext, rfl, hscore.trans heq.symm⟩
  | some slot =>
    have hstart : b'.Suffixed b' b.slots slot [] :=
      ⟨⟨[], rfl⟩, rfl, rfl, fun _ => rfl, hslots⟩
    refine (yields_modifiers_some hstart hscore).mono ?_
    rintro - body' ⟨b'', slot', ks', hs, heq⟩
    exact ⟨b'', hs.extends_of hext, hs.line, heq⟩

end Writing

/-! ## Sequences and groups -/

/-- Moves from line `i` upwards lead to a builder with a strand on line `i` and a score. -/
def Builder.Builds (b : Builder) (i : Nat) (s : Option Strand) (g : Score) : Prop :=
  ∃ b', b.Extends b' i ∧ (b'.line i).strand = s ∧ b'.score = g

theorem Builder.Extends.builds {b b' : Builder} {i : Nat} {s : Option Strand} {g : Score}
    (h : b.Extends b' i) (h' : b'.Builds i s g) : b.Builds i s g := by
  obtain ⟨b'', hext, hs, hg⟩ := h'
  exact ⟨b'', h.trans (Nat.le_refl i) hext, hs, hg⟩

namespace Writing

variable {fuel : Nat}

/-- What is read of a sequence, a group or its further branches within a number of steps is built on
a line. -/
structure Builds (fuel : Nat) : Prop where
  sequence : ∀ {b : Builder} {i : Nat} (s : Option Strand) (a : Ambient) {body : Body}, b.Ready i →
    (b.line i).strand = s → b.score = body.score →
    Yields (sequence fuel s a) body fun r body' => b.Builds i r.1 body'.score
  group : ∀ {b : Builder} {i : Nat} (a : Ambient) {body : Body}, b.Ready i → b.line i = {} →
    b.score = body.score → Yields (group fuel a) body fun s body' => b.Builds i s body'.score
  branches : ∀ {b : Builder} {i : Nat} (s : Option Strand) (a : Ambient) {body : Body}, b.Ready i →
    (b.line i).strand = s → b.score = body.score →
    Yields (branches fuel s a) body fun s' body' => b.Builds i s' body'.score

theorem Builds.zero : Builds 0 where
  sequence _ _ _ _ _ _ := .of_failure
  group _ _ _ _ _ := .of_failure
  branches _ _ _ _ _ _ := .of_failure

variable {b : Builder} {i : Nat} {body : Body}

/-- A node at the end of a sequence, then its suffixes. -/
theorem yields_append (c : Content) (span : Span) {s : Option Strand} (h : b.Ready i)
    (hs : (b.line i).strand = s) (hscore : b.score = body.score) :
    Yields (append s c span) body fun r body' => ∃ b', b.Extends b' i ∧
      (b'.line i).strand = some r.1 ∧ b'.slots = b.slots ++ [⟨r.2, []⟩] ∧
      b'.score = body'.score := by
  obtain ⟨input, g, settings⟩ := body
  obtain rfl : b.score = g := hscore
  obtain ⟨b', strand, slot, happend, hext, hline, hslots, -⟩ := h.append c span
  rw [hs] at happend
  refine .of_eq (append_of_eq happend input settings) ⟨b', hext, ?_, hslots, rfl⟩
  rw [hline]

theorem Builds.sequence_succ (h : Builds fuel) (s : Option Strand) (a : Ambient) {body : Body}
    (hready : b.Ready i) (hs : (b.line i).strand = s) (hscore : b.score = body.score) :
    Yields (Writing.sequence (fuel + 1) s a) body fun r body' => b.Builds i r.1 body'.score := by
  rw [Writing.sequence]
  refine .bind (yields_read_score fun t body₁ heq => ?_)
  have hscore₁ := hscore.trans heq.symm
  have hstay : b.Builds i s body₁.score := ⟨b, .refl hready, hs, hscore₁⟩
  split
  · exact .of_pure hstay
  · split
    · -- a group
      have hclear := hready.clear (i + 1) (Nat.lt_succ_self i)
      refine .bind ((h.group a (hready.mono (Nat.le_succ i)) hclear hscore₁).mono ?_)
      rintro o ⟨input₂, g₂, settings₂⟩ ⟨b₂, hext₂, ho, rfl⟩
      obtain ⟨b₃, slot, hconcat, hext₃, -, hslots, -, -⟩ := hext₂.ready.concat
      rw [hext₂.lower i (Nat.lt_succ_self i), hs, ho] at hconcat
      refine .bind (.of_eq (concat_of_eq hconcat input₂ settings₂) ?_)
      refine .bind ((yields_modifiers slot hext₃ hslots rfl).mono ?_)
      rintro - body₄ ⟨b₄, hext₄, hline₄, hscore₄⟩
      refine (h.sequence _ a hext₄.ready (by rw [hline₄]) hscore₄).mono fun r body' hbuilds => ?_
      exact (hext₂.trans (Nat.le_succ i) hext₄).builds hbuilds
    · refine .bind (.of_get ?_)
      split
      · exact .of_pure hstay
      · exact .of_pure hstay
      · -- a directive, with or without a node of its own
        refine .bind (yields_read_score fun _ body₂ heq₂ =>
          .bind ((yields_directive _ t a).mono ?_))
        rintro ⟨c, a'⟩ body₃ heq₃
        have hscore₃ := (hscore₁.trans heq₂.symm).trans heq₃.symm
        cases c with
        | none => exact h.sequence s a' hready hs hscore₃
        | some c =>
          refine .bind ((yields_append c t.span hready hs hscore₃).mono ?_)
          rintro ⟨s', slot⟩ body₄ ⟨b₄, hext₄, hs₄, -, hscore₄⟩
          exact (h.sequence (some s') a' hext₄.ready hs₄ hscore₄).mono fun r body' hbuilds =>
            hext₄.builds hbuilds
      · -- a note
        refine .bind (yields_read_score fun t' body₂ heq₂ =>
          .bind (yields_read_score fun c body₃ heq₃ => ?_))
        have hscore₃ := (hscore₁.trans heq₂.symm).trans heq₃.symm
        refine .bind ((yields_append c t'.span hready hs hscore₃).mono ?_)
        rintro ⟨s', slot⟩ body₄ ⟨b₄, hext₄, hs₄, hslots, hscore₄⟩
        refine .bind ((yields_modifiers (some slot) hext₄ hslots hscore₄).mono ?_)
        rintro - body₅ ⟨b₅, hext₅, hline₅, hscore₅⟩
        refine (h.sequence (some s') a hext₅.ready (by rw [hline₅]; exact hs₄) hscore₅).mono ?_
        exact fun r body' hbuilds => hext₅.builds hbuilds

theorem Builds.group_succ (h : Builds fuel) (a : Ambient) {body : Body} (hready : b.Ready i)
    (hclear : b.line i = {}) (hscore : b.score = body.score) :
    Yields (Writing.group (fuel + 1) a) body fun s body' => b.Builds i s body'.score := by
  rw [Writing.group]
  refine .bind (yields_read_score fun _ body₁ heq₁ => ?_)
  refine .bind ((h.sequence none a hready (by rw [hclear]) (hscore.trans heq₁.symm)).mono ?_)
  rintro ⟨s, a'⟩ body₂ ⟨b₂, hext₂, hs₂, hscore₂⟩
  refine .bind ((h.branches s a hext₂.ready hs₂ hscore₂).mono ?_)
  intro s' body₃ hbuilds
  replace hbuilds := hext₂.builds hbuilds
  refine .bind (yields_read_score fun t body₄ heq₄ => ?_)
  rw [← heq₄] at hbuilds
  split <;> exact .bind (yields_read_score fun _ body₅ heq₅ => .of_pure (heq₅ ▸ hbuilds))

theorem Builds.branches_succ (h : Builds fuel) (s : Option Strand) (a : Ambient) {body : Body}
    (hready : b.Ready i) (hs : (b.line i).strand = s) (hscore : b.score = body.score) :
    Yields (Writing.branches (fuel + 1) s a) body fun s' body' => b.Builds i s' body'.score := by
  rw [Writing.branches]
  refine .bind (yields_read_score fun t body₁ heq₁ => ?_)
  have hscore₁ := hscore.trans heq₁.symm
  split
  · have hclear := hready.clear (i + 1) (Nat.lt_succ_self i)
    refine .bind (yields_read_score fun _ body₂ heq₂ => ?_)
    refine .bind ((h.sequence none a (hready.mono (Nat.le_succ i)) (by rw [hclear])
      (hscore₁.trans heq₂.symm)).mono ?_)
    rintro ⟨o, a'⟩ ⟨input₃, g₃, settings₃⟩ ⟨b₃, hext₃, ho, rfl⟩
    obtain ⟨b₄, hbranch, hext₄, -, -⟩ := hext₃.ready.branch
    rw [hext₃.lower i (Nat.lt_succ_self i), hs, ho] at hbranch
    refine .bind (.of_eq (branch_of_eq hbranch input₃ settings₃) ?_)
    refine (h.branches _ a hext₄.ready rfl rfl).mono fun s' body' hbuilds => ?_
    exact (hext₃.trans (Nat.le_succ i) hext₄).builds hbuilds
  · exact .of_pure ⟨b, .refl hready, hs, hscore₁⟩

/-- **Whatever is read could have been made by a builder.** -/
theorem builds (fuel : Nat) : Builds fuel := by
  induction fuel with
  | zero => exact .zero
  | succ fuel ih => exact ⟨ih.sequence_succ, ih.group_succ, ih.branches_succ⟩

end Writing

end Jianpu
