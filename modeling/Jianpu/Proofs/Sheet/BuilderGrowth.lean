import Jianpu.Proofs.Schedule.Rendition
import Jianpu.Proofs.Sheet.Marks

/-!
# Phrases made by a builder

What is read of a phrase could have been made by a builder: a note is appended to a line, a group is
made on the lines above and put after, and marks are put into the slot of what was made last.
`sequence_phrase` says so, and that the plan of the line plays the phrase.

Later moves leave the nodes and slots that are there alone, apart from the last slot. So a
valuation that knows what is in the builder at the end (`Builder.Seen`) knew it at any time.
-/

namespace Jianpu

open Macro.Expander (Feeds)

/-! ## Contents -/

theorem Score.content?_size (g : Score) : g.content? g.nodes.size = none := by
  simp [content?]

theorem Slot.content?_insert (slot : Slot) (g : Score) (m n : Nat) :
    (slot.insert g m).2.content? n = g.content? n := by
  unfold Slot.insert
  split
  · exact Score.content?_setModifier ..
  · rfl
  · rfl

namespace Strand

theorem content?_append (s : Option Strand) (g : Score) (node n : Nat) :
    (append s g node).2.2.content? n = g.content? n := by
  cases s with
  | none => exact Score.content?_setModifier ..
  | some s => exact (Score.content?_setModifier ..).trans ((s.sameHolds_connect g node).content? n)

theorem content?_branch (s o : Option Strand) (g : Score) (n : Nat) :
    (branch s o g).2.content? n = g.content? n := by
  cases o with
  | none => rfl
  | some o =>
    cases s with
    | none => rfl
    | some s =>
      have hc : Score.SameHolds g (g.setSibling s.lastSibling o.head) :=
        .modifyNode _ _ (fun _ => rfl) fun _ => rfl
      exact hc.content? n

theorem content?_concat (s o : Option Strand) (g : Score) (n : Nat) :
    (concat s o g).2.2.content? n = g.content? n := by
  cases o with
  | none => rfl
  | some o =>
    cases s with
    | none => rfl
    | some s => exact (s.sameHolds_connect g o.head).content? n

end Strand

/-! ## Growth of a builder -/

namespace Builder

/-- A valuation that knows what is in a builder. -/
structure Seen (b : Builder) (l : Valuation) : Prop where
  content : ∀ n c, b.score.content? n = some c → l.content n = some c
  kinds : ∀ (k : Nat) (p : FilledSlot), b.slots[k]? = some p → l.kinds k = p.kinds

/-- Nothing is under construction above line `i`, and every node that was appended exists. -/
structure Ready (b : Builder) (i : Nat) : Prop where
  sound : b.Sound
  clear : ∀ j, i < j → b.line j = {}
  placed : ∀ n ∈ b.placed, b.score.content? n ≠ none

/-- A builder to which moves have added, without touching the lines below `i`. -/
structure Extends (b b' : Builder) (i : Nat) : Prop where
  run : ∃ ms, b.run ms = some b'
  ready : b'.Ready i
  lower : ∀ j, j < i → b'.line j = b.line j
  content : ∀ n c, b.score.content? n = some c → b'.score.content? n = some c
  slots : b.slots <+: b'.slots

variable {b b' b'' : Builder} {i j : Nat} {l : Valuation}

theorem Ready.mono (h : b.Ready i) (hij : i ≤ j) : b.Ready j :=
  ⟨h.sound, fun k hk => h.clear k (Nat.lt_of_le_of_lt hij hk), h.placed⟩

namespace Extends

theorem refl (h : b.Ready i) : b.Extends b i :=
  ⟨⟨[], rfl⟩, h, fun _ _ => rfl, fun _ _ hc => hc, List.prefix_refl _⟩

theorem trans (h : b.Extends b' j) (hij : i ≤ j) (h' : b'.Extends b'' i) : b.Extends b'' i where
  run := by
    obtain ⟨ms, hms⟩ := h.run
    obtain ⟨ms', hms'⟩ := h'.run
    exact ⟨ms ++ ms', by rw [run_append, hms]; exact hms'⟩
  ready := h'.ready
  lower k hk := (h'.lower k hk).trans (h.lower k (Nat.lt_of_lt_of_le hk hij))
  content n c hc := h'.content n c (h.content n c hc)
  slots := h.slots.trans h'.slots

theorem seen (h : b.Extends b' i) (hl : b'.Seen l) : b.Seen l where
  content n c hc := hl.content n c (h.content n c hc)
  kinds k p hp := by
    obtain ⟨ps, hps⟩ := h.slots
    refine hl.kinds k p ?_
    rw [← hps, List.getElem?_append_left (List.getElem?_eq_some_iff.1 hp).1, hp]

end Extends

/-! ## Moves while reading -/

/-- A note put at the end of a line. -/
theorem Ready.append (h : b.Ready i) (c : Content) (span : Span) :
    ∃ b' s slot, Strand.append (b.line i).strand (b.score.addNode c span).2 b.score.nodes.size =
        (s, slot, b'.score) ∧ b.Extends b' i ∧
      b'.line i = ⟨some s, (b.line i).plan.seq (.node b.score.nodes.size b.slots.length) none⟩ ∧
      b'.slots = b.slots ++ [⟨slot, []⟩] ∧
      ∀ n, b'.score.content? n =
        if n = b.score.nodes.size then some c else b.score.content? n := by
  obtain ⟨s, slot, g, hr⟩ : ∃ s slot g, Strand.append (b.line i).strand
      (b.score.addNode c span).2 b.score.nodes.size = (s, slot, g) := ⟨_, _, _, rfl⟩
  have hsize : b.score.nodes.size < (b.score.addNode c span).2.nodes.size := by
    simp [Score.addNode]
  have hfresh : b.score.nodes.size ∉ b.placed := fun hmem => h.placed _ hmem b.score.content?_size
  have hrun : b.run [.node c span, .append i b.score.nodes.size] = some
      { score := g
        line := Function.update b.line i
          ⟨some s, (b.line i).plan.seq (.node b.score.nodes.size b.slots.length) none⟩
        slots := b.slots ++ [⟨slot, []⟩]
        placed := b.score.nodes.size :: b.placed } := by
    simp only [run, move, Option.bind_some, if_pos (And.intro hsize hfresh), hr]
  have hcontent : ∀ n, g.content? n =
      if n = b.score.nodes.size then some c else b.score.content? n := by
    intro n
    have happend := Strand.content?_append (b.line i).strand (b.score.addNode c span).2
      b.score.nodes.size n
    rwa [hr, Score.content?_addNode] at happend
  have hkeep : ∀ n c', b.score.content? n = some c' → g.content? n = some c' := by
    intro n c' hc
    have hne : n ≠ b.score.nodes.size := by
      rintro rfl
      rw [Score.content?_size] at hc
      cases hc
    rw [hcontent, if_neg hne, hc]
  refine ⟨_, s, slot, ?_, ⟨⟨_, hrun⟩, ⟨h.sound.run _ hrun, ?_, ?_⟩, ?_, hkeep,
    List.prefix_append ..⟩, Function.update_self .., rfl, hcontent⟩
  · exact hr
  · intro j hj
    exact (Function.update_of_ne (Nat.ne_of_gt hj) ..).trans (h.clear j hj)
  · intro n hn
    rcases List.mem_cons.1 hn with rfl | hn
    · rw [hcontent, if_pos rfl]
      exact Option.some_ne_none c
    · obtain ⟨c', hc'⟩ := Option.ne_none_iff_exists'.1 (h.placed n hn)
      rw [hkeep n c' hc']
      exact Option.some_ne_none c'
  · exact fun j hj => Function.update_of_ne (Nat.ne_of_lt hj) ..

/-- The strand of the line above was put to that of a line. -/
theorem Ready.merged (h : b.Ready (i + 1)) (hrun : ∃ ms, b.run ms = some b') {line : Line}
    (hline : b'.line = Function.update (Function.update b.line i line) (i + 1) {})
    (hplaced : b'.placed = b.placed)
    (hcontent : ∀ n, b'.score.content? n = b.score.content? n)
    (hslots : b.slots <+: b'.slots) : b.Extends b' i where
  run := hrun
  ready := by
    obtain ⟨ms, hms⟩ := hrun
    refine ⟨h.sound.run ms hms, fun j hj => ?_, fun n hn => ?_⟩
    · rw [hline]
      by_cases hji : j = i + 1
      · rw [hji, Function.update_self]
      · rw [Function.update_of_ne hji, Function.update_of_ne (Nat.ne_of_gt hj)]
        exact h.clear j (by omega)
    · rw [hcontent]
      exact h.placed n (hplaced ▸ hn)
  lower j hj := by
    rw [hline, Function.update_of_ne (by omega), Function.update_of_ne (Nat.ne_of_lt hj)]
  content n c hc := (hcontent n).trans hc
  slots := hslots

/-- A branch put beside the strand of a line. -/
theorem Ready.branch (h : b.Ready (i + 1)) :
    ∃ b', Strand.branch (b.line i).strand (b.line (i + 1)).strand b.score =
        ((b'.line i).strand, b'.score) ∧ b.Extends b' i ∧
      (b'.line i).plan = (b.line i).plan.branch (b.line (i + 1)).plan ∧
      ∀ n, b'.score.content? n = b.score.content? n := by
  obtain ⟨s, g, hr⟩ : ∃ s g, Strand.branch (b.line i).strand (b.line (i + 1)).strand b.score =
      (s, g) := ⟨_, _, rfl⟩
  have hne : i ≠ i + 1 := Nat.ne_of_lt (Nat.lt_succ_self i)
  have hrun : b.run [.branch i (i + 1)] = some { b with
      score := g
      line := Function.update (Function.update b.line i
        ⟨s, (b.line i).plan.branch (b.line (i + 1)).plan⟩) (i + 1) {} } := by
    simp only [run, move, if_neg hne, hr, Option.bind_some]
  have hcontent := Strand.content?_branch (b.line i).strand (b.line (i + 1)).strand b.score
  rw [hr] at hcontent
  refine ⟨_, ?_, h.merged ⟨_, hrun⟩ rfl rfl hcontent (List.prefix_refl _), ?_, hcontent⟩
  · simp only [Function.update_of_ne hne, Function.update_self, hr]
  · simp only [Function.update_of_ne hne, Function.update_self]

/-- A group put after the strand of a line. -/
theorem Ready.concat (h : b.Ready (i + 1)) :
    ∃ b' slot, Strand.concat (b.line i).strand (b.line (i + 1)).strand b.score =
        ((b'.line i).strand, slot, b'.score) ∧ b.Extends b' i ∧
      (b'.line i).plan = (b.line i).plan.seq (b.line (i + 1)).plan
        (slot.map fun _ => b.slots.length) ∧
      b'.slots = b.slots ++ slot.toList.map (⟨·, []⟩) ∧
      (slot = none → (b.line (i + 1)).nodes = []) ∧
      ∀ n, b'.score.content? n = b.score.content? n := by
  obtain ⟨s, slot, g, hr⟩ : ∃ s slot g, Strand.concat (b.line i).strand
      (b.line (i + 1)).strand b.score = (s, slot, g) := ⟨_, _, _, rfl⟩
  have hne : i ≠ i + 1 := Nat.ne_of_lt (Nat.lt_succ_self i)
  have hrun : b.run [.concat i (i + 1)] = some { b with
      score := g
      line := Function.update (Function.update b.line i
        ⟨s, (b.line i).plan.seq (b.line (i + 1)).plan (slot.map fun _ => b.slots.length)⟩)
        (i + 1) {}
      slots := b.slots ++ slot.toList.map (⟨·, []⟩) } := by
    simp only [run, move, if_neg hne, hr, Option.bind_some]
  have hcontent := Strand.content?_concat (b.line i).strand (b.line (i + 1)).strand b.score
  rw [hr] at hcontent
  refine ⟨_, slot, ?_, h.merged ⟨_, hrun⟩ rfl rfl hcontent (List.prefix_append ..), ?_, rfl, ?_,
    hcontent⟩
  · simp only [Function.update_of_ne hne, Function.update_self, hr]
  · simp only [Function.update_of_ne hne, Function.update_self]
  · rintro rfl
    -- only an empty group has no slot
    have hline := h.sound.line (i + 1)
    cases ho : (b.line (i + 1)).strand with
    | none =>
      rw [Line.Sound, ho] at hline
      exact hline
    | some o =>
      rw [ho] at hr
      cases hs : (b.line i).strand <;> simp [hs, Strand.concat] at hr

/-- The suffixes `ks` were put into the last slot, which is `slot` now, and nothing else was
done. -/
structure Suffixed (b b' : Builder) (ps : List FilledSlot) (slot : Slot) (ks : List Modifier.Kind) :
    Prop where
  run : ∃ ms, b.run ms = some b'
  line : b'.line = b.line
  placed : b'.placed = b.placed
  content? : ∀ n, b'.score.content? n = b.score.content? n
  slots : b'.slots = ps ++ [⟨slot, ks⟩]

namespace Suffixed

variable {ps : List FilledSlot} {slot : Slot} {ks : List Modifier.Kind}

/-- A further suffix. -/
theorem suffix (h : b.Suffixed b' ps slot ks) (kind : Modifier.Kind) (span : Span) :
    ∃ b'' slot', slot.insert (b'.score.addModifier kind span).2 (b'.score.addModifier kind span).1 =
        (slot', b''.score) ∧ b.Suffixed b'' ps slot' (ks ++ [kind]) := by
  obtain ⟨slot', g, hr⟩ : ∃ slot' g, slot.insert (b'.score.addModifier kind span).2
      (b'.score.addModifier kind span).1 = (slot', g) := ⟨_, _, rfl⟩
  obtain ⟨ms, hms⟩ := h.run
  have hfilled : b'.slots[ps.length]? = some ⟨slot, ks⟩ := by
    rw [h.slots, List.getElem?_concat_length]
  have hrun : b.run (ms ++ [.suffix ps.length kind span]) = some { b' with
      score := g
      slots := b'.slots.set ps.length ⟨slot', ks ++ [kind]⟩ } := by
    rw [run_append, hms]
    simp only [Builder.run, Builder.move, Option.bind_some, hfilled, Option.map_some, hr]
  refine ⟨_, slot', ?_, ⟨_, hrun⟩, h.line, h.placed, fun n => ?_, ?_⟩
  · exact hr
  · have hcontent := slot.content?_insert (b'.score.addModifier kind span).2
      (b'.score.addModifier kind span).1 n
    rw [hr] at hcontent
    exact hcontent.trans (h.content? n)
  · simp [h.slots]

theorem extends_of (hs : b'.Suffixed b'' b.slots slot ks) (h : b.Extends b' i) :
    b.Extends b'' i := by
  obtain ⟨ms, hms⟩ := h.run
  obtain ⟨ms', hms'⟩ := hs.run
  refine ⟨⟨ms ++ ms', by rw [run_append, hms]; exact hms'⟩, ⟨h.ready.sound.run ms' hms', ?_, ?_⟩,
    ?_, ?_, ?_⟩
  · rw [hs.line]
    exact h.ready.clear
  · intro n hn
    rw [hs.content?]
    exact h.ready.placed n (hs.placed ▸ hn)
  · rw [hs.line]
    exact h.lower
  · intro n c hc
    rw [hs.content?]
    exact h.content n c hc
  · rw [hs.slots]
    exact List.prefix_append ..

/-- A valuation that knows the builder knows the suffixes. -/
theorem kinds (hs : b.Suffixed b' ps slot ks) (hl : b'.Seen l) : l.kinds ps.length = ks :=
  hl.kinds ps.length ⟨slot, ks⟩ (by rw [hs.slots, List.getElem?_concat_length])

end Suffixed

/-- A builder was reached whose last slot is `slot`, with the suffixes `ks`. -/
def Holding (b : Builder) (ps : List FilledSlot) (slot : Option Slot) (g : Score)
    (ks : List Modifier.Kind) : Prop :=
  ∃ b' slot', slot = some slot' ∧ g = b'.score ∧ b.Suffixed b' ps slot' ks

end Builder

namespace Writing

variable {b : Builder} {F : Macro.Expander Directive → List Token → Prop} [Feed F]
  {e : Macro.Expander Directive} {rest : List Token} {marks : List Mark} {fuel : Nat}

/-- Marks go into the last slot. -/
theorem modifiers_last {ps : List FilledSlot} {slot : Slot} (hb : b.slots = ps ++ [⟨slot, []⟩])
    (h : Spells F e (Mark.render marks) rest) (hrest : Unmarked rest)
    (hf : marks.length + 3 ≤ fuel) (settings : Settings) :
    ∃ b' e' slot', modifiers fuel (some slot) ⟨e, b.score, settings⟩ =
        some ((), ⟨e', b'.score, settings⟩) ∧ F e' rest ∧
      b.Suffixed b' ps slot' (Mark.kinds marks) := by
  have hstep : ∀ slot ks kind span input g settings, b.Holding ps slot g ks →
      ∃ slot' g', insert slot kind span ⟨input, g, settings⟩ = some (slot', ⟨input, g', settings⟩) ∧
        b.Holding ps slot' g' (ks ++ [kind]) := by
    rintro _ ks kind span input _ settings ⟨b', slot, rfl, rfl, hs⟩
    obtain ⟨b'', slot', hr, hs'⟩ := hs.suffix kind span
    refine ⟨some slot', b''.score, ?_, b'', slot', rfl, rfl, hs'⟩
    simp only [insert, write, hr]
  have hstart : b.Holding ps (some slot) b.score [] :=
    ⟨b, slot, rfl, rfl, ⟨[], rfl⟩, rfl, rfl, fun _ => rfl, hb⟩
  obtain ⟨_, e', _, hmods, hfeeds, b', slot', -, rfl, hs⟩ :=
    modifiers_marks hstep h hrest hf _ hstart settings
  exact ⟨b', e', slot', hmods, hfeeds, hs⟩

/-- The marks of an empty group do nothing. -/
theorem modifiers_none (h : Spells F e (Mark.render marks) rest) (hrest : Unmarked rest)
    (hf : marks.length + 3 ≤ fuel) (g : Score) (settings : Settings) :
    ∃ e', modifiers fuel none ⟨e, g, settings⟩ = some ((), ⟨e', g, settings⟩) ∧
      F e' rest := by
  obtain ⟨_, e', _, hmods, hfeeds, -, rfl⟩ :=
    modifiers_marks (R := fun slot g' _ => slot = none ∧ g' = g)
      (by
        rintro _ ks kind span input _ settings ⟨rfl, rfl⟩
        exact ⟨none, _, rfl, rfl, rfl⟩)
      h hrest hf [] ⟨rfl, rfl⟩ settings
  exact ⟨e', hmods, hfeeds⟩

/-- Marks go into the slot of what was just made, if it has one. -/
theorem modifiers_slot {b' : Builder} {i : Nat} {slot : Option Slot} (hext : b.Extends b' i)
    (hslots : b'.slots = b.slots ++ slot.toList.map (⟨·, []⟩))
    (h : Spells F e (Mark.render marks) rest) (hrest : Unmarked rest)
    (hf : marks.length + 3 ≤ fuel) (settings : Settings) :
    ∃ b'' e', modifiers fuel slot ⟨e, b'.score, settings⟩ = some ((), ⟨e', b''.score, settings⟩) ∧
      F e' rest ∧ b.Extends b'' i ∧ b''.line = b'.line ∧
      (∀ n, b''.score.content? n = b'.score.content? n) ∧
      ∀ l, b''.Seen l → slot ≠ none → l.kinds b.slots.length = Mark.kinds marks := by
  cases slot with
  | none =>
    obtain ⟨e', hmods, hfeeds⟩ := modifiers_none h hrest hf b'.score settings
    exact ⟨b', e', hmods, hfeeds, hext, rfl, fun _ => rfl, fun l _ hne => absurd rfl hne⟩
  | some slot =>
    obtain ⟨b'', e', slot', hmods, hfeeds, hs⟩ := modifiers_last hslots h hrest hf settings
    exact ⟨b'', e', hmods, hfeeds, hs.extends_of hext, hs.line, hs.content?,
      fun l hl _ => hs.kinds hl⟩

end Writing

end Jianpu
