import Jianpu.Proofs.Sheet.Bookkeeping
import Jianpu.Proofs.Sheet.Tracks

/-!
# Tracks that are asked for

A track directive asks for a track, and music outside any track makes one that nobody asked for.
Such a part is implicit, and it stays so when a track directive asks for its name later on. So a
track that is asked for can be lost, and it is lost if and only if it has the name of an implicit
part, the source takes a track into use before it asks for any, and nothing but rests is met in its
part: `compile_keepsRequests`.

Whether a part is implicit is decided when it is made. A round of reading gives the parts that are
there no other marks, and a new part is marked by what the round is for (`Drafting.marked_round`).
So the marks at the end are known from the instructions of the source: `Drafting.marks_all`.
-/

namespace Jianpu

open Macro (Expander)

/-! ## What instructions ask for -/

namespace Instruction

/-- Whether an instruction asks for a track. -/
def asks : Instruction → Bool
  | track _ => true
  | voice _ | music _ | setting _ => false

/-- Whether the first track that is taken into use is not asked for. -/
def startsUnasked : List Instruction → Bool
  | [] | track _ :: _ => false
  | voice _ :: _ | music _ :: _ => true
  | setting _ :: is => startsUnasked is

variable {is : List Instruction}

/-- Such a track has the name of an implicit part. -/
theorem head?_used_of_startsUnasked (h : startsUnasked is = true) :
    (used none is).head? = some SheetState.unnamed := by
  induction is with
  | nil => cases h
  | cons i is ih =>
    cases i with
    | track name => cases h
    | voice name | music a => rfl
    | setting a => exact ih h

/-- A track that is asked for is taken into use. -/
theorem mem_used_of_track {name : String} (h : track name ∈ is) (u : Option String) :
    name ∈ used u is := by
  induction is generalizing u with
  | nil => cases h
  | cons i is ih =>
    rw [used, List.mem_append]
    rcases List.mem_cons.1 h with rfl | h
    · exact .inl (List.mem_singleton_self name)
    · exact .inr (ih h _)

end Instruction

/-! ## Marks of parts -/

namespace Draft

/-- Which parts of a draft are implicit. -/
def marks (d : Draft) : List Bool := d.parts.map (·.implicit)

/-- The parts keep their marks, and a new one is implicit if it is not asked for. Only the first
part can be such. -/
def Marked (asked : Bool) (d d' : Draft) : Prop :=
  d'.marks = d.marks ∨ d'.marks = d.marks ++ [!asked] ∧ (asked = false → d.parts = [])

/-- Whether there is an implicit part once the instructions `is` have been followed, too. -/
def unasked (d : Draft) (is : List Instruction) : Bool :=
  if d.marks = [] then Instruction.startsUnasked is else true ∈ d.marks

variable {d d' : Draft} {i : Nat} {p q : Part}

theorem marks_set (hp : d.parts[i]? = some p) (h : q.implicit = p.implicit) :
    marks { d with parts := d.parts.set i q } = d.marks := map_set_of_name_eq hp h

theorem marks_modify {f : Part → Part} (h : ∀ p, (f p).implicit = p.implicit) :
    marks { d with parts := d.parts.modify i f } = d.marks := by
  refine List.ext_getElem? fun k => ?_
  simp only [marks, List.getElem?_map, List.getElem?_modify]
  split <;> simp [Function.comp_def, h]

theorem marks_eq_nil : d.marks = [] ↔ d.roster.names = [] := by
  simp [marks, Roster.names, roster]

end Draft

namespace Drafting

variable {fuel : Nat} {d : Draft}

theorem marked_selectTrack : Yields selectTrack d fun _ d' => d.Marked true d' := by
  refine .bind (.of_modify (.bind (yields_read fun r e hr => ?_)))
  cases r with
  | none => exact .of_pure (.inl rfl)
  | some a =>
    refine .bind (.of_get ?_)
    dsimp only
    split
    · exact .bind (.of_pure (.of_modify (.inl rfl)))
    · refine .bind (.of_eq rfl (.of_modify (.inr ⟨?_, by simp⟩)))
      simp [Draft.marks]

/-- The part in use is made if there is none. -/
theorem marked_currentPart (hd : d.Kept) : Yields currentPart d fun _ d' => d.Marked false d' := by
  refine .bind (.of_get ?_)
  split
  · exact .of_pure (.inl rfl)
  · rename_i hnone
    have hcurrent : d.roster.current = none := by rw [Draft.roster, hnone]; rfl
    have hparts : d.parts = [] := List.map_eq_nil_iff.1 (hd.roster.tracks hcurrent)
    refine .bind (.of_eq rfl (.bind (.of_modify (.of_pure (.inr ⟨?_, fun _ => hparts⟩)))))
    simp [Draft.marks]

theorem marked_selectVoice (hd : d.Kept) : Yields selectVoice d fun _ d' => d.Marked false d' := by
  refine .bind (.of_modify (.bind (yields_read fun r e hr => ?_)))
  cases r with
  | none => exact .of_pure (.inl rfl)
  | some a =>
    refine .bind ((marked_currentPart (hd.reads e true)).mono fun i d₁ hmarked => .of_modify ?_)
    have hmarks := Draft.marks_modify (d := d₁) (i := i)
      (f := fun p => (p.selectVoice a.text d₁.defaults).2) fun p => by
        obtain ⟨voices, selected, hvoice⟩ := p.selectVoice_eq a.text d₁.defaults
        rw [hvoice]
    rw [Draft.Marked, hmarks]
    exact hmarked

theorem marked_setting (x : Directive) :
    Yields (setting fuel x) d fun _ d' => d'.marks = d.marks := by
  refine .bind (.of_get ?_)
  split
  · rename_i i p hchosen
    obtain ⟨j, -, hmap⟩ := Option.bind_eq_some_iff.1 hchosen
    obtain ⟨q, hq, heq⟩ := Option.map_eq_some_iff.1 hmap
    obtain ⟨rfl, rfl⟩ := Prod.mk.inj heq
    refine .bind (yields_read fun s e _ => .of_modify ?_)
    exact Draft.marks_set (d := { d with input := e }) hq rfl
  · exact .bind (yields_read fun s e _ => .of_modify rfl)

theorem marked_music (hd : d.Kept) : Yields (music fuel) d fun _ d' => d.Marked false d' := by
  refine .bind (.of_modify (.bind ((marked_currentPart (hd.reads d.input true)).mono ?_)))
  intro i d₁ hmarked
  refine .bind (.of_get ?_)
  split
  · rename_i p hp
    obtain ⟨voices, selected, hq⟩ := p.currentVoice_eq d₁.defaults
    generalize p.currentVoice d₁.defaults = r at hq ⊢
    obtain ⟨v, q⟩ := r
    dsimp only at hq ⊢
    split
    · refine .bind fun r d₂ heq => ?_
      obtain ⟨⟨⟨s, ambient⟩, b⟩, -, heq⟩ := Option.bind_eq_some_iff.1 heq
      obtain ⟨rfl, rfl⟩ := Prod.mk.inj (Option.some.inj heq)
      refine .of_eq rfl ?_
      rw [Draft.Marked, Draft.marks_set (d := { d₁ with input := b.input }) hp (by rw [hq])]
      exact hmarked
    · exact .of_pure hmarked
  · exact .of_pure hmarked

/-- **A round marks a new part by whether it is for a track directive.** -/
theorem marked_round (hd : d.Kept) (t : Token) : Yields (round fuel t) d fun _ d' =>
    d.Marked (d.input.directive? t = some .track) d' := by
  unfold round
  by_cases hclosing : t.kind = .closing
  · rw [if_pos hclosing]
    exact .bind (yields_read fun _ _ _ => .of_pure (.inl rfl))
  rw [if_neg hclosing]
  by_cases hseparator : t.isSeparator = true
  · rw [if_pos hseparator]
    exact .bind (yields_read fun _ _ _ => yields_read fun _ _ _ => .inl rfl)
  rw [if_neg hseparator]
  refine .bind (.of_get ?_)
  cases d.input.directive? t with
  | none => exact marked_music hd
  | some x =>
    cases x with
    | track => exact .bind (yields_read fun _ e _ => marked_selectTrack)
    | voice =>
      exact .bind (yields_read fun _ e _ => marked_selectVoice (hd.reads e d.started))
    | instrument | volume =>
      exact .bind (yields_read fun _ e _ => (marked_setting _).mono fun _ _ => .inl)
    | _ =>
      dsimp only
      by_cases hstarted : d.started = true
      · rw [if_pos hstarted]
        exact marked_music hd
      · rw [if_neg hstarted]
        refine .bind (yields_read fun _ e _ =>
          (yields_heading _ _).mono fun _ d' h => .inl ?_)
        exact congrArg (List.map Part.implicit) h.2.1.parts

end Drafting

/-- What a source says next asks for a track if it is a track directive. -/
theorem Reading.asks_instruction (fuel : Nat) (started : Bool) (t : Token)
    (e : Expander Directive) :
    Yields (instruction fuel started t) e fun r _ =>
      ∀ i ∈ r.1, i.asks = decide (e.directive? t = some .track) := by
  unfold instruction
  split
  · exact .bind fun _ _ _ => .of_pure (by simp)
  · split
    · exact .bind fun _ _ _ => .bind fun _ _ _ => .of_pure (by simp)
    · refine .bind (.of_get ?_)
      cases e.directive? t with
      | none => exact .bind fun _ _ _ => .of_pure (by simp [Instruction.asks])
      | some x =>
        cases x with
        | track | voice =>
          refine .bind fun _ _ _ => .bind fun a _ _ => .of_pure ?_
          cases a <;> simp [Instruction.asks]
        | instrument | volume =>
          exact .bind fun _ _ _ => .bind fun _ _ _ => .of_pure (by simp [Instruction.asks])
        | _ =>
          dsimp only
          split
          · exact .bind fun _ _ _ => .of_pure (by simp [Instruction.asks])
          · exact .bind fun _ _ _ => .bind fun _ _ _ => .of_pure (by simp)

/-! ## What becomes of the marks -/

namespace Draft

variable {d d' : Draft} {asked : Bool}

/-- Where there are parts, no further one is implicit. -/
theorem Marked.unasked_of_ne_nil (h : d.Marked asked d') (hne : d.marks ≠ [])
    (is js : List Instruction) : d'.unasked js = d.unasked is := by
  rcases h with heq | ⟨heq, hasked⟩
  · rw [unasked, unasked, heq, if_neg hne, if_neg hne]
  · have hparts : d.parts ≠ [] := fun hnil => hne (List.map_eq_nil_iff.2 hnil)
    have hasked : asked = true := Bool.eq_true_of_not_eq_false fun hfalse => hparts (hasked hfalse)
    rw [unasked, unasked, heq, if_neg hne, if_neg (by simp), hasked]
    simp

/-- The first part is implicit if it is not asked for. -/
theorem Marked.unasked_of_nil (h : d.Marked asked d') (hnil : d.marks = []) (hne : d'.marks ≠ [])
    (is : List Instruction) : d'.unasked is = !asked := by
  rcases h with heq | ⟨heq, -⟩
  · exact absurd (heq.trans hnil) hne
  · rw [hnil, List.nil_append] at heq
    rw [unasked, if_neg hne, heq]
    cases asked <;> rfl

/-- An instruction that is followed marks the first part if it makes it. -/
theorem Marked.unasked_eq (h : d.Marked asked d') {i : Option Instruction}
    (hroster : d'.roster = d.roster.run i.toList) (hasks : ∀ x ∈ i, x.asks = asked)
    (is : List Instruction) : d'.unasked is = d.unasked (i.toList ++ is) := by
  by_cases hnil : d.marks = []
  · have hnames := marks_eq_nil.1 hnil
    have hunasked : d.unasked (i.toList ++ is) = Instruction.startsUnasked (i.toList ++ is) :=
      if_pos hnil
    have hsame : d'.marks = [] → d'.unasked is = Instruction.startsUnasked is := fun h => if_pos h
    rw [marks_eq_nil, hroster] at hsame
    have hmade : d'.marks ≠ [] → d'.unasked is = !asked := fun hne => h.unasked_of_nil hnil hne is
    rw [ne_eq, marks_eq_nil, hroster] at hmade
    rw [hunasked]
    cases i with
    | none => exact hsame hnames
    | some i =>
      rw [← hasks i rfl] at hmade
      cases i with
      | setting a => exact hsame (Roster.names_adjust.trans hnames)
      | track name | voice name | music a =>
        refine hmade ?_
        simp [Roster.run, Roster.step, hnames, enlist]
  · exact h.unasked_of_ne_nil hnil _ _

end Draft

/-- **There is an implicit part at the end if and only if the source takes a track into use before
it asks for any.** -/
theorem Drafting.marks_all {fuel : Nat} {d : Draft} (hd : d.Kept) : Yields (all fuel) d fun _ d' =>
    ∃ is, Reading.instructions fuel d.started d.input = some (is, d'.input) ∧
      d'.unasked [] = d.unasked is := by
  induction fuel generalizing d with
  | zero => exact .of_failure
  | succ fuel ih =>
    rw [all_succ]
    refine .bind (yields_read fun t e ht => ?_)
    rw [Reading.instructions, bind_of_eq_some ht]
    by_cases heof : t.isEof = true
    · rw [if_pos heof, if_pos heof]
      exact .of_pure ⟨[], rfl, rfl⟩
    · rw [if_neg heof, if_neg heof]
      have hkept := hd.reads e d.started
      refine .bind fun u d₁ hround => ?_
      obtain ⟨i, hi, hkept₁, hroster₁⟩ := records_round t _ hkept u d₁ hround
      have hmarked := marked_round hkept t u d₁ hround
      have hasks := Reading.asks_instruction fuel d.started t e _ _ hi
      refine (ih hkept₁).mono ?_
      rintro - d₂ ⟨is, his, hunasked⟩
      refine ⟨i.toList ++ is, ?_, ?_⟩
      · rw [bind_of_eq_some hi]
        exact bind_pure_of_eq his fun is => i.toList ++ is
      · rw [hunasked]
        exact hmarked.unasked_eq hroster₁ hasks is

/-! ## Parts without events -/

theorem Score.soundsOf_eq_nil_iff (g : Score) (division channel n t : Nat) :
    g.soundsOf division channel n t = [] ↔ ∀ x, g.content? n = some x → x = .rest := by
  unfold soundsOf content?
  cases g.nodes[n]? with
  | none => simp
  | some node => cases hx : node.content <;> simp [hx]

namespace Part

variable {p : Part} {division channel : Nat}

/-- Nothing but rests is met when a part is played. -/
def Silent (p : Part) (division : Nat) : Prop :=
  ∀ v ∈ Queue.history p.joined.2 (p.joined.1.map (·.head)) division 0,
    ∀ x, p.joined.2.content? v.node = some x → x = .rest

theorem Paced.play_eq_nil_iff (h : p.Paced division channel) :
    Sheet.play p division channel = [] ↔ p.timeline division channel = [] := by
  have hevents : Sheet.play p division channel = [] ↔ p.heard division channel = [] := by
    rw [h.play_eq, ← List.map_eq_nil_iff (f := fun e : TimedEvent => e.event), Timeline.map_deltas,
      List.map_eq_nil_iff]
  -- What is heard last is what comes last, so that all is heard of nothing only.
  rw [hevents, ← List.getLast?_eq_none_iff, h.getLast?_heard, List.getLast?_eq_none_iff]

/-- The parts without events are the silent ones. -/
theorem Made.silent_iff (h : p.Made) (division : Nat) :
    p.Silent division ↔ Sheet.play p division 0 = [] := by
  have hpaced := h.paced division 0
  rw [hpaced.play_eq_nil_iff]
  obtain ⟨ns, start, -, hperforms⟩ := hpaced
  have hsort : p.timeline division 0 = [] ↔
      (Queue.history p.joined.2 (p.joined.1.map (·.head)) division 0).flatMap (·.events) = [] := by
    rw [← List.length_eq_zero_iff, timeline, (Timeline.sort_perm _).length_eq,
      List.length_eq_zero_iff]
  rw [hsort, List.flatMap_eq_nil_iff]
  refine forall₂_congr fun v hv => ?_
  rw [(hperforms.visits v hv).2, Score.soundsOf_eq_nil_iff]

end Part

/-! ## Tracks that are lost -/

namespace Sheet

variable {s : Sheet} {is : List Instruction} {p : Part}

/-- A sheet loses the track of a name: an implicit part has the name, and nothing is heard of it. -/
def Loses (s : Sheet) (is : List Instruction) (name : String) : Prop :=
  name = SheetState.unnamed ∧ Instruction.startsUnasked is = true ∧
    ∃ p ∈ s.parts, p.name = name ∧ p.Silent s.header.division

/-- The first part has the name of the first track that is taken into use. -/
theorem Booked.head?_names (h : s.Booked is) :
    (s.parts.map (·.name)).head? = (Instruction.used none is).head? := by
  rw [h.names, head?_eraseDups]

/-- The implicit part is the one with the name of a track that nobody asks for. -/
theorem Booked.implicit_iff (h : s.Booked is)
    (hmarks : true ∈ s.parts.map (·.implicit) ↔ Instruction.startsUnasked is = true)
    (hp : p ∈ s.parts) :
    p.implicit = true ↔ p.name = SheetState.unnamed ∧ Instruction.startsUnasked is = true := by
  have hfirst : ∀ q ∈ s.parts, q.implicit = true → q.name = SheetState.unnamed := by
    intro q hq himplicit
    obtain ⟨i, hi⟩ := List.getElem?_of_mem hq
    obtain rfl := h.implicit i q hi himplicit
    have hstarts := hmarks.1 (himplicit ▸ List.mem_map_of_mem hq)
    have hhead := h.head?_names.trans (Instruction.head?_used_of_startsUnasked hstarts)
    rw [List.head?_map, List.head?_eq_getElem?, hi] at hhead
    exact Option.some.inj hhead
  constructor
  · intro himplicit
    exact ⟨hfirst p hp himplicit, hmarks.1 (himplicit ▸ List.mem_map_of_mem hp)⟩
  · rintro ⟨hname, hstarts⟩
    obtain ⟨q, hq, himplicit⟩ := List.mem_map.1 (hmarks.2 hstarts)
    have hsame := hname.trans (hfirst q hq himplicit).symm
    rw [List.inj_on_of_nodup_map h.nodup hp hq hsame, himplicit]

theorem marks_of_parse {fuel limit : Nat} {source : Source} {r : Result}
    (h : parse fuel source limit = some r) :
    ∃ is e, Reading.instructions fuel false (.ofSource source Directive.scopes limit) =
      some (is, e) ∧
      r.diagnostics = e.diagnostics ∧
      (true ∈ r.sheet.parts.map (·.implicit) ↔ Instruction.startsUnasked is = true) := by
  obtain ⟨⟨_, d⟩, hall, heq⟩ := Option.bind_eq_some_iff.1 h
  obtain rfl := Option.some.inj heq
  obtain ⟨is, his, hunasked⟩ := Drafting.marks_all (Draft.kept_start _) _ _ hall
  refine ⟨is, d.input, his, rfl, ?_⟩
  have hend : d.unasked [] = true ↔ true ∈ d.marks := by
    unfold Draft.unasked
    split
    · rename_i hnil
      simp [hnil, Instruction.startsUnasked]
    · exact decide_eq_true_iff
  exact hend.symm.trans (by rw [hunasked]; rfl)

/-- The names of the tracks are those of the parts that are not dropped. -/
theorem map_name_mapIdx_track (division : Nat) (ps : List Part) :
    (ps.mapIdx (track division)).map (·.name) = ps.map (·.name) :=
  List.ext_getElem (by simp) (by simp [track])

/-- A part makes a track unless its name is lost. -/
theorem Booked.mem_names_iff (h : s.Booked is)
    (hmarks : true ∈ s.parts.map (·.implicit) ↔ Instruction.startsUnasked is = true)
    (hmade : ∀ p ∈ s.parts, p.Made) (hp : p ∈ s.parts) :
    p.name ∈ (s.parts.filter fun p => !dropped s.header.division p).map (·.name) ↔
      ¬ s.Loses is p.name := by
  have hunique : ∀ q ∈ s.parts, q.name = p.name → q = p :=
    fun q hq hname => List.inj_on_of_nodup_map h.nodup hq hp hname
  have hdropped : dropped s.header.division p = true ↔ s.Loses is p.name := by
    rw [dropped, Bool.and_eq_true, List.isEmpty_iff, ← (hmade p hp).silent_iff,
      h.implicit_iff hmarks hp, and_assoc, Loses]
    refine and_congr_right fun _ => and_congr_right fun _ => ?_
    constructor
    · intro hsilent
      exact ⟨p, hp, rfl, hsilent⟩
    · rintro ⟨q, hq, hname, hsilent⟩
      rwa [hunique q hq hname] at hsilent
  rw [← hdropped, List.mem_map]
  constructor
  · rintro ⟨q, hq, hname⟩
    obtain ⟨hq, hkept⟩ := List.mem_filter.1 hq
    rw [hunique q hq hname] at hkept
    simpa using hkept
  · intro hkept
    exact ⟨p, List.mem_filter.2 ⟨hp, by simpa using hkept⟩, rfl⟩

end Sheet

/-- **A track that a source asks for is there unless it has the name of an implicit part, the source
takes a track into use before it asks for any, and nothing but rests is met in the part.** -/
theorem compile_keepsRequests {fuel : Nat} {o : Options} {text : String} {c : Compiled}
    (h : compile fuel o text = some c) :
    ∃ r is e, Sheet.parse fuel (.ofText o.alphabet text) o.limit = some r ∧
      Reading.instructions fuel false
        (.ofSource (.ofText o.alphabet text) Directive.scopes o.limit) = some (is, e) ∧
      c.diagnostics = e.diagnostics ∧
      ∀ name, .track name ∈ is →
        (name ∈ c.composition.tracks.map (·.name) ↔ ¬ r.sheet.Loses is name) := by
  obtain ⟨r, hparse, heq⟩ := Option.bind_eq_some_iff.1 h
  obtain rfl := Option.some.inj heq
  obtain ⟨is, e, his, hbooked⟩ := Sheet.booked_of_parse hparse
  obtain ⟨is', e', his', hdiagnostics, hmarks⟩ := Sheet.marks_of_parse hparse
  obtain ⟨rfl, rfl⟩ := Prod.mk.inj (Option.some.inj (his'.symm.trans his))
  refine ⟨r, is', e', hparse, his, hdiagnostics, fun name hname => ?_⟩
  have hmem : name ∈ r.sheet.parts.map (·.name) := by
    rw [hbooked.names, List.mem_eraseDups]
    exact Instruction.mem_used_of_track hname none
  obtain ⟨p, hp, rfl⟩ := List.mem_map.1 hmem
  change p.name ∈ (Sheet.arrangeParts r.sheet.header.division 0 r.sheet.parts).1.map (·.name) ↔ _
  rw [Sheet.arrangeParts_eq _ hbooked.implicit, Sheet.map_name_mapIdx_track]
  exact hbooked.mem_names_iff hmarks (Sheet.made_of_parse hparse) hp

/-- A group without music, and then two tracks that are asked for: an empty one, and one with the
name of the implicit part, which has a note. -/
def revisited : String := "\x7b\x7d\\track\x7bb\x7d\\track\x7bTrack 1\x7d1"

/-- Neither of them is lost: one is not implicit, and the other is heard. -/
theorem compile_keepsRequests_revisited : ∃ c r is e, compile 100 {} revisited = some c ∧
    Sheet.parse 100 (.ofText .music revisited) Expander.defaultLimit = some r ∧
    Reading.instructions 100 false
      (.ofSource (.ofText .music revisited) Directive.scopes Expander.defaultLimit) = some (is, e) ∧
    is = [.music {}, .track "b", .track "Track 1", .music {}] ∧
    c.diagnostics = e.diagnostics ∧ c.diagnostics = [] ∧
    c.composition.tracks.map (fun t => (t.name, t.events.length)) = [("Track 1", 2), ("b", 0)] ∧
    ¬ r.sheet.Loses is "Track 1" ∧ ¬ r.sheet.Loses is "b" := by
  have hcompile : (compile 100 {} revisited).map (fun c => (c.diagnostics.isEmpty,
      c.composition.tracks.map fun t => (t.name, t.events.length))) =
        some (true, [("Track 1", 2), ("b", 0)]) := by
    decide +kernel
  have hinstructions : (Reading.instructions 100 false
      (.ofSource (.ofText .music revisited) Directive.scopes Expander.defaultLimit)).map (·.1) =
        some [.music {}, .track "b", .track "Track 1", .music {}] := by
    decide +kernel
  obtain ⟨c, hc, heq⟩ := Option.map_eq_some_iff.1 hcompile
  obtain ⟨hempty, htracks⟩ := Prod.mk.inj heq
  obtain ⟨r, is, e, hparse, his, hdiagnostics, hkept⟩ := compile_keepsRequests hc
  change Reading.instructions 100 false
    (.ofSource (.ofText .music revisited) Directive.scopes Expander.defaultLimit) =
      some (is, e) at his
  rw [his] at hinstructions
  obtain rfl : is = _ := Option.some.inj hinstructions
  have hnames : c.composition.tracks.map (·.name) = ["Track 1", "b"] := by
    have hfst := congrArg (List.map Prod.fst) htracks
    rwa [List.map_map] at hfst
  rw [hnames] at hkept
  exact ⟨c, r, _, e, hc, hparse, his, rfl, hdiagnostics, List.isEmpty_iff.1 hempty, htracks,
    (hkept "Track 1" (by decide)).1 (by decide), (hkept "b" (by decide)).1 (by decide)⟩

/-- A group without music, and then a track that is asked for by the name of the implicit part. -/
def overlooked : String := "\x7b\x7d\\track\x7bTrack 1\x7d"

/-- Nothing is reported, and the track that is asked for is lost. -/
theorem exists_request_lost : ∃ c is e, compile 100 {} overlooked = some c ∧
    Reading.instructions 100 false
      (.ofSource (.ofText .music overlooked) Directive.scopes Expander.defaultLimit) =
        some (is, e) ∧
    .track "Track 1" ∈ is ∧ c.diagnostics = [] ∧ "Track 1" ∉ c.composition.tracks.map (·.name) := by
  have hcompile : (compile 100 {} overlooked).map (fun c => (c.diagnostics.isEmpty,
      c.composition.tracks.map (·.name))) = some (true, []) := by
    decide +kernel
  have hinstructions : (Reading.instructions 100 false
      (.ofSource (.ofText .music overlooked) Directive.scopes Expander.defaultLimit)).map (·.1) =
        some [.music {}, .track "Track 1"] := by
    decide +kernel
  obtain ⟨c, hc, heq⟩ := Option.map_eq_some_iff.1 hcompile
  obtain ⟨hempty, hnames⟩ := Prod.mk.inj heq
  obtain ⟨⟨is, e⟩, his, rfl⟩ := Option.map_eq_some_iff.1 hinstructions
  refine ⟨c, _, e, hc, his, by decide, List.isEmpty_iff.1 hempty, ?_⟩
  rw [hnames]
  exact List.not_mem_nil

end Jianpu
