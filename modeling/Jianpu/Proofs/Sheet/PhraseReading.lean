import Jianpu.Proofs.Sheet.BuilderGrowth

/-!
# Reading a phrase

The steps of the reader for a note, a group and its branches, and what they add to the meaning of a
plan. Together they give `sequence_phrase`, by induction on the phrase: reading its tokens onto a
line of a builder makes the plan of the line go on with the phrase.
-/

namespace Jianpu

open Macro.Expander (Feeds)

/-! ## Degrees -/

/-- What stands at the node of a degree. -/
def Ambient.content (a : Ambient) (degree : Nat) : Content :=
  if degree = 0 then .rest else .note (Pitch.ofDegree degree a.octave a.shift) a.velocity

theorem Ambient.ticks_content (a : Ambient) (degree division : Nat) (ks : List Modifier.Kind) :
    (a.content degree).ticks division ks = Duration.under division ks := by
  unfold Ambient.content
  split <;> rfl

theorem Pitch.toInt_ofDegree (a : Ambient) {degree : Fin 8} (h : degree ≠ 0) :
    (Pitch.ofDegree degree a.octave a.shift).toInt =
      (Pitch.under a degree []).bmod 0x100000000 := by
  have hscale : Pitch.scale.getD (min (max degree.val 1) 7 - 1) 0 =
      [0, 2, 4, 5, 7, 9, 11].getD (degree.val - 1) 0 := by
    revert degree
    decide
  rw [Pitch.ofDegree, Int32.toInt_ofInt, hscale, Pitch.under,
    show Modifier.semitones [] = 0 from rfl]
  congr 1
  omega

/-- The pitch that is worked out on 32 bits is what is left there of the one that is meant. -/
theorem Pitch.bmod_under (a : Ambient) {degree : Fin 8} (h : degree ≠ 0)
    (ks : List Modifier.Kind) :
    ((Pitch.ofDegree degree a.octave a.shift).toInt + Modifier.semitones ks).bmod 0x100000000 =
      (Pitch.under a degree ks).bmod 0x100000000 := by
  have hsum : Pitch.under a degree [] + Modifier.semitones ks = Pitch.under a degree ks := by
    rw [Pitch.under, Pitch.under, show Modifier.semitones [] = 0 from rfl, Int.add_zero]
  rw [Pitch.toInt_ofDegree a h, Int.bmod_add_bmod, hsum]

theorem Ambient.sounds_content (a : Ambient) (degree : Fin 8) (ks : List Modifier.Kind)
    (division channel t : Nat) :
    (a.content degree).sounds division channel ks t =
      (if degree = 0 then [] else [⟨t, t + Duration.under division ks, Pitch.under a degree ks⟩] :
        List Tone).flatMap (·.wrapped.events channel a.velocity) := by
  unfold Ambient.content
  by_cases h : degree = 0
  · rw [if_pos h, h]
    rfl
  · have hval : degree.val ≠ 0 := fun heq => h (Fin.ext heq)
    rw [if_neg h, if_neg hval]
    simp only [Content.sounds, Pitch.bmod_under a h]
    rfl

theorem Phrase.isDigit_digit (degree : Fin 8) : (Phrase.digit degree).isDigit = true := by
  revert degree
  decide

theorem Phrase.toNat_digit (degree : Fin 8) :
    (Phrase.digit degree).toNat - '0'.toNat = degree.val := by
  revert degree
  decide

theorem Phrase.digit_ne_char (degree : Fin 8) (m : Mark) : Phrase.digit degree ≠ m.char := by
  revert degree
  cases m <;> decide

/-! ## Plans that go on -/

section Meaning

variable (a : Ambient) (l : Valuation)

/-- The plan `p'` goes on with a phrase where `p` ends. -/
structure Plan.Continues (p p' : Plan) (φ : Phrase) : Prop where
  endsAt : ∀ division outer t,
    p'.endsAt division l outer t = φ.finish division outer (p.endsAt division l outer t)
  sounds : ∀ division channel outer t,
    p'.sounds division channel l outer t = p.sounds division channel l outer t ++
      (φ.tones a division outer (p.endsAt division l outer t)).flatMap
        (·.wrapped.events channel a.velocity)

/-- The plan `p'` has branches beside `p`. -/
structure Plan.Widens (p p' : Plan) (bs : Branches) : Prop where
  endsAt : ∀ division outer t,
    p'.endsAt division l outer t = max (p.endsAt division l outer t) (bs.finish division outer t)
  sounds : ∀ division channel outer t,
    p'.sounds division channel l outer t = p.sounds division channel l outer t ++
      (bs.tones a division outer t).flatMap (·.wrapped.events channel a.velocity)

/-- The plan plays branches. -/
structure Plan.Plays (p : Plan) (bs : Branches) : Prop where
  endsAt : ∀ division outer t, p.endsAt division l outer t = bs.finish division outer t
  sounds : ∀ division channel outer t, p.sounds division channel l outer t =
    (bs.tones a division outer t).flatMap (·.wrapped.events channel a.velocity)

variable {a l} {p p' q : Plan} {φ : Phrase} {bs : Branches} {marks : List Mark}

namespace Plan.Continues

theorem nil : Continues a l p p .nil :=
  ⟨fun _ _ _ => rfl, fun _ _ _ _ => by rw [Phrase.tones, List.flatMap_nil, List.append_nil]⟩

theorem note {n k : Nat} {degree : Fin 8} (hn : l.content n = some (a.content degree))
    (hk : l.kinds k = Mark.kinds marks) (h : Continues a l (p.seq (.node n k) none) p' φ) :
    Continues a l p p' (.note degree marks φ) := by
  have hends : ∀ division outer t, (p.seq (.node n k) none).endsAt division l outer t =
      p.endsAt division l outer t + Duration.under division (Mark.kinds marks ++ outer) := by
    intro division outer t
    rw [Plan.endsAt, Plan.endsAt, hn, hk, Option.map_some, Option.getD_some, a.ticks_content]
    rfl
  refine ⟨fun division outer t => ?_, fun division channel outer t => ?_⟩
  · rw [h.endsAt, hends, Phrase.finish]
  · rw [h.sounds, hends, Plan.sounds, Plan.sounds, hn, hk, Option.map_some, Option.getD_some,
      Phrase.tones, List.flatMap_append, List.append_assoc, ← a.sounds_content]
    rfl

/-- A group without nodes plays the same under all modifiers. -/
theorem group {slot : Option Nat} (hq : q.Plays a l bs)
    (hslot : (∃ k, slot = some k ∧ l.kinds k = Mark.kinds marks) ∨ slot = none ∧ q.nodes = [])
    (h : Continues a l (p.seq q slot) p' φ) : Continues a l p p' (.group bs marks φ) := by
  have hends : ∀ division outer t, q.endsAt division l (l.around slot outer) t =
      bs.finish division (Mark.kinds marks ++ outer) t := by
    intro division outer t
    rcases hslot with ⟨k, rfl, hk⟩ | ⟨rfl, hnodes⟩
    · rw [hq.endsAt, Valuation.around, Option.map_some, Option.getD_some, hk]
    · rw [← hq.endsAt, Plan.endsAt_of_nodes_eq_nil hnodes, Plan.endsAt_of_nodes_eq_nil hnodes]
  have hsounds : ∀ division channel outer t,
      q.sounds division channel l (l.around slot outer) t =
        (bs.tones a division (Mark.kinds marks ++ outer) t).flatMap
          (·.wrapped.events channel a.velocity) := by
    intro division channel outer t
    rw [← hq.sounds]
    rcases hslot with ⟨k, rfl, hk⟩ | ⟨rfl, hnodes⟩
    · rw [Valuation.around, Option.map_some, Option.getD_some, hk]
    · rw [Plan.sounds_of_nodes_eq_nil hnodes, Plan.sounds_of_nodes_eq_nil hnodes]
  refine ⟨fun division outer t => ?_, fun division channel outer t => ?_⟩
  · rw [h.endsAt, Plan.endsAt, hends, Phrase.finish]
  · rw [h.sounds, Plan.endsAt, hends, Plan.sounds, hsounds, Phrase.tones, List.flatMap_append,
      List.append_assoc]

end Plan.Continues

namespace Plan.Widens

theorem last (h : Continues a l .empty q φ) : Widens a l p (p.branch q) (.last φ) := by
  refine ⟨fun division outer t => ?_, fun division channel outer t => ?_⟩
  · rw [Plan.endsAt, h.endsAt]
    rfl
  · rw [Plan.sounds, h.sounds]
    rfl

theorem more (h : Continues a l .empty q φ) (h' : Widens a l (p.branch q) p' bs) :
    Widens a l p p' (.more φ bs) := by
  refine ⟨fun division outer t => ?_, fun division channel outer t => ?_⟩
  · rw [h'.endsAt, Plan.endsAt, h.endsAt, Branches.finish, Nat.max_assoc]
    rfl
  · rw [h'.sounds, Plan.sounds, h.sounds, Branches.tones, List.flatMap_append, List.append_assoc]
    rfl

end Plan.Widens

namespace Plan.Plays

theorem last (h : Continues a l .empty p φ) : Plays a l p (.last φ) := ⟨h.endsAt, h.sounds⟩

theorem more (h : Continues a l .empty p φ) (h' : Widens a l p p' bs) :
    Plays a l p' (.more φ bs) := by
  refine ⟨fun division outer t => ?_, fun division channel outer t => ?_⟩
  · rw [h'.endsAt, h.endsAt, Branches.finish]
    rfl
  · rw [h'.sounds, h.sounds, Branches.tones, List.flatMap_append]
    rfl

end Plan.Plays

end Meaning

/-! ## Steps of the reader -/

/-- What comes first, if anything, ends a sequence. -/
def Stops (ts : List Token) : Prop :=
  ∀ t, ts.head? = some t → t.kind = .closing ∨ t.isSeparator = true

namespace Token

variable {t : Token}

theorem kind_of_lexeme {kind : Kind} {text : String} (h : t.lexeme = (kind, text)) :
    t.kind = kind := congrArg Prod.fst h

theorem isEof_of_kind {kind : Kind} (h : t.kind = kind) (hne : kind ≠ .eof) : t.isEof = false := by
  simpa [isEof, h] using hne

theorem isSeparator_of_kind (h : t.kind ≠ .other) : t.isSeparator = false := by
  have hsingle : t.single? = none := by
    cases hs : t.single? with
    | none => rfl
    | some c => exact absurd (kind_of_single? hs) h
  simp [isSeparator, hsingle]

theorem isSeparator_of_digit {degree : Fin 8} (h : t.lexeme = .glyph (Phrase.digit degree)) :
    t.isSeparator = false := by
  have hne : ∀ d : Fin 8, Phrase.digit d ≠ '|' ∧ Phrase.digit d ≠ ',' := by decide
  simp [isSeparator, single?_of_lexeme h, hne degree]

end Token

namespace Writing

variable {e e₁ e₂ e₃ : Macro.Expander Directive} {t t' : Token} {fuel : Nat}
  {g g' g'' : Score} {settings : Settings} {a : Ambient} {s s' o : Option Strand}

theorem append_of_eq {c : Content} {span : Span} {strand : Strand} {slot : Slot}
    (h : Strand.append s (g.addNode c span).2 g.nodes.size = (strand, slot, g'))
    (e : Macro.Expander Directive) (settings : Settings) :
    append s c span ⟨e, g, settings⟩ = some ((strand, slot), ⟨e, g', settings⟩) := by
  have happend : ∀ r, Strand.append s (g.addNode c span).2 g.nodes.size = r →
      append s c span ⟨e, g, settings⟩ = some ((r.1, r.2.1), ⟨e, r.2.2, settings⟩) := by
    rintro _ rfl
    rfl
  exact happend _ h

theorem concat_of_eq {slot : Option Slot} (h : Strand.concat s o g = (s', slot, g'))
    (e : Macro.Expander Directive) (settings : Settings) :
    concat s o ⟨e, g, settings⟩ = some ((s', slot), ⟨e, g', settings⟩) := by
  simp only [concat, write, h]

theorem branch_of_eq (h : Strand.branch s o g = (s', g')) (e : Macro.Expander Directive)
    (settings : Settings) : branch s o ⟨e, g, settings⟩ = some (s', ⟨e, g', settings⟩) := by
  simp only [branch, write, h]

theorem content_digit {degree : Fin 8} (ht : t.lexeme = .glyph (Phrase.digit degree)) (a : Ambient)
    (e : Macro.Expander Directive) : content t a e = some (a.content degree, e) := by
  have hfilter : t.single?.filter Char.isDigit = some (Phrase.digit degree) := by
    rw [Token.single?_of_lexeme ht, Option.filter_some, if_pos (Phrase.isDigit_digit degree)]
  unfold content Ambient.content
  simp only [hfilter, Phrase.toNat_digit]
  by_cases h : degree.val = 0
  · rw [if_pos h, if_pos h]
    rfl
  · rw [if_neg h, if_neg h, if_pos (Nat.le_of_lt_succ degree.isLt)]
    rfl

theorem sequence_stop {F : Macro.Expander Directive → List Token → Prop} [Feed F]
    {rest : List Token} (h : F e rest) (hrest : Stops rest) (hf : 2 ≤ fuel) (s : Option Strand)
    (a : Ambient) (g : Score) (settings : Settings) :
    ∃ e', sequence fuel s a ⟨e, g, settings⟩ = some ((s, a), ⟨e', g, settings⟩) ∧ F e' rest := by
  obtain ⟨fuel, rfl⟩ : ∃ k, fuel = k + 1 := ⟨fuel - 1, by omega⟩
  obtain ⟨t, e', hpeek, hfeeds, hhead⟩ := Feed.look h (by omega : 1 ≤ fuel)
  have hstop : (t.isEof || t.kind = .closing || t.isSeparator) = true := by
    rcases hhead with hhead | ⟨-, heof⟩
    · rcases hrest t hhead with hk | hs
      · simp [hk]
      · simp [hs]
    · simp [heof]
  refine ⟨e', ?_, hfeeds⟩
  rw [sequence, bind_of_eq_some (read_of_eq_some (m := Reading.peek fuel) hpeek g settings)]
  simp only [hstop, if_true]
  rfl

theorem sequence_note {degree : Fin 8} {strand : Strand} {slot : Slot} {body : Body}
    (hpeek : Reading.peek fuel e = some (t, e₁)) (ht : t.lexeme = .glyph (Phrase.digit degree))
    (hnext : Reading.next fuel e₁ = some (t', e₂))
    (ht' : t'.lexeme = .glyph (Phrase.digit degree))
    (happend : Strand.append s (g.addNode (a.content degree) t'.span).2 g.nodes.size =
      (strand, slot, g'))
    (hmods : modifiers fuel (some slot) ⟨e₂, g', settings⟩ = some ((), body)) :
    sequence (fuel + 1) s a ⟨e, g, settings⟩ = sequence fuel (some strand) a body := by
  have hkind : t.kind = .other := Token.kind_of_lexeme ht
  have hdirective : e₁.directive? t = none := by
    simp [Macro.Expander.directive?, hkind]
  have hstop : ¬(t.isEof || t.kind = .closing || t.isSeparator) = true := by
    simp [Token.isEof, hkind, Token.isSeparator_of_digit ht]
  have hopening : t.kind ≠ .opening := by simp [hkind]
  rw [sequence, bind_of_eq_some (read_of_eq_some hpeek g settings), if_neg hstop,
    if_neg hopening, bind_of_eq_some (m := get) rfl]
  simp only [hdirective]
  rw [bind_of_eq_some (read_of_eq_some hnext g settings),
    bind_of_eq_some (read_of_eq_some (content_digit ht' a e₂) g settings),
    bind_of_eq_some (append_of_eq happend e₂ settings), bind_of_eq_some hmods]

theorem sequence_group {slot : Option Slot} {body : Body}
    (hpeek : Reading.peek fuel e = some (t, e₁)) (hkind : t.kind = .opening)
    (hgroup : group fuel a ⟨e₁, g, settings⟩ = some (o, ⟨e₂, g', settings⟩))
    (hconcat : Strand.concat s o g' = (s', slot, g''))
    (hmods : modifiers fuel slot ⟨e₂, g'', settings⟩ = some ((), body)) :
    sequence (fuel + 1) s a ⟨e, g, settings⟩ = sequence fuel s' a body := by
  have hstop : ¬(t.isEof || t.kind = .closing || t.isSeparator) = true := by
    simp [Token.isEof, hkind, Token.isSeparator_of_kind (t := t) (by simp [hkind])]
  rw [sequence, bind_of_eq_some (read_of_eq_some hpeek g settings), if_neg hstop, if_pos hkind,
    bind_of_eq_some hgroup, bind_of_eq_some (concat_of_eq hconcat e₂ settings)]
  dsimp only
  rw [bind_of_eq_some hmods]

theorem group_of_sequence {a' : Ambient} {body : Body} {e₄ e₅ : Macro.Expander Directive}
    {t'' : Token}
    (hnext : Reading.next fuel e = some (t, e₁))
    (hsequence : sequence fuel none a ⟨e₁, g, settings⟩ = some ((s, a'), body))
    (hbranches : branches fuel s a body = some (s', ⟨e₃, g', settings⟩))
    (hpeek : Reading.peek fuel e₃ = some (t', e₄)) (hkind : t'.kind = .closing)
    (hnext' : Reading.next fuel e₄ = some (t'', e₅)) :
    group (fuel + 1) a ⟨e, g, settings⟩ = some (s', ⟨e₅, g', settings⟩) := by
  rw [group, bind_of_eq_some (read_of_eq_some hnext g settings), bind_of_eq_some hsequence]
  dsimp only
  rw [bind_of_eq_some hbranches, bind_of_eq_some (read_of_eq_some hpeek g' settings), if_pos hkind,
    bind_of_eq_some (read_of_eq_some hnext' g' settings)]
  rfl

theorem branches_stop (hpeek : Reading.peek fuel e = some (t, e₁)) (hkind : t.kind = .closing)
    (s : Option Strand) (a : Ambient) (g : Score) (settings : Settings) :
    branches (fuel + 1) s a ⟨e, g, settings⟩ = some (s, ⟨e₁, g, settings⟩) := by
  have hseparator : ¬t.isSeparator = true := by
    simp [Token.isSeparator_of_kind (t := t) (by simp [hkind])]
  rw [branches, bind_of_eq_some (read_of_eq_some hpeek g settings), if_neg hseparator]
  rfl

theorem branches_more {a' : Ambient}
    (hpeek : Reading.peek fuel e = some (t, e₁)) (hsep : t.isSeparator = true)
    (hnext : Reading.next fuel e₁ = some (t', e₂))
    (hsequence : sequence fuel none a ⟨e₂, g, settings⟩ = some ((o, a'), ⟨e₃, g', settings⟩))
    (hbranch : Strand.branch s o g' = (s', g'')) :
    branches (fuel + 1) s a ⟨e, g, settings⟩ = branches fuel s' a ⟨e₃, g'', settings⟩ := by
  rw [branches, bind_of_eq_some (read_of_eq_some hpeek g settings), if_pos hsep,
    bind_of_eq_some (read_of_eq_some hnext g settings), bind_of_eq_some hsequence]
  dsimp only
  rw [bind_of_eq_some (branch_of_eq hbranch e₃ settings)]

end Writing

/-! ## Whole phrases -/

section Boundaries

variable {us rest : List Token} {l : Lexeme} {ls : List Lexeme}

theorem stops_of_lexemes (hus : us.map (·.lexeme) = l :: ls)
    (hl : l = .closing ∨ l = .glyph '|') : Stops (us ++ rest) := by
  obtain ⟨t, us, rfl, rfl, -⟩ := List.map_eq_cons_iff.1 hus
  intro u hu
  obtain rfl : t = u := Option.some.inj hu
  rcases hl with hl | hl
  · exact .inl (Token.kind_of_lexeme hl)
  · refine .inr ?_
    simp [Token.isSeparator, Token.single?_of_lexeme hl]

theorem Stops.unmarked (h : Stops rest) : Unmarked rest := by
  intro t ht m hm
  rcases h t ht with hk | hs
  · exact nomatch hk.symm.trans (Token.kind_of_single? hm)
  · have hne : ∀ m : Mark, m.char ≠ '|' ∧ m.char ≠ ',' := by
      intro m
      cases m <;> decide
    simp [Token.isSeparator, hm, hne m] at hs

/-- No phrase starts with a mark. -/
theorem Phrase.unmarked {φ : Phrase} (hus : us.map (·.lexeme) = φ.render) (hrest : Stops rest) :
    Unmarked (us ++ rest) := by
  cases φ with
  | nil =>
    obtain rfl := List.map_eq_nil_iff.1 hus
    exact hrest.unmarked
  | note degree marks φ =>
    rw [Phrase.render] at hus
    obtain ⟨t, us, rfl, ht, -⟩ := List.map_eq_cons_iff.1 hus
    intro u hu m hm
    obtain rfl : t = u := Option.some.inj hu
    rw [Token.single?_of_lexeme ht] at hm
    exact Phrase.digit_ne_char degree m (Option.some.inj hm)
  | group bs marks φ =>
    rw [Phrase.render] at hus
    obtain ⟨t, us, rfl, ht, -⟩ := List.map_eq_cons_iff.1 hus
    intro u hu m hm
    obtain rfl : t = u := Option.some.inj hu
    exact nomatch (Token.kind_of_lexeme ht).symm.trans (Token.kind_of_single? hm)

end Boundaries

namespace Writing

section Cases

variable (a : Ambient) (settings : Settings) (log : List Diagnostic)

/-- Reading a phrase onto a line makes its plan go on with the phrase, and reports nothing. -/
def ReadsSequence (φ : Phrase) : Prop :=
  ∀ ⦃b : Builder⦄ ⦃i fuel : Nat⦄ ⦃e : Macro.Expander Directive⦄ ⦃rest : List Token⦄, b.Ready i →
    Spells (Feeds log) e φ.render rest → Stops rest → φ.render.length + 3 ≤ fuel →
    ∃ b' e', sequence fuel (b.line i).strand a ⟨e, b.score, settings⟩ =
        some (((b'.line i).strand, a), ⟨e', b'.score, settings⟩) ∧ Feeds log e' rest ∧
      b.Extends b' i ∧ ∀ l, b'.Seen l → Plan.Continues a l (b.line i).plan (b'.line i).plan φ

/-- Reading a group onto an empty line makes a plan that plays its branches. -/
def ReadsGroup (bs : Branches) : Prop :=
  ∀ ⦃b : Builder⦄ ⦃i fuel : Nat⦄ ⦃e : Macro.Expander Directive⦄ ⦃rest : List Token⦄, b.Ready i →
    b.line i = {} → Spells (Feeds log) e (.opening :: (bs.render ++ [.closing])) rest →
    bs.render.length + 4 ≤ fuel →
    ∃ b' e', group fuel a ⟨e, b.score, settings⟩ =
        some ((b'.line i).strand, ⟨e', b'.score, settings⟩) ∧ Feeds log e' rest ∧
      b.Extends b' i ∧ ∀ l, b'.Seen l → Plan.Plays a l (b'.line i).plan bs

/-- Reading further branches puts them beside what is on the line. -/
def ReadsBranches (bs : Branches) : Prop :=
  ∀ ⦃b : Builder⦄ ⦃i fuel : Nat⦄ ⦃e : Macro.Expander Directive⦄ ⦃rest : List Token⦄, b.Ready i →
    Spells (Feeds log) e (.glyph '|' :: (bs.render ++ [.closing])) rest →
    bs.render.length + 4 ≤ fuel →
    ∃ b' e', branches fuel (b.line i).strand a ⟨e, b.score, settings⟩ =
        some ((b'.line i).strand, ⟨e', b'.score, settings⟩) ∧
      Spells (Feeds log) e' [.closing] rest ∧ b.Extends b' i ∧ ∀ l, b'.Seen l →
        Plan.Widens a l (b.line i).plan (b'.line i).plan bs

variable {a settings log} {φ : Phrase} {bs : Branches} {marks : List Mark}

namespace ReadsSequence

theorem nil : ReadsSequence a settings log .nil := by
  intro b i fuel e rest hb h hrest hf
  obtain ⟨e', hseq, hfeeds⟩ :=
    sequence_stop h.nil hrest (by omega : 2 ≤ fuel) (b.line i).strand a b.score settings
  exact ⟨b, e', hseq, hfeeds, .refl hb, fun l _ => .nil⟩

theorem note {degree : Fin 8} (hφ : ReadsSequence a settings log φ) :
    ReadsSequence a settings log (.note degree marks φ) := by
  intro b i fuel e rest hb h hrest hf
  rw [Phrase.render] at h hf
  rw [List.length_cons, List.length_append, Mark.render, List.length_map] at hf
  obtain ⟨fuel, rfl⟩ : ∃ k, fuel = k + 1 := ⟨fuel - 1, by omega⟩
  obtain ⟨t, e₁, hpeek, ht, h₁⟩ := h.peek (by omega : 1 ≤ fuel)
  obtain ⟨t', e₂, hnext, ht', h₂⟩ := h₁.next (by omega : 1 ≤ fuel)
  obtain ⟨us, hus, h₂⟩ := h₂.of_append
  obtain ⟨b₁, s, slot, happend, hext, hline, hslots, hcontent⟩ :=
    hb.append (a.content degree) t'.span
  have hfilled : b₁.slots = b.slots ++ (some slot).toList.map (⟨·, []⟩) := hslots
  obtain ⟨b₂, e₃, hmods, hfeeds, hext₂, hlines, hsame, hkinds⟩ := modifiers_slot hext hfilled h₂
    (Phrase.unmarked hus hrest) (by omega : marks.length + 3 ≤ fuel) settings
  have hline₂ : b₂.line i = _ := (congrFun hlines i).trans hline
  obtain ⟨b', e', hseq, hfeeds', hext', hplan⟩ := hφ hext₂.ready ⟨us, hus, hfeeds⟩ hrest
    (by omega : φ.render.length + 3 ≤ fuel)
  refine ⟨b', e', ?_, hfeeds', hext₂.trans (Nat.le_refl i) hext', fun l hl => ?_⟩
  · rw [sequence_note hpeek ht hnext ht' happend hmods, ← hseq, hline₂]
  · have hl₂ := hext'.seen hl
    have hn := hl₂.content _ _ ((hsame _).trans ((hcontent _).trans (if_pos rfl)))
    refine .note hn (hkinds l hl₂ nofun) ?_
    have hrest := hplan l hl
    rwa [hline₂] at hrest

theorem group (hbs : ReadsGroup a settings log bs) (hφ : ReadsSequence a settings log φ) :
    ReadsSequence a settings log (.group bs marks φ) := by
  intro b i fuel e rest hb h hrest hf
  have hrender : Phrase.render (.group bs marks φ) =
      (.opening :: (bs.render ++ [.closing])) ++ (Mark.render marks ++ φ.render) := by
    simp [Phrase.render]
  have hlen : (Phrase.render (.group bs marks φ)).length =
      bs.render.length + 2 + marks.length + φ.render.length := by
    simp [hrender, Mark.render]
    omega
  obtain ⟨fuel, rfl⟩ : ∃ k, fuel = k + 1 := ⟨fuel - 1, by omega⟩
  rw [hrender] at h
  obtain ⟨t, e₁, hpeek, ht, h₁⟩ := h.peek (by omega : 1 ≤ fuel)
  have happ : Spells (Feeds log) e₁ ((.opening :: (bs.render ++ [.closing])) ++
      (Mark.render marks ++ φ.render)) rest := h₁
  obtain ⟨vs, hvs, h₁⟩ := happ.of_append
  -- the group is read onto the line above, which is empty
  have hclear := hb.clear (i + 1) (Nat.lt_succ_self i)
  obtain ⟨b₁, e₂, hgroup, hfeeds₁, hext₁, hplays⟩ :=
    hbs (hb.mono (Nat.le_succ i)) hclear h₁ (by omega : bs.render.length + 4 ≤ fuel)
  obtain ⟨b₂, slot, hconcat, hext₂, hplan₂, hslots, hnone, -⟩ := hext₁.ready.concat
  rw [hext₁.lower i (Nat.lt_succ_self i)] at hconcat hplan₂
  obtain ⟨us, hus, h₂⟩ := Spells.of_append ⟨vs, hvs, hfeeds₁⟩
  obtain ⟨b₃, e₃, hmods, hfeeds₂, hext₃, hlines, -, hkinds⟩ := modifiers_slot hext₂ hslots h₂
    (Phrase.unmarked hus hrest) (by omega : marks.length + 3 ≤ fuel) settings
  obtain ⟨b', e', hseq, hfeeds', hext', hplan⟩ := hφ hext₃.ready ⟨us, hus, hfeeds₂⟩ hrest
    (by omega : φ.render.length + 3 ≤ fuel)
  have hgrow := hext₁.trans (Nat.le_succ i) (hext₃.trans (Nat.le_refl i) hext')
  refine ⟨b', e', ?_, hfeeds', hgrow, fun l hl => ?_⟩
  · rw [sequence_group hpeek (Token.kind_of_lexeme ht) hgroup hconcat hmods, ← hseq, hlines]
  · have hl₃ := hext'.seen hl
    have hgo := hplan l hl
    rw [hlines, hplan₂] at hgo
    refine .group (hplays l (hext₃.seen hl₃)) ?_ hgo
    cases slot with
    | none => exact .inr ⟨rfl, hnone rfl⟩
    | some slot => exact .inl ⟨_, rfl, hkinds l hl₃ nofun⟩

/-- The step of the reader for a further branch. -/
theorem beside {l : Lexeme} {ls : List Lexeme} (hφ : ReadsSequence a settings log φ)
    (hl : l = .closing ∨ l = .glyph '|') {b : Builder} {i fuel : Nat} {e : Macro.Expander Directive}
    {rest : List Token} (hb : b.Ready i)
    (h : Spells (Feeds log) e (.glyph '|' :: (φ.render ++ l :: ls)) rest)
    (hf : φ.render.length + 3 ≤ fuel) :
    ∃ b' e' q, branches (fuel + 1) (b.line i).strand a ⟨e, b.score, settings⟩ =
        branches fuel (b'.line i).strand a ⟨e', b'.score, settings⟩ ∧
      Spells (Feeds log) e' (l :: ls) rest ∧ b.Extends b' i ∧
      (b'.line i).plan = (b.line i).plan.branch q ∧
      ∀ l, b'.Seen l → Plan.Continues a l .empty q φ := by
  obtain ⟨t, e₁, hpeek, ht, h₁⟩ := h.peek (by omega : 1 ≤ fuel)
  obtain ⟨t', e₂, hnext, -, h₂⟩ := h₁.next (by omega : 1 ≤ fuel)
  obtain ⟨us, hus, h₂⟩ := h₂.of_append
  have hclear := hb.clear (i + 1) (Nat.lt_succ_self i)
  obtain ⟨b₁, e₃, hseq, hfeeds, hext₁, hplan⟩ :=
    hφ (hb.mono (Nat.le_succ i)) h₂ (stops_of_lexemes hus hl) hf
  obtain ⟨b₂, hbranch, hext₂, hplan₂, -⟩ := hext₁.ready.branch
  rw [hext₁.lower i (Nat.lt_succ_self i)] at hbranch hplan₂
  rw [hclear] at hseq hplan
  have hsep : t.isSeparator = true := by
    simp [Token.isSeparator, Token.single?_of_lexeme ht]
  exact ⟨b₂, e₃, _, branches_more hpeek hsep hnext hseq hbranch, ⟨us, hus, hfeeds⟩,
    hext₁.trans (Nat.le_succ i) hext₂, hplan₂, fun l hl => hplan l (hext₂.seen hl)⟩

/-- The step of the reader for the first branch of a group. -/
theorem inside {l : Lexeme} {ls : List Lexeme} (hφ : ReadsSequence a settings log φ)
    (hl : l = .closing ∨ l = .glyph '|') {b : Builder} {i fuel : Nat} {e : Macro.Expander Directive}
    {rest : List Token} (hb : b.Ready i) (hline : b.line i = {})
    (h : Spells (Feeds log) e (.opening :: (φ.render ++ l :: ls)) rest)
    (hf : φ.render.length + 3 ≤ fuel) :
    ∃ b' t e₁ e', Reading.next fuel e = some (t, e₁) ∧
      sequence fuel none a ⟨e₁, b.score, settings⟩ =
        some (((b'.line i).strand, a), ⟨e', b'.score, settings⟩) ∧
      Spells (Feeds log) e' (l :: ls) rest ∧ b.Extends b' i ∧
      ∀ l, b'.Seen l → Plan.Continues a l .empty (b'.line i).plan φ := by
  obtain ⟨t, e₁, hnext, -, h₁⟩ := h.next (by omega : 1 ≤ fuel)
  obtain ⟨us, hus, h₁⟩ := h₁.of_append
  obtain ⟨b', e', hseq, hfeeds, hext, hplan⟩ := hφ hb h₁ (stops_of_lexemes hus hl) hf
  rw [hline] at hseq hplan
  exact ⟨b', t, e₁, e', hnext, hseq, ⟨us, hus, hfeeds⟩, hext, hplan⟩

end ReadsSequence

namespace ReadsBranches

theorem last (hφ : ReadsSequence a settings log φ) :
    ReadsBranches a settings log (.last φ) := by
  intro b i fuel e rest hb h hf
  rw [Branches.render] at h hf
  obtain ⟨fuel, rfl⟩ : ∃ k, fuel = k + 1 := ⟨fuel - 1, by omega⟩
  obtain ⟨b', e₁, q, hbranches, h₁, hext, hplan, hq⟩ :=
    hφ.beside (.inl rfl) hb h (by omega : φ.render.length + 3 ≤ fuel)
  obtain ⟨fuel, rfl⟩ : ∃ k, fuel = k + 1 := ⟨fuel - 1, by omega⟩
  obtain ⟨t, e', hpeek, ht, h'⟩ := h₁.peek (by omega : 1 ≤ fuel)
  refine ⟨b', e', ?_, h', hext, fun l hl => ?_⟩
  · rw [hbranches, branches_stop hpeek (Token.kind_of_lexeme ht)]
  · rw [hplan]
    exact .last (hq l hl)

theorem more (hφ : ReadsSequence a settings log φ) (hbs : ReadsBranches a settings log bs) :
    ReadsBranches a settings log (.more φ bs) := by
  intro b i fuel e rest hb h hf
  rw [Branches.render] at h hf
  rw [List.length_append, List.length_cons] at hf
  rw [List.append_assoc, List.cons_append] at h
  obtain ⟨fuel, rfl⟩ : ∃ k, fuel = k + 1 := ⟨fuel - 1, by omega⟩
  obtain ⟨b₁, e₁, q, hbranches, h₁, hext₁, hplan₁, hq⟩ :=
    hφ.beside (.inr rfl) hb h (by omega : φ.render.length + 3 ≤ fuel)
  obtain ⟨b', e', hrest, h', hext', hplan⟩ :=
    hbs hext₁.ready h₁ (by omega : bs.render.length + 4 ≤ fuel)
  refine ⟨b', e', ?_, h', hext₁.trans (Nat.le_refl i) hext', fun l hl => ?_⟩
  · rw [hbranches, hrest]
  · have hwide := hplan l hl
    rw [hplan₁] at hwide
    exact .more (hq l (hext'.seen hl)) hwide

end ReadsBranches

namespace ReadsGroup

theorem last (hφ : ReadsSequence a settings log φ) : ReadsGroup a settings log (.last φ) := by
  intro b i fuel e rest hb hline h hf
  rw [Branches.render] at h hf
  obtain ⟨fuel, rfl⟩ : ∃ k, fuel = k + 1 := ⟨fuel - 1, by omega⟩
  obtain ⟨b', t, e₁, e₂, hnext, hseq, h₂, hext, hplan⟩ :=
    hφ.inside (.inl rfl) hb hline h (by omega : φ.render.length + 3 ≤ fuel)
  obtain ⟨fuel, rfl⟩ : ∃ k, fuel = k + 1 := ⟨fuel - 1, by omega⟩
  -- the brace is looked at twice: it starts no further branch, and it closes the group
  obtain ⟨u, e₃, hpeek, hu, h₃⟩ := h₂.peek (by omega : 1 ≤ fuel)
  obtain ⟨v, e₄, hpeek', hv, h₄⟩ := h₃.peek (by omega : 1 ≤ fuel + 1)
  obtain ⟨w, e₅, hnext', -, h₅⟩ := h₄.next (by omega : 1 ≤ fuel + 1)
  refine ⟨b', e₅, ?_, h₅.nil, hext, fun l hl => .last (hplan l hl)⟩
  exact group_of_sequence hnext hseq (branches_stop hpeek (Token.kind_of_lexeme hu) ..) hpeek'
    (Token.kind_of_lexeme hv) hnext'

theorem more (hφ : ReadsSequence a settings log φ) (hbs : ReadsBranches a settings log bs) :
    ReadsGroup a settings log (.more φ bs) := by
  intro b i fuel e rest hb hline h hf
  rw [Branches.render] at h hf
  rw [List.length_append, List.length_cons] at hf
  rw [List.append_assoc, List.cons_append] at h
  obtain ⟨fuel, rfl⟩ : ∃ k, fuel = k + 1 := ⟨fuel - 1, by omega⟩
  obtain ⟨b₁, t, e₁, e₂, hnext, hseq, h₂, hext₁, hplan⟩ :=
    hφ.inside (.inr rfl) hb hline h (by omega : φ.render.length + 3 ≤ fuel)
  obtain ⟨b', e₃, hbranches, h₃, hext', hwide⟩ :=
    hbs hext₁.ready h₂ (by omega : bs.render.length + 4 ≤ fuel)
  obtain ⟨u, e₄, hpeek, hu, h₄⟩ := h₃.peek (by omega : 1 ≤ fuel)
  obtain ⟨v, e₅, hnext', -, h₅⟩ := h₄.next (by omega : 1 ≤ fuel)
  refine ⟨b', e₅, ?_, h₅.nil, hext₁.trans (Nat.le_refl i) hext',
    fun l hl => .more (hplan l (hext'.seen hl)) (hwide l hl)⟩
  exact group_of_sequence hnext hseq hbranches hpeek (Token.kind_of_lexeme hu) hnext'

end ReadsGroup

end Cases

variable (a : Ambient) (settings : Settings) (log : List Diagnostic)

mutual

/-- **Reading a phrase makes the plan of its line go on with it**, and reports nothing. -/
theorem readsSequence : ∀ φ, ReadsSequence a settings log φ
  | .nil => .nil
  | .note _ _ φ => .note (readsSequence φ)
  | .group (.last ψ) _ φ => .group (.last (readsSequence ψ)) (readsSequence φ)
  | .group (.more ψ bs) _ φ =>
    .group (.more (readsSequence ψ) (readsBranches bs)) (readsSequence φ)

theorem readsBranches : ∀ bs, ReadsBranches a settings log bs
  | .last φ => .last (readsSequence φ)
  | .more φ bs => .more (readsSequence φ) (readsBranches bs)

end

end Writing

end Jianpu
