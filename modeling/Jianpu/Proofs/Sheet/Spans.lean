import Jianpu.Compile
import Jianpu.Proofs.Macro.Spans
import Jianpu.Proofs.Sheet.Ranges

/-!
# Where diagnostics point to

A diagnostic is about one token, or about an argument, from its first token to its last. A token
ends where it starts or after that. So does an argument of a text in which nothing is called, since
its tokens come in the order of the text; but the last token of an argument can come out of a
definition that stands before the first one, and then the span of the argument ends before it
starts. Lines and columns count from one in any case (`compile_spans`).
-/

namespace Jianpu

open Macro (Expander)

/-- Whether it is the text of an argument that is wrong. -/
def Cause.ofArgument : Cause → Bool
  | invalidNumber _ | invalidDivision _ | tempoTooLarge | unknownKey _ | invalidTimeSignature _ _
  | velocityTooLarge | invalidOctave _ | unknownInstrument _ | volumeTooLarge => true
  | _ => false

/-- Whether the token is one of the two that define. -/
def Token.defines (t : Token) : Bool :=
  t.kind = .control && (t.text = "\\def" || t.text = "\\gdef")

/-- No call of the source is carried out: calls are all given up, or nothing is defined. -/
def Options.Calm (o : Options) (text : String) : Prop :=
  o.limit ≤ 1 ∨ ∀ t ∈ Token.scan o.alphabet text, t.defines = false

/-- The span runs from the start of a token of the text to the end of a token of it. -/
def Span.BetweenTokens (a : Alphabet) (text : String) (s : Span) : Prop :=
  ∃ first ∈ Token.scan a text, ∃ last ∈ Token.scan a text, s = .between first.span last.span

theorem Span.OfToken.betweenTokens {a : Alphabet} {text : String} {s : Span}
    (h : s.OfToken a text) : s.BetweenTokens a text := by
  obtain ⟨t, ht, rfl⟩ := h
  exact ⟨t, ht, t, ht, rfl⟩

/-- From the first token of one span to the last of another. -/
theorem Span.BetweenTokens.between {a : Alphabet} {text : String} {s s' : Span}
    (h : s.BetweenTokens a text) (h' : s'.BetweenTokens a text) :
    (Span.between s s').BetweenTokens a text := by
  obtain ⟨first, hfirst, _, -, rfl⟩ := h
  obtain ⟨_, -, last, hlast, rfl⟩ := h'
  exact ⟨first, hfirst, last, hlast, rfl⟩

section

variable (o : Options) (text : String)

/-- A span from token to token, which is in order if the source is calm. -/
structure Span.Placed (s : Span) : Prop where
  ends : s.BetweenTokens o.alphabet text
  le : o.Calm text → s.start ≤ s.stop

/-- A diagnostic that is not about the text of an argument has the span of a token. -/
structure Diagnostic.Placed (d : Diagnostic) : Prop where
  span : d.span.Placed o text
  token : d.cause.ofArgument = false → d.span.OfToken o.alphabet text

/-- What a reader of a sheet keeps: all tokens are at places of the text, and if the source is calm
then those ahead come in the order of the text. -/
structure Macro.Expander.Orderly (e : Expander Directive) : Prop where
  marked : e.Marked (Span.OfToken o.alphabet text) (Diagnostic.Placed o text)
  inOrder : o.Calm text → ∃ p, e.InOrder Directive.scopes.global p

end

variable {o : Options} {text : String}

theorem Span.OfToken.placed {s : Span} (h : s.OfToken o.alphabet text) : s.Placed o text :=
  ⟨h.betweenTokens, fun _ => h.proper.le⟩

theorem Diagnostic.Placed.of_token {d : Diagnostic} (h : d.span.OfToken o.alphabet text) :
    d.Placed o text := ⟨h.placed, fun _ => h⟩

theorem Diagnostic.Placed.of_argument {c : Cause} {s : Span} (h : s.Placed o text)
    (hc : c.ofArgument = true) : Diagnostic.Placed o text ⟨c, s⟩ :=
  ⟨h, fun hfalse => nomatch hc.symm.trans hfalse⟩

variable {α : Type} {fuel : Nat}

/-! ## Arguments -/

/-- An argument ends with the last token of its group. -/
theorem Argument.exists_last (t : Token) (group : List Token) :
    ∃ u ∈ t :: group, (ofTokens t group).span = .between t.span u.span := by
  cases h : group.getLast? with
  | none => exact ⟨t, List.mem_cons_self, by simp [ofTokens, h]⟩
  | some u => exact ⟨u, List.mem_cons_of_mem t (List.mem_of_getLast? h), by simp [ofTokens, h]⟩

open Macro.Expander (Orderly)

theorem Macro.Expander.Orderly.step {e e' : Expander Directive} {R : Position → Position → Prop}
    (h : e.Orderly o text)
    (hmarked : e'.Marked (Span.OfToken o.alphabet text) (Diagnostic.Placed o text))
    (hahead : ∀ p, e.InOrder Directive.scopes.global p →
      ∃ q, e'.InOrder Directive.scopes.global q ∧ R p q) : e'.Orderly o text := by
  refine ⟨hmarked, fun hcalm => ?_⟩
  obtain ⟨p, hp⟩ := h.inOrder hcalm
  obtain ⟨q, hq, -⟩ := hahead p hp
  exact ⟨q, hq⟩

namespace Reading

theorem upholds_next : Upholds (Orderly o text) (next fuel) (·.span.OfToken o.alphabet text) := by
  intro e he t e' hnext
  obtain ⟨ht, hmarked⟩ := he.marked.next (fun _ => .of_token) hnext
  refine ⟨⟨hmarked, fun hcalm => ?_⟩, ht⟩
  obtain ⟨p, hp⟩ := he.inOrder hcalm
  exact ⟨_, (hp.next hnext).2.2.1⟩

theorem upholds_peek : Upholds (Orderly o text) (peek fuel) (·.span.OfToken o.alphabet text) := by
  intro e he t e' hpeek
  obtain ⟨ht, hmarked⟩ := he.marked.peek (fun _ => .of_token) hpeek
  refine ⟨⟨hmarked, fun hcalm => ?_⟩, ht⟩
  obtain ⟨p, hp⟩ := he.inOrder hcalm
  exact ⟨p, hp.peek hpeek⟩

theorem upholds_report {c : Cause} {s : Span} (h : Diagnostic.Placed o text ⟨c, s⟩) :
    Upholds (Orderly o text) (report c s) fun _ => True := by
  refine .modify fun e he => ⟨he.marked.report h, fun hcalm => ?_⟩
  obtain ⟨p, hp⟩ := he.inOrder hcalm
  exact ⟨p, hp.report c s⟩

/-- An argument is found after all that was read before it. -/
theorem yields_argument {e : Expander Directive} (he : e.Orderly o text) :
    Yields (argument fuel) e fun r e' =>
      e'.Marked (Span.OfToken o.alphabet text) (Diagnostic.Placed o text) ∧
      (∀ a ∈ r, a.span.BetweenTokens o.alphabet text) ∧
      ∀ p, e.InOrder Directive.scopes.global p → ∃ q, e'.InOrder Directive.scopes.global q ∧
        ∀ a ∈ r, a.span.Within p q := by
  have hD : ∀ d : Diagnostic, d.span.OfToken o.alphabet text → d.Placed o text :=
    fun _ => .of_token
  refine .bind fun t m hnext => ?_
  obtain ⟨ht, hmarked⟩ := he.marked.next hD hnext
  split
  · refine .of_eq rfl ⟨hmarked.report (hD _ ht), by simp, fun p hp => ?_⟩
    exact ⟨_, (hp.next hnext).2.2.1.report .., by simp⟩
  · refine .bind fun ts m' hgroup => .of_pure ?_
    obtain ⟨hts, hmarked'⟩ := hmarked.group hD ht hgroup
    obtain ⟨u, hu, hspan⟩ := Argument.exists_last t ts
    refine ⟨hmarked', ?_, fun p hp => ?_⟩
    · have hall : ∀ u ∈ t :: ts, u.span.OfToken o.alphabet text :=
        List.forall_mem_cons.2 ⟨ht, hts⟩
      simpa [hspan] using ht.betweenTokens.between (hall u hu).betweenTokens
    · obtain ⟨hstart, hle, hahead, -⟩ := hp.next hnext
      obtain ⟨q, hwithin, hahead', hall⟩ := hahead.group hstart hle hgroup
      have hall : ∀ u ∈ t :: ts, u.span.Within t.span.start q :=
        List.forall_mem_cons.2 ⟨⟨le_rfl, hwithin.le, hwithin.stop⟩, hall⟩
      have hu := hall u hu
      refine ⟨q, hahead', ?_⟩
      simpa [hspan] using ⟨hstart, hu.start.trans hu.le, hu.stop⟩

theorem upholds_argument :
    Upholds (Orderly o text) (argument fuel) fun r => ∀ a ∈ r, a.span.Placed o text := by
  intro e he
  refine (yields_argument he).mono ?_
  rintro r e' ⟨hmarked, hends, hahead⟩
  refine ⟨he.step hmarked hahead, fun a ha => ⟨hends a ha, fun hcalm => ?_⟩⟩
  obtain ⟨p, hp⟩ := he.inOrder hcalm
  obtain ⟨q, -, hwithin⟩ := hahead p hp
  exact (hwithin a ha).le

theorem upholds_argumentRaw : Upholds (Orderly o text) argumentRaw fun _ => True := by
  intro e he
  have hD : ∀ d : Diagnostic, d.span.OfToken o.alphabet text → d.Placed o text :=
    fun _ => .of_token
  obtain ⟨ht, hmarked⟩ := he.marked.nextRaw hD
  have hnext : (modifyGet (·.nextRaw) : Reading Token) e = some (e.nextRaw.1, e.nextRaw.2) := rfl
  refine .bind (.of_eq hnext ?_)
  split
  · refine .of_eq rfl ⟨⟨hmarked.report (hD _ ht), fun hcalm => ?_⟩, trivial⟩
    obtain ⟨p, hp⟩ := he.inOrder hcalm
    exact ⟨p, hp.nextRaw.report ..⟩
  · refine .of_eq rfl ⟨⟨(hmarked.groupRaw hD ht).2, fun hcalm => ?_⟩, trivial⟩
    obtain ⟨p, hp⟩ := he.inOrder hcalm
    exact ⟨p, hp.nextRaw.groupRaw (Expander.peeked_nextRaw e) _⟩

/-! Readers of one argument report on it where it stands. -/

theorem upholds_reject {c : Cause} {s : Span} {Q : Option α → Prop} (h : s.Placed o text)
    (hc : c.ofArgument = true) (hQ : Q none) : Upholds (Orderly o text) (reject c s) Q :=
  .bind (upholds_report (Diagnostic.Placed.of_argument h hc)) fun _ _ => .pure hQ

theorem upholds_number :
    Upholds (Orderly o text) (number fuel) fun r => ∀ x ∈ r, x.2.Placed o text := by
  refine .bind upholds_argument fun r hr => ?_
  split
  · rename_i a
    have ha := hr a rfl
    split
    · exact .pure (by simpa using ha)
    · exact upholds_reject ha rfl (by simp)
  · exact .pure (by simp)

theorem upholds_sevenBits {c : Cause} (hc : c.ofArgument = true) :
    Upholds (Orderly o text) (sevenBits fuel c) fun _ => True := by
  refine .bind upholds_number fun r hr => ?_
  split
  · split
    · exact .pure trivial
    · exact upholds_reject (hr _ rfl) hc trivial
  · exact .pure trivial

theorem upholds_tempo (perMinute : Bool) :
    Upholds (Orderly o text) (tempo fuel perMinute) fun _ => True := by
  refine .bind upholds_number fun r hr => ?_
  split
  · split
    · exact upholds_reject (hr _ rfl) rfl trivial
    · dsimp only
      generalize (if perMinute = true then _ else _ : Nat) = t
      split
      · exact upholds_reject (hr _ rfl) rfl trivial
      · exact .pure trivial
  · exact .pure trivial

theorem upholds_division : Upholds (Orderly o text) (division fuel) fun _ => True := by
  refine .bind upholds_number fun r hr => ?_
  split
  · split
    · exact .pure trivial
    · exact upholds_reject (hr _ rfl) rfl trivial
  · exact .pure trivial

theorem upholds_key (minor : Bool) : Upholds (Orderly o text) (key fuel minor) fun _ => True := by
  refine .bind upholds_argument fun r hr => ?_
  split
  · split
    · exact .pure trivial
    · exact upholds_reject (hr _ rfl) rfl trivial
  · exact .pure trivial

theorem upholds_octave : Upholds (Orderly o text) (octave fuel) fun _ => True := by
  refine .bind upholds_argument fun r hr => ?_
  split
  · split
    · exact .pure trivial
    · exact upholds_reject (hr _ rfl) rfl trivial
  · exact .pure trivial

theorem upholds_instrument : Upholds (Orderly o text) (instrument fuel) fun _ => True := by
  refine .bind upholds_argument fun r hr => ?_
  split
  · split
    · exact .pure trivial
    · exact .bind (upholds_report (Diagnostic.Placed.of_argument (hr _ rfl) rfl))
        fun _ _ => .pure trivial
  · exact .pure trivial

/-- Two arguments, one after the other: a report on both has a span from the first to the second. -/
theorem upholds_timeSignature :
    Upholds (Orderly o text) (timeSignature fuel) fun _ => True := by
  intro e he
  refine .bind fun r m hr => ?_
  obtain ⟨hmarked, hends, hahead⟩ := yields_argument he r m hr
  have hm := he.step hmarked hahead
  split
  · rename_i n
    refine .bind fun r' m' hr' => ?_
    obtain ⟨hmarked', hends', hahead'⟩ := yields_argument hm r' m' hr'
    have hm' := hm.step hmarked' hahead'
    split
    · rename_i d
      have hboth : (Span.between n.span d.span).Placed o text := by
        refine ⟨(hends n rfl).between (hends' d rfl), fun hcalm => ?_⟩
        obtain ⟨p, hp⟩ := he.inOrder hcalm
        obtain ⟨q, hq, hn⟩ := hahead p hp
        obtain ⟨q', -, hd⟩ := hahead' q hq
        calc n.span.start ≤ n.span.stop := (hn n rfl).le
          _ ≤ q := (hn n rfl).stop
          _ ≤ d.span.start := (hd d rfl).start
          _ ≤ d.span.stop := (hd d rfl).le
      split
      · exact .of_pure ⟨hm', trivial⟩
      · exact upholds_reject hboth rfl trivial m' hm'
    · exact .of_pure ⟨hm', trivial⟩
  · exact .of_pure ⟨hm, trivial⟩

end Reading

/-! ## Music -/

/-- What is left of the source is orderly while the music of a track is read. -/
def Body.Orderly (o : Options) (text : String) (b : Body) : Prop := b.input.Orderly o text

namespace Writing

theorem orderly_read {m : Reading α} {Q : α → Prop} (h : Upholds (Orderly o text) m Q) :
    Upholds (Body.Orderly o text) (read m) Q := fun b hb => yields_read (h b.input hb)

theorem orderly_write (f : Score → α × Score) :
    Upholds (Body.Orderly o text) (write f) fun _ => True := fun _ hb => .of_eq rfl ⟨hb, trivial⟩

theorem orderly_setting (d : Directive) (s : Settings) :
    Upholds (Orderly o text) (setting fuel d s) fun _ => True := by
  unfold setting
  split
  · refine .bind Reading.upholds_instrument fun r _ => ?_
    split <;> exact .pure trivial
  · refine .bind (Reading.upholds_sevenBits rfl) fun r _ => ?_
    split <;> exact .pure trivial
  · exact .pure trivial

theorem orderly_content {t : Token} (ht : t.span.OfToken o.alphabet text) (a : Ambient) :
    Upholds (Orderly o text) (content t a) fun _ => True := by
  have hreport : ∀ c, Upholds (Orderly o text) (Reading.report c t.span) fun _ => True :=
    fun c => Reading.upholds_report (.of_token ht)
  unfold content
  split
  · exact .bind (hreport _) fun _ _ => .pure trivial
  · dsimp only
    split
    · exact .pure trivial
    · split
      · exact .pure trivial
      · exact .bind (hreport _) fun _ _ => .pure trivial

theorem orderly_insert (slot : Option Slot) (kind : Modifier.Kind) (span : Span) :
    Upholds (Body.Orderly o text) (insert slot kind span) fun _ => True := by
  cases slot with
  | none => exact .pure trivial
  | some slot =>
    unfold insert
    exact orderly_write _

theorem orderly_run (c : Char) (count : UInt32) (last : Span) :
    Upholds (Orderly o text) (run c fuel count last) fun _ => True := by
  induction fuel generalizing count last with
  | zero => exact .failure
  | succ fuel ih =>
    rw [run]
    refine .bind Reading.upholds_peek fun t _ => ?_
    split
    · exact .bind Reading.upholds_next fun _ _ => ih _ _
    · exact .pure trivial

theorem orderly_modifier? : Upholds (Orderly o text) (modifier? fuel) fun _ => True := by
  refine .bind Reading.upholds_peek fun t _ => ?_
  split
  · split
    · exact .bind Reading.upholds_next fun _ _ => .pure trivial
    · exact .bind (orderly_run _ _ _) fun _ _ => .pure trivial
    · exact .pure trivial
  · exact .pure trivial

theorem orderly_directive (d : Directive) {t : Token} (ht : t.span.OfToken o.alphabet text)
    (a : Ambient) :
    Upholds (Body.Orderly o text) (directive fuel d t a) fun _ => True := by
  cases d with
  | tempo | bpm => exact .bind (orderly_read (Reading.upholds_tempo _)) fun _ _ => .pure trivial
  | times => exact .bind (orderly_read Reading.upholds_timeSignature) fun _ _ => .pure trivial
  | major | minor =>
    refine .bind (orderly_read (Reading.upholds_key _)) fun r _ => ?_
    split <;> exact .pure trivial
  | vel =>
    refine .bind (orderly_read (Reading.upholds_sevenBits rfl)) fun r _ => ?_
    split <;> exact .pure trivial
  | octave =>
    refine .bind (orderly_read Reading.upholds_octave) fun r _ => ?_
    split <;> exact .pure trivial
  | div =>
    refine .bind (orderly_read (Q := fun _ => True) ?_) fun _ _ => .pure trivial
    exact .bind Reading.upholds_argument fun _ _ => Reading.upholds_report (.of_token ht)
  | instrument | volume =>
    refine .bind .get fun b _ => .bind (orderly_read (orderly_setting _ _)) fun s _ => ?_
    exact .bind (.modify fun _ hb => hb) fun _ _ => .pure trivial
  | track | voice => exact .pure trivial

/-- Each step of reading music keeps the source orderly. -/
def orderlyWalk (o : Options) (text : String) : Walk Unit where
  body b := (b ()).Orderly o text
  ambient _ := True
  content _ := True
  token t := t.span.OfToken o.alphabet text
  input {b} _ := ⟨(b ()).input, fun _ => rfl⟩
  peek _ := .of_upholds (orderly_read (Reading.upholds_peek.mono fun _ ht => ⟨_, ht, rfl⟩))
  next _ := .of_upholds (orderly_read (Reading.upholds_next.mono fun _ ht => ⟨_, ht, rfl⟩))
  unclosed ht := .of_upholds (orderly_read
    (Reading.upholds_report (.of_token ht)))
  modifier? _ := .of_upholds (orderly_read (orderly_modifier?.mono fun _ _ => ⟨_, rfl⟩))
  note ht _ := .of_upholds (orderly_read (orderly_content ht _))
  directive _ d _ _ ht _ := .of_upholds ((orderly_directive d ht _).mono fun r _ =>
    ⟨r.1, fun _ => r.2, rfl, fun _ _ => trivial, trivial⟩)
  append _ _ _ _ := .of_upholds (orderly_write _)
  concat _ _ := .of_upholds (orderly_write _)
  branch _ _ := .of_upholds (orderly_write _)
  insert _ _ _ := .of_upholds (orderly_insert _ _ _)

theorem orderly_sequence (s : Option Strand) (a : Ambient) :
    Upholds (Body.Orderly o text) (sequence fuel s a) fun _ => True :=
  ((orderlyWalk o text).sequence fuel (fun _ => s) (a := fun _ => a) trivial).upholds

end Writing

/-! ## Sheets -/

/-- What is left of the source is orderly while a sheet is read. -/
def Draft.Orderly (o : Options) (text : String) (d : Draft) : Prop := d.input.Orderly o text

namespace Drafting

theorem orderly_read {m : Reading α} {Q : α → Prop} (h : Upholds (Orderly o text) m Q) :
    Upholds (Draft.Orderly o text) (read m) Q := fun d hd => yields_read (h d.input hd)

theorem orderly_addPart (name : String) (implicit : Bool) :
    Upholds (Draft.Orderly o text) (addPart name implicit) fun _ => True :=
  fun _ hd => .of_eq rfl ⟨hd, trivial⟩

theorem orderly_currentPart : Upholds (Draft.Orderly o text) currentPart fun _ => True := by
  refine .bind .get fun d _ => ?_
  split
  · exact .pure trivial
  · refine .bind (orderly_addPart _ _) fun i _ => ?_
    exact .bind (.modify fun _ hd => hd) fun _ _ => .pure trivial

theorem orderly_selectTrack : Upholds (Draft.Orderly o text) selectTrack fun _ => True := by
  refine .bind (.modify fun _ hd => hd) fun _ _ =>
    .bind (orderly_read Reading.upholds_argumentRaw) fun a _ => ?_
  split
  · refine .bind .get fun d _ => ?_
    dsimp only
    split
    · exact .bind (Q := fun _ => True) (.pure trivial) fun i _ => .modify fun _ hd => hd
    · exact .bind (orderly_addPart _ _) fun i _ => .modify fun _ hd => hd
  · exact .pure trivial

theorem orderly_selectVoice : Upholds (Draft.Orderly o text) selectVoice fun _ => True := by
  refine .bind (.modify fun _ hd => hd) fun _ _ =>
    .bind (orderly_read Reading.upholds_argumentRaw) fun a _ => ?_
  split
  · exact .bind orderly_currentPart fun i _ => .modify fun _ hd => hd
  · exact .pure trivial

theorem orderly_music : Upholds (Draft.Orderly o text) (music fuel) fun _ => True := by
  refine .bind (.modify fun _ hd => hd) fun _ _ =>
    .bind orderly_currentPart fun i _ d hd => .bind (.of_get ?_)
  split
  · rename_i part hpart
    generalize part.currentVoice d.defaults = r
    obtain ⟨v, p⟩ := r
    dsimp only
    split
    · refine .bind fun r d' heq => ?_
      obtain ⟨⟨⟨s, ambient⟩, body⟩, hseq, heq⟩ := Option.bind_eq_some_iff.1 heq
      obtain ⟨rfl, rfl⟩ := Prod.mk.inj (Option.some.inj heq)
      have hbody : body.Orderly o text :=
        (Writing.orderly_sequence none _ ⟨d.input, p.score, p.settings⟩ hd _ _ hseq).1
      exact .of_eq rfl ⟨hbody, trivial⟩
    · exact .of_pure ⟨hd, trivial⟩
  · exact .of_pure ⟨hd, trivial⟩

theorem orderly_setting (x : Directive) :
    Upholds (Draft.Orderly o text) (setting fuel x) fun _ => True := by
  refine .bind .get fun d _ => ?_
  split <;>
    exact .bind (orderly_read (Writing.orderly_setting x _)) fun _ _ => .modify fun _ hd => hd

/-- What is made of an argument leaves the source alone. -/
theorem orderly_change {q : Reading α} {f : α → Drafting Unit} {Q : α → Prop}
    (hq : Upholds (Orderly o text) q Q)
    (hf : ∀ x d, ∃ d', f x d = some ((), d') ∧ d'.input = d.input) :
    Upholds (Draft.Orderly o text) (read q >>= f) fun _ => True := by
  refine .bind (orderly_read hq) fun x _ d hd => ?_
  obtain ⟨d', hd', hinput⟩ := hf x d
  refine .of_eq hd' ⟨?_, trivial⟩
  rw [Draft.Orderly, hinput]
  exact hd

theorem orderly_heading (x : Directive) :
    Upholds (Draft.Orderly o text) (heading fuel x) fun _ => True := by
  cases x with
  | tempo | bpm =>
    refine orderly_change (Reading.upholds_tempo _) fun r d => ?_
    cases r <;> exact ⟨_, rfl, rfl⟩
  | major | minor =>
    refine orderly_change (Reading.upholds_key _) fun r d => ?_
    cases r <;> exact ⟨_, rfl, rfl⟩
  | times =>
    refine orderly_change Reading.upholds_timeSignature fun r d => ?_
    cases r <;> exact ⟨_, rfl, rfl⟩
  | div =>
    refine orderly_change Reading.upholds_division fun r d => ?_
    cases r <;> exact ⟨_, rfl, rfl⟩
  | vel =>
    refine orderly_change (Reading.upholds_sevenBits rfl) fun r d => ?_
    cases r <;> exact ⟨_, rfl, rfl⟩
  | octave =>
    refine orderly_change Reading.upholds_octave fun r d => ?_
    cases r <;> exact ⟨_, rfl, rfl⟩
  | track | voice | instrument | volume => exact .pure trivial

theorem orderly_all : Upholds (Draft.Orderly o text) (all fuel) fun _ => True := by
  induction fuel with
  | zero => exact .failure
  | succ fuel ih =>
    have hnext : Upholds (Draft.Orderly o text) (read (Reading.next fuel))
        (·.span.OfToken o.alphabet text) :=
      orderly_read Reading.upholds_next
    rw [all]
    refine .bind (orderly_read Reading.upholds_peek) fun t ht => ?_
    have hreport : ∀ c, Upholds (Draft.Orderly o text) (read (Reading.report c t.span))
        fun _ => True :=
      fun c => orderly_read (Reading.upholds_report (.of_token ht))
    split
    · exact .pure trivial
    · split
      · exact .bind hnext fun _ _ => ih
      · split
        · exact .bind hnext fun _ _ => .bind (hreport _) fun _ _ => ih
        · refine .bind .get fun d _ => ?_
          dsimp only
          split
          · exact .bind hnext fun _ _ => .bind orderly_selectTrack fun _ _ => ih
          · exact .bind hnext fun _ _ => .bind orderly_selectVoice fun _ _ => ih
          · exact .bind hnext fun _ _ => .bind (orderly_setting _) fun _ _ => ih
          · exact .bind hnext fun _ _ => .bind (orderly_setting _) fun _ _ => ih
          · split
            · exact .bind orderly_music fun _ _ => ih
            · exact .bind hnext fun _ _ => .bind (orderly_heading _) fun _ _ => ih
          · exact .bind orderly_music fun _ _ => ih

end Drafting

/-! ## Sources -/

/-- At the start, only directives and the two commands that define are bound. -/
theorem Directive.global_scopes : scopes.global =
    table.reverse.map (fun p => (p.1, .directive p.2)) ++
      [("\\gdef", .define true), ("\\def", .define false)] := by
  decide

theorem Token.idle_of_defines {t : Token} (h : t.defines = false) :
    Expander.Idle Directive.scopes.global t := by
  intro hkind
  cases hlookup : Directive.scopes.global.lookup t.text with
  | none => exact .inl rfl
  | some b =>
    obtain ⟨before, after, hsplit, -⟩ := List.lookup_eq_some_iff.1 hlookup
    have hmem : (t.text, b) ∈ Directive.scopes.global := by simp [hsplit]
    rw [Directive.global_scopes] at hmem
    rcases List.mem_append.1 hmem with hmem | hmem
    · obtain ⟨p, -, heq⟩ := List.mem_map.1 hmem
      exact .inr ⟨p.2, by rw [(Prod.mk.inj heq).2]⟩
    · simp [defines, hkind] at h
      simp [h] at hmem

theorem orderly_ofText (o : Options) (text : String) :
    (Expander.ofSource (.ofText o.alphabet text) Directive.scopes o.limit).Orderly o text := by
  have heach : Directive.scopes.Each fun d =>
      ∀ t ∈ d.body, t.span.OfToken o.alphabet text := by
    intro f hf p hp d hd
    rw [List.mem_singleton.1 hf, Directive.global_scopes] at hp
    rcases List.mem_append.1 hp with hp | hp
    · obtain ⟨x, -, rfl⟩ := List.mem_map.1 hp
      cases hd
    · simp only [List.mem_cons, List.not_mem_nil, or_false] at hp
      rcases hp with rfl | rfl <;> cases hd
  obtain ⟨q, hq, -⟩ := Token.chained_scan o.alphabet text
  refine ⟨Expander.marked_ofSource (Source.spanned_ofText _ text) hq heach _,
    fun hcalm => ⟨{}, ?_⟩⟩
  refine Expander.inOrder_ofText (hcalm.imp_right fun hdefines => ⟨⟨rfl, ?_⟩, ?_⟩)
  · exact fun f hf => nomatch hf
  · exact fun t ht => Token.idle_of_defines (hdefines t ht)

/-- **Every diagnostic is about one token of the text, but for those about the text of an argument:
these run from the start of a token to the end of another.** Lines and columns count from one. A
token ends where it starts or after that; what runs from one token to another does so if no call is
carried out, and otherwise whenever the first token stands before the last one. -/
theorem compile_spans {fuel : Nat} {o : Options} {text : String} {c : Compiled}
    (h : compile fuel o text = some c) {d : Diagnostic} (hd : d ∈ c.diagnostics) :
    (1 ≤ d.span.start.line ∧ 1 ≤ d.span.start.column) ∧
      (1 ≤ d.span.stop.line ∧ 1 ≤ d.span.stop.column) ∧
      (o.Calm text ∨ d.cause.ofArgument = false → d.span.start ≤ d.span.stop) ∧
      ∃ first ∈ Token.scan o.alphabet text, ∃ last ∈ Token.scan o.alphabet text,
        d.span = .between first.span last.span ∧ (d.cause.ofArgument = false → first = last) := by
  obtain ⟨r, hparse, hc⟩ := Option.bind_eq_some_iff.1 h
  obtain rfl := Option.some.inj hc
  obtain ⟨⟨_, draft⟩, hall, hr⟩ := Option.bind_eq_some_iff.1 hparse
  obtain rfl := Option.some.inj hr
  have hstart : Draft.Orderly o text
      { input := .ofSource (.ofText o.alphabet text) Directive.scopes o.limit } :=
    orderly_ofText o text
  have hend : draft.input.Orderly o text := (Drafting.orderly_all _ hstart _ _ hall).1
  have hplaced := hend.marked.reported d (List.mem_reverse.1 hd)
  have htokens : ∃ first ∈ Token.scan o.alphabet text, ∃ last ∈ Token.scan o.alphabet text,
      d.span = .between first.span last.span ∧ (d.cause.ofArgument = false → first = last) := by
    cases hc : d.cause.ofArgument with
    | false =>
      obtain ⟨t, ht, hspan⟩ := hplaced.token hc
      exact ⟨t, ht, t, ht, hspan ▸ rfl, fun _ => rfl⟩
    | true =>
      obtain ⟨first, hfirst, last, hlast, hspan⟩ := hplaced.span.ends
      exact ⟨first, hfirst, last, hlast, hspan, nofun⟩
  obtain ⟨first, hfirst, last, hlast, hspan, hsame⟩ := htokens
  have hproper := (Token.proper_of_mem_scan hfirst).start
  have hproper' := (Token.proper_of_mem_scan hlast).stop
  refine ⟨?_, ?_, fun hordered => ?_, first, hfirst, last, hlast, hspan, hsame⟩
  · rw [hspan]
    exact ⟨hproper.line, hproper.column⟩
  · rw [hspan]
    exact ⟨hproper'.line, hproper'.column⟩
  · rcases hordered with hcalm | htoken
    · exact hplaced.span.le hcalm
    · exact (hplaced.token htoken).proper.le

/-- A time signature over two lines, in a text without definitions. -/
theorem compile_spans_twoLines : ∃ c, compile 100 {} "\\times\x7bx\x7d\n\x7b4\x7d" = some c ∧
    c.diagnostics = [⟨.invalidTimeSignature "x" "4", ⟨⟨1, 7⟩, ⟨2, 4⟩⟩⟩] ∧
    (1 ≤ 1 ∧ 1 ≤ 7) ∧ (1 ≤ 2 ∧ 1 ≤ 4) ∧ (⟨1, 7⟩ : Position) ≤ ⟨2, 4⟩ := by
  have hcompile : (compile 100 {} "\\times\x7bx\x7d\n\x7b4\x7d").map (·.diagnostics) =
      some [⟨.invalidTimeSignature "x" "4", ⟨⟨1, 7⟩, ⟨2, 4⟩⟩⟩] := by
    decide +kernel
  have hcalm : Options.Calm {} "\\times\x7bx\x7d\n\x7b4\x7d" := .inr (by decide +kernel)
  obtain ⟨c, hc, hdiagnostics⟩ := Option.map_eq_some_iff.1 hcompile
  obtain ⟨hstart, hstop, hle, -⟩ := compile_spans hc (hdiagnostics ▸ List.mem_singleton_self _)
  exact ⟨c, hc, hdiagnostics, hstart, hstop, hle (.inl hcalm)⟩

/-- The denominator of the time signature comes out of the definition, so that the span from the
numerator to it ends before it starts. -/
theorem exists_span_reversed :
    ∃ c, compile 100 {} "\\def\\a\x7b4\x7d\\times\x7bx\x7d\\a" = some c ∧
      c.diagnostics = [⟨.invalidTimeSignature "x" "4", ⟨⟨1, 16⟩, ⟨1, 9⟩⟩⟩] ∧
      ¬(⟨1, 16⟩ : Position) ≤ ⟨1, 9⟩ := by
  have hcompile : (compile 100 {} "\\def\\a\x7b4\x7d\\times\x7bx\x7d\\a").map (·.diagnostics) =
      some [⟨.invalidTimeSignature "x" "4", ⟨⟨1, 16⟩, ⟨1, 9⟩⟩⟩] := by
    decide +kernel
  obtain ⟨c, hc, hdiagnostics⟩ := Option.map_eq_some_iff.1 hcompile
  refine ⟨c, hc, hdiagnostics, ?_⟩
  rw [Position.le_iff]
  decide

end Jianpu
