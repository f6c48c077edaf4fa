import Jianpu.Proofs.Sheet.Builds
import Jianpu.Sheet.Parse

/-!
# What is read is in range

Every number that a directive sets is checked where it is read, and an argument that fails the check
leaves in force what was in force before, or the first instrument. So whatever is read of a source,
in order or not, its numbers are in range: `Sheet.inRange_of_parse`.

The invariant of the reader of arguments is trivial, that of the reader of music is `Body.InRange`,
and that of the reader of sheets is `Draft.InRange`.
-/

namespace Jianpu

/-! ## Ranges -/

/-- A time signature has a beat at least, and a power of two below it. -/
def ProperTime (numerator denominator : UInt8) : Prop :=
  1 ≤ numerator.toNat ∧ ∃ k, denominator.toNat = 2 ^ k

/-- The key shifts by less than an octave, and has seven sharps or flats at most. -/
structure Key.InRange (k : Key) : Prop where
  shift : 0 ≤ k.shift ∧ k.shift ≤ 11
  sharps : -7 ≤ k.sharps.toInt ∧ k.sharps.toInt ≤ 7

instance (k : Key) : Decidable k.InRange :=
  decidable_of_iff ((0 ≤ k.shift ∧ k.shift ≤ 11) ∧ -7 ≤ k.sharps.toInt ∧ k.sharps.toInt ≤ 7)
    ⟨fun h => ⟨h.1, h.2⟩, fun h => ⟨h.shift, h.sharps⟩⟩

/-- The numbers at a node are in range. The pitch is brought into range when the node is played. -/
def Content.InRange : Content → Prop
  | .note _ velocity => velocity ≤ 127
  | .rest => True
  | .tempo t => t ≤ 0xFFFFFF
  | .key k => k.InRange
  | .time a b => ProperTime a b

/-- All nodes of a score are in range. -/
def Score.InRange (g : Score) : Prop := ∀ n c, g.content? n = some c → c.InRange

/-- The velocity that notes take from before them is in range. -/
def Ambient.InRange (a : Ambient) : Prop := a.velocity ≤ 127

structure Settings.InRange (s : Settings) : Prop where
  instrument : s.instrument ≤ 127
  volume : s.volume ≤ 127

structure Header.InRange (h : Header) : Prop where
  tempo : h.tempo ≤ 0xFFFFFF
  key : h.key.InRange
  time : ProperTime h.numerator h.denominator
  division : 1 ≤ h.division ∧ h.division ≤ 0x7FFF

structure Part.InRange (p : Part) : Prop where
  settings : p.settings.InRange
  score : p.score.InRange
  voices : ∀ v ∈ p.voices, v.ambient.InRange

structure Body.InRange (b : Body) : Prop where
  score : b.score.InRange
  settings : b.settings.InRange

structure Draft.InRange (d : Draft) : Prop where
  header : d.header.InRange
  defaults : d.defaults.InRange
  pending : d.pending.InRange
  parts : ∀ p ∈ d.parts, p.InRange

/-! ### What is in force at the start -/

theorem Ambient.inRange_default : Ambient.InRange {} := (by decide : 80 ≤ 127)

theorem Settings.inRange_default : Settings.InRange {} := ⟨by decide, by decide⟩

theorem Header.inRange_default : Header.InRange {} :=
  ⟨by decide, by decide, ⟨by decide, 2, rfl⟩, by decide⟩

/-! ## Keys and time signatures -/

/-- The letters, by the semitones above C and the place on the circle of fifths. -/
theorem Key.mem_of_letter? {c : Char} {x : Int × Int} (h : letter? c = some x) :
    x ∈ [((0 : Int), (0 : Int)), (2, 2), (4, 4), (5, -1), (7, 1), (9, 3), (11, 5)] := by
  unfold letter? at h
  split at h
  · cases h; decide
  · cases h; decide
  · cases h; decide
  · cases h; decide
  · cases h; decide
  · cases h; decide
  · cases h; decide
  · cases h

theorem Key.inRange_of_parse? {name : String} {minor : Bool} {k : Key}
    (h : parse? name minor = some k) : k.InRange := by
  have hall : ∀ x ∈ [((0 : Int), (0 : Int)), (2, 2), (4, 4), (5, -1), (7, 1), (9, 3), (11, 5)],
      ∀ accidental ∈ [(0 : Int), 1, -1], ∀ minor, (ofTonic x.1 x.2 accidental minor).InRange := by
    decide
  have hletter : ∀ c, ∀ accidental ∈ [(0 : Int), 1, -1],
      ((letter? c).bind fun x => some (ofTonic x.1 x.2 accidental minor)) = some k → k.InRange := by
    intro c accidental haccidental hk
    obtain ⟨x, hx, hk⟩ := Option.bind_eq_some_iff.1 hk
    obtain rfl := Option.some.inj hk
    exact hall x (mem_of_letter? hx) accidental haccidental minor
  unfold parse? at h
  dsimp only at h
  split at h
  · exact hletter _ 0 (by decide) h
  · exact hletter _ 1 (by decide) h
  · exact hletter _ (-1) (by decide) h
  · cases h

theorem Reading.properTime_of_signature? {n d : String} {p : UInt8 × UInt8}
    (h : signature? n d = some p) : ProperTime p.1 p.2 := by
  have hpowers : ∀ d ∈ [1, 2, 4, 8, 16, 32, 64, 128],
      ∃ k : Fin 8, (UInt8.ofNat d).toNat = 2 ^ k.val := by
    decide
  obtain ⟨a, ha, h⟩ := Option.bind_eq_some_iff.1 h
  obtain ⟨b, -, h⟩ := Option.bind_eq_some_iff.1 h
  obtain ⟨-, hle⟩ := Option.filter_eq_some_iff.1 ha
  have hle : a ≤ 255 := of_decide_eq_true hle
  split at h
  · rename_i hab
    obtain rfl := Option.some.inj h
    obtain ⟨k, hk⟩ := hpowers b hab.2
    refine ⟨?_, k, hk⟩
    rw [UInt8.toNat_ofNat', Nat.mod_eq_of_lt (by omega)]
    exact hab.1
  · cases h

/-! ## Arguments -/

namespace Reading

variable {α : Type} {fuel : Nat}

/-- What a reader of arguments gives satisfies `Q`. -/
def Gives (m : Reading α) (Q : α → Prop) : Prop := Upholds (fun _ => True) m Q

theorem gives_true (m : Reading α) : Gives m fun _ => True := fun _ _ _ _ _ => ⟨trivial, trivial⟩

theorem gives_reject {Q : Option α → Prop} (c : Cause) (s : Span) (h : Q none) :
    Gives (reject c s) Q :=
  .bind (gives_true _) fun _ _ => .pure h

/-- An argument that is missing or no number gives nothing. -/
theorem gives_sevenBits (c : Cause) : Gives (sevenBits fuel c) fun r => ∀ n ∈ r, n ≤ 127 := by
  refine .bind (gives_true _) fun r _ => ?_
  split
  · split
    · exact .pure (by simpa)
    · exact gives_reject _ _ nofun
  · exact .pure nofun

theorem gives_tempo (perMinute : Bool) :
    Gives (tempo fuel perMinute) fun r => ∀ n ∈ r, n ≤ 0xFFFFFF := by
  refine .bind (gives_true _) fun r _ => ?_
  split
  · split
    · exact gives_reject _ _ nofun
    · dsimp only
      generalize (if perMinute = true then _ else _ : Nat) = t
      split
      · exact gives_reject _ _ nofun
      · exact .pure (by simpa using Nat.le_of_not_lt ‹_›)
  · exact .pure nofun

theorem gives_division : Gives (division fuel) fun r => ∀ n ∈ r, 1 ≤ n ∧ n ≤ 0x7FFF := by
  refine .bind (gives_true _) fun r _ => ?_
  split
  · split
    · exact .pure (by simpa)
    · exact gives_reject _ _ nofun
  · exact .pure nofun

theorem gives_key (minor : Bool) : Gives (key fuel minor) fun r => ∀ k ∈ r, k.InRange := by
  refine .bind (gives_true _) fun r _ => ?_
  split
  · split
    · rename_i k hk
      refine .pure fun k' hk' => ?_
      obtain rfl := Option.some.inj hk'
      exact Key.inRange_of_parse? hk
    · exact gives_reject _ _ nofun
  · exact .pure nofun

theorem gives_timeSignature :
    Gives (timeSignature fuel) fun r => ∀ p ∈ r, ProperTime p.1 p.2 := by
  refine .bind (gives_true _) fun r _ => ?_
  split
  · refine .bind (gives_true _) fun r _ => ?_
    split
    · split
      · rename_i p hp
        refine .pure fun p' hp' => ?_
        obtain rfl := Option.some.inj hp'
        exact properTime_of_signature? hp
      · exact gives_reject _ _ nofun
    · exact .pure nofun
  · exact .pure nofun

/-- An instrument that is unknown is the first one. -/
theorem gives_instrument : Gives (instrument fuel) fun r => ∀ n ∈ r, n ≤ 127 := by
  refine .bind (gives_true _) fun r _ => ?_
  split
  · split
    · rename_i n hn
      refine .pure fun n' hn' => ?_
      obtain rfl := Option.some.inj hn'
      exact of_decide_eq_true (Option.filter_eq_some_iff.1 hn).2
    · exact .bind (gives_true _) fun _ _ => .pure (by simp)
  · exact .pure nofun

end Reading

/-! ## Music -/

namespace Writing

open Reading (Gives)

variable {α : Type} {fuel : Nat}

theorem gives_setting (d : Directive) {s : Settings} (h : s.InRange) :
    Gives (setting fuel d s) Settings.InRange := by
  unfold setting
  split
  · refine .bind Reading.gives_instrument fun r hr => ?_
    split
    · exact .pure ⟨hr _ rfl, h.volume⟩
    · exact .pure h
  · refine .bind (Reading.gives_sevenBits _) fun r hr => ?_
    split
    · exact .pure ⟨h.instrument, hr _ rfl⟩
    · exact .pure h
  · exact .pure h

theorem gives_content (t : Token) {a : Ambient} (h : a.InRange) :
    Gives (content t a) Content.InRange := by
  unfold content
  split
  · exact .bind (Reading.gives_true _) fun _ _ => .pure h
  · dsimp only
    split
    · exact .pure trivial
    · split
      · exact .pure h
      · exact .bind (Reading.gives_true _) fun _ _ => .pure h

theorem upholds_read {m : Reading α} {Q : α → Prop} (h : Gives m Q) :
    Upholds Body.InRange (read m) Q := fun b hb =>
  yields_read ((h b.input trivial).mono fun _ _ hx => ⟨⟨hb.score, hb.settings⟩, hx.2⟩)

/-- What is added to the score is in range if the contents of the nodes are. -/
theorem upholds_write {f : Score → α × Score} (h : ∀ g, g.InRange → (f g).2.InRange) :
    Upholds Body.InRange (write f) fun _ => True :=
  fun b hb => .of_eq rfl ⟨⟨h b.score hb.score, hb.settings⟩, trivial⟩

theorem upholds_append (s : Option Strand) {c : Content} (hc : c.InRange) (span : Span) :
    Upholds Body.InRange (append s c span) fun _ => True := by
  refine upholds_write fun g hg n c' hn => ?_
  have happend : (g.addNode c span).2.content? n = some c' :=
    (Strand.content?_append s _ _ n).symm.trans hn
  rw [Score.content?_addNode] at happend
  split at happend
  · exact Option.some.inj happend ▸ hc
  · exact hg n c' happend

theorem upholds_concat (s o : Option Strand) :
    Upholds Body.InRange (concat s o) fun _ => True :=
  upholds_write fun _ hg n c hn => hg n c ((Strand.content?_concat s o _ n).symm.trans hn)

theorem upholds_branch (s o : Option Strand) :
    Upholds Body.InRange (branch s o) fun _ => True :=
  upholds_write fun _ hg n c hn => hg n c ((Strand.content?_branch s o _ n).symm.trans hn)

theorem upholds_insert (slot : Option Slot) (kind : Modifier.Kind) (span : Span) :
    Upholds Body.InRange (insert slot kind span) fun _ => True := by
  cases slot with
  | none => exact .pure trivial
  | some slot =>
    unfold insert
    refine upholds_write fun g hg n c hn => hg n c ?_
    exact (slot.content?_insert (g.addModifier kind span).2 g.modifiers.size n).symm.trans hn

/-- A directive puts a node there whose numbers are in range, or changes what is ambient. -/
theorem upholds_directive (d : Directive) (t : Token) {a : Ambient} (h : a.InRange) :
    Upholds Body.InRange (directive fuel d t a) fun r =>
      (∀ c ∈ r.1, c.InRange) ∧ r.2.InRange := by
  cases d with
  | tempo | bpm =>
    refine .bind (upholds_read (Reading.gives_tempo _)) fun r hr => .pure ⟨fun c hc => ?_, h⟩
    obtain ⟨n, hn, rfl⟩ := Option.map_eq_some_iff.1 hc
    exact hr n hn
  | times =>
    refine .bind (upholds_read Reading.gives_timeSignature) fun r hr => .pure ⟨fun c hc => ?_, h⟩
    obtain ⟨p, hp, rfl⟩ := Option.map_eq_some_iff.1 hc
    exact hr p hp
  | major | minor =>
    refine .bind (upholds_read (Reading.gives_key _)) fun r hr => ?_
    split
    · rename_i k
      refine .pure ⟨fun c hc => ?_, h⟩
      obtain rfl := Option.some.inj hc
      exact hr k rfl
    · exact .pure ⟨nofun, h⟩
  | vel =>
    refine .bind (upholds_read (Reading.gives_sevenBits _)) fun r hr => ?_
    split
    · exact .pure ⟨nofun, hr _ rfl⟩
    · exact .pure ⟨nofun, h⟩
  | octave =>
    refine .bind (upholds_read (Reading.gives_true _)) fun r _ => ?_
    split
    · exact .pure ⟨nofun, h⟩
    · exact .pure ⟨nofun, h⟩
  | div => exact .bind (upholds_read (Reading.gives_true _)) fun _ _ => .pure ⟨nofun, h⟩
  | instrument | volume =>
    refine .bind .get fun b hb => .bind (upholds_read (gives_setting _ hb.settings)) fun s hs => ?_
    exact .bind (.modify fun b' hb' => ⟨hb'.score, hs⟩) fun _ _ => .pure ⟨nofun, h⟩
  | track | voice => exact .pure ⟨nofun, h⟩

/-- Each step of reading music keeps it in range. -/
def rangeWalk : Walk Unit where
  body b := (b ()).InRange
  ambient a := (a ()).InRange
  content c := (c ()).InRange
  token _ := True
  input {b} _ := ⟨(b ()).input, fun _ => rfl⟩
  peek _ := .of_upholds (upholds_read ((Reading.gives_true _).mono fun _ _ => ⟨_, trivial, rfl⟩))
  next _ := .of_upholds (upholds_read ((Reading.gives_true _).mono fun _ _ => ⟨_, trivial, rfl⟩))
  unclosed _ := .of_upholds (upholds_read (Reading.gives_true _))
  modifier? _ := .of_upholds (upholds_read ((Reading.gives_true _).mono fun _ _ => ⟨_, rfl⟩))
  note _ ha := .of_upholds (upholds_read (gives_content _ ha))
  directive _ d _ _ _ ha := .of_upholds ((upholds_directive d _ ha).mono fun r hr =>
    ⟨r.1, fun _ => r.2, rfl, hr⟩)
  append s _ _ hc := .of_upholds (upholds_append (s ()) hc _)
  concat _ _ := .of_upholds (upholds_concat _ _)
  branch _ _ := .of_upholds (upholds_branch _ _)
  insert _ _ _ := .of_upholds (upholds_insert _ _ _)

theorem upholds_sequence (s : Option Strand) {a : Ambient} (ha : a.InRange) :
    Upholds Body.InRange (sequence fuel s a) fun r => r.2.InRange :=
  (rangeWalk.sequence fuel (fun _ => s) (a := fun _ => a) ha).upholds

end Writing

/-! ## Sheets -/

namespace Part.InRange

variable {p : Part}

theorem selectVoice (h : p.InRange) (name : String) {defaults : Ambient} (hd : defaults.InRange) :
    (p.selectVoice name defaults).2.InRange := by
  unfold Part.selectVoice
  split
  · exact ⟨h.settings, h.score, h.voices⟩
  · exact ⟨h.settings, h.score, List.forall_mem_append.2 ⟨h.voices, by simpa using hd⟩⟩

theorem currentVoice (h : p.InRange) {defaults : Ambient} (hd : defaults.InRange) :
    (p.currentVoice defaults).2.InRange := by
  unfold Part.currentVoice
  split
  · exact h
  · exact h.selectVoice "1" hd

/-- Music is put after a voice. -/
theorem addMusic (h : p.InRange) {b : Body} (hb : b.InRange) (v : Nat) (voice : Voice)
    (s : Option Strand) {ambient : Ambient} (ha : ambient.InRange) :
    Part.InRange { p with
      score := (Strand.concat voice.strand s b.score).2.2
      settings := b.settings
      voices := p.voices.set v
        { voice with strand := (Strand.concat voice.strand s b.score).1, ambient } } where
  settings := hb.settings
  score n c hn := hb.score n c ((Strand.content?_concat ..).symm.trans hn)
  voices w hw := by
    rcases List.mem_or_eq_of_mem_set hw with hw | rfl
    · exact h.voices w hw
    · exact ha

end Part.InRange

theorem Draft.InRange.set {d : Draft} (h : d.InRange) (i : Nat) {p : Part} (hp : p.InRange) :
    ∀ p' ∈ d.parts.set i p, p'.InRange := by
  intro p' hmem
  rcases List.mem_or_eq_of_mem_set hmem with hmem | rfl
  · exact h.parts p' hmem
  · exact hp

namespace Drafting

open Reading (Gives)

variable {α : Type} {fuel : Nat}

theorem upholds_read {m : Reading α} {Q : α → Prop} (h : Gives m Q) :
    Upholds Draft.InRange (read m) Q := fun d hd =>
  yields_read ((h d.input trivial).mono fun _ _ hx =>
    ⟨⟨hd.header, hd.defaults, hd.pending, hd.parts⟩, hx.2⟩)

/-- Selecting a part or noting that music was met. -/
theorem upholds_mark {g : Draft → Draft} (h : ∀ d, (g d).header = d.header ∧
    (g d).defaults = d.defaults ∧ (g d).pending = d.pending ∧ (g d).parts = d.parts) :
    Upholds Draft.InRange (modify g : Drafting Unit) fun _ => True := by
  refine .modify fun d hd => ?_
  obtain ⟨hheader, hdefaults, hpending, hparts⟩ := h d
  exact ⟨hheader ▸ hd.header, hdefaults ▸ hd.defaults, hpending ▸ hd.pending, hparts ▸ hd.parts⟩

/-- A part starts with the settings that were pending. -/
theorem upholds_addPart (name : String) (implicit : Bool) :
    Upholds Draft.InRange (addPart name implicit) fun _ => True := by
  intro d hd
  refine .of_eq rfl ⟨⟨hd.header, hd.defaults, Settings.inRange_default, fun p hp => ?_⟩, trivial⟩
  rcases List.mem_append.1 hp with hp | hp
  · exact hd.parts p hp
  · obtain rfl := List.mem_singleton.1 hp
    exact ⟨hd.pending, by simp [Score.InRange, Score.content?], by simp⟩

theorem upholds_currentPart : Upholds Draft.InRange currentPart fun _ => True := by
  refine .bind .get fun d _ => ?_
  split
  · exact .pure trivial
  · refine .bind (upholds_addPart _ _) fun i _ => ?_
    exact .bind (upholds_mark fun _ => ⟨rfl, rfl, rfl, rfl⟩) fun _ _ => .pure trivial

theorem upholds_selectTrack : Upholds Draft.InRange selectTrack fun _ => True := by
  refine .bind (upholds_mark fun _ => ⟨rfl, rfl, rfl, rfl⟩) fun _ _ =>
    .bind (upholds_read (Reading.gives_true _)) fun a _ => ?_
  split
  · refine .bind .get fun d _ => ?_
    dsimp only
    split
    · exact .bind (Q := fun _ => True) (.pure trivial) fun i _ =>
        upholds_mark fun _ => ⟨rfl, rfl, rfl, rfl⟩
    · exact .bind (upholds_addPart _ _) fun i _ => upholds_mark fun _ => ⟨rfl, rfl, rfl, rfl⟩
  · exact .pure trivial

theorem upholds_selectVoice : Upholds Draft.InRange selectVoice fun _ => True := by
  refine .bind (upholds_mark fun _ => ⟨rfl, rfl, rfl, rfl⟩) fun _ _ =>
    .bind (upholds_read (Reading.gives_true _)) fun a _ => ?_
  split
  · refine .bind upholds_currentPart fun i _ => .modify fun d hd =>
      ⟨hd.header, hd.defaults, hd.pending, fun p hp => ?_⟩
    obtain ⟨k, hk, rfl⟩ := List.mem_iff_getElem.1 hp
    rw [List.getElem_modify]
    rw [List.length_modify] at hk
    have hpart := hd.parts _ (List.getElem_mem hk)
    split
    · exact hpart.selectVoice _ hd.defaults
    · exact hpart
  · exact .pure trivial

theorem upholds_music : Upholds Draft.InRange (music fuel) fun _ => True := by
  refine .bind (upholds_mark fun _ => ⟨rfl, rfl, rfl, rfl⟩) fun _ _ =>
    .bind upholds_currentPart fun i _ d hd => .bind (.of_get ?_)
  split
  · rename_i part hpart
    have hcurrent := (hd.parts part (List.mem_of_getElem? hpart)).currentVoice hd.defaults
    generalize part.currentVoice d.defaults = r at hcurrent
    obtain ⟨v, p⟩ := r
    dsimp only at hcurrent ⊢
    split
    · rename_i voice hvoice
      refine .bind fun r d' heq => ?_
      obtain ⟨⟨⟨s, ambient⟩, body⟩, hseq, heq⟩ := Option.bind_eq_some_iff.1 heq
      obtain ⟨rfl, rfl⟩ := Prod.mk.inj (Option.some.inj heq)
      obtain ⟨hbody, hambient⟩ := Writing.upholds_sequence none
        (hcurrent.voices voice (List.mem_of_getElem? hvoice)) _ ⟨hcurrent.score, hcurrent.settings⟩
        _ _ hseq
      exact .of_eq rfl ⟨⟨hd.header, hd.defaults, hd.pending,
        hd.set i (hcurrent.addMusic hbody v voice s hambient)⟩, trivial⟩
    · exact .of_pure ⟨hd, trivial⟩
  · exact .of_pure ⟨hd, trivial⟩

theorem upholds_setting (x : Directive) :
    Upholds Draft.InRange (setting fuel x) fun _ => True := by
  refine .bind .get fun d hd => ?_
  split
  · rename_i i part hpart
    have hmem : part ∈ d.parts := by
      obtain ⟨j, -, hj⟩ := Option.bind_eq_some_iff.1 hpart
      obtain ⟨p, hp, heq⟩ := Option.map_eq_some_iff.1 hj
      obtain ⟨rfl, rfl⟩ := Prod.mk.inj heq
      exact List.mem_of_getElem? hp
    have hpart := hd.parts part hmem
    refine .bind (upholds_read (Writing.gives_setting x hpart.settings)) fun settings hs => ?_
    exact .modify fun d' hd' => ⟨hd'.header, hd'.defaults, hd'.pending,
      hd'.set i ⟨hs, hpart.score, hpart.voices⟩⟩
  · refine .bind (upholds_read (Writing.gives_setting x hd.pending)) fun pending hs => ?_
    exact .modify fun d' hd' => ⟨hd'.header, hd'.defaults, hs, hd'.parts⟩

theorem upholds_heading (x : Directive) :
    Upholds Draft.InRange (heading fuel x) fun _ => True := by
  cases x with
  | tempo | bpm =>
    refine .bind (upholds_read (Reading.gives_tempo _)) fun r hr => ?_
    split
    · exact .modify fun d hd => ⟨⟨hr _ rfl, hd.header.key, hd.header.time, hd.header.division⟩,
        hd.defaults, hd.pending, hd.parts⟩
    · exact .pure trivial
  | major | minor =>
    refine .bind (upholds_read (Reading.gives_key _)) fun r hr => ?_
    split
    · exact .modify fun d hd => ⟨⟨hd.header.tempo, hr _ rfl, hd.header.time, hd.header.division⟩,
        hd.defaults, hd.pending, hd.parts⟩
    · exact .pure trivial
  | times =>
    refine .bind (upholds_read Reading.gives_timeSignature) fun r hr => ?_
    split
    · exact .modify fun d hd => ⟨⟨hd.header.tempo, hd.header.key, hr _ rfl, hd.header.division⟩,
        hd.defaults, hd.pending, hd.parts⟩
    · exact .pure trivial
  | div =>
    refine .bind (upholds_read Reading.gives_division) fun r hr => ?_
    split
    · exact .modify fun d hd => ⟨⟨hd.header.tempo, hd.header.key, hd.header.time, hr _ rfl⟩,
        hd.defaults, hd.pending, hd.parts⟩
    · exact .pure trivial
  | vel =>
    refine .bind (upholds_read (Reading.gives_sevenBits _)) fun r hr => ?_
    split
    · exact .modify fun d hd => ⟨hd.header, hr _ rfl, hd.pending, hd.parts⟩
    · exact .pure trivial
  | octave =>
    refine .bind (upholds_read (Reading.gives_true _)) fun r _ => ?_
    split
    · exact .modify fun d hd => ⟨hd.header, hd.defaults, hd.pending, hd.parts⟩
    · exact .pure trivial
  | track | voice | instrument | volume => exact .pure trivial

theorem upholds_all : Upholds Draft.InRange (all fuel) fun _ => True := by
  induction fuel with
  | zero => exact .failure
  | succ fuel ih =>
    have hread : ∀ {α : Type} (m : Reading α), Upholds Draft.InRange (read m) fun _ => True :=
      fun m => upholds_read (Reading.gives_true m)
    rw [all]
    refine .bind (hread _) fun t _ => ?_
    split
    · exact .pure trivial
    · split
      · exact .bind (hread _) fun _ _ => ih
      · split
        · exact .bind (hread _) fun _ _ => .bind (hread _) fun _ _ => ih
        · refine .bind .get fun d _ => ?_
          dsimp only
          split
          · exact .bind (hread _) fun _ _ => .bind upholds_selectTrack fun _ _ => ih
          · exact .bind (hread _) fun _ _ => .bind upholds_selectVoice fun _ _ => ih
          · exact .bind (hread _) fun _ _ => .bind (upholds_setting _) fun _ _ => ih
          · exact .bind (hread _) fun _ _ => .bind (upholds_setting _) fun _ _ => ih
          · split
            · exact .bind upholds_music fun _ _ => ih
            · exact .bind (hread _) fun _ _ => .bind (upholds_heading _) fun _ _ => ih
          · exact .bind upholds_music fun _ _ => ih

end Drafting

/-- **The header and the parts of every sheet that is read are in range.** -/
theorem Sheet.inRange_of_parse {fuel limit : Nat} {source : Source} {r : Result}
    (h : parse fuel source limit = some r) :
    r.sheet.header.InRange ∧ ∀ p ∈ r.sheet.parts, p.InRange := by
  obtain ⟨⟨_, d⟩, hall, heq⟩ := Option.bind_eq_some_iff.1 h
  obtain rfl := Option.some.inj heq
  have hstart : Draft.InRange { input := .ofSource source Directive.scopes limit } :=
    ⟨Header.inRange_default, Ambient.inRange_default, Settings.inRange_default, nofun⟩
  obtain ⟨hd, -⟩ := Drafting.upholds_all _ hstart _ _ hall
  exact ⟨hd.header, hd.parts⟩

end Jianpu
