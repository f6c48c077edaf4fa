import Jianpu.Proofs.Sheet.Ranges
import Jianpu.Proofs.Sheet.Tracks
import Jianpu.Proofs.Smf.Distances

/-!
# What is compiled can be written as it is

The numbers of a composition that was compiled, also of a source with faults, are in range:
`compile_inRange`. They come from the sheet, apart from the channels, which are taken in turn, and
the pitches, which are brought into range when a part is played. So the writer, which cuts every
number down to the bits that it has for it, has nothing to cut off but the highest four pitches.
-/

namespace Jianpu

/-! ## Ranges -/

/-- The numbers of an event on a channel are in range. -/
def Event.InRange (channel : Nat) : Event → Prop
  | .noteOn c n v | .noteOff c n v => c = channel ∧ n ≤ 131 ∧ v ≤ 127
  | .tempo t => t ≤ 0xFFFFFF
  | .key k => k.InRange
  | .time a b => ProperTime a b

structure Track.InRange (t : Track) : Prop where
  channel : t.channel < 16
  instrument : t.instrument ≤ 127
  volume : t.volume ≤ 127
  events : ∀ e ∈ t.events, e.event.InRange t.channel

structure Composition.InRange (c : Composition) : Prop where
  header : c.toHeader.InRange
  tracks : ∀ t ∈ c.tracks, t.InRange

/-! ## Playing -/

theorem Score.InRange.soundsOf {g : Score} (hg : g.InRange) {division channel n t : Nat}
    {x : Nat × Event} (hx : x ∈ g.soundsOf division channel n t) : x.2.InRange channel := by
  unfold Score.soundsOf at hx
  split at hx
  · cases hx
  · rename_i node hnode
    have hcontent := hg n node.content (by rw [content?, hnode]; rfl)
    split at hx <;> rename_i heq <;> rw [heq] at hcontent
    · -- a note has the same pitch and velocity at its start and at its end
      have hpitch : (g.resolve node division).pitch ≤ 131 := by
        rw [resolve, heq]
        exact Pitch.clamp_le _
      rcases List.mem_cons.1 hx with rfl | hx
      · exact ⟨rfl, hpitch, hcontent⟩
      · obtain rfl := List.mem_singleton.1 hx
        exact ⟨rfl, hpitch, hcontent⟩
    · cases hx
    all_goals
      obtain rfl := List.mem_singleton.1 hx
      exact hcontent

namespace Part

variable {p : Part}

theorem content?_joined (p : Part) (n : Nat) : p.joined.2.content? n = p.score.content? n := by
  unfold joined
  generalize (none : Option Strand) = s, p.score = g
  induction p.voices generalizing s g with
  | nil => rfl
  | cons v vs ih =>
    rw [List.foldl_cons]
    exact (ih _ _).trans (Strand.content?_branch ..)

theorem InRange.play (h : p.InRange) (hp : p.Made) (division channel : Nat) :
    ∀ e ∈ Sheet.play p division channel, e.event.InRange channel := by
  intro e he
  have hpaced := hp.paced division channel
  have hjoined : p.joined.2.InRange := fun n c hn =>
    h.score n c ((p.content?_joined n).symm.trans hn)
  have hmem : e.event ∈ (p.heard division channel).map (·.2) := by
    rw [← Timeline.map_deltas 0, ← hpaced.play_eq]
    exact List.mem_map_of_mem he
  obtain ⟨x, hx, hevent⟩ := List.mem_map.1 hmem
  rw [← hevent]
  -- what is heard is brought by some node
  obtain ⟨ns, start, -, hperforms⟩ := hpaced
  have hx := (Timeline.sort_perm _).mem_iff.1 ((Overlap.audible_sublist _ _).subset hx)
  obtain ⟨v, hv, hx⟩ := List.mem_flatMap.1 hx
  rw [(hperforms.visits v hv).2] at hx
  exact hjoined.soundsOf hx

end Part

namespace Sheet

/-- A track has the settings and the events of a part, on one of the channels. -/
theorem exists_part_of_mem_arrangeParts {division n : Nat} {ps : List Part} {t : Track}
    (h : t ∈ (arrangeParts division n ps).1) : ∃ p ∈ ps, ∃ channel < channels,
      t = ⟨p.name, channel, p.settings.instrument, p.settings.volume, play p division channel⟩ := by
  induction ps generalizing n with
  | nil => cases h
  | cons p ps ih =>
    have htail : ∀ {n}, t ∈ (arrangeParts division n ps).1 → ∃ p' ∈ p :: ps, ∃ channel < channels,
        t = ⟨p'.name, channel, p'.settings.instrument, p'.settings.volume,
          play p' division channel⟩ := by
      intro n ht
      obtain ⟨p', hp', hplay⟩ := ih ht
      exact ⟨p', List.mem_cons_of_mem p hp', hplay⟩
    rw [arrangeParts] at h
    dsimp only at h
    split at h
    · exact htail h
    · rcases List.mem_cons.1 h with rfl | h
      · exact ⟨p, List.mem_cons_self, n % channels, Nat.mod_lt n (by decide), rfl⟩
      · exact htail h

theorem inRange_arrange {s : Sheet} (hheader : s.header.InRange) (hparts : ∀ p ∈ s.parts, p.InRange)
    (hmade : ∀ p ∈ s.parts, p.Made) : s.arrange.1.InRange where
  header := hheader
  tracks t ht := by
    obtain ⟨p, hp, channel, hchannel, rfl⟩ := exists_part_of_mem_arrangeParts ht
    have hpart := hparts p hp
    exact ⟨hchannel, hpart.settings.instrument, hpart.settings.volume,
      hpart.play (hmade p hp) s.header.division channel⟩

end Sheet

/-! ## Writing -/

namespace Smf

/-- A message says a time signature as it is: the denominator by its logarithm. -/
inductive SaysTime (numerator denominator : UInt8) : Message → Prop
  | mk {e : UInt8} : 2 ^ e.toNat = denominator.toNat →
      SaysTime numerator denominator (.timeSignature numerator e 24 8)

/-- A message says an event as it is, but for the pitches 128 to 131, which are said as 127. -/
inductive Says : Event → Message → Prop
  | noteOn (c v : Nat) {n : Nat} : n ≤ 127 → Says (.noteOn c n v) (.noteOn c n v)
  | noteOff (c v : Nat) {n : Nat} : n ≤ 127 → Says (.noteOff c n v) (.noteOff c n v)
  | highOn (c v : Nat) {n : Nat} : 128 ≤ n → n ≤ 131 → Says (.noteOn c n v) (.noteOn c 127 v)
  | highOff (c v : Nat) {n : Nat} : 128 ≤ n → n ≤ 131 → Says (.noteOff c n v) (.noteOff c 127 v)
  | tempo (t : Nat) : Says (.tempo t) (.tempo t)
  | key (k : Key) : Says (.key k) (.keySignature k.sharps k.minor)
  | time {a b : UInt8} {m : Message} : SaysTime a b m → Says (.time a b) m

/-- Messages conduct with a header as it is. -/
def SaysHeader (h : Header) (ms : List TimedMessage) : Prop :=
  ∃ time, SaysTime h.numerator h.denominator time ∧
    ms = [⟨0, .tempo h.tempo⟩, ⟨0, .keySignature h.key.sharps h.key.minor⟩, ⟨0, time⟩, finish]

/-- Messages say a track as it is. -/
def SaysTrack (t : Track) (ms : List TimedMessage) : Prop :=
  ∃ body, List.Forall₂ (fun e m => m.delta = e.delta ∧ Says e.event m.message) t.events body ∧
    ms = [⟨0, .programChange t.channel t.instrument⟩, ⟨0, .controlChange t.channel 0x79 0⟩,
      ⟨0, .controlChange t.channel 0x07 t.volume⟩, ⟨0, .trackName t.name⟩] ++ body ++ [finish]

/-- A file says a composition as it is. -/
def Verbatim (c : Composition) (file : List UInt8) : Prop :=
  ∃ first rest, SaysHeader c.toHeader first ∧ List.Forall₂ SaysTrack c.tracks rest ∧
    file = chunk headerId
        (bigEndian 2 1 ++ bigEndian 2 (c.tracks.length + 1) ++ bigEndian 2 c.division) ++
      (first :: rest).flatMap fun ms => chunk trackId (encodeMessages none ms)

theorem saysTime_timeMessage {a b : UInt8} (h : ProperTime a b) :
    SaysTime a b (timeMessage a b) := by
  obtain ⟨-, k, hk⟩ := h
  have hmax : max b.toNat 1 = 2 ^ k := by
    rw [hk]
    exact Nat.max_eq_left Nat.one_le_two_pow
  -- the exponent of the largest power of two that divides `2 ^ k` is `k`
  obtain ⟨hdvd, hndvd⟩ := exponent_spec b
  rw [hmax, Nat.pow_dvd_pow_iff_le_right (by decide)] at hdvd hndvd
  refine .mk ?_
  rw [hk, show (exponent b).toNat = k by omega]

theorem tempoMessage_of_le {t : Nat} (h : t ≤ 0xFFFFFF) : tempoMessage t = .tempo t := by
  rw [tempoMessage, Nat.min_eq_left h]

theorem says_ofEvent {channel : Nat} {e : Event} (hchannel : channel < 16) (h : e.InRange channel) :
    Says e (ofEvent e) := by
  cases e with
  | noteOn c n v =>
    obtain ⟨rfl, hn, hv⟩ := h
    rw [ofEvent, Nat.mod_eq_of_lt hchannel, Nat.mod_eq_of_lt (Nat.lt_succ_of_le hv)]
    rcases Nat.lt_or_ge 127 n with hlt | hle
    · rw [Nat.min_eq_right (Nat.le_of_lt hlt)]
      exact .highOn _ _ hlt hn
    · rw [Nat.min_eq_left hle]
      exact .noteOn _ _ hle
  | noteOff c n v =>
    obtain ⟨rfl, hn, hv⟩ := h
    rw [ofEvent, Nat.mod_eq_of_lt hchannel, Nat.mod_eq_of_lt (Nat.lt_succ_of_le hv)]
    rcases Nat.lt_or_ge 127 n with hlt | hle
    · rw [Nat.min_eq_right (Nat.le_of_lt hlt)]
      exact .highOff _ _ hlt hn
    · rw [Nat.min_eq_left hle]
      exact .noteOff _ _ hle
  | tempo t =>
    rw [ofEvent, tempoMessage_of_le h]
    exact .tempo t
  | key k => exact .key k
  | time a b => exact .time (saysTime_timeMessage h)

theorem saysHeader_conductor {h : Header} (hh : h.InRange) : SaysHeader h (conductor h) := by
  refine ⟨_, saysTime_timeMessage hh.time, ?_⟩
  rw [conductor, tempoMessage_of_le hh.tempo]
  rfl

theorem saysTrack_trackMessages {t : Track} (ht : t.InRange) : SaysTrack t (trackMessages t) := by
  refine ⟨t.events.map fun e => ⟨e.delta, ofEvent e.event⟩, ?_, ?_⟩
  · refine List.forall₂_map_right_iff.2 (List.forall₂_same.2 fun e he => ⟨rfl, ?_⟩)
    exact says_ofEvent ht.channel (ht.events e he)
  · rw [trackMessages, preamble, Nat.mod_eq_of_lt ht.channel,
      Nat.mod_eq_of_lt (Nat.lt_succ_of_le ht.instrument),
      Nat.mod_eq_of_lt (Nat.lt_succ_of_le ht.volume)]

theorem verbatim_of_inRange {c : Composition} (h : c.InRange) {file : List UInt8}
    (hfile : encode c = .ok file) : Verbatim c file := by
  have hwritable := exists_encode_eq_ok_iff.1 ⟨file, hfile⟩
  rw [encode_ok hwritable, Nat.mod_eq_of_lt (Nat.lt_succ_of_le h.header.division.2)] at hfile
  have htracks : List.Forall₂ SaysTrack c.tracks (c.tracks.map trackMessages) :=
    List.forall₂_map_right_iff.2
      (List.forall₂_same.2 fun t ht => saysTrack_trackMessages (h.tracks t ht))
  exact ⟨_, _, saysHeader_conductor h.header, htracks, (Except.ok.inj hfile).symm⟩

end Smf

/-- **Everything that is compiled can be written as it is.** All numbers of the composition are in
range, whether or not something was reported, and they are what the file says, but for the highest
four pitches. -/
theorem compile_inRange (fuel : Nat) (o : Options) (text : String) (c : Compiled)
    (h : compile fuel o text = some c) :
    c.composition.InRange ∧
      ∀ file, Smf.encode c.composition = .ok file → Smf.Verbatim c.composition file := by
  obtain ⟨r, hparse, heq⟩ := Option.bind_eq_some_iff.1 h
  obtain rfl := Option.some.inj heq
  obtain ⟨hheader, hparts⟩ := Sheet.inRange_of_parse hparse
  have hrange := Sheet.inRange_arrange hheader hparts (Sheet.made_of_parse hparse)
  exact ⟨hrange, fun file hfile => Smf.verbatim_of_inRange hrange hfile⟩

/-- Directives at and beyond the bounds of their ranges, before and within the music, and the
highest pitch. -/
def brimming : String :=
  "\\tempo\x7b16777215\x7d\\tempo\x7b16777216\x7d\\div\x7b32768\x7d\\minor\x7bCb\x7d" ++
    "\\times\x7b0\x7d\x7b3\x7d\\instrument\x7b128\x7d\\volume\x7b127\x7d" ++
    "\\octave\x7b9\x7d\\vel\x7b127\x7d\x7b7'\\vel\x7b128\x7d|\\times\x7b255\x7d\x7b128\x7d1\x7d"

theorem inRange_brimming : ∃ c file, compile 200 {} brimming = some c ∧ c.diagnostics.length = 5 ∧
    (c.composition.tracks.any fun t => t.events.any (·.event = .noteOn 0 131 127)) = true ∧
    Smf.encode c.composition = .ok file ∧ c.composition.InRange ∧
    Smf.Verbatim c.composition file := by
  have hcompile : (compile 200 {} brimming).any (fun c => c.diagnostics.length = 5 ∧
      (c.composition.tracks.any fun t => t.events.any (·.event = .noteOn 0 131 127)) = true ∧
        (Smf.encode c.composition).toBool = true) = true := by
    decide +kernel
  obtain ⟨c, hc, hfacts⟩ := (Option.any_eq_true _ _).1 hcompile
  obtain ⟨hdiagnostics, hhighest, hwritten⟩ := of_decide_eq_true hfacts
  obtain ⟨hrange, hverbatim⟩ := compile_inRange 200 {} brimming c hc
  cases hfile : Smf.encode c.composition with
  | error o =>
    rw [hfile] at hwritten
    cases hwritten
  | ok file =>
    exact ⟨c, file, hc, hdiagnostics, hhighest, hfile, hrange, hverbatim file hfile⟩

end Jianpu
