import Jianpu.Proofs.Smf.Distances

/-!
# Starts and ends in a file

Overlapping notes are merged by pitch, but a file has fewer keys than there are pitches: those from
127 on are all written as key 127. So the starts and ends of a key are in turn unless two pitches
that are written as this key sound at once (`compile_takesTurns`), which only happens at key 127,
and happens there (`retriggers_highest`).
-/

namespace Jianpu.Smf

open Overlap (Sounds)

/-! ## Keys -/

/-- The channel and key of a note's start or end. -/
def Message.note? : Message → Option (Nat × Nat)
  | noteOn channel note _ | noteOff channel note _ => some (channel, note)
  | _ => none

/-- The starts and ends of the notes of a channel and key. -/
def notes (key : Nat × Nat) (ms : List TimedMessage) : List Message :=
  (ms.map (·.message)).filter fun m => m.note? = some key

/-- Whether starts and ends come in turn: first a start, unless a note is `sounding`, and last an
end. -/
def inTurn : Bool → List Message → Bool
  | sounding, [] => !sounding
  | false, .noteOn _ _ _ :: ms => inTurn true ms
  | true, .noteOff _ _ _ :: ms => inTurn false ms
  | _, _ => false

/-- How a channel and pitch are written. -/
def writtenKey (key : Nat × Nat) : Nat × Nat := (key.1 % 16, min key.2 127)

theorem note?_ofEvent (e : Event) : (ofEvent e).note? = e.note?.map writtenKey := by
  cases e <;> rfl

/-- A message is in turn if it starts a note while none sounds, or ends one while one does. -/
theorem inTurn_cons {e : Event} {key : Nat × Nat} {s sounding : Bool} (he : e.note? = some key)
    (hstarts : e.startsNote key = !sounding) (ms : List Message) :
    inTurn s (ofEvent e :: ms) = true ↔ s = sounding ∧ inTurn (!s) ms = true := by
  cases e with
  | noteOn channel note velocity =>
    have hsounding : sounding = false := by
      simpa [Event.startsNote, Option.some.inj he] using hstarts
    subst hsounding
    cases s <;> simp [ofEvent, inTurn]
  | noteOff channel note velocity =>
    obtain rfl : sounding = true := by simpa [Event.startsNote] using hstarts
    cases s <;> simp [ofEvent, inTurn]
  | tempo | key | time => cases he

/-- No two notes that are written with one key sound at once. -/
def Apart (key : Nat × Nat) (l : List Event) : Prop :=
  ∀ a b, writtenKey a = key → writtenKey b = key → Sounds a l → Sounds b l → a = b

theorem forall_prefix_cons {P : List Event → Prop} {before l : List Event} {e : Event} :
    (∀ p, p <+: e :: l → P (before ++ p)) ↔ P before ∧ ∀ p, p <+: l → P (before ++ [e] ++ p) := by
  constructor
  · intro h
    refine ⟨?_, fun p hp => ?_⟩
    · simpa using h [] List.nil_prefix
    · simpa using h (e :: p) (List.prefix_cons_inj e |>.2 hp)
  · rintro ⟨hnil, hcons⟩ p hp
    rcases List.prefix_cons_iff.1 hp with rfl | ⟨q, rfl, hq⟩
    · simpa using hnil
    · simpa using hcons q hq

/-- At most one of the notes that are written with a key sounds, and `s` says whether one does. -/
structure Solo (key : Nat × Nat) (sounding : Nat × Nat → Bool) (s : Bool) : Prop where
  eq : ∀ a b, writtenKey a = key → writtenKey b = key → sounding a = true → sounding b = true →
    a = b
  iff : s = true ↔ ∃ a, writtenKey a = key ∧ sounding a = true

namespace Solo

variable {key a : Nat × Nat} {sounding : Nat × Nat → Bool} {s : Bool} {before l : List Event}

theorem apart (h : Solo key sounding s) (hl : Sounded sounding before l) : Apart key before := by
  intro a b ha hb hsa hsb
  exact h.eq a b ha hb (hl.sounds_iff.1 hsa) (hl.sounds_iff.1 hsb)

/-- A note of another key starts or ends. -/
theorem of_ne (h : Solo key sounding s) (ha : writtenKey a ≠ key) (v : Bool) :
    Solo key (Function.update sounding a v) s := by
  have hsame : ∀ x, writtenKey x = key → Function.update sounding a v x = sounding x := by
    intro x hx
    refine Function.update_of_ne ?_ ..
    rintro rfl
    exact ha hx
  refine ⟨fun x y hx hy hsx hsy => ?_, h.iff.trans ?_⟩
  · rw [hsame x hx] at hsx
    rw [hsame y hy] at hsy
    exact h.eq x y hx hy hsx hsy
  · exact exists_congr fun x => and_congr_right fun hx => by rw [hsame x hx]

/-- A note of the key starts while none sounds, or the one that sounds ends. -/
theorem turn (h : Solo key sounding s) (ha : writtenKey a = key) (hs : s = sounding a) :
    Solo key (Function.update sounding a (!sounding a)) (!s) := by
  have honly : ∀ x, writtenKey x = key →
      Function.update sounding a (!sounding a) x = true → x = a := by
    intro x hx hsounds
    by_contra hne
    rw [Function.update_of_ne hne] at hsounds
    have hsa : sounding a = true := hs ▸ h.iff.2 ⟨x, hx, hsounds⟩
    exact hne (h.eq x a hx ha hsounds hsa)
  refine ⟨fun x y hx hy hsx hsy => (honly x hx hsx).trans (honly y hy hsy).symm, ?_, ?_⟩
  · intro hnot
    exact ⟨a, ha, by rwa [Function.update_self, ← hs]⟩
  · rintro ⟨x, hx, hsounds⟩
    obtain rfl := honly x hx hsounds
    rwa [Function.update_self, ← hs] at hsounds

/-- A note of the key starts while another one sounds. -/
theorem not_apart (h : Solo key sounding s) (ha : writtenKey a = key) (hs : s ≠ sounding a)
    (hl : Sounded (Function.update sounding a (!sounding a)) before l) : ¬ Apart key before := by
  intro hapart
  have hsa : sounding a = false := by
    by_contra hne
    have htrue : sounding a = true := Bool.not_eq_false _ ▸ hne
    exact hs ((h.iff.2 ⟨a, ha, htrue⟩).trans htrue.symm)
  obtain ⟨b, hb, hsb⟩ : ∃ b, writtenKey b = key ∧ sounding b = true := by
    rw [← h.iff]
    rwa [hsa, ne_eq, Bool.not_eq_false] at hs
  have hne : b ≠ a := by
    rintro rfl
    rw [hsa] at hsb
    cases hsb
  refine hne (hapart b a hb ha ?_ ?_) <;> rw [hl.sounds_iff]
  · rwa [Function.update_of_ne hne]
  · rw [Function.update_self, hsa]
    rfl

end Solo

/-- The starts and ends of a key are in turn if no two notes of it sound at once at any time to
come. -/
theorem inTurn_iff {sounding : Nat × Nat → Bool} {before l : List Event} {key : Nat × Nat}
    {s : Bool} (h : Sounded sounding before l) (hsolo : Solo key sounding s) :
    inTurn s ((l.map ofEvent).filter fun m => m.note? = some key) = true ↔
      ∀ p, p <+: l → Apart key (before ++ p) := by
  induction l generalizing sounding before s with
  | nil =>
    have hsilent : s = false := by
      have hnone : ∀ a, sounding a = false := h.rest
      simpa [hnone] using hsolo.iff
    subst hsilent
    simpa [inTurn] using hsolo.apart h
  | cons e l ih =>
    -- so far at most one note of the key sounds; the event keeps it so, or both sides fail
    rw [forall_prefix_cons, List.map_cons, and_iff_right (hsolo.apart h)]
    cases he : e.note? with
    | none =>
      rw [List.filter_cons_of_neg (by simp [note?_ofEvent, he])]
      exact ih (h.silent he) hsolo
    | some a =>
      obtain ⟨hstarts, hturn⟩ := h.turn he
      by_cases ha : writtenKey a = key
      · rw [List.filter_cons_of_pos (by simp [note?_ofEvent, he, ha]), inTurn_cons he hstarts]
        by_cases hs : s = sounding a
        · rw [and_iff_right hs]
          exact ih hturn (hsolo.turn ha hs)
        · refine iff_of_false (fun hboth => hs hboth.1) fun hall => ?_
          exact hsolo.not_apart ha hs hturn (by simpa using hall [] List.nil_prefix)
      · rw [List.filter_cons_of_neg (by simp [note?_ofEvent, he, ha])]
        exact ih hturn (hsolo.of_ne ha _)

/-! ## Tracks -/

theorem notes_trackMessages (key : Nat × Nat) (t : Track) :
    notes key (trackMessages t) =
      ((t.events.map (·.event)).map ofEvent).filter fun m => m.note? = some key := by
  have hpreamble : notes key (preamble t) = [] := rfl
  have hfinish : notes key [finish] = [] := rfl
  rw [notes] at hpreamble hfinish
  rw [notes, trackMessages, List.map_append, List.map_append, List.filter_append,
    List.filter_append, hpreamble, hfinish, List.nil_append, List.append_nil, List.map_map,
    List.map_map]
  rfl

/-- The messages of a track, where starts and ends of a channel and key are in turn unless notes of
two pitches that are written with this key sound at once. Pitches below 127 have a key of their own.
-/
def TakesTurns (t : Track) (ms : List TimedMessage) : Prop :=
  ∀ channel key, (inTurn false (notes (channel, key) ms) = true ↔
      ∀ l, l <+: t.events.map (·.event) → ∀ m n, min m 127 = key → min n 127 = key →
        Sounds (channel, m) l → Sounds (channel, n) l → m = n) ∧
    (key ≠ 127 → inTurn false (notes (channel, key) ms) = true)

theorem takesTurns_trackMessages {division : Nat} {t : Track} {p : Part} (h : t.Plays division p) :
    TakesTurns t (trackMessages t) := by
  intro channel key
  have hiff : inTurn false (notes (channel, key) (trackMessages t)) = true ↔
      ∀ l, l <+: t.events.map (·.event) → ∀ m n, min m 127 = key → min n 127 = key →
        Sounds (channel, m) l → Sounds (channel, n) l → m = n := by
    rw [notes_trackMessages, inTurn_iff h.sounded ⟨by simp, by simp⟩]
    simp only [List.nil_append]
    refine forall_congr' fun l => imp_congr_right fun hl => ?_
    -- all notes are on the channel of the track, which is written as it is
    have hchannel : ∀ {a : Nat × Nat}, Sounds a l → a.1 % 16 = a.1 := by
      intro a ha
      rw [h.channel_of_sounds hl ha]
      exact Nat.mod_eq_of_lt h.channel
    constructor
    · intro hapart m n hm hn hsm hsn
      have heq := hapart (channel, m) (channel, n) (Prod.ext (hchannel hsm) hm)
        (Prod.ext (hchannel hsn) hn) hsm hsn
      exact congrArg Prod.snd heq
    · intro hall a b ha hb hsa hsb
      have ha' : a = (channel, a.2) :=
        Prod.ext ((hchannel hsa).symm.trans (congrArg Prod.fst ha)) rfl
      have hb' : b = (channel, b.2) :=
        Prod.ext ((hchannel hsb).symm.trans (congrArg Prod.fst hb)) rfl
      have heq := hall a.2 b.2 (congrArg Prod.snd ha) (congrArg Prod.snd hb) (ha' ▸ hsa) (hb' ▸ hsb)
      rw [ha', hb', heq]
  refine ⟨hiff, fun hne => hiff.2 fun l _ m n hm hn _ _ => ?_⟩
  omega

/-- **Nothing is started again while it sounds, but at the highest key.** In every track of a file
the starts and ends of a channel and key are in turn unless notes of two pitches that are written
with this key sound at once. -/
theorem compile_takesTurns (fuel : Nat) (o : Options) (text : String) (c : Compiled)
    (bytes : List UInt8) (h : compile fuel o text = some c)
    (hbytes : encode c.composition = .ok bytes) :
    ∃ tracks, c.composition.tracks.mapM messages = .ok tracks ∧
      List.Forall₂ TakesTurns c.composition.tracks tracks ∧
      (Contained c.composition → ∃ file, decode bytes = .ok file ∧ file.tracks.tail = tracks) := by
  obtain ⟨r, ps, -, -, hplays⟩ := compile_tracks h
  refine ⟨_, mapM_messages_ok (exists_encode_eq_ok_iff.1 ⟨bytes, hbytes⟩), ?_,
    fun hc => ⟨_, hc.decode_eq hbytes, rfl⟩⟩
  rw [List.forall₂_map_right_iff]
  generalize c.composition.tracks = ts at hplays
  induction hplays with
  | nil => exact .nil
  | cons ht _ ih => exact .cons (takesTurns_trackMessages ht) ih

/-- A note that starts and ends while another one of its pitch sounds. -/
def held : String := "\x7b1-|01\x7d"

theorem takesTurns_held : ∃ c bytes tracks, compile 100 {} held = some c ∧ c.diagnostics = [] ∧
    encode c.composition = .ok bytes ∧ c.composition.tracks.mapM messages = .ok tracks ∧
    List.Forall₂ TakesTurns c.composition.tracks tracks ∧
    (Contained c.composition → ∃ file, decode bytes = .ok file ∧ file.tracks.tail = tracks) := by
  have hcompile : (compile 100 {} held).any (fun c => c.diagnostics = [] ∧
      ∀ t ∈ c.composition.tracks, ∀ e ∈ t.events, e.delta ≤ Quantity.largest) = true := by
    decide +kernel
  obtain ⟨c, hc, hfacts⟩ := (Option.any_eq_true _ _).1 hcompile
  obtain ⟨hdiagnostics, hwritable⟩ := of_decide_eq_true hfacts
  obtain ⟨bytes, hbytes⟩ := exists_encode_eq_ok_iff.2 hwritable
  obtain ⟨tracks, hconclusion⟩ := compile_takesTurns 100 {} held c bytes hc hbytes
  exact ⟨c, bytes, tracks, hc, hdiagnostics, hbytes, hconclusion⟩

/-- The fifth degree of octave 9 and the same raised, at once: pitches 127 and 128. -/
def highest : String := "\\octave\x7b9\x7d\x7b5|5#\x7d"

/-- Two notes start one after the other with the highest key, and then both end. -/
theorem retriggers_highest : ∃ c bytes file ms, compile 100 {} highest = some c ∧
    c.diagnostics = [] ∧ encode c.composition = .ok bytes ∧ decode bytes = .ok file ∧
    ms ∈ file.tracks.tail ∧ inTurn false (notes (0, 127) ms) = false := by
  have hcompile : (compile 100 {} highest).any (fun c => c.diagnostics = [] ∧
      (∀ t ∈ c.composition.tracks, ∀ e ∈ t.events, e.delta ≤ Quantity.largest) ∧
      (∀ t ∈ c.composition.tracks, (Utf8.encode t.name).length ≤ 0x0FFFFFFF ∧
        (encodeMessages none (trackMessages t)).length < 2 ^ 32) ∧
      ∃ t ∈ c.composition.tracks, inTurn false (notes (0, 127) (trackMessages t)) = false) =
        true := by
    decide +kernel
  obtain ⟨c, hc, hfacts⟩ := (Option.any_eq_true _ _).1 hcompile
  obtain ⟨hdiagnostics, hwritable, hroom, t, ht, hturn⟩ := of_decide_eq_true hfacts
  obtain ⟨bytes, hbytes⟩ := exists_encode_eq_ok_iff.2 hwritable
  have hdecode := (contained_of_trackMessages hroom).decode_eq hbytes
  exact ⟨c, bytes, _, trackMessages t, hc, hdiagnostics, hbytes, hdecode, List.mem_map_of_mem ht,
    hturn⟩

end Jianpu.Smf
