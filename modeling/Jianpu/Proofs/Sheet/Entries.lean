import Jianpu.Proofs.Sheet.SameTracks
import Mathlib.Data.List.Induction

/-!
# Entries

An entry is something for a voice of a track. `Entry.gather` goes through the tracks of a list of
entries in the order in which they come up, and through the voices of each, and puts together what
each voice gets. A sheet state that is entered one entry after another and one that is entered with
what was put together hold the same music: `SheetState.alike_gather`.
-/

namespace Jianpu

/-! ## First occurrences -/

section FirstOccurrences

variable {names : List String}

theorem eraseDups_concat (names : List String) (name : String) :
    (names ++ [name]).eraseDups = enlist name names.eraseDups := by
  rw [List.eraseDups_append]
  by_cases h : name ∈ names
  · rw [enlist_of_mem (List.mem_eraseDups.2 h)]
    simp [List.removeAll, h]
  · rw [enlist_of_notMem (mt List.mem_eraseDups.1 h)]
    simp [List.removeAll, h, List.eraseDups_cons]

theorem nodup_eraseDups (names : List String) : names.eraseDups.Nodup := by
  induction names using List.reverseRecOn with
  | nil => exact .nil
  | append_singleton names name ih =>
    rw [eraseDups_concat]
    exact nodup_enlist ih

theorem eraseDups_of_nodup (h : names.Nodup) : names.eraseDups = names := by
  induction names using List.reverseRecOn with
  | nil => rfl
  | append_singleton names name ih =>
    obtain ⟨hnames, -, hdisjoint⟩ := List.nodup_append.1 h
    rw [eraseDups_concat, ih hnames, enlist_of_notMem]
    exact fun hmem => hdisjoint name hmem name (List.mem_singleton_self name) rfl

/-- Names that each come up some times in a row. -/
theorem eraseDups_flatMap {α : Type} {xs : String → List α} (h : names.Nodup)
    (hxs : ∀ name ∈ names, xs name ≠ []) :
    (names.flatMap fun name => (xs name).map fun _ => name).eraseDups = names := by
  induction names with
  | nil => rfl
  | cons name names ih =>
    obtain ⟨hname, hnames⟩ := List.nodup_cons.1 h
    obtain ⟨x, ys, hx⟩ := List.exists_cons_of_ne_nil (hxs name List.mem_cons_self)
    have hothers : ∀ n ∈ names.flatMap fun name => (xs name).map fun _ => name, n ≠ name := by
      intro n hn heq
      obtain ⟨m, hm, hn⟩ := List.mem_flatMap.1 hn
      obtain ⟨-, -, rfl⟩ := List.mem_map.1 hn
      exact hname (heq ▸ hm)
    rw [List.flatMap_cons, hx, List.map_cons, List.cons_append, List.eraseDups_cons,
      List.filter_append, List.filter_eq_nil_iff.2 (by simp), List.nil_append,
      List.filter_eq_self.2 (by simpa using hothers), ih hnames]
    exact fun n hn => hxs n (List.mem_cons_of_mem name hn)

theorem flatMap_ite_eq {α : Type} {f : String → List α} (h : names.Nodup) (name : String) :
    (names.flatMap fun n => if n = name then f n else []) =
      if name ∈ names then f name else [] := by
  induction names with
  | nil => rfl
  | cons n names ih =>
    obtain ⟨hn, hnames⟩ := List.nodup_cons.1 h
    rw [List.flatMap_cons, ih hnames]
    by_cases heq : n = name
    · subst heq
      simp [hn]
    · have hne : name ≠ n := Ne.symm heq
      simp [heq, hne]

end FirstOccurrences

/-! ## Entries by track and voice -/

/-- Something for a voice of a track. -/
structure Entry (α : Type) where
  track : String
  voice : String
  body : α
  deriving DecidableEq, Repr

namespace Entry

variable {α β : Type}

def map (f : α → β) (e : Entry α) : Entry β := ⟨e.track, e.voice, f e.body⟩

/-- The tracks, in the order in which they come up. -/
def tracks (es : List (Entry α)) : List String := (es.map (·.track)).eraseDups

/-- The voices of a track, in the order in which they come up. -/
def voices (es : List (Entry α)) (t : String) : List String :=
  ((es.filter (·.track = t)).map (·.voice)).eraseDups

/-- What a voice gets, in order. -/
def bodies (es : List (Entry α)) (t v : String) : List α :=
  (es.filter fun e => e.track = t ∧ e.voice = v).map (·.body)

/-- One entry for each voice of each track, with all that the voice gets. -/
def gather (es : List (Entry α)) : List (Entry (List α)) :=
  (tracks es).flatMap fun t => (voices es t).map fun v => ⟨t, v, bodies es t v⟩

theorem tracks_concat (es : List (Entry α)) (e : Entry α) :
    tracks (es ++ [e]) = enlist e.track (tracks es) := by
  rw [tracks, List.map_append, List.map_singleton, eraseDups_concat]
  rfl

theorem voices_concat (es : List (Entry α)) (e : Entry α) (t : String) :
    voices (es ++ [e]) t =
      if t = e.track then enlist e.voice (voices es t) else voices es t := by
  rw [voices, List.filter_append, List.map_append]
  by_cases h : t = e.track
  · rw [if_pos h, List.filter_cons_of_pos (by simp [h]), List.filter_nil, List.map_singleton,
      eraseDups_concat]
    rfl
  · rw [if_neg h, List.filter_cons_of_neg (by simp [Ne.symm h]), List.filter_nil, List.map_nil,
      List.append_nil]
    rfl

theorem bodies_concat (es : List (Entry α)) (e : Entry α) (t v : String) :
    bodies (es ++ [e]) t v =
      if t = e.track ∧ v = e.voice then bodies es t v ++ [e.body] else bodies es t v := by
  rw [bodies, List.filter_append, List.map_append]
  by_cases h : t = e.track ∧ v = e.voice
  · rw [if_pos h, List.filter_cons_of_pos (by simp [h]), List.filter_nil, List.map_singleton]
    rfl
  · have hne : ¬(e.track = t ∧ e.voice = v) := fun heq => h ⟨heq.1.symm, heq.2.symm⟩
    rw [if_neg h, List.filter_cons_of_neg (by simpa using hne), List.filter_nil, List.map_nil,
      List.append_nil]
    rfl

theorem tracks_map (f : α → β) (es : List (Entry α)) : tracks (es.map (map f)) = tracks es := by
  rw [tracks, List.map_map]
  rfl

theorem voices_map (f : α → β) (es : List (Entry α)) (t : String) :
    voices (es.map (map f)) t = voices es t := by
  rw [voices, List.filter_map, List.map_map]
  rfl

theorem bodies_map (f : α → β) (es : List (Entry α)) (t v : String) :
    bodies (es.map (map f)) t v = (bodies es t v).map f := by
  rw [bodies, List.filter_map, List.map_map, bodies, List.map_map]
  rfl

theorem gather_map (f : α → β) (es : List (Entry α)) :
    gather (es.map (map f)) = (gather es).map (map (List.map f)) := by
  rw [gather, gather, List.map_flatMap, tracks_map]
  simp only [voices_map, bodies_map, List.map_map]
  rfl

theorem nodup_tracks (es : List (Entry α)) : (tracks es).Nodup := nodup_eraseDups _

theorem nodup_voices (es : List (Entry α)) (t : String) : (voices es t).Nodup := nodup_eraseDups _

theorem voices_eq_nil {es : List (Entry α)} {t : String} (h : t ∉ tracks es) :
    voices es t = [] := by
  have hnone : es.filter (·.track = t) = [] := by
    rw [List.filter_eq_nil_iff]
    intro e he heq
    refine h (List.mem_eraseDups.2 (List.mem_map.2 ⟨e, he, of_decide_eq_true heq⟩))
  rw [voices, hnone]
  rfl

theorem voices_ne_nil {es : List (Entry α)} {t : String} (h : t ∈ tracks es) :
    voices es t ≠ [] := by
  obtain ⟨e, he, rfl⟩ := List.mem_map.1 (List.mem_eraseDups.1 h)
  have hmem : e.voice ∈ voices es e.track :=
    List.mem_eraseDups.2 (List.mem_map.2 ⟨e, List.mem_filter.2 ⟨he, by simp⟩, rfl⟩)
  exact List.ne_nil_of_mem hmem

/-! ### What was put together -/

/-- What was put together has its names and its bodies from the entries. -/
theorem of_mem_gather {es : List (Entry α)} {g : Entry (List α)} (h : g ∈ gather es) :
    (∃ e ∈ es, e.track = g.track ∧ e.voice = g.voice) ∧ ∀ x ∈ g.body, ∃ e ∈ es, e.body = x := by
  obtain ⟨t, -, hg⟩ := List.mem_flatMap.1 h
  obtain ⟨v, hv, rfl⟩ := List.mem_map.1 hg
  constructor
  · obtain ⟨e, he, rfl⟩ := List.mem_map.1 (List.mem_eraseDups.1 hv)
    obtain ⟨he, ht⟩ := List.mem_filter.1 he
    exact ⟨e, he, of_decide_eq_true ht, rfl⟩
  · intro x hx
    obtain ⟨e, he, rfl⟩ := List.mem_map.1 hx
    exact ⟨e, (List.mem_filter.1 he).1, rfl⟩

theorem tracks_gather (es : List (Entry α)) : tracks (gather es) = tracks es := by
  rw [tracks, gather, List.map_flatMap]
  simp only [List.map_map]
  exact eraseDups_flatMap (nodup_tracks es) fun t ht => voices_ne_nil ht

/-- The entries that were made for a track. -/
theorem filter_gather (es : List (Entry α)) (t : String) :
    (gather es).filter (·.track = t) =
      (voices es t).map fun v => ⟨t, v, bodies es t v⟩ := by
  have hone : ∀ t', ((voices es t').map fun v => (⟨t', v, bodies es t' v⟩ : Entry (List α))).filter
      (·.track = t) =
        if t' = t then (voices es t').map fun v => ⟨t', v, bodies es t' v⟩ else [] := by
    intro t'
    split
    · rename_i heq
      exact List.filter_eq_self.2 (by simp [heq])
    · rename_i hne
      exact List.filter_eq_nil_iff.2 (by simp [hne])
  rw [gather, List.filter_flatMap]
  simp only [hone]
  rw [flatMap_ite_eq (nodup_tracks es)]
  split
  · rfl
  · rename_i ht
    rw [voices_eq_nil ht, List.map_nil]

theorem voices_gather (es : List (Entry α)) (t : String) : voices (gather es) t = voices es t := by
  rw [voices, filter_gather, List.map_map]
  simp only [Function.comp_def, List.map_id']
  exact eraseDups_of_nodup (nodup_voices es t)

theorem bodies_gather {es : List (Entry α)} {t v : String} (hv : v ∈ voices es t) :
    bodies (gather es) t v = [bodies es t v] := by
  have hsplit : (gather es).filter (fun e => e.track = t ∧ e.voice = v) =
      ((gather es).filter (·.track = t)).filter (·.voice = v) := by
    rw [List.filter_filter]
    refine List.filter_congr fun e _ => ?_
    rw [Bool.decide_and, Bool.and_comm]
  have hone : (voices es t).filter (· = v) = [v] := by
    rw [List.filter_eq, List.count_eq_one_of_mem (nodup_voices es t) hv, List.replicate_one]
  rw [bodies, hsplit, filter_gather, List.filter_map]
  simp only [Function.comp_def]
  rw [hone]
  rfl

end Entry

/-! ## Passages one after another -/

theorem Shape.foldl_append {α : Type} (ws : List (Shape α)) (w : Shape α) :
    ws.foldl (· ++ ·) w = w ++ ws.foldl (· ++ ·) .nil := by
  induction ws generalizing w with
  | nil => exact w.append_nil.symm
  | cons w' ws ih =>
    rw [List.foldl_cons, ih, List.foldl_cons, ih (.nil ++ w'), nil_append, append_assoc]

namespace Passage

def append : Passage → Passage → Passage
  | .nil, q => q
  | .note degree marks rest, q => .note degree marks (rest.append q)
  | .group branches marks rest, q => .group branches marks (rest.append q)
  | .change c rest, q => .change c (rest.append q)

/-- Passages one after another. -/
def join : List Passage → Passage := List.foldr append .nil

theorem append_nil : ∀ p : Passage, p.append .nil = p
  | .nil => rfl
  | .note degree marks p => congrArg (note degree marks) p.append_nil
  | .group bs marks p => congrArg (group bs marks) p.append_nil
  | .change c p => congrArg (change c) p.append_nil

theorem plain_append : ∀ {p q : Passage}, p.Plain → q.Plain → (p.append q).Plain
  | .nil, _, _, hq => hq
  | .note _ _ p, _, hp, hq => plain_append (p := p) hp hq
  | .group _ _ p, _, hp, hq => ⟨hp.1, plain_append (p := p) hp.2 hq⟩
  | .change _ _, _, hp, _ => hp.elim

theorem plain_join {ps : List Passage} (h : ∀ p ∈ ps, p.Plain) : (join ps).Plain := by
  induction ps with
  | nil => trivial
  | cons p ps ih =>
    obtain ⟨hp, hps⟩ := List.forall_mem_cons.1 h
    exact plain_append hp (ih hps)

theorem Plain.after : ∀ {p : Passage}, p.Plain → ∀ a, p.after a = a
  | .nil, _, _ => rfl
  | .note _ _ p, hp, a => Plain.after (p := p) hp a
  | .group _ _ p, hp, a => Plain.after (p := p) hp.2 a
  | .change _ _, hp, _ => hp.elim

theorem pattern_append : ∀ {p : Passage}, p.Plain → ∀ (q : Passage) (a : Ambient)
    (outer : List Modifier.Kind),
    (p.append q).pattern a outer = p.pattern a outer ++ q.pattern a outer
  | .nil, _, _, _, _ => rfl
  | .note degree marks p, hp, q, a, outer => by
    rw [append, pattern, pattern_append (p := p) hp, pattern]
    rfl
  | .group bs marks p, hp, q, a, outer => by
    rw [append, pattern, pattern_append (p := p) hp.2, pattern, Shape.append_assoc]
  | .change _ _, hp, _, _, _ => hp.elim

theorem pattern_join {ps : List Passage} (h : ∀ p ∈ ps, p.Plain) (a : Ambient)
    (outer : List Modifier.Kind) :
    (join ps).pattern a outer = (ps.map (·.pattern a outer)).foldl (· ++ ·) .nil := by
  induction ps with
  | nil => rfl
  | cons p ps ih =>
    obtain ⟨hp, hps⟩ := List.forall_mem_cons.1 h
    rw [List.map_cons, List.foldl_cons, Shape.nil_append, Shape.foldl_append, ← ih hps]
    exact pattern_append hp _ a outer

theorem Written.append : ∀ {p q : Passage} {us vs : List Token}, p.Written us → q.Written vs →
    (p.append q).Written (us ++ vs)
  | .nil, _, _, _, hp, hq => by
    obtain rfl := (hp : _ = [])
    exact hq
  | .note _ _ p, _, _, _, hp, hq => by
    obtain ⟨t, ms, us, rfl, ht, hms, hus⟩ := hp
    exact ⟨t, ms, us ++ _, by simp, ht, hms, hus.append hq⟩
  | .group _ _ p, _, _, _, hp, hq => by
    obtain ⟨o, bs, c, ms, us, rfl, ho, hbs, hc, hms, hus⟩ := hp
    exact ⟨o, bs, c, ms, us ++ _, by simp, ho, hbs, hc, hms, hus.append hq⟩
  | .change _ p, _, _, _, hp, hq => by
    obtain ⟨cs, us, rfl, hcs, hus⟩ := hp
    exact ⟨cs, us ++ _, by simp, hcs, hus.append hq⟩

theorem Written.join {ps : List Passage} {ts : List Token}
    (h : Token.InTurn Passage.Written ps ts) :
    (join ps).Written ts := by
  induction ps generalizing ts with
  | nil => exact h
  | cons p ps ih =>
    obtain ⟨us, vs, rfl, hus, hvs⟩ := h
    exact hus.append (ih hvs)

end Passage

theorem Entry.plain_gather {es : List (Entry Passage)} (h : ∀ e ∈ es, e.body.Plain) :
    ∀ e ∈ (gather es).map (map Passage.join), e.body.Plain := by
  refine List.forall_mem_map.2 fun g hg => Passage.plain_join fun p hp => ?_
  obtain ⟨e, he, rfl⟩ := (of_mem_gather hg).2 p hp
  exact h e he

/-! ## Sheet states -/

namespace TrackState

theorem add_nil (s : TrackState) (name : String) : s.add name .nil = s := by
  simp [add, Passage.after, Passage.pattern, Passage.contents, Shape.append_nil]

theorem play_selectVoice (s : TrackState) (name : String) (p : Passage) :
    (s.selectVoice name).play p = (s.selectVoice name).add name p := by
  have hmem : name ∈ enlist name s.voices := mem_enlist.2 (.inr rfl)
  have hagain : (s.selectVoice name).selectVoice name = s.selectVoice name := by
    simp only [selectVoice, enlist_of_mem hmem]
  rw [play]
  exact congrArg (·.add name p) hagain

end TrackState

/-- A track, a voice of it, and the music under both. -/
def Entry.sections (e : Entry Passage) : List Section :=
  [⟨.track e.track, .nil⟩, ⟨.voice e.voice, e.body⟩]

namespace SheetState

/-- What a sheet state is after an entry. -/
def enterEntry (k : SheetState) (e : Entry Passage) : SheetState := e.sections.foldl enter k

theorem enterEntry_eq (k : SheetState) (e : Entry Passage) : k.enterEntry e =
    ((k.selectTrack e.track).adapt (·.selectVoice e.voice)).play e.body := rfl

theorem tracks_enterEntry (k : SheetState) (e : Entry Passage) :
    (k.enterEntry e).tracks = enlist e.track k.tracks := by
  have hmem : e.track ∈ enlist e.track k.tracks := mem_enlist.2 (.inr rfl)
  rw [enterEntry_eq]
  cases e.body with
  | nil => exact enlist_of_mem hmem
  | _ =>
    show enlist e.track (enlist e.track (enlist e.track k.tracks)) = _
    rw [enlist_of_mem hmem, enlist_of_mem hmem]

theorem trackState_enterEntry (k : SheetState) (e : Entry Passage) (t : String) :
    (k.enterEntry e).trackState t =
      if t = e.track then ((k.trackState t).selectVoice e.voice).add e.voice e.body
      else k.trackState t := by
  have hvoice : ((k.selectTrack e.track).adapt (·.selectVoice e.voice)).trackState t =
      if t = e.track then (k.trackState t).selectVoice e.voice else k.trackState t :=
    trackState_adapt ..
  rw [enterEntry_eq]
  by_cases hp : e.body = .nil
  · rw [hp, TrackState.add_nil]
    exact hvoice
  · rw [play_of_ne_nil _ hp, trackState_adapt, hvoice]
    show (if t = e.track then _ else _) = _
    split
    · exact TrackState.play_selectVoice ..
    · rfl

/-- The sheet state holds the music of entries, where everything is ambient that is at the start. -/
structure Holds (k : SheetState) (es : List (Entry Passage)) : Prop where
  tracks : k.tracks = Entry.tracks es
  voices : ∀ t, (k.trackState t).voices = Entry.voices es t
  ambient : ∀ t v, (k.trackState t).ambient v = {}
  pattern : ∀ t v, (k.trackState t).pattern v =
    ((Entry.bodies es t v).map (·.pattern {} [])).foldl (· ++ ·) .nil

theorem Holds.enterEntry {k : SheetState} {es : List (Entry Passage)} (h : k.Holds es)
    {e : Entry Passage} (he : e.body.Plain) : (k.enterEntry e).Holds (es ++ [e]) where
  tracks := by rw [tracks_enterEntry, h.tracks, Entry.tracks_concat]
  voices t := by
    rw [trackState_enterEntry, Entry.voices_concat, ← h.voices]
    split <;> rfl
  ambient t v := by
    rw [trackState_enterEntry]
    split
    · rw [TrackState.ambient_add, he.after, ite_self]
      exact h.ambient t v
    · exact h.ambient t v
  pattern t v := by
    rw [trackState_enterEntry, Entry.bodies_concat]
    by_cases ht : t = e.track
    · rw [if_pos ht, TrackState.pattern_add]
      by_cases hv : v = e.voice
      · rw [if_pos hv, if_pos ⟨ht, hv⟩, List.map_append, List.foldl_append, ← h.pattern]
        exact congrArg (fun a => (k.trackState t).pattern v ++ e.body.pattern a []) (h.ambient t v)
      · rw [if_neg hv, if_neg (fun hand => hv hand.2)]
        exact h.pattern t v
    · rw [if_neg ht, if_neg (fun hand => ht hand.1)]
      exact h.pattern t v

/-- A sheet state that is entered one entry after another. -/
theorem holds_foldl {es : List (Entry Passage)} (h : ∀ e ∈ es, e.body.Plain) :
    ((es.flatMap Entry.sections).foldl enter (.start {})).Holds es := by
  rw [List.foldl_flatMap]
  induction es using List.reverseRecOn with
  | nil => exact ⟨rfl, fun _ => rfl, fun _ _ => rfl, fun _ _ => rfl⟩
  | append_singleton es e ih =>
    obtain ⟨hes, he⟩ := List.forall_mem_append.1 h
    rw [List.foldl_append]
    exact (ih hes).enterEntry (he e (List.mem_singleton_self e))

/-- **Entering entries one after another, and entering what each voice gets at once, makes the same
music.** -/
theorem alike_gather {es : List (Entry Passage)} (h : ∀ e ∈ es, e.body.Plain) :
    Alike ((es.flatMap Entry.sections).foldl enter (.start {}))
      ((((Entry.gather es).map (Entry.map Passage.join)).flatMap Entry.sections).foldl enter
        (.start {})) := by
  have hk := holds_foldl h
  have hk' := holds_foldl (Entry.plain_gather h)
  refine ⟨?_, fun t _ => ?_, fun t _ v hv => ?_⟩
  · rw [hk.tracks, hk'.tracks, Entry.tracks_map, Entry.tracks_gather]
  · rw [hk.voices, hk'.voices, Entry.voices_map, Entry.voices_gather]
  · have hbodies : ∀ p ∈ Entry.bodies es t v, p.Plain := by
      intro p hp
      obtain ⟨e, he, rfl⟩ := List.mem_map.1 hp
      exact h e (List.mem_filter.1 he).1
    rw [hk.voices] at hv
    rw [hk.pattern, hk'.pattern, Entry.bodies_map, Entry.bodies_gather hv, List.map_singleton,
      List.map_singleton, Passage.pattern_join hbodies]
    rfl

end SheetState

end Jianpu
