import Jianpu.Proofs.Sheet.Entries

/-!
# Rosters

What a source says about its tracks is a list of instructions: track and voice directives, music,
and settings outside of music. Two accounts are given of what they come to. A `Roster` is kept step
by step: it has the tracks made so far with their settings, the track in use, and the settings made
before there was any track. `Instruction.owned` says of each instruction alone whose settings it
changes: those of the track in use, and before any is in use, those of the first one to come
(`Instruction.settle_owned_append`). The two agree: `Roster.tracks_run`.
-/

namespace Jianpu

/-- What is set of an instrument and a volume. -/
structure Adjustment where
  instrument : Option Nat := none
  volume : Option Nat := none
  deriving DecidableEq, Repr

namespace Adjustment

/-- The settings after an adjustment. -/
def apply (a : Adjustment) (s : Settings) : Settings :=
  ⟨a.instrument.getD s.instrument, a.volume.getD s.volume⟩

/-- One adjustment after another. -/
def andThen (a b : Adjustment) : Adjustment :=
  ⟨b.instrument.or a.instrument, b.volume.or a.volume⟩

@[simp] theorem apply_empty (s : Settings) : apply {} s = s := rfl

@[simp] theorem apply_andThen (a b : Adjustment) (s : Settings) :
    (a.andThen b).apply s = b.apply (a.apply s) := by
  simp only [apply, andThen, Option.getD_or]

end Adjustment

/-- What a source says about its tracks. -/
inductive Instruction where
  | track (name : String)
  | voice (name : String)
  /-- Music, with what it sets. -/
  | music (a : Adjustment)
  /-- A setting outside of music. -/
  | setting (a : Adjustment)
  deriving DecidableEq, Repr

namespace Instruction

/-- The track in use after an instruction. Voices and music need one. -/
def after (u : Option String) : Instruction → Option String
  | track name => some name
  | voice _ | music _ => some (u.getD SheetState.unnamed)
  | setting _ => u

/-- What an instruction sets. -/
def adjustment? : Instruction → Option Adjustment
  | track _ | voice _ => none
  | music a | setting a => some a

/-- The tracks in use after each of some instructions. -/
def used : Option String → List Instruction → List String
  | _, [] => []
  | u, i :: is => (i.after u).toList ++ used (i.after u) is

/-- The adjustments that instructions make to the settings of a track. -/
def owned (name : String) : Option String → List Instruction → List Adjustment
  | _, [] => []
  | u, i :: is =>
    let owner := (i.after u).or (used none is).head?
    (i.adjustment?.filter fun _ => owner = some name).toList ++ owned name (i.after u) is

/-- The settings that some adjustments lead to. -/
def settle (s : Settings) (as : List Adjustment) : Settings := as.foldl (fun s a => a.apply s) s

end Instruction

/-- The tracks that were made, in order, and what is kept about them. -/
structure Roster where
  tracks : List (String × Settings) := []
  /-- The track in use. -/
  current : Option String := none
  /-- Settings made before there is any track. -/
  pending : Settings := {}
  deriving DecidableEq, Repr

namespace Roster

/-- The names of the tracks. -/
def names (r : Roster) : List String := r.tracks.map (·.1)

/-- Takes a track into use. One that is made takes the settings that were pending. -/
def use (r : Roster) (name : String) : Roster :=
  if name ∈ r.names then { r with current := some name }
  else { tracks := r.tracks ++ [(name, r.pending)], current := some name }

/-- Adjusts the settings of the track in use, or those that are pending. -/
def adjust (r : Roster) (a : Adjustment) : Roster :=
  match r.current with
  | some name =>
    { r with tracks := r.tracks.map fun p => (p.1, if p.1 = name then a.apply p.2 else p.2) }
  | none => { r with pending := a.apply r.pending }

/-- Follows an instruction. -/
def step (r : Roster) : Instruction → Roster
  | .track name => r.use name
  | .voice _ => r.use (r.current.getD SheetState.unnamed)
  | .music a => (r.use (r.current.getD SheetState.unnamed)).adjust a
  | .setting a => r.adjust a

/-- Follows instructions one after another. -/
def run (r : Roster) (is : List Instruction) : Roster := is.foldl step r

/-- What holds of a roster at every moment. -/
structure Sound (r : Roster) : Prop where
  nodup : r.names.Nodup
  mem : ∀ name ∈ r.current, name ∈ r.names
  tracks : r.current = none → r.tracks = []
  pending : r.tracks ≠ [] → r.pending = {}

variable {r : Roster} {name : String} {a : Adjustment} {i : Instruction} {is : List Instruction}

theorem sound_empty : Sound {} := ⟨List.nodup_nil, by simp, fun _ => rfl, fun h => absurd rfl h⟩

/-! ## Names -/

@[simp] theorem current_use : (r.use name).current = some name := by
  unfold use
  split <;> rfl

@[simp] theorem names_use : (r.use name).names = enlist name r.names := by
  unfold use enlist
  split
  · rfl
  · simp [names]

@[simp] theorem current_adjust : (r.adjust a).current = r.current := by
  unfold adjust
  split <;> simp_all

@[simp] theorem names_adjust : (r.adjust a).names = r.names := by
  unfold adjust
  split
  · simp [names]
  · rfl

@[simp] theorem adjust_empty (r : Roster) : r.adjust {} = r := by
  unfold adjust
  split
  · simp
  · rfl

theorem Sound.use (h : r.Sound) (name : String) : (r.use name).Sound where
  nodup := by
    rw [names_use]
    exact nodup_enlist h.nodup
  mem := by simp [mem_enlist]
  tracks := by simp
  pending := by
    unfold Roster.use
    split
    · exact h.pending
    · exact fun _ => rfl

theorem Sound.adjust (h : r.Sound) (a : Adjustment) : (r.adjust a).Sound where
  nodup := by simpa using h.nodup
  mem := by simpa using h.mem
  tracks hcurrent := by
    rw [current_adjust] at hcurrent
    have hnames : (r.adjust a).names = [] := by rw [names_adjust, names, h.tracks hcurrent]; rfl
    exact List.map_eq_nil_iff.1 hnames
  pending := by
    unfold Roster.adjust
    split
    · intro hne
      refine h.pending fun hnil => hne ?_
      dsimp only
      rw [hnil, List.map_nil]
    · rename_i hcurrent
      intro hne
      exact absurd (h.tracks hcurrent) hne

theorem Sound.step (h : r.Sound) (i : Instruction) : (r.step i).Sound := by
  cases i with
  | track name => exact h.use name
  | voice name => exact h.use _
  | music a => exact (h.use _).adjust a
  | setting a => exact h.adjust a

theorem current_step (r : Roster) (i : Instruction) : (r.step i).current = i.after r.current := by
  cases i <;> simp [step, Instruction.after]

theorem names_step (h : r.Sound) (i : Instruction) :
    (r.step i).names =
      (i.after r.current).toList.foldl (fun names name => enlist name names) r.names := by
  cases i with
  | track name => simp [step, Instruction.after]
  | voice name => simp [step, Instruction.after]
  | music a => simp [step, Instruction.after]
  | setting a =>
    cases hcurrent : r.current with
    | none => simp [step, Instruction.after]
    | some name => simp [step, Instruction.after, enlist_of_mem (h.mem name hcurrent)]

theorem names_run (h : r.Sound) (is : List Instruction) :
    (r.run is).names =
      (Instruction.used r.current is).foldl (fun names name => enlist name names) r.names := by
  induction is generalizing r with
  | nil => rfl
  | cons i is ih =>
    rw [run, List.foldl_cons, ← run, ih (h.step i), current_step, names_step h, Instruction.used,
      List.foldl_append]

/-! ## Settings -/

/-- The settings that a track starts from, where `is` are to come: those that it has, or those that
are pending if it is the first one made. -/
def start (r : Roster) (is : List Instruction) (name : String) : Settings :=
  if r.tracks = [] then if (Instruction.used none is).head? = some name then r.pending else {}
  else (r.tracks.lookup name).getD {}

theorem lookup_map_adjust (tracks : List (String × Settings)) (f : Settings → Settings)
    (used : String) :
    (tracks.map fun p => (p.1, if p.1 = used then f p.2 else p.2)).lookup name =
      (tracks.lookup name).map fun s => if name = used then f s else s := by
  induction tracks with
  | nil => rfl
  | cons p tracks ih =>
    rw [List.map_cons, List.lookup_cons, List.lookup_cons, ih]
    split
    · rename_i heq
      rw [eq_of_beq heq]
      rfl
    · rfl

theorem lookup_of_mem {tracks : List (String × Settings)} {s : Settings}
    (h : (tracks.map (·.1)).Nodup) (hmem : (name, s) ∈ tracks) : tracks.lookup name = some s := by
  obtain ⟨before, after, rfl⟩ := List.append_of_mem hmem
  refine List.lookup_eq_some_iff.2 ⟨before, after, rfl, fun p hp => ?_⟩
  rw [List.map_append, List.nodup_append] at h
  have hne := h.2.2 p.1 (List.mem_map_of_mem hp) name (by simp)
  simpa using Ne.symm hne

theorem lookup_singleton (used : String) (s : Settings) :
    [(used, s)].lookup name = if used = name then some s else none := by
  rw [List.lookup_cons, List.lookup_nil]
  by_cases heq : used = name
  · simp [heq]
  · rw [if_neg heq, beq_false_of_ne (Ne.symm heq)]

/-- Only a track that is the first one takes what is pending. -/
theorem start_use (h : r.Sound) (is : List Instruction) (used : String) :
    (r.use used).start is name =
      if r.tracks = [] then if used = name then r.pending else {}
      else (r.tracks.lookup name).getD {} := by
  by_cases hnil : r.tracks = []
  · have hnew : used ∉ r.names := by simp [names, hnil]
    rw [use, if_neg hnew, start, if_neg (by simp), if_pos hnil, hnil, List.nil_append,
      lookup_singleton]
    split <;> rfl
  · rw [if_neg hnil]
    unfold use
    split
    · rw [start, if_neg hnil]
    · rw [start, if_neg (by simp), h.pending hnil, List.lookup_append, lookup_singleton]
      cases r.tracks.lookup name with
      | some s => rfl
      | none => split <;> rfl

theorem start_adjust (h : r.Sound) (a : Adjustment) (is : List Instruction) :
    (r.adjust a).start is name =
      if r.current.or (Instruction.used none is).head? = some name then a.apply (r.start is name)
      else r.start is name := by
  cases hcurrent : r.current with
  | none =>
    have hnil := h.tracks hcurrent
    simp only [adjust, hcurrent, start, hnil, if_true, Option.none_or]
    split <;> rfl
  | some used =>
    have hused := h.mem used hcurrent
    have hne : r.tracks ≠ [] := by
      intro hnil
      simp [names, hnil] at hused
    have hne' : (r.tracks.map fun p => (p.1, if p.1 = used then a.apply p.2 else p.2)) ≠ [] := by
      simpa using hne
    simp only [adjust, hcurrent, start, if_neg hne, if_neg hne', lookup_map_adjust, Option.some_or,
      Option.some.injEq]
    cases hlookup : r.tracks.lookup name with
    | some s => simp [eq_comm]
    | none =>
      have hneq : used ≠ name := by
        rintro rfl
        obtain ⟨p, hp, heq⟩ := List.mem_map.1 hused
        have := List.lookup_eq_none_iff.1 hlookup p hp
        simp [heq] at this
      rw [if_neg hneq]
      rfl

theorem Sound.current_eq_none (h : r.Sound) (hnil : r.tracks = []) : r.current = none := by
  refine Option.eq_none_iff_forall_not_mem.2 fun used hused => ?_
  have hmem := h.mem used hused
  simp [names, hnil] at hmem

/-- Where an instruction takes a track into use, that is the first one if there is none. -/
theorem start_cons (h : r.Sound) {used : String} (hi : i.after r.current = some used)
    (is : List Instruction) : r.start (i :: is) name = (r.use used).start is name := by
  rw [start_use h, start]
  by_cases hnil : r.tracks = []
  · rw [h.current_eq_none hnil] at hi
    rw [if_pos hnil, if_pos hnil, Instruction.used, hi]
    simp
  · rw [if_neg hnil, if_neg hnil]

/-- An instruction changes where a track starts from by what it sets of it. -/
theorem start_step (h : r.Sound) (i : Instruction) (is : List Instruction) :
    (r.step i).start is name = Instruction.settle (r.start (i :: is) name)
      (i.adjustment?.filter fun _ =>
        (i.after r.current).or (Instruction.used none is).head? = some name).toList := by
  cases i with
  | track used => exact (start_cons h rfl is).symm
  | voice v => exact (start_cons h rfl is).symm
  | music a =>
    rw [step, start_adjust (h.use _), start_cons h rfl is, current_use, Instruction.after]
    simp only [Instruction.adjustment?, Option.filter_some, decide_eq_true_eq]
    split <;> rfl
  | setting a =>
    have hcons : r.start (.setting a :: is) name = r.start is name := rfl
    rw [step, start_adjust h, hcons, Instruction.after]
    simp only [Instruction.adjustment?, Option.filter_some, decide_eq_true_eq]
    split <;> rfl

/-- **The settings of a track are what the adjustments to it lead to.** -/
theorem tracks_run (h : r.Sound) (is : List Instruction) {s : Settings}
    (hmem : (name, s) ∈ (r.run is).tracks) :
    s = Instruction.settle (r.start is name) (Instruction.owned name r.current is) := by
  induction is generalizing r with
  | nil =>
    have hmem : (name, s) ∈ r.tracks := hmem
    have hne : r.tracks ≠ [] := List.ne_nil_of_mem hmem
    rw [start, if_neg hne, lookup_of_mem h.nodup hmem]
    rfl
  | cons i is ih =>
    have hs := ih (h.step i) hmem
    rw [current_step, start_step h] at hs
    rw [hs, Instruction.owned, Instruction.settle, Instruction.settle, Instruction.settle,
      List.foldl_append]

/-! ## From the start -/

theorem foldl_enlist (names us : List String) :
    us.foldl (fun names name => enlist name names) names.eraseDups = (names ++ us).eraseDups := by
  induction us generalizing names with
  | nil => simp
  | cons u us ih => rw [List.foldl_cons, ← eraseDups_concat, ih, List.append_assoc]; rfl

/-- The tracks are those that were in use, in the order of their first use. -/
theorem names_run_empty (is : List Instruction) :
    (run {} is).names = (Instruction.used none is).eraseDups := by
  rw [names_run sound_empty]
  exact foldl_enlist [] _

theorem tracks_run_empty (is : List Instruction) {s : Settings}
    (hmem : (name, s) ∈ (run {} is).tracks) :
    s = Instruction.settle {} (Instruction.owned name none is) := by
  have hstart : start {} is name = {} := by
    rw [start, if_pos rfl]
    split <;> rfl
  rw [tracks_run sound_empty is hmem, hstart]

end Roster

/-! ## Before any track -/

theorem head?_eraseDups (names : List String) : names.eraseDups.head? = names.head? := by
  cases names with
  | nil => rfl
  | cons name names => rw [List.eraseDups_cons]; rfl

namespace Instruction

theorem of_used_eq_nil {i : Instruction} {is : List Instruction} (h : used none (i :: is) = []) :
    i.after none = none ∧ used none is = [] := by
  rw [used, List.append_eq_nil_iff, Option.toList_eq_nil_iff] at h
  exact ⟨h.1, h.1 ▸ h.2⟩

variable {before : List Instruction} (rest : List Instruction)

theorem used_append_of_unused (h : used none before = []) :
    used none (before ++ rest) = used none rest := by
  induction before with
  | nil => rfl
  | cons i is ih =>
    obtain ⟨hafter, hunused⟩ := of_used_eq_nil h
    rw [List.cons_append, used, hafter, ih hunused]
    rfl

/-- What is set before any track belongs to the first one to come. -/
theorem owned_append_of_unused (h : used none before = []) (name : String) :
    owned name none (before ++ rest) =
      (if (used none rest).head? = some name then before.filterMap adjustment? else []) ++
        owned name none rest := by
  induction before with
  | nil => simp
  | cons i is ih =>
    obtain ⟨hafter, hunused⟩ := of_used_eq_nil h
    rw [List.cons_append, owned, hafter, used_append_of_unused rest hunused, ih hunused,
      Option.none_or, ← List.append_assoc]
    cases ha : i.adjustment? <;> split <;> simp [*, Option.filter_some]

/-- Of the tracks in the order of their first use, only the one at place `0` starts from what is set
before any track. -/
theorem settle_owned_append (h : used none before = []) {names : List String} (hnodup : names.Nodup)
    (hnames : names = (used none (before ++ rest)).eraseDups) {i : Nat} {name : String}
    (hi : names[i]? = some name) : settle {} (owned name none (before ++ rest)) =
      settle (if i = 0 then settle {} (before.filterMap adjustment?) else {})
        (owned name none rest) := by
  have hfirst : (used none rest).head? = some name ↔ i = 0 := by
    rw [← head?_eraseDups, ← used_append_of_unused rest h, ← hnames, List.head?_eq_getElem?, ← hi,
      eq_comm]
    exact List.getElem?_inj (List.getElem?_eq_some_iff.1 hi).1 hnodup
  rw [owned_append_of_unused rest h]
  simp only [hfirst]
  rw [settle, List.foldl_append]
  split <;> rfl

end Instruction

end Jianpu
