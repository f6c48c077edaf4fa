import Jianpu.Compile
import Jianpu.Proofs.Sheet.Instructions
import Jianpu.Proofs.Sheet.Builds

/-!
# The books of a sheet

While a sheet is read, its parts are kept in the order of their first use, with different names, and
so are the voices of each part; only the first part can be implicit (`Draft.Kept`). Every round of
reading does to the roster of a draft what the source says there (`Drafting.records_round`), so that
in the end the parts are those that the source asks for (`Sheet.booked_of_parse`). As only the first
part can be dropped, the channels number the others in turn (`Sheet.arrangeParts_eq`).
-/

namespace Jianpu

open Macro (Expander)

/-- The names of the voices differ, and the voice in use is one of them. -/
structure Part.Kept (p : Part) : Prop where
  nodup : (p.voices.map (·.name)).Nodup
  selected : ∀ v ∈ p.selected, v < p.voices.length

/-- What a draft has on the roster. -/
def Draft.roster (d : Draft) : Roster where
  tracks := d.parts.map fun p => (p.name, p.settings)
  current := d.selected.bind fun i => d.parts[i]?.map (·.name)
  pending := d.pending

/-- What holds of a draft at every moment. -/
structure Draft.Kept (d : Draft) : Prop where
  roster : d.roster.Sound
  selected : ∀ i ∈ d.selected, i < d.parts.length
  parts : ∀ p ∈ d.parts, p.Kept
  implicit : ∀ i p, d.parts[i]? = some p → p.implicit = true → i = 0

/-! ## Voices -/

namespace Part.Kept

variable {p : Part}

theorem selectVoice (h : p.Kept) (name : String) (defaults : Ambient) :
    (p.selectVoice name defaults).2.Kept ∧
      (p.selectVoice name defaults).1 < (p.selectVoice name defaults).2.voices.length := by
  unfold Part.selectVoice
  have hfind := findIdx?_names (show p.voices.map Voice.name = _ from rfl) name
  rcases hfind with ⟨i, v, hfind, hv, -⟩ | ⟨hfind, hname⟩ <;> rw [hfind]
  · have hlt := (List.getElem?_eq_some_iff.1 hv).1
    exact ⟨⟨h.nodup, by simpa using hlt⟩, hlt⟩
  · refine ⟨⟨?_, by simp⟩, by simp⟩
    have hnodup : (enlist name (p.voices.map (·.name))).Nodup := nodup_enlist h.nodup
    rw [enlist_of_notMem hname] at hnodup
    simpa using hnodup

theorem currentVoice (h : p.Kept) (defaults : Ambient) :
    (p.currentVoice defaults).2.Kept ∧
      (p.currentVoice defaults).1 < (p.currentVoice defaults).2.voices.length := by
  unfold Part.currentVoice
  split
  · rename_i i hi
    exact ⟨h, h.selected i hi⟩
  · exact h.selectVoice "1" defaults

/-- A voice goes on in its place. -/
theorem setVoice (h : p.Kept) {v : Nat} {voice : Voice} (hvoice : p.voices[v]? = some voice)
    (strand : Option Strand) (ambient : Ambient) (score : Score) (settings : Settings) :
    Kept { p with score, settings, voices := p.voices.set v { voice with strand, ambient } } where
  nodup := by
    have hnames := map_set_of_name_eq (f := Voice.name)
      (y := { voice with strand, ambient }) hvoice rfl
    exact hnames ▸ h.nodup
  selected := by simpa using h.selected

end Part.Kept

/-- Selecting a voice leaves the rest of a part alone. -/
theorem Part.selectVoice_eq (p : Part) (name : String) (defaults : Ambient) :
    ∃ voices selected, (p.selectVoice name defaults).2 = { p with voices, selected } := by
  unfold selectVoice
  split <;> exact ⟨_, _, rfl⟩

theorem Part.currentVoice_eq (p : Part) (defaults : Ambient) :
    ∃ voices selected, (p.currentVoice defaults).2 = { p with voices, selected } := by
  unfold currentVoice
  split
  · exact ⟨_, _, rfl⟩
  · exact p.selectVoice_eq "1" defaults

/-! ## Parts -/

/-- Where no name comes twice, what has the name at a place is at that place. -/
theorem map_adjust_eq_set {tracks : List (String × Settings)} {i : Nat} {name : String}
    {s : Settings} (h : (tracks.map (·.1)).Nodup) (hi : tracks[i]? = some (name, s))
    (f : Settings → Settings) :
    (tracks.map fun p => (p.1, if p.1 = name then f p.2 else p.2)) = tracks.set i (name, f s) := by
  refine List.ext_getElem? fun j => ?_
  rw [List.getElem?_map, List.getElem?_set]
  by_cases hij : i = j
  · subst hij
    rw [if_pos rfl, if_pos (List.getElem?_eq_some_iff.1 hi).1, hi]
    simp
  · rw [if_neg hij]
    cases hj : tracks[j]? with
    | none => rfl
    | some q =>
      have hne := name_ne_of_ne h hi hj hij
      simp [Ne.symm hne]

namespace Draft

variable {d : Draft} {i : Nat} {p : Part}

/-- The drafts have the same on the roster. -/
structure Agree (d d' : Draft) : Prop where
  parts : d'.parts = d.parts
  selected : d'.selected = d.selected
  pending : d'.pending = d.pending

theorem Agree.roster_eq {d' : Draft} (h : d.Agree d') : d'.roster = d.roster := by
  rw [roster, roster, h.parts, h.selected, h.pending]

theorem kept_start (input : Expander Directive) : Kept { input } :=
  ⟨Roster.sound_empty, by simp, by simp, by simp⟩

/-- What is left of the source, the header and what is ambient do not matter. -/
theorem Kept.of_agree {d' : Draft} (h : d.Kept) (hagree : d.Agree d') : d'.Kept where
  roster := hagree.roster_eq ▸ h.roster
  selected := by
    rw [hagree.selected, hagree.parts]
    exact h.selected
  parts := by
    rw [hagree.parts]
    exact h.parts
  implicit := by
    rw [hagree.parts]
    exact h.implicit

theorem Kept.reads (h : d.Kept) (input : Expander Directive) (started : Bool) :
    Kept { d with input, started } := h.of_agree ⟨rfl, rfl, rfl⟩

theorem current_roster (hi : d.selected = some i) (hp : d.parts[i]? = some p) :
    d.roster.current = some p.name := by
  simp [roster, hi, hp]

/-- A part is adjusted in its place. -/
theorem roster_set (h : d.Kept) (hi : d.selected = some i) (hp : d.parts[i]? = some p) {q : Part}
    {a : Adjustment} (hname : q.name = p.name) (hsettings : q.settings = a.apply p.settings) :
    roster { d with parts := d.parts.set i q } = d.roster.adjust a := by
  have hlt := (List.getElem?_eq_some_iff.1 hp).1
  have htrack : d.roster.tracks[i]? = some (p.name, p.settings) := by
    rw [roster, List.getElem?_map, hp]
    rfl
  have htracks := map_adjust_eq_set h.roster.nodup htrack a.apply
  have hcurrent : (d.selected.bind fun j => (d.parts.set i q)[j]?.map (·.name)) = some p.name := by
    rw [hi, Option.bind_some, List.getElem?_set_self hlt, Option.map_some, hname]
  rw [Roster.adjust, current_roster hi hp]
  dsimp only
  rw [htracks, roster, List.map_set, hname, hsettings, hcurrent]
  rfl

theorem Kept.set (h : d.Kept) (hi : d.selected = some i) (hp : d.parts[i]? = some p) {q : Part}
    {a : Adjustment} (hq : q.Kept) (hname : q.name = p.name) (himplicit : q.implicit = p.implicit)
    (hsettings : q.settings = a.apply p.settings) :
    Kept { d with parts := d.parts.set i q } where
  roster := by
    rw [roster_set h hi hp hname hsettings]
    exact h.roster.adjust a
  selected := by simpa using h.selected
  parts x hx := by
    rcases List.mem_or_eq_of_mem_set hx with hx | rfl
    · exact h.parts x hx
    · exact hq
  implicit j x hj hx := by
    by_cases hij : i = j
    · subst hij
      have hlt := (List.getElem?_eq_some_iff.1 hp).1
      obtain rfl := Option.some.inj ((List.getElem?_set_self hlt).symm.trans hj)
      exact h.implicit i p hp (himplicit ▸ hx)
    · rw [List.getElem?_set_ne hij] at hj
      exact h.implicit j x hj hx

/-- A part that exists is taken into use. -/
theorem roster_select (hp : d.parts[i]? = some p) :
    roster { d with selected := some i } = d.roster.use p.name := by
  have hmem : p.name ∈ d.roster.names := by
    rw [Roster.names, roster, List.map_map]
    exact List.mem_map_of_mem (List.mem_of_getElem? hp)
  rw [Roster.use, if_pos hmem]
  simp [roster, hp]

theorem Kept.select (h : d.Kept) (hp : d.parts[i]? = some p) :
    Kept { d with selected := some i } where
  roster := by
    rw [roster_select hp]
    exact h.roster.use p.name
  selected := by simpa using (List.getElem?_eq_some_iff.1 hp).1
  parts := h.parts
  implicit := h.implicit

/-- A draft with a further part, which is then in use. -/
def addTrack (d : Draft) (name : String) (implicit : Bool) : Draft := { d with
  parts := d.parts ++ [{ name, settings := d.pending, implicit }]
  pending := {}
  selected := some d.parts.length }

theorem roster_addTrack {name : String} (hname : name ∉ d.roster.names) (implicit : Bool) :
    (d.addTrack name implicit).roster = d.roster.use name := by
  rw [Roster.use, if_neg hname]
  simp [addTrack, roster]

theorem Kept.addTrack (h : d.Kept) {name : String} (hname : name ∉ d.roster.names) {implicit : Bool}
    (himplicit : implicit = true → d.parts = []) : (d.addTrack name implicit).Kept where
  roster := by
    rw [roster_addTrack hname]
    exact h.roster.use name
  selected := by simp [Draft.addTrack]
  parts := List.forall_mem_append.2 ⟨h.parts, by simpa using ⟨List.nodup_nil, by simp⟩⟩
  implicit j q hj hq := by
    rcases Nat.lt_or_ge j d.parts.length with hlt | hge
    · have hparts : (d.addTrack name implicit).parts[j]? = d.parts[j]? :=
        List.getElem?_append_left hlt
      rw [hparts] at hj
      exact h.implicit j q hj hq
    · have hmem : q ∈ [({ name, settings := d.pending, implicit } : Part)] := by
        rw [show (d.addTrack name implicit).parts[j]? = _ from List.getElem?_append_right hge] at hj
        exact List.mem_of_getElem? hj
      obtain rfl := List.mem_singleton.1 hmem
      have hlt := (List.getElem?_eq_some_iff.1 hj).1
      simp [Draft.addTrack, himplicit hq] at hlt
      exact hlt

end Draft

namespace Drafting

/-- One round of reading a sheet, where `t` comes next. -/
def round (fuel : Nat) (t : Token) : Drafting Unit := do
  if t.kind = .closing then
    let _ ← read (Reading.next fuel)
  else if t.isSeparator then
    let _ ← read (Reading.next fuel)
    read (Reading.report (.unexpectedSeparator t.text) t.span)
  else
    let d ← get
    match d.input.directive? t with
    | some .track =>
      let _ ← read (Reading.next fuel)
      selectTrack
    | some .voice =>
      let _ ← read (Reading.next fuel)
      selectVoice
    | some .instrument =>
      let _ ← read (Reading.next fuel)
      setting fuel .instrument
    | some .volume =>
      let _ ← read (Reading.next fuel)
      setting fuel .volume
    | some x =>
      if d.started then music fuel
      else
        let _ ← read (Reading.next fuel)
        heading fuel x
    | none => music fuel

theorem all_succ (fuel : Nat) : all (fuel + 1) = (do
    let t ← read (Reading.peek fuel)
    if t.isEof then return
    else
      round fuel t
      all fuel) := by
  rw [all]
  refine bind_congr fun t => ?_
  split
  · rfl
  · unfold round
    split
    · simp only [bind_assoc, pure_bind]
    · split
      · simp only [bind_assoc]
      · rw [bind_assoc]
        refine bind_congr fun d => ?_
        cases d.input.directive? t with
        | none => rfl
        | some x =>
          cases x with
          | track | voice | instrument | volume => simp only [bind_assoc]
          | _ =>
            by_cases hstarted : d.started = true
            · simp only [if_pos hstarted]
            · simp only [if_neg hstarted, bind_assoc]

/-! ## Steps and what they say -/

/-- A step does to the roster what the source says there. -/
def Records (m : Drafting Unit) (n : Bool → Reading (Option Instruction × Bool)) : Prop :=
  ∀ d : Draft, d.Kept → Yields m d fun _ d' => ∃ i,
    n d.started d.input = some ((i, d'.started), d'.input) ∧ d'.Kept ∧
      d'.roster = d.roster.run i.toList

variable {α : Type} {fuel : Nat}

theorem bind_pure_of_eq {β : Type} {q : Reading α} {e e' : Expander Directive} {x : α}
    (h : q e = some (x, e')) (f : α → β) :
    (q >>= fun a => pure (f a) : Reading β) e = some (f x, e') :=
  bind_of_eq_some h

namespace Records

theorem read {q : Reading α} {f : α → Drafting Unit}
    {n : α → Bool → Reading (Option Instruction × Bool)} (h : ∀ x, Records (f x) (n x)) :
    Records (read q >>= f) fun started => q >>= (n · started) := by
  intro d hd
  refine .bind (yields_read fun x e hq => ?_)
  refine (h x _ (hd.reads e d.started)).mono ?_
  rintro - d' ⟨i, hi, hkept, hroster⟩
  refine ⟨i, ?_, hkept, hroster⟩
  exact (bind_of_eq_some hq).trans hi

theorem pure : Records (Pure.pure ()) fun started => Pure.pure (none, started) := fun _ hd =>
  .of_pure ⟨none, rfl, hd, rfl⟩

theorem report (c : Cause) (span : Span) :
    Records (Drafting.read (Reading.report c span)) fun started => do
      Reading.report c span
      return (none, started) := by
  rw [← bind_pure (Drafting.read (Reading.report c span))]
  exact .read fun _ => .pure

theorem get {f : Draft → Drafting Unit}
    {n : Expander Directive → Bool → Reading (Option Instruction × Bool)}
    (h : ∀ d : Draft, d.Kept → Yields (f d) d fun _ d' => ∃ i,
      n d.input d.started d.input = some ((i, d'.started), d'.input) ∧ d'.Kept ∧
        d'.roster = d.roster.run i.toList) :
    Records (MonadState.get >>= f) fun started => MonadState.get >>= (n · started) :=
  fun d hd => .bind (.of_get (h d hd))

end Records

/-- A directive before the music reads one argument and then changes the header. -/
theorem yields_heading_of {m : Drafting Unit} {q : Reading α} {f : α → Drafting Unit}
    (hm : m = read q >>= f)
    (hf : ∀ x d, ∃ d', f x d = some ((), d') ∧ d'.input = d.input ∧ d.Agree d' ∧
      d'.started = d.started) (d : Draft) :
    Yields m d fun _ d' => (m { input := d.input }).map (fun r => (r.1, r.2.input)) =
      some ((), d'.input) ∧ d.Agree d' ∧ d'.started = d.started := by
  subst hm
  refine .bind (yields_read fun x e hq => ?_)
  obtain ⟨d', hd', hinput, hagree, hstarted⟩ := hf x { d with input := e }
  obtain ⟨d'', hd'', hinput', -⟩ := hf x { input := e }
  refine .of_eq hd' ⟨?_, ⟨hagree.parts, hagree.selected, hagree.pending⟩, hstarted⟩
  have hrun : (read q >>= f) { input := d.input } = f x { input := e } :=
    bind_of_eq_some (read_of_eq_some hq)
  rw [hrun, hd'', Option.map_some, hinput, hinput']

theorem yields_heading (x : Directive) (d : Draft) : Yields (heading fuel x) d fun _ d' =>
    Reading.heading fuel x d.input = some ((), d'.input) ∧ d.Agree d' ∧ d'.started = d.started := by
  cases x with
  | tempo | bpm | major | minor | times | div | vel | octave =>
    refine yields_heading_of rfl (fun r d => ?_) d
    cases r <;> exact ⟨_, rfl, rfl, ⟨rfl, rfl, rfl⟩, rfl⟩
  | track | voice | instrument | volume => exact .of_pure ⟨rfl, ⟨rfl, rfl, rfl⟩, rfl⟩

theorem records_heading (x : Directive) : Records (heading fuel x) fun started => do
    Reading.heading fuel x
    return (none, started) := by
  intro d hd
  refine (yields_heading x d).mono ?_
  rintro - d' ⟨hread, hagree, hstarted⟩
  refine ⟨none, ?_, hd.of_agree hagree, hagree.roster_eq⟩
  rw [hstarted]
  exact bind_pure_of_eq hread fun _ => (none, d.started)

/-- A track directive takes the track of its name into use. -/
theorem records_selectTrack : Records selectTrack fun _ => do
    let a ← Reading.argumentRaw
    return (a.map (.track ·.text), true) := by
  intro d hd
  refine .bind (.of_modify (.bind (yields_read fun r e hr => ?_)))
  have hr : Reading.argumentRaw d.input = some (r, e) := hr
  have hkept := hd.reads e true
  have hsays := bind_pure_of_eq hr fun a => (a.map (Instruction.track ·.text), true)
  cases r with
  | none => exact .of_pure ⟨none, hsays, hkept, rfl⟩
  | some a =>
    refine .bind (.of_get ?_)
    dsimp only
    have hfind := findIdx?_names (show d.parts.map Part.name = _ from rfl) a.text
    rcases hfind with ⟨i, p, hfind, hp, hname, -⟩ | ⟨hfind, hname⟩ <;> rw [hfind]
    · refine .bind (.of_pure (.of_modify ⟨some (.track a.text), hsays, hkept.select hp, ?_⟩))
      rw [← hname]
      exact Draft.roster_select hp
    · have hnew : a.text ∉ d.roster.names := by
        rw [Roster.names, Draft.roster, List.map_map]
        exact hname
      refine .bind (.of_eq rfl (.of_modify ⟨some (.track a.text), hsays, ?_, ?_⟩))
      · exact hkept.addTrack hnew (by simp)
      · exact Draft.roster_addTrack hnew false

/-- The part in use is made if there is none. -/
theorem yields_currentPart {d : Draft} (hd : d.Kept) : Yields currentPart d fun i d' =>
    d'.input = d.input ∧ d'.started = d.started ∧ d'.selected = some i ∧
      (∃ p, d'.parts[i]? = some p) ∧ d'.Kept ∧
      d'.roster = d.roster.use (d.roster.current.getD SheetState.unnamed) := by
  refine .bind (.of_get ?_)
  split
  · rename_i i hi
    obtain ⟨p, hp⟩ : ∃ p, d.parts[i]? = some p := ⟨_, List.getElem?_eq_getElem (hd.selected i hi)⟩
    have hsame : { d with selected := some i } = d := by rw [← hi]
    refine .of_pure ⟨rfl, rfl, hi, ⟨p, hp⟩, hd, ?_⟩
    rw [Draft.current_roster hi hp, Option.getD_some, ← Draft.roster_select hp, hsame]
  · rename_i hnone
    have hcurrent : d.roster.current = none := by rw [Draft.roster, hnone]; rfl
    have hparts : d.parts = [] := List.map_eq_nil_iff.1 (hd.roster.tracks hcurrent)
    have hname : "Track " ++ (d.parts.length + 1).repr = SheetState.unnamed := by rw [hparts]; rfl
    have hnew : SheetState.unnamed ∉ d.roster.names := by
      rw [Roster.names, hd.roster.tracks hcurrent]
      exact List.not_mem_nil
    rw [hname, hcurrent, Option.getD_none]
    refine .bind (.of_eq rfl (.bind (.of_modify (.of_pure ⟨rfl, rfl, rfl, ?_, ?_, ?_⟩))))
    · exact ⟨_, List.getElem?_concat_length⟩
    · exact hd.addTrack hnew fun _ => hparts
    · exact Draft.roster_addTrack hnew true

theorem records_selectVoice : Records selectVoice fun _ => do
    let a ← Reading.argumentRaw
    return (a.map (.voice ·.text), true) := by
  intro d hd
  refine .bind (.of_modify (.bind (yields_read fun r e hr => ?_)))
  have hr : Reading.argumentRaw d.input = some (r, e) := hr
  have hkept := hd.reads e true
  have hsays := bind_pure_of_eq hr fun a => (a.map (Instruction.voice ·.text), true)
  cases r with
  | none => exact .of_pure ⟨none, hsays, hkept, rfl⟩
  | some a =>
    refine .bind ((yields_currentPart hkept).mono ?_)
    rintro i d₁ ⟨hinput, hstarted, hselected, ⟨p, hp⟩, hkept₁, hroster⟩
    obtain ⟨voices, selected, hp'⟩ := p.selectVoice_eq a.text d₁.defaults
    have hset : d₁.parts.modify i (fun p => (p.selectVoice a.text d₁.defaults).2) =
        d₁.parts.set i (p.selectVoice a.text d₁.defaults).2 := by
      rw [List.modify_eq_set, hp]
      rfl
    have hvoices := ((hkept₁.parts p (List.mem_of_getElem? hp)).selectVoice a.text d₁.defaults).1
    have hsettings : (p.selectVoice a.text d₁.defaults).2.settings =
        Adjustment.apply {} p.settings := by
      rw [hp', Adjustment.apply_empty]
    refine .of_modify ⟨some (.voice a.text), ?_, ?_, ?_⟩
    · dsimp only
      rw [hinput, hstarted]
      exact hsays
    · rw [hset]
      exact hkept₁.set hselected hp hvoices (by rw [hp']) (by rw [hp']) hsettings
    · rw [hset, Draft.roster_set hkept₁ hselected hp (by rw [hp']) hsettings, Roster.adjust_empty,
        hroster]
      rfl

theorem yields_read_setting {x : Directive} {s : Settings} {d : Draft} {Q : Settings → Draft → Prop}
    (h : ∀ a e, Reading.adjustment fuel x d.input = some (a, e) →
      Q (a.apply s) { d with input := e }) : Yields (read (Writing.setting fuel x s)) d Q := by
  refine yields_read fun s' e hs => ?_
  rw [Writing.setting_eq] at hs
  obtain ⟨⟨a, e'⟩, ha, heq⟩ := Option.map_eq_some_iff.1 hs
  obtain ⟨rfl, rfl⟩ := Prod.mk.inj heq
  exact h a e' ha

/-- A setting outside of music is made to the part in use, or is pending. -/
theorem records_setting (x : Directive) : Records (setting fuel x) fun started => do
    return (some (.setting (← Reading.adjustment fuel x)), started) := by
  intro d hd
  refine .bind (.of_get ?_)
  split
  · rename_i i p hchosen
    obtain ⟨j, hj, hmap⟩ := Option.bind_eq_some_iff.1 hchosen
    obtain ⟨q, hq, heq⟩ := Option.map_eq_some_iff.1 hmap
    obtain ⟨rfl, rfl⟩ := Prod.mk.inj heq
    refine .bind (yields_read_setting fun a e ha => ?_)
    have hkept := hd.reads e d.started
    have hpart := hd.parts q (List.mem_of_getElem? hq)
    refine .of_modify ⟨some (.setting a), ?_, ?_, ?_⟩
    · exact bind_pure_of_eq ha fun a => (some (Instruction.setting a), d.started)
    · exact hkept.set (a := a) hj hq ⟨hpart.nodup, hpart.selected⟩ rfl rfl rfl
    · refine Draft.roster_set hkept hj hq ?_ ?_ <;> rfl
  · rename_i hchosen
    have hnone : d.selected = none := by
      refine Option.eq_none_iff_forall_not_mem.2 fun i hi => ?_
      rw [hi, Option.bind_some, List.getElem?_eq_getElem (hd.selected i hi)] at hchosen
      cases hchosen
    refine .bind (yields_read_setting fun a e ha => ?_)
    have hroster : Draft.roster { d with input := e, pending := a.apply d.pending } =
        d.roster.adjust a := by
      simp [Draft.roster, Roster.adjust, hnone]
    refine .of_modify ⟨some (.setting a), ?_, ⟨?_, hd.selected, hd.parts, hd.implicit⟩, hroster⟩
    · exact bind_pure_of_eq ha fun a => (some (Instruction.setting a), d.started)
    · exact hroster ▸ hd.roster.adjust a

/-- Music goes to the part in use, and sets what it says of it. -/
theorem records_music : Records (music fuel) fun _ => do
    return (some (.music (← Reading.music fuel)), true) := by
  intro d hd
  have hkept := hd.reads d.input true
  refine .bind (.of_modify (.bind ((yields_currentPart hkept).mono ?_)))
  rintro i d₁ ⟨hinput, hstarted, hselected, ⟨p, hp⟩, hkept₁, hroster⟩
  refine .bind (.of_get ?_)
  rw [hp]
  dsimp only
  obtain ⟨hcurrent, hlt⟩ := (hkept₁.parts p (List.mem_of_getElem? hp)).currentVoice d₁.defaults
  obtain ⟨voices, selected, hq⟩ := p.currentVoice_eq d₁.defaults
  generalize p.currentVoice d₁.defaults = r at hcurrent hlt hq ⊢
  obtain ⟨v, q⟩ := r
  dsimp only at hcurrent hlt hq ⊢
  obtain ⟨voice, hvoice⟩ : ∃ voice, q.voices[v]? = some voice := ⟨_, List.getElem?_eq_getElem hlt⟩
  rw [hvoice]
  dsimp only
  refine .bind fun r d₂ heq => ?_
  obtain ⟨⟨⟨s, ambient⟩, b⟩, hseq, heq⟩ := Option.bind_eq_some_iff.1 heq
  obtain ⟨rfl, rfl⟩ := Prod.mk.inj (Option.some.inj heq)
  -- What the music sets does not depend on the voice, the score or the settings that it meets.
  have hout := Writing.sequence_adjusts fuel d₁.input none voice.ambient q.score q.settings
  rw [Writing.outcome, show Writing.sequence _ _ _ _ = _ from hseq, Option.map_some] at hout
  obtain ⟨⟨a, e⟩, ha, heq⟩ := Option.map_eq_some_iff.1 hout.symm
  obtain ⟨rfl, hsettings⟩ := Prod.mk.inj heq
  have hsettings : b.settings = a.apply p.settings := by rw [← hsettings, hq]
  have hkept₂ := hkept₁.reads b.input d₁.started
  have hname : q.name = p.name := by rw [hq]
  refine .of_eq rfl ⟨some (.music a), ?_, ?_, ?_⟩
  · dsimp only
    rw [hstarted]
    rw [hinput] at ha
    exact bind_pure_of_eq ha fun a => (some (Instruction.music a), true)
  · exact hkept₂.set hselected hp (hcurrent.setVoice hvoice ..) hname (by rw [hq]) hsettings
  · refine (Draft.roster_set hkept₂ hselected hp ?_ ?_).trans (congrArg (Roster.adjust · a) hroster)
    · exact hname
    · exact hsettings

/-- **A round does to the roster what the source says there.** -/
theorem records_round (t : Token) : Records (round fuel t) fun started =>
    Reading.instruction fuel started t := by
  unfold round Reading.instruction
  by_cases hclosing : t.kind = .closing
  · simp only [if_pos hclosing]
    exact .read fun _ => .pure
  · simp only [if_neg hclosing]
    by_cases hseparator : t.isSeparator = true
    · simp only [if_pos hseparator]
      exact .read fun _ => .report _ _
    · simp only [if_neg hseparator]
      refine .get fun d hd => ?_
      cases d.input.directive? t with
      | none => exact records_music d hd
      | some x =>
        cases x with
        | track => exact Records.read (fun _ => records_selectTrack) d hd
        | voice => exact Records.read (fun _ => records_selectVoice) d hd
        | instrument | volume => exact Records.read (fun _ => records_setting _) d hd
        | _ =>
          dsimp only
          by_cases hstarted : d.started = true
          · simp only [if_pos hstarted]
            exact records_music d hd
          · simp only [if_neg hstarted]
            exact Records.read (fun _ => records_heading _) d hd

/-- **Reading a sheet follows all that its source says about its tracks.** -/
theorem yields_all {d : Draft} (hd : d.Kept) : Yields (all fuel) d fun _ d' =>
    ∃ is, Reading.instructions fuel d.started d.input = some (is, d'.input) ∧ d'.Kept ∧
      d'.roster = d.roster.run is := by
  induction fuel generalizing d with
  | zero => exact .of_failure
  | succ fuel ih =>
    rw [all_succ]
    refine .bind (yields_read fun t e ht => ?_)
    rw [Reading.instructions, bind_of_eq_some ht]
    by_cases heof : t.isEof = true
    · rw [if_pos heof, if_pos heof]
      exact .of_pure ⟨[], rfl, hd.reads e d.started, rfl⟩
    · rw [if_neg heof, if_neg heof]
      refine .bind ((records_round t _ (hd.reads e d.started)).mono ?_)
      rintro - d₁ ⟨i, hi, hkept₁, hroster₁⟩
      refine (ih hkept₁).mono ?_
      rintro - d₂ ⟨is, his, hkept₂, hroster₂⟩
      refine ⟨i.toList ++ is, ?_, hkept₂, ?_⟩
      · rw [bind_of_eq_some hi]
        exact bind_pure_of_eq his fun is => i.toList ++ is
      · rw [hroster₂, hroster₁, Roster.run, Roster.run, Roster.run, List.foldl_append]
        rfl

end Drafting

namespace Sheet

/-! ## Tracks -/

/-- A part is dropped if it is implicit and has no events. -/
def dropped (division : Nat) (p : Part) : Bool := p.implicit && (play p division 0).isEmpty

/-- The track of a part, where `i` tracks come before. -/
def track (division i : Nat) (p : Part) : Track :=
  ⟨p.name, i % 16, p.settings.instrument, p.settings.volume, play p division (i % 16)⟩

theorem arrangeParts_of_explicit (division n : Nat) {ps : List Part}
    (h : ∀ p ∈ ps, p.implicit = false) :
    (arrangeParts division n ps).1 = ps.mapIdx fun i => track division (n + i) := by
  induction ps generalizing n with
  | nil => rfl
  | cons p ps ih =>
    rw [List.forall_mem_cons] at h
    have hkept : (p.implicit && (play p division (n % channels)).isEmpty) ≠ true := by simp [h.1]
    rw [arrangeParts, if_neg hkept, List.mapIdx_cons]
    dsimp only
    rw [ih (n + 1) h.2]
    simp only [Nat.add_zero, Nat.add_comm, Nat.add_left_comm]
    rfl

/-- Only the first part can be dropped, so that the others number the tracks. -/
theorem arrangeParts_eq (division : Nat) {ps : List Part}
    (h : ∀ i p, ps[i]? = some p → p.implicit = true → i = 0) :
    (arrangeParts division 0 ps).1 =
      (ps.filter fun p => !dropped division p).mapIdx (track division) := by
  cases ps with
  | nil => rfl
  | cons p ps =>
    have hexplicit : ∀ q ∈ ps, q.implicit = false := by
      intro q hq
      obtain ⟨i, hi⟩ := List.getElem?_of_mem hq
      refine Bool.eq_false_iff.2 fun himplicit => ?_
      exact absurd (h (i + 1) q hi himplicit) (Nat.succ_ne_zero i)
    have hrest : (ps.filter fun q => !dropped division q) = ps :=
      List.filter_eq_self.2 fun q hq => by simp [dropped, hexplicit q hq]
    rw [arrangeParts, List.filter_cons, hrest]
    by_cases hdropped : dropped division p = true
    · rw [if_pos (by exact hdropped), if_neg (by simp [hdropped])]
      dsimp only
      rw [arrangeParts_of_explicit division 0 hexplicit]
      simp only [Nat.zero_add]
    · rw [if_neg (by exact hdropped), if_pos (by simp [hdropped]), List.mapIdx_cons]
      dsimp only
      rw [arrangeParts_of_explicit division 1 hexplicit]
      simp only [Nat.add_comm]
      rfl

/-- The parts of a sheet are those that its source asks for. -/
structure Booked (s : Sheet) (is : List Instruction) : Prop where
  /-- There is a part for each track in use, in the order of first use. -/
  names : s.parts.map (·.name) = (Instruction.used none is).eraseDups
  nodup : (s.parts.map (·.name)).Nodup
  voices : ∀ p ∈ s.parts, (p.voices.map (·.name)).Nodup
  /-- At most one part is implicit, and it is the first. -/
  implicit : ∀ i p, s.parts[i]? = some p → p.implicit = true → i = 0
  settings : ∀ p ∈ s.parts, p.settings = Instruction.settle {} (Instruction.owned p.name none is)
  /-- What is set before any track is in use goes to the first part only. -/
  pending : ∀ before rest, is = before ++ rest → Instruction.used none before = [] →
    ∀ i p, s.parts[i]? = some p → p.settings = Instruction.settle
      (if i = 0 then Instruction.settle {} (before.filterMap Instruction.adjustment?) else {})
      (Instruction.owned p.name none rest)

theorem booked_of_kept {d : Draft} (hd : d.Kept) {is : List Instruction}
    (hroster : d.roster = Roster.run {} is) : Booked ⟨d.header, d.parts⟩ is := by
  have hrun : d.roster.names = d.parts.map (·.name) := by
    rw [Roster.names, Draft.roster, List.map_map]
    rfl
  have hnodup : (d.parts.map (·.name)).Nodup := hrun ▸ hd.roster.nodup
  have hnames : d.parts.map (·.name) = (Instruction.used none is).eraseDups := by
    rw [← Roster.names_run_empty, ← hroster, hrun]
  have hsettings : ∀ p ∈ d.parts,
      p.settings = Instruction.settle {} (Instruction.owned p.name none is) := by
    intro p hp
    refine Roster.tracks_run_empty is (hroster ▸ ?_)
    exact List.mem_map_of_mem (f := fun p : Part => (p.name, p.settings)) hp
  refine ⟨hnames, hnodup, fun p hp => (hd.parts p hp).nodup, hd.implicit, hsettings, ?_⟩
  rintro before rest rfl hunused i p hp
  have hi : (d.parts.map (·.name))[i]? = some p.name := by
    rw [List.getElem?_map]
    exact congrArg _ hp
  rw [hsettings p (List.mem_of_getElem? hp)]
  exact Instruction.settle_owned_append rest hunused hnodup hnames hi

theorem booked_of_parse {fuel limit : Nat} {source : Source} {r : Result}
    (h : parse fuel source limit = some r) :
    ∃ is e, Reading.instructions fuel false (.ofSource source Directive.scopes limit) =
      some (is, e) ∧
      r.sheet.Booked is := by
  obtain ⟨⟨_, d⟩, hall, heq⟩ := Option.bind_eq_some_iff.1 h
  obtain rfl := Option.some.inj heq
  obtain ⟨is, his, hkept, hroster⟩ := Drafting.yields_all (Draft.kept_start _) _ _ hall
  exact ⟨is, d.input, his, booked_of_kept hkept hroster⟩

end Sheet

/-- **The parts of a sheet are those that its source asks for, and the tracks of the composition are
those of the parts.** Settings made before any track go to the first one. -/
theorem compile_booked {fuel : Nat} {o : Options} {text : String} {c : Compiled}
    (h : compile fuel o text = some c) :
    ∃ r is e, Sheet.parse fuel (.ofText o.alphabet text) o.limit = some r ∧
      Reading.instructions fuel false
        (.ofSource (.ofText o.alphabet text) Directive.scopes o.limit) = some (is, e) ∧
      r.sheet.Booked is ∧
      c.composition.tracks = (r.sheet.parts.filter fun p =>
        !Sheet.dropped r.sheet.header.division p).mapIdx (Sheet.track r.sheet.header.division) := by
  obtain ⟨r, hparse, heq⟩ := Option.bind_eq_some_iff.1 h
  obtain rfl := Option.some.inj heq
  obtain ⟨is, e, his, hbooked⟩ := Sheet.booked_of_parse hparse
  exact ⟨r, is, e, hparse, his, hbooked, Sheet.arrangeParts_eq _ hbooked.implicit⟩

/-- Settings before any track, a voice of a track that is not heard, and a track that is set within
its music. -/
def unheard : String :=
  "\\instrument\x7b5\x7d\\volume\x7b3\x7d\\v\x7bx\x7d\\track\x7ba\x7d1\\volume\x7b7\x7d"

/-- The first track takes the settings before it and is dropped, so that the other comes first. -/
theorem compile_booked_unheard : ∃ c r is e, compile 100 {} unheard = some c ∧
    c.composition.tracks.map (fun t => (t.name, t.channel, t.instrument, t.volume)) =
      [("a", 0, 0, 7)] ∧
    Sheet.parse 100 (.ofText .music unheard) Expander.defaultLimit = some r ∧
    r.sheet.parts.map (fun p => (p.name, p.settings.instrument, p.settings.volume)) =
      [("Track 1", 5, 3), ("a", 0, 7)] ∧
    Reading.instructions 100 false
      (.ofSource (.ofText .music unheard) Directive.scopes Expander.defaultLimit) = some (is, e) ∧
    is = [.setting { instrument := some 5 }, .setting { volume := some 3 }, .voice "x", .track "a",
      .music { volume := some 7 }] ∧
    r.sheet.Booked is ∧
    c.composition.tracks = (r.sheet.parts.filter fun p =>
      !Sheet.dropped r.sheet.header.division p).mapIdx (Sheet.track r.sheet.header.division) := by
  have hcompile : (compile 100 {} unheard).map (fun c => c.composition.tracks.map fun t =>
      (t.name, t.channel, t.instrument, t.volume)) = some [("a", 0, 0, 7)] := by
    decide +kernel
  have hparts : (Sheet.parse 100 (.ofText .music unheard) Expander.defaultLimit).map (fun r =>
      r.sheet.parts.map fun p => (p.name, p.settings.instrument, p.settings.volume)) =
        some [("Track 1", 5, 3), ("a", 0, 7)] := by
    decide +kernel
  have hinstructions : (Reading.instructions 100 false
      (.ofSource (.ofText .music unheard) Directive.scopes Expander.defaultLimit)).map (·.1) =
        some [.setting { instrument := some 5 }, .setting { volume := some 3 }, .voice "x",
          .track "a", .music { volume := some 7 }] := by
    decide +kernel
  obtain ⟨c, hc, htracks⟩ := Option.map_eq_some_iff.1 hcompile
  obtain ⟨r, is, e, hparse, his, hbooked⟩ := compile_booked hc
  change Sheet.parse 100 (.ofText .music unheard) Expander.defaultLimit = some r at hparse
  change Reading.instructions 100 false
    (.ofSource (.ofText .music unheard) Directive.scopes Expander.defaultLimit) =
      some (is, e) at his
  rw [hparse] at hparts
  rw [his] at hinstructions
  exact ⟨c, r, is, e, hc, htracks, hparse, Option.some.inj hparts, his,
    Option.some.inj hinstructions, hbooked⟩

end Jianpu
