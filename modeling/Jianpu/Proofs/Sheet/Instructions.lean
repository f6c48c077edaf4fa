import Jianpu.Proofs.Sheet.Roster
import Jianpu.Proofs.Sheet.Steps
import Jianpu.Sheet.Parse

/-!
# What a source says about its tracks

`Reading.instructions` reads a source for what it says about its tracks, and makes nothing of it.
What music sets is told by the settings that come out when it is read into an empty score. It is the
same wherever the music goes: what is left of the source and what is set do not depend on the
strand, on what is ambient, on the score or on the settings before (`Writing.sequence_adjusts`).
-/

namespace Jianpu

open Macro (Expander)

/-- What was set, where settings that differ in all became these two. -/
def Adjustment.ofPair (s s' : Settings) : Adjustment where
  instrument := if s.instrument = s'.instrument then some s.instrument else none
  volume := if s.volume = s'.volume then some s.volume else none

theorem Adjustment.ofPair_apply (a : Adjustment) :
    ofPair (a.apply ⟨0, 0⟩) (a.apply ⟨1, 1⟩) = a := by
  obtain ⟨instrument, volume⟩ := a
  cases instrument <;> cases volume <;> simp [ofPair, apply]

namespace Reading

/-- What a directive sets. -/
def adjustment (fuel : Nat) (x : Directive) : Reading Adjustment := do
  match x with
  | .instrument => return { instrument := ← instrument fuel }
  | .volume => return { volume := ← sevenBits fuel .volumeTooLarge }
  | _ => return {}

/-- What the music that stands here sets. -/
def music (fuel : Nat) : Reading Adjustment := fun e => do
  let (_, b) ← Writing.sequence fuel none {} ⟨e, {}, ⟨0, 0⟩⟩
  let (_, b') ← Writing.sequence fuel none {} ⟨e, {}, ⟨1, 1⟩⟩
  return (.ofPair b.settings b'.settings, b.input)

/-- Reads a directive before the music. -/
def heading (fuel : Nat) (x : Directive) : Reading Unit := fun e =>
  (Drafting.heading fuel x { input := e }).map fun r => (r.1, r.2.input)

/-- What a source says next about its tracks, if anything, where `t` comes next and `started` says
whether music was met. -/
def instruction (fuel : Nat) (started : Bool) (t : Token) :
    Reading (Option Instruction × Bool) := do
  if t.kind = .closing then
    let _ ← next fuel
    return (none, started)
  else if t.isSeparator then
    let _ ← next fuel
    report (.unexpectedSeparator t.text) t.span
    return (none, started)
  else
    match (← get).directive? t with
    | some .track =>
      let _ ← next fuel
      let a ← argumentRaw
      return (a.map (.track ·.text), true)
    | some .voice =>
      let _ ← next fuel
      let a ← argumentRaw
      return (a.map (.voice ·.text), true)
    | some .instrument =>
      let _ ← next fuel
      return (some (.setting (← adjustment fuel .instrument)), started)
    | some .volume =>
      let _ ← next fuel
      return (some (.setting (← adjustment fuel .volume)), started)
    | some x =>
      if started then return (some (.music (← music fuel)), true)
      else
        let _ ← next fuel
        heading fuel x
        return (none, started)
    | none => return (some (.music (← music fuel)), true)

/-- What a source says about its tracks from here on. -/
def instructions : Nat → Bool → Reading (List Instruction)
  | 0, _ => failure
  | fuel + 1, started => do
    let t ← peek fuel
    if t.isEof then return []
    else
      let (i, started) ← instruction fuel started t
      let is ← instructions fuel started
      return i.toList ++ is

end Reading

/-! ## What music sets -/

namespace Writing

variable {α : Type} {fuel : Nat}

/-- What a step leaves of the source, and what it makes of the settings. -/
def outcome (m : Writing α) (b : Body) : Option (Expander Directive × Settings) :=
  (m b).map fun r => (r.2.input, r.2.settings)

/-- A setting is an adjustment of what is set. -/
theorem setting_eq (fuel : Nat) (x : Directive) (s : Settings) (e : Expander Directive) :
    setting fuel x s e = (Reading.adjustment fuel x e).map fun r => (r.1.apply s, r.2) := by
  cases x with
  | instrument =>
    unfold setting Reading.adjustment
    change (Reading.instrument fuel e).bind _ = ((Reading.instrument fuel e).bind _).map _
    rcases Reading.instrument fuel e with _ | ⟨_ | n, e'⟩ <;> rfl
  | volume =>
    unfold setting Reading.adjustment
    change (Reading.sevenBits fuel .volumeTooLarge e).bind _ =
      ((Reading.sevenBits fuel .volumeTooLarge e).bind _).map _
    rcases Reading.sevenBits fuel .volumeTooLarge e with _ | ⟨_ | n, e'⟩ <;> rfl
  | _ => rfl

/-- Readings of one source that started with the settings `start` have made the same of these. -/
def Settled {ι : Type} (start : ι → Settings) (b : ι → Body) : Prop :=
  ∃ (e : Expander Directive) (a : Adjustment), ∀ i, (b i).input = e ∧
    (b i).settings = a.apply (start i)

section

variable {ι : Type} {start : ι → Settings}

/-- What is read from the source is the same for all. -/
theorem settled_read (q : Reading α) :
    Jointly (Settled start) (fun _ => read q) fun x => ∃ y, x = fun _ => y := by
  refine .of_eq_map (α × Expander Directive) ?_
  rintro b ⟨e, a, hb⟩
  refine ⟨q e, fun i r => (r.1, { b i with input := r.2 }), fun i => ?_, fun r => ⟨?_, r.1, rfl⟩⟩
  · rw [read, (hb i).1]
  · exact ⟨r.2, a, fun i => ⟨rfl, (hb i).2⟩⟩

theorem settled_write (f : ι → Score → α × Score) :
    Jointly (Settled start) (fun i => write (f i)) fun _ => True := by
  rintro b ⟨e, a, hb⟩
  exact .inr ⟨fun i => ((f i (b i).score).1, { b i with score := (f i (b i).score).2 }),
    fun _ => rfl, ⟨e, a, hb⟩, trivial⟩

theorem settled_insert (slot : ι → Option Slot) (kind : Modifier.Kind) (span : Span) :
    Jointly (Settled start) (fun i => insert (slot i) kind span) fun _ => True := by
  have hinsert : ∀ slot : Option Slot, ∃ f, insert slot kind span = write f := by
    intro slot
    cases slot with
    | none => exact ⟨fun g => (none, g), rfl⟩
    | some slot =>
      unfold insert
      exact ⟨_, rfl⟩
  choose f hf using hinsert
  simp only [hf]
  exact settled_write _

/-- What is reported of a note does not depend on what is ambient. -/
theorem exists_content (t : Token) (e : Expander Directive) :
    ∃ e', ∀ a, ∃ c, content t a e = some (c, e') := by
  unfold content
  cases t.single?.filter Char.isDigit with
  | none => exact ⟨_, fun a => ⟨_, rfl⟩⟩
  | some c =>
    dsimp only
    by_cases hrest : c.toNat - '0'.toNat = 0
    · simp only [if_pos hrest]
      exact ⟨_, fun a => ⟨_, rfl⟩⟩
    · by_cases hnote : c.toNat - '0'.toNat ≤ 7
      · simp only [if_neg hrest, if_pos hnote]
        exact ⟨_, fun a => ⟨_, rfl⟩⟩
      · simp only [if_neg hrest, if_neg hnote]
        exact ⟨_, fun a => ⟨_, rfl⟩⟩

theorem settled_content (t : Token) (ambient : ι → Ambient) :
    Jointly (Settled start) (fun i => read (content t (ambient i))) fun _ => True := by
  refine .of_eq_map Unit ?_
  rintro b ⟨e, a, hb⟩
  obtain ⟨e', he'⟩ := exists_content t e
  choose c hc using he'
  refine ⟨some (), fun i _ => (c (ambient i), { b i with input := e' }), fun i => ?_, fun _ =>
    ⟨⟨e', a, fun i => ⟨rfl, (hb i).2⟩⟩, trivial⟩⟩
  rw [read, (hb i).1, hc]
  rfl

/-- A setting in the music is the only step that sets. -/
theorem settled_setting (fuel : Nat) (d : Directive) (ambient : ι → Ambient)
    {m : ι → Writing (Option Content × Ambient)}
    (hm : ∀ i b, m i b = (setting fuel d b.settings b.input).map fun r =>
      ((none, ambient i), { b with input := r.2, settings := r.1 })) :
    Jointly (Settled start) m fun r => ∃ (c : Option Content) (a' : ι → Ambient),
      r = fun i => (c, a' i) := by
  refine .of_eq_map (Adjustment × Expander Directive) ?_
  rintro b ⟨e, a, hb⟩
  refine ⟨Reading.adjustment fuel d e, fun i r =>
    ((none, ambient i), { b i with input := r.2, settings := r.1.apply (b i).settings }),
    fun i => ?_, fun r => ⟨⟨r.2, a.andThen r.1, fun i => ⟨rfl, ?_⟩⟩, none, ambient, rfl⟩⟩
  · rw [hm, (hb i).1, setting_eq, Option.map_map]
    rfl
  · rw [Adjustment.apply_andThen, ← (hb i).2]

/-- The node that a directive puts there does not depend on what is ambient. -/
theorem settled_directive (d : Directive) (t : Token) (ambient : ι → Ambient) :
    Jointly (Settled start) (fun i => directive fuel d t (ambient i)) fun r =>
      ∃ (c : Option Content) (a' : ι → Ambient), r = fun i => (c, a' i) := by
  cases d with
  | tempo | bpm | times | div =>
    simp only [directive]
    refine .bind (settled_read _) ?_
    rintro _ ⟨x, rfl⟩
    exact .pure ⟨_, ambient, rfl⟩
  | major | minor | vel | octave =>
    simp only [directive]
    refine .bind (settled_read _) ?_
    rintro _ ⟨x, rfl⟩
    cases x with
    | none => exact .pure ⟨_, ambient, rfl⟩
    | some x => exact .pure ⟨_, fun _ => _, rfl⟩
  | instrument =>
    refine settled_setting fuel .instrument ambient fun i b => ?_
    change ((setting fuel .instrument b.settings b.input).map _).bind _ = _
    cases setting fuel .instrument b.settings b.input <;> rfl
  | volume =>
    refine settled_setting fuel .volume ambient fun i b => ?_
    change ((setting fuel .volume b.settings b.input).map _).bind _ = _
    cases setting fuel .volume b.settings b.input <;> rfl
  | track | voice => exact .pure ⟨none, ambient, rfl⟩

/-- Each step of reading music sets the same, whatever the strand, what is ambient and the score. -/
def settledWalk (start : ι → Settings) : Walk ι where
  body := Settled start
  ambient _ := True
  content _ := True
  token _ := True
  input hb := hb.imp fun _ hb => hb.elim fun _ hb i => (hb i).1
  peek _ := (settled_read _).mono fun _ ht => ht.imp fun _ ht => ⟨trivial, ht⟩
  next _ := (settled_read _).mono fun _ ht => ht.imp fun _ ht => ⟨trivial, ht⟩
  unclosed _ := (settled_read _).mono fun _ _ => trivial
  modifier? _ := settled_read _
  note _ _ := settled_content _ _
  directive _ d t ambient _ _ := (settled_directive d t ambient).mono fun _ hr =>
    hr.imp fun _ hr => hr.imp fun _ hr => ⟨hr, fun _ _ => trivial, trivial⟩
  append _ _ _ _ := settled_write _
  concat _ _ := settled_write _
  branch _ _ := settled_write _
  insert := settled_insert

end

/-- What is left of a source and what is set is the same for all readings of music. -/
theorem exists_outcome (fuel : Nat) (e : Expander Directive) :
    ∃ n : Option (Adjustment × Expander Directive), ∀ strand ambient g s,
      outcome (sequence fuel strand ambient) ⟨e, g, s⟩ = n.map fun r => (r.2, r.1.apply s) := by
  -- all readings side by side, one for each strand, ambient, score and settings
  let ι := Option Strand × Ambient × Score × Settings
  have hjoint := (settledWalk fun i : ι => i.2.2.2).sequence fuel (fun i => i.1)
    (a := fun i => i.2.1) trivial (fun i => ⟨e, i.2.2.1, i.2.2.2⟩) ⟨e, {}, fun _ => ⟨rfl, rfl⟩⟩
  rcases hjoint with hnone | ⟨r, hr, ⟨e', a, hr'⟩, -⟩
  · refine ⟨none, fun strand ambient g s => ?_⟩
    have hnone : sequence fuel strand ambient ⟨e, g, s⟩ = none := hnone (strand, ambient, g, s)
    rw [outcome, hnone]
    rfl
  · refine ⟨some (a, e'), fun strand ambient g s => ?_⟩
    have hsome : sequence fuel strand ambient ⟨e, g, s⟩ = some (r (strand, ambient, g, s)) :=
      hr (strand, ambient, g, s)
    obtain ⟨hinput, hsettings⟩ := hr' (strand, ambient, g, s)
    rw [outcome, hsome]
    exact congrArg some (Prod.ext hinput hsettings)

/-- **What music leaves of the source and what it sets is told by reading it into an empty
score.** -/
theorem sequence_adjusts (fuel : Nat) (e : Expander Directive) (strand : Option Strand)
    (a : Ambient) (g : Score) (s : Settings) :
    outcome (sequence fuel strand a) ⟨e, g, s⟩ =
      (Reading.music fuel e).map fun r => (r.2, r.1.apply s) := by
  obtain ⟨n, hn⟩ := exists_outcome fuel e
  have hsample : ∀ s, outcome (sequence fuel none {}) ⟨e, {}, s⟩ =
      n.map fun r => (r.2, r.1.apply s) := hn none {} {}
  have hmusic : Reading.music fuel e = n := by
    cases n with
    | none =>
      have hnone : sequence fuel none {} ⟨e, {}, ⟨0, 0⟩⟩ = none :=
        Option.map_eq_none_iff.1 (hsample _)
      rw [Reading.music, hnone]
      rfl
    | some r =>
      obtain ⟨r₀, h₀, heq₀⟩ := Option.map_eq_some_iff.1 (hsample ⟨0, 0⟩)
      obtain ⟨r₁, h₁, heq₁⟩ := Option.map_eq_some_iff.1 (hsample ⟨1, 1⟩)
      obtain ⟨hinput, hsettings₀⟩ := Prod.mk.inj heq₀
      obtain ⟨-, hsettings₁⟩ := Prod.mk.inj heq₁
      rw [Reading.music, h₀]
      change (sequence fuel none {} ⟨e, {}, ⟨1, 1⟩⟩).bind _ = _
      rw [h₁]
      change some (Adjustment.ofPair r₀.2.settings r₁.2.settings, r₀.2.input) = some r
      rw [hsettings₀, hsettings₁, Adjustment.ofPair_apply, hinput]
  rw [hmusic]
  exact hn strand a g s

end Writing

end Jianpu
