import Jianpu.Proofs.Sheet.Beside
import Jianpu.Proofs.Sheet.Meaning
import Jianpu.Proofs.Sheet.Builds
import Jianpu.Sheet.Arrange

/-!
# The parts of a sheet could have been made by builders

The voices of a part are the first lines of a builder (`Part.MadeBy`), new music is made on the line
above them and put after the voice that it belongs to, and playing the part puts all voices beside
each other on that line. So what is known of strands that were made by a builder holds of every part
of every sheet that is read: `Sheet.made_of_parse`.
-/

namespace Jianpu

/-! ## Lines that are put together -/

namespace Builder

variable {b : Builder} {i j : Nat}

/-- The strand of line `j` was put after that of line `i`, which gave `slot`. -/
structure Appends (b b' : Builder) (i j : Nat) (slot : Option Slot) : Prop where
  move : b.move (.concat i j) = some b'
  concat : Strand.concat (b.line i).strand (b.line j).strand b.score =
    ((b'.line i).strand, slot, b'.score)
  plan : (b'.line i).plan =
    (b.line i).plan.seq (b.line j).plan (slot.map fun _ => b.slots.length)
  empty : b'.line j = {}
  others : ∀ k, k ≠ i → k ≠ j → b'.line k = b.line k
  slots : b'.slots = b.slots ++ slot.toList.map (⟨·, []⟩)
  placed : b'.placed = b.placed
  content? : ∀ n, b'.score.content? n = b.score.content? n

theorem exists_appends (b : Builder) (hij : i ≠ j) : ∃ b' slot, b.Appends b' i j slot := by
  obtain ⟨s, slot, g, hr⟩ : ∃ s slot g, Strand.concat (b.line i).strand (b.line j).strand b.score =
      (s, slot, g) := ⟨_, _, _, rfl⟩
  have hmove : b.move (.concat i j) = some { b with
      score := g
      line := Function.update (Function.update b.line i
        ⟨s, (b.line i).plan.seq (b.line j).plan (slot.map fun _ => b.slots.length)⟩) j {}
      slots := b.slots ++ slot.toList.map (⟨·, []⟩) } := by
    simp only [move, if_neg hij, hr]
  have hcontent := Strand.content?_concat (b.line i).strand (b.line j).strand b.score
  rw [hr] at hcontent
  refine ⟨_, slot, hmove, ?_, ?_, Function.update_self .., ?_, rfl, rfl, hcontent⟩
  · simp only [Function.update_of_ne hij, Function.update_self, hr]
  · simp only [Function.update_of_ne hij, Function.update_self]
  · intro k hi hj
    simp only [Function.update_of_ne hj, Function.update_of_ne hi]

theorem Appends.ready {b' : Builder} {slot : Option Slot} (h : b.Appends b' i j slot)
    (hb : b.Ready j) (hij : i < j) : b'.Ready j := by
  refine ⟨hb.sound.move _ h.move, fun k hk => ?_, fun n hn => ?_⟩
  · rw [h.others k (by omega) (Nat.ne_of_gt hk)]
    exact hb.clear k hk
  · rw [h.content?]
    exact hb.placed n (h.placed ▸ hn)

end Builder

/-! ## Parts -/

namespace Part

/-- The voices of a part are the first lines of a builder, and nothing is above them. -/
structure MadeBy (p : Part) (b : Builder) : Prop where
  run : ∃ ms, Builder.run {} ms = some b
  score : b.score = p.score
  ready : b.Ready p.voices.length
  empty : b.line p.voices.length = {}
  voices : ∀ (k : Nat) (v : Voice), p.voices[k]? = some v → (b.line k).strand = v.strand

/-- The part could have been made by a builder. -/
def Made (p : Part) : Prop := ∃ b, p.MadeBy b

theorem made_of_empty {p : Part} (hscore : p.score = {}) (hvoices : p.voices = []) : p.Made :=
  ⟨{}, ⟨[], rfl⟩, hscore.symm, Builder.ready_start _, rfl, by simp [hvoices]⟩

variable {p : Part} {b : Builder}

/-- A voice without music is added. -/
theorem MadeBy.addVoice (h : p.MadeBy b) {v : Voice} (hv : v.strand = none)
    (selected : Option Nat) : MadeBy { p with voices := p.voices ++ [v], selected } b where
  run := h.run
  score := h.score
  ready := h.ready.mono (by simp)
  empty := h.ready.clear _ (by simp)
  voices k w hw := by
    rcases Nat.lt_or_ge k p.voices.length with hlt | hge
    · rw [List.getElem?_append_left hlt] at hw
      exact h.voices k w hw
    · rw [List.getElem?_append_right hge, List.getElem?_singleton] at hw
      split at hw
      · obtain rfl := Option.some.inj hw
        obtain rfl : k = p.voices.length := by omega
        rw [h.empty, hv]
      · cases hw

theorem Made.selectVoice (h : p.Made) (name : String) (defaults : Ambient) :
    (p.selectVoice name defaults).2.Made := by
  obtain ⟨b, h⟩ := h
  unfold Part.selectVoice
  split
  · exact ⟨b, h.run, h.score, h.ready, h.empty, h.voices⟩
  · exact ⟨b, h.addVoice rfl _⟩

theorem Made.currentVoice (h : p.Made) (defaults : Ambient) :
    (p.currentVoice defaults).2.Made := by
  unfold Part.currentVoice
  split
  · exact h
  · exact h.selectVoice "1" defaults

theorem Made.withSettings (h : p.Made) (settings : Settings) : Made { p with settings } := by
  obtain ⟨b, h⟩ := h
  exact ⟨b, h.run, h.score, h.ready, h.empty, h.voices⟩

/-- Music that is made above the voices is put after one of them. -/
theorem MadeBy.addMusic (h : p.MadeBy b) {v : Nat} {voice : Voice} (hv : p.voices[v]? = some voice)
    {b₁ : Builder} (hext : b.Extends b₁ p.voices.length) (settings : Settings) (ambient : Ambient) :
    ∃ b' slot, b₁.Appends b' v p.voices.length slot ∧ MadeBy { p with
      score := b'.score
      settings
      voices := p.voices.set v { voice with strand := (b'.line v).strand, ambient } } b' := by
  obtain ⟨hlt, -⟩ := List.getElem?_eq_some_iff.1 hv
  obtain ⟨b', slot, happends⟩ := b₁.exists_appends (Nat.ne_of_lt hlt)
  refine ⟨b', slot, happends, ?_, rfl, ?_, ?_, fun k w hw => ?_⟩
  · obtain ⟨ms, hms⟩ := h.run
    obtain ⟨ms', hms'⟩ := hext.run
    refine ⟨ms ++ (ms' ++ [.concat v p.voices.length]), ?_⟩
    rw [Builder.run_append, hms, Option.bind_some, Builder.run_append, hms', Option.bind_some,
      Builder.run, happends.move]
    rfl
  · rw [List.length_set]
    exact happends.ready hext.ready hlt
  · rw [List.length_set]
    exact happends.empty
  · rw [List.getElem?_set] at hw
    split at hw
    · rename_i heq
      subst heq
      obtain rfl := Option.some.inj hw
      rfl
    · rename_i hne
      have hk : k < p.voices.length := (List.getElem?_eq_some_iff.1 hw).1
      rw [happends.others k (Ne.symm hne) (Nat.ne_of_lt hk), hext.lower k hk]
      exact h.voices k w hw

/-- What is put after a voice is what a concatenation makes of it. -/
theorem MadeBy.concat_eq (h : p.MadeBy b) {v : Nat} {voice : Voice}
    (hv : p.voices[v]? = some voice) {b₁ b' : Builder} (hext : b.Extends b₁ p.voices.length)
    {slot : Option Slot} (happends : b₁.Appends b' v p.voices.length slot) :
    Strand.concat voice.strand (b₁.line p.voices.length).strand b₁.score =
      ((b'.line v).strand, slot, b'.score) := by
  rw [← happends.concat, hext.lower v (List.getElem?_eq_some_iff.1 hv).1, h.voices v voice hv]

/-- All voices of a part beside each other. -/
def joined (p : Part) : Option Strand × Score :=
  p.voices.foldl (fun (s, g) v => Strand.branch s v.strand g) (none, p.score)

/-- What is said of the voices of a part by their places. -/
theorem map_range_voices {α : Type} {f : Nat → α} {g : Voice → α}
    (h : ∀ i v, p.voices[i]? = some v → f i = g v) :
    (List.range p.voices.length).map f = p.voices.map g := by
  apply List.ext_getElem
  · simp
  · intro i hi hi'
    have hlt : i < p.voices.length := by simpa using hi'
    simpa using h i _ (List.getElem?_eq_getElem hlt)

/-- The voices of a part are put beside each other on the line above them. -/
theorem MadeBy.exists_gathers (h : p.MadeBy b) :
    ∃ ms b', b.run ms = some b' ∧
      b.Gathers b' p.voices.length (List.range p.voices.length) ∧
      ((b'.line p.voices.length).strand, b'.score) = p.joined := by
  obtain ⟨ms, b', hrun, hgathers, hfold⟩ := h.ready.sound.exists_gathers h.empty
    (List.range p.voices.length) List.nodup_range (by simp)
  have hstrands : (List.range p.voices.length).map (fun j => (b.line j).strand) =
      p.voices.map (·.strand) := map_range_voices h.voices
  refine ⟨ms, b', hrun, hgathers, ?_⟩
  rw [hfold, hstrands, h.score, List.foldl_map]
  rfl

/-- The builder of a part, and the builder where its voices are beside each other. -/
theorem MadeBy.exists_nested (h : p.MadeBy b) :
    ∃ owners b' owners', b.Nested owners ∧ b'.Sound ∧ b'.Nested owners' ∧
      b.Gathers b' p.voices.length (List.range p.voices.length) ∧
      ((b'.line p.voices.length).strand, b'.score) = p.joined := by
  obtain ⟨ms, hms⟩ := h.run
  obtain ⟨ms', b', hrun, hgathers, hjoined⟩ := h.exists_gathers
  obtain ⟨owners, hnested⟩ := Builder.Nested.start.run ms hms
  obtain ⟨owners', hnested'⟩ := hnested.run ms' hrun
  exact ⟨owners, b', owners', hnested, h.ready.sound.run ms' hrun, hnested', hgathers, hjoined⟩

/-- All voices of a part, beside each other, could have been made by a builder. -/
theorem Made.exists_joined (h : p.Made) :
    ∃ ms b i, Builder.run {} ms = some b ∧ ((b.line i).strand, b.score) = p.joined := by
  obtain ⟨b, h⟩ := h
  obtain ⟨ms, hms⟩ := h.run
  obtain ⟨ms', b', hrun, -, hjoined⟩ := h.exists_gathers
  refine ⟨ms ++ ms', b', p.voices.length, ?_, hjoined⟩
  rw [Builder.run_append, hms]
  exact hrun

end Part

/-! ## Drafts -/

/-- Every part of a draft could have been made by a builder. -/
def Draft.Made (d : Draft) : Prop := ∀ p ∈ d.parts, p.Made

theorem Draft.Made.set {d : Draft} (h : d.Made) (i : Nat) {p : Part} (hp : p.Made) :
    ∀ p' ∈ d.parts.set i p, p'.Made := by
  intro p' hmem
  rcases List.mem_or_eq_of_mem_set hmem with hmem | rfl
  · exact h p' hmem
  · exact hp

namespace Drafting

/-- A step after which every part could have been made by a builder, if it was so before. -/
def Keeps {α : Type} (m : Drafting α) : Prop := ∀ d : Draft, d.Made → Yields m d fun _ d' => d'.Made

namespace Keeps

variable {α β : Type} {m : Drafting α} {f : α → Drafting β}

theorem bind (h : Keeps m) (hf : ∀ a, Keeps (f a)) : Keeps (m >>= f) := fun d hd =>
  .bind ((h d hd).mono fun a d' hd' => hf a d' hd')

theorem pure (a : α) : Keeps (pure a) := fun _ hd => .of_pure hd

theorem get : Keeps (MonadState.get : Drafting Draft) := fun _ hd => .of_get hd

theorem modify {g : Draft → Draft} (h : ∀ d, (g d).parts = d.parts) :
    Keeps (modify g : Drafting Unit) := fun d hd =>
  .of_modify fun p hp => hd p (h d ▸ hp)

theorem read (m : Reading α) : Keeps (read m) := fun _ hd => yields_read fun _ _ _ => hd

theorem failure : Keeps (failure : Drafting α) := fun _ _ => .of_failure

end Keeps

theorem keeps_addPart (name : String) (implicit : Bool) : Keeps (addPart name implicit) := by
  intro d hd
  refine .of_eq rfl fun p hp => ?_
  rcases List.mem_append.1 hp with hp | hp
  · exact hd p hp
  · obtain rfl := List.mem_singleton.1 hp
    exact Part.made_of_empty rfl rfl

theorem keeps_currentPart : Keeps currentPart := by
  unfold currentPart
  refine .bind .get fun d => ?_
  split
  · exact .pure _
  · exact .bind (keeps_addPart _ _) fun i => .bind (.modify fun _ => rfl) fun _ => .pure i

theorem keeps_selectTrack : Keeps selectTrack := by
  unfold selectTrack
  refine .bind (.modify fun _ => rfl) fun _ => .bind (.read _) fun a => ?_
  split
  · refine .bind .get fun d => ?_
    dsimp only
    split
    · exact .bind (.pure _) fun i => .modify fun _ => rfl
    · exact .bind (keeps_addPart _ _) fun i => .modify fun _ => rfl
  · exact .pure _

theorem keeps_selectVoice : Keeps selectVoice := by
  unfold selectVoice
  refine .bind (.modify fun _ => rfl) fun _ => .bind (.read _) fun a => ?_
  split
  · refine .bind keeps_currentPart fun i d hd => .of_modify fun p hp => ?_
    obtain ⟨k, hk, rfl⟩ := List.mem_iff_getElem.1 hp
    rw [List.getElem_modify]
    rw [List.length_modify] at hk
    have hmade := hd _ (List.getElem_mem hk)
    split
    · exact hmade.selectVoice ..
    · exact hmade
  · exact .pure _

theorem keeps_music (fuel : Nat) : Keeps (music fuel) := by
  unfold music
  refine .bind (.modify fun _ => rfl) fun _ => .bind keeps_currentPart fun i d hd => ?_
  refine .bind (.of_get ?_)
  split
  · rename_i part hpart
    have hmade := (hd part (List.mem_of_getElem? hpart)).currentVoice d.defaults
    generalize part.currentVoice d.defaults = r at hmade
    obtain ⟨v, p⟩ := r
    obtain ⟨b, hb⟩ := hmade
    dsimp only
    split
    · rename_i voice hvoice
      refine .bind fun r d' heq => ?_
      obtain ⟨⟨⟨s, ambient⟩, body⟩, hseq, heq⟩ := Option.bind_eq_some_iff.1 heq
      obtain ⟨rfl, rfl⟩ := Prod.mk.inj (Option.some.inj heq)
      -- the music is made on the line above the voices, where nothing is yet
      have hbuilds := (Writing.builds fuel).sequence none voice.ambient hb.ready (by rw [hb.empty])
        hb.score _ _ hseq
      obtain ⟨b₁, hext, rfl, hscore⟩ := hbuilds
      obtain ⟨b', slot, happends, hmade⟩ := hb.addMusic hvoice hext body.settings ambient
      refine .of_eq rfl (hd.set i ?_)
      dsimp only
      rw [← hscore, hb.concat_eq hvoice hext happends]
      exact ⟨b', hmade⟩
    · exact .of_pure hd
  · exact .of_pure hd

theorem keeps_setting (fuel : Nat) (x : Directive) : Keeps (setting fuel x) := by
  intro d hd
  unfold setting
  refine .bind (.of_get ?_)
  split
  · rename_i i part hpart
    have hmem : part ∈ d.parts := by
      obtain ⟨j, -, hj⟩ := Option.bind_eq_some_iff.1 hpart
      obtain ⟨p, hp, heq⟩ := Option.map_eq_some_iff.1 hj
      obtain ⟨rfl, rfl⟩ := Prod.mk.inj heq
      exact List.mem_of_getElem? hp
    have hpart := hd part hmem
    refine .bind ((Keeps.read _ d hd).mono fun settings d' hd' => .of_modify ?_)
    exact hd'.set i (hpart.withSettings settings)
  · exact .bind ((Keeps.read _ d hd).mono fun pending d' hd' => .of_modify hd')

theorem keeps_heading (fuel : Nat) (x : Directive) : Keeps (heading fuel x) := by
  unfold heading
  cases x with
  | tempo | bpm | major | minor | times | div | vel | octave =>
    refine .bind (.read _) fun r => ?_
    split
    · exact .modify fun _ => rfl
    · exact .pure _
  | track | voice | instrument | volume => exact .pure _

theorem keeps_all (fuel : Nat) : Keeps (all fuel) := by
  induction fuel with
  | zero => exact .failure
  | succ fuel ih =>
    rw [all]
    refine .bind (.read _) fun t => ?_
    split
    · exact .pure _
    · split
      · exact .bind (.read _) fun _ => ih
      · split
        · exact .bind (.read _) fun _ => .bind (.read _) fun _ => ih
        · refine .bind .get fun d => ?_
          dsimp only
          split
          · exact .bind (.read _) fun _ => .bind keeps_selectTrack fun _ => ih
          · exact .bind (.read _) fun _ => .bind keeps_selectVoice fun _ => ih
          · exact .bind (.read _) fun _ => .bind (keeps_setting _ _) fun _ => ih
          · exact .bind (.read _) fun _ => .bind (keeps_setting _ _) fun _ => ih
          · split
            · exact .bind (keeps_music _) fun _ => ih
            · exact .bind (.read _) fun _ => .bind (keeps_heading _ _) fun _ => ih
          · exact .bind (keeps_music _) fun _ => ih

end Drafting

namespace Sheet

/-- Every part of a sheet that is read could have been made by a builder. -/
theorem made_of_parse {fuel limit : Nat} {source : Source} {r : Result}
    (h : parse fuel source limit = some r) : ∀ p ∈ r.sheet.parts, p.Made := by
  obtain ⟨⟨_, d⟩, hall, heq⟩ := Option.bind_eq_some_iff.1 h
  obtain rfl := Option.some.inj heq
  exact Drafting.keeps_all fuel _ (by simp [Draft.Made]) _ _ hall

end Sheet

end Jianpu
