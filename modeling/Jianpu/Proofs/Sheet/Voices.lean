import Jianpu.Proofs.Schedule.Alike
import Jianpu.Proofs.Sheet.Parts

/-!
# Voices do not disturb each other

A queue for all voices of a part gives out the events of each voice as a queue for that voice alone
does: the same events at the same ticks, in the same order. What the voices give out alone, taken
together, is what they give out beside each other: `Sheet.voices_apart`.
-/

namespace Jianpu

/-- A list is made of what belongs to each of its owners. -/
theorem perm_flatMap_filter {α : Type} (owner : α → Nat) {l : List α} {is : List Nat}
    (hnodup : is.Nodup) (h : ∀ x ∈ l, owner x ∈ is) :
    l.Perm (is.flatMap fun i => l.filter (owner · = i)) := by
  induction is generalizing l with
  | nil =>
    have hnil : l = [] := List.eq_nil_iff_forall_not_mem.2 fun x hx => by simpa using h x hx
    rw [hnil]
    exact .nil
  | cons i is ih =>
    obtain ⟨hi, hnodup⟩ := List.nodup_cons.1 hnodup
    have hothers := ih (l := l.filter fun x => !decide (owner x = i)) hnodup fun x hx => by
      obtain ⟨hx, hne⟩ := List.mem_filter.1 hx
      exact (List.mem_cons.1 (h x hx)).resolve_left (by simpa using hne)
    have hfilter : ∀ j ∈ is, (l.filter fun x => !decide (owner x = i)).filter (owner · = j) =
        l.filter (owner · = j) := by
      intro j hj
      rw [List.filter_filter]
      refine List.filter_congr fun x _ => ?_
      have hne : j ≠ i := fun heq => hi (heq ▸ hj)
      simp only [Bool.and_eq_left_iff_imp]
      simpa using fun heq : owner x = j => heq ▸ hne
    rw [List.flatMap_cons, ← List.flatMap_congr hfilter]
    exact (List.filter_append_perm _ l).symm.trans (hothers.append_left _)

namespace Builder

variable {b b' : Builder} {i n : Nat} {js : List Nat} {s : Strand}

/-- The nodes that can be reached from the head of a line are on it. -/
theorem Sound.mem_of_reachable (h : b.Sound) (hs : (b.line i).strand = some s) {m : Nat}
    (hm : Relation.ReflTransGen b.score.Link s.head m) : m ∈ (b.line i).nodes := by
  induction hm with
  | refl => exact (h.woven hs).head_mem
  | tail _ hlink ih => exact ((h.woven hs).forward _ ih _ hlink).1

/-- Each node has its line, and what the strands give out beside each other divides by lines into
what each gives out alone. -/
theorem Gathers.exists_owner {h h' : Ownership} (hg : b.Gathers b' n js) (hb : b.Sound)
    (hb' : b'.Sound) (hh : b.Nested h) (hh' : b'.Nested h') (division channel : Nat) :
    let all := Queue.performance b'.score ((b'.line n).strand.map (·.head)) division channel
    ∃ owner : Nat → Nat, (∀ i, ∀ m ∈ (b.line i).nodes, owner m = i) ∧
      (∀ x ∈ all, owner x.1 ∈ js) ∧
      ∀ i ∈ js, all.filter (fun x => owner x.1 = i) =
        Queue.performance b.score ((b.line i).strand.map (·.head)) division channel := by
  intro all
  obtain ⟨owner, howner⟩ := hb.exists_owner
  obtain ⟨start, htiming⟩ := hb'.exists_timing n division
  have hline : ∀ x ∈ all, ∃ j ∈ js, x.1 ∈ (b.line j).nodes := fun x hx =>
    hg.exists_mem ((hb'.performs htiming channel).mem_of_mem_performance hx)
  refine ⟨owner, howner, fun x hx => ?_, fun i hi => ?_⟩
  · obtain ⟨j, hj, hmem⟩ := hline x hx
    rwa [howner j x.1 hmem]
  · rw [← hg.filter_performance hb hb' hh hh' hi]
    refine List.filter_congr fun x hx => ?_
    obtain ⟨j, -, hmem⟩ := hline x hx
    rw [decide_eq_decide]
    constructor
    · intro heq
      rwa [← heq, howner j x.1 hmem]
    · exact howner i x.1

end Builder

namespace Part

/-- What a queue for all voices of a part gives out, each event after the node that brought it. -/
def together (p : Part) (division channel : Nat) : List (Nat × Nat × Event) :=
  Queue.performance p.joined.2 (p.joined.1.map (·.head)) division channel

/-- What a queue for one voice of a part gives out. -/
def alone (p : Part) (v : Voice) (division channel : Nat) : List (Nat × Nat × Event) :=
  Queue.performance p.score (v.strand.map (·.head)) division channel

/-- The voices of a part do not disturb each other. -/
structure Apart (p : Part) (division channel : Nat) : Prop where
  together : (Queue.ofScore p.joined.2 (p.joined.1.map (·.head)) division channel).GivesOut
    (p.together division channel)
  alone : ∀ v ∈ p.voices, (Queue.ofScore p.score (v.strand.map (·.head)) division channel).GivesOut
    (p.alone v division channel)
  /-- Together they give out what they give out alone, at the same ticks. -/
  perm : ((p.together division channel).map (·.2)).Perm
    (p.voices.flatMap fun v => (p.alone v division channel).map (·.2))
  /-- Every node that can be reached from the head of a voice is of this voice. What the nodes of a
  voice bring comes in the order in which it comes alone. -/
  order : ∃ owner : Nat → Nat,
    (∀ i v s, p.voices[i]? = some v → v.strand = some s →
      ∀ n, Relation.ReflTransGen p.score.Link s.head n → owner n = i) ∧
    ∀ i v, p.voices[i]? = some v →
      (p.together division channel).filter (fun x => owner x.1 = i) = p.alone v division channel

end Part

namespace Sheet

/-- **Every voice of a part is played beside the others as it is played alone.** -/
theorem voices_apart {fuel limit : Nat} {source : Source} {r : Result}
    (h : parse fuel source limit = some r) {p : Part} (hp : p ∈ r.sheet.parts)
    (division channel : Nat) : p.Apart division channel := by
  obtain ⟨b, hmade⟩ := made_of_parse h p hp
  have hsound := hmade.ready.sound
  obtain ⟨owners, b', owners', hnested, hsound', hnested', hgathers, hjoined⟩ :=
    hmade.exists_nested
  obtain ⟨owner, howner, hall, hfilter⟩ :=
    hgathers.exists_owner hsound hsound' hnested hnested' division channel
  have htogether : p.together division channel = Queue.performance b'.score
      ((b'.line p.voices.length).strand.map (·.head)) division channel := by
    rw [Part.together, ← hjoined]
  have halone : ∀ i v, p.voices[i]? = some v → p.alone v division channel =
      Queue.performance b.score ((b.line i).strand.map (·.head)) division channel := by
    intro i v hv
    rw [Part.alone, hmade.voices i v hv, hmade.score]
  rw [← htogether] at hall hfilter
  refine ⟨?_, ?_, ?_, owner, ?_, ?_⟩
  · rw [htogether, ← hjoined]
    exact hsound'.givesOut_performance _ division channel
  · intro v hv
    obtain ⟨i, hi⟩ := List.mem_iff_getElem?.1 hv
    rw [halone i v hi, ← hmade.voices i v hi, ← hmade.score]
    exact hsound.givesOut_performance i division channel
  · have hperm := perm_flatMap_filter (fun x : Nat × Nat × Event => owner x.1) List.nodup_range hall
    have hlines : (List.range p.voices.length).map (fun i =>
        Queue.performance b.score ((b.line i).strand.map (·.head)) division channel) =
        p.voices.map (p.alone · division channel) :=
      Part.map_range_voices fun i v hv => (halone i v hv).symm
    rw [List.flatMap_congr hfilter, List.flatMap_def, hlines, ← List.flatMap_def] at hperm
    rw [← List.map_flatMap]
    exact hperm.map _
  · intro i v s hv hs m hm
    rw [← hmade.voices i v hv] at hs
    rw [← hmade.score] at hm
    exact howner i m (hsound.mem_of_reachable hs hm)
  · intro i v hv
    have hi : i ∈ List.range p.voices.length := by simpa using (List.getElem?_eq_some_iff.1 hv).1
    rw [hfilter i hi, halone i v hv]

/-- Two voices with branches, marks and rests, one of which comes back. -/
def duet : String := "\\v\x7ba\x7d\x7b1|2-\x7d3_\\v\x7bb\x7d0\x7b4,5\x7d\\v\x7ba\x7d6"

theorem voices_apart_duet : ∃ r, parse 100 (.ofText .music duet) 100 = some r ∧
    r.diagnostics = [] ∧ ∃ p ∈ r.sheet.parts, p.Apart 480 0 ∧
      (p.voices.map fun v =>
        (Queue.ofScore p.score (v.strand.map (·.head)) 480 0).emitted.length) = [8, 4] := by
  have hparse : (parse 100 (.ofText .music duet) 100).any (fun r => r.diagnostics = [] ∧
      ∃ p ∈ r.sheet.parts, (p.voices.map fun v =>
        (Queue.ofScore p.score (v.strand.map (·.head)) 480 0).emitted.length) = [8, 4]) = true := by
    decide +kernel
  obtain ⟨r, hr, hfacts⟩ := (Option.any_eq_true _ _).1 hparse
  obtain ⟨hdiagnostics, p, hp, hlengths⟩ := of_decide_eq_true hfacts
  exact ⟨r, hr, hdiagnostics, p, hp, voices_apart hr hp 480 0, hlengths⟩

end Sheet

end Jianpu
