import Jianpu.Proofs.Schedule.Alike

/-!
# The notes that a queue gives out

`Timeline.notes` is what is left of the events when all but the starts and ends of notes are left
out. The notes of a strand depend on its pattern, and nodes that take no time are nothing to them:
`Shape.Gives` says that a strand of some pattern gives notes out, and `Shape.Gives.erase` that it
gives out the same notes at the same ticks, in the same order, when such nodes are erased.
-/

namespace Jianpu

/-- The starts and ends of notes. -/
def Timeline.notes (l : Timeline) : Timeline := l.filter fun x => x.2.note?.isSome

theorem Timeline.notes_sort (l : Timeline) : l.sort.notes = l.notes.sort :=
  filter_mergeSort (by simp; omega) (by simp; omega) _ l

theorem Timeline.notes_append (l l' : Timeline) : notes (l ++ l') = notes l ++ notes l' :=
  List.filter_append ..

/-- A note stands at the node. -/
def ModifiedContent.isNote : ModifiedContent → Bool
  | (some (.note _ _), _) => true
  | _ => false

namespace Score

variable {g : Score} {keep : Option Content → Bool} {n : Nat}

/-- A node that takes no time brings no note. -/
theorem notes_soundsOf_of_not_keep (hmeta : ∀ c, keep (some c) = false → c.isMeta = true)
    (h : keep (g.content? n) = false) (division channel t : Nat) :
    Timeline.notes (g.soundsOf division channel n t) = [] := by
  unfold soundsOf
  cases hx : g.nodes[n]? with
  | none => rfl
  | some x =>
    rw [content?, hx] at h
    have hcontent := hmeta x.content h
    cases hc : x.content with
    | note | rest => simp [hc, Content.isMeta] at hcontent
    | tempo | key | time => simp only [hc]; rfl

theorem length_notes_soundsOf (g : Score) (division channel n t : Nat) :
    (Timeline.notes (g.soundsOf division channel n t)).length = 2 * (g.isNote n).toNat := by
  unfold soundsOf isNote
  cases g.nodes[n]? with
  | none => rfl
  | some x => cases hc : x.content <;> simp only [Option.any_some, hc] <;> rfl

theorem isNote_eq (g : Score) (n : Nat) (ks : List Modifier.Kind) :
    g.isNote n = ModifiedContent.isNote (g.content? n, ks) := by
  unfold isNote content?
  cases g.nodes[n]? with
  | none => rfl
  | some x => cases hc : x.content <;> simp [hc, ModifiedContent.isNote]

end Score

namespace Visit

theorem notes_filter {p : Visit → Bool} {l : List Visit}
    (h : ∀ v ∈ l, p v = false → Timeline.notes v.events = []) :
    Timeline.notes ((l.filter p).flatMap (·.events)) = Timeline.notes (l.flatMap (·.events)) := by
  induction l with
  | nil => rfl
  | cons v l ih =>
    obtain ⟨hv, hl⟩ := List.forall_mem_cons.1 h
    rw [List.flatMap_cons, Timeline.notes_append, ← ih hl]
    cases hp : p v with
    | true =>
      rw [List.filter_cons_of_pos hp, List.flatMap_cons, Timeline.notes_append]
    | false =>
      rw [List.filter_cons_of_neg (by simp [hp]), hv hp]
      rfl

theorem length_notes {g : Score} {division channel : Nat} {start : Nat → Nat} {l : List Visit}
    (h : ∀ v ∈ l, v.events = g.soundsOf division channel v.node (start v.node)) :
    (Timeline.notes (l.flatMap (·.events))).length = 2 * (l.map (·.node)).countP g.isNote := by
  induction l with
  | nil => rfl
  | cons v l ih =>
    obtain ⟨hv, hl⟩ := List.forall_mem_cons.1 h
    rw [List.flatMap_cons, Timeline.notes_append, List.length_append, ih hl, hv,
      g.length_notes_soundsOf, List.map_cons, List.countP_cons]
    cases g.isNote v.node with
    | false => simp
    | true =>
      simp only [Bool.toNat_true, if_pos]
      omega

end Visit

namespace Builder

variable {b b' : Builder} {h h' : Ownership} {i i' : Nat} {keep : Option Content → Bool}

/-- The notes that a queue for the strand on a line gives out. -/
def notes (b : Builder) (i division channel : Nat) : Timeline :=
  (Queue.ofScore b.score ((b.line i).strand.map (·.head)) division channel).emitted.notes

theorem Sound.notes_eq (hb : b.Sound) (i division channel : Nat) :
    b.notes i division channel = (Timeline.notes
      ((Queue.history b.score ((b.line i).strand.map (·.head)) division channel).flatMap
        (·.events))).sort := by
  rw [notes, (hb.givesOut_performance i division channel).emitted, Queue.map_snd_performance,
    Timeline.notes_sort]

/-- Nodes that take no time do not move a note. -/
theorem notes_erase (hb : b.Sound) (hb' : b'.Sound) (hh : b.Nested h) (hh' : b'.Nested h')
    (hmeta : ∀ c, keep (some c) = false → c.isMeta = true)
    (hpattern : (b'.line i').plan.pattern b'.valuation [] =
      ((b.line i).plan.pattern b.valuation []).erase fun x => keep x.1) (division channel : Nat) :
    b'.notes i' division channel = b.notes i division channel := by
  obtain ⟨f, hhistory⟩ := exists_history hb hb' hh hh' hmeta hpattern division channel
  obtain ⟨start, ht⟩ := hb.exists_timing i division
  have hperform := hb.performs ht channel
  rw [hb.notes_eq, hb'.notes_eq, hhistory, List.flatMap_map]
  refine congrArg Timeline.sort (Visit.notes_filter fun v hv hkeep => ?_)
  rw [(hperform.visits v hv).2]
  exact Score.notes_soundsOf_of_not_keep hmeta hkeep ..

/-- Every note is started and ends. -/
theorem length_notes (hb : b.Sound) (i division channel : Nat) :
    (b.notes i division channel).length =
      2 * ((b.line i).plan.pattern b.valuation []).toList.countP ModifiedContent.isNote := by
  obtain ⟨start, ht⟩ := hb.exists_timing i division
  have hperform := hb.performs ht channel
  have hnodes : (b.line i).nodes.countP b.score.isNote =
      ((b.line i).plan.pattern b.valuation []).toList.countP ModifiedContent.isNote := by
    rw [Plan.pattern, Shape.toList_map, List.countP_map, Plan.toList_wrappedShape, Line.nodes,
      ← Plan.map_fst_wraps b.valuation.kinds _ [], List.countP_map]
    exact List.countP_congr fun x _ => by rw [Function.comp_apply, b.score.isNote_eq x.1 x.2]; rfl
  rw [hb.notes_eq, (Timeline.sort_perm _).length_eq,
    Visit.length_notes fun v hv => (hperform.visits v hv).2, hperform.nodes.countP_eq, hnodes]

end Builder

/-- A strand of this pattern gives these notes out. -/
def Shape.Gives (w : Shape ModifiedContent) (division channel : Nat) (l : Timeline) : Prop :=
  ∃ (b : Builder) (owners : Ownership) (i : Nat), b.Sound ∧ b.Nested owners ∧
    (b.line i).plan.pattern b.valuation [] = w ∧ b.notes i division channel = l

namespace Shape.Gives

variable {w : Shape ModifiedContent} {division channel : Nat} {l l' : Timeline}

theorem nil (division channel : Nat) : Gives .nil division channel [] :=
  ⟨{}, {}, 0, .start, .start, rfl, rfl⟩

/-- **Nodes that take no time do not move a note.** -/
theorem erase (keep : Option Content → Bool) (hmeta : ∀ c, keep (some c) = false → c.isMeta = true)
    (h : w.Gives division channel l)
    (h' : (w.erase fun x => keep x.1).Gives division channel l') : l' = l := by
  obtain ⟨b, owners, i, hb, hh, rfl, rfl⟩ := h
  obtain ⟨b', owners', i', hb', hh', hpattern, rfl⟩ := h'
  exact Builder.notes_erase hb hb' hh hh' hmeta hpattern division channel

theorem length (h : w.Gives division channel l) :
    l.length = 2 * w.toList.countP ModifiedContent.isNote := by
  obtain ⟨b, owners, i, hb, -, rfl, rfl⟩ := h
  exact Builder.length_notes hb i division channel

end Shape.Gives

end Jianpu
