import Jianpu.Proofs.Score.FilledSlots

/-!
# How modifiers nest

Suffixes may be put into the slots of a builder in any order and at any time. Whatever the moves,
the modifiers of a node are those in its own slot, then those in the slot of the group that it is
in, and so on outwards, with anchors between them. `Plan.slots` lists these slots for the nodes of a
plan and `Plan.wraps` what is in them, and `Builder.Nested.leads` and
`Builder.Nested.proper_modifiersOf` say that they are the ones.

`Builder.Nested` is what the moves keep: every slot holds its modifiers, and anchors that are not in
a slot hang below the anchor of the strand that they were put beside, or end the chain. A modifier
that is in no chain at all is `Builder.Loose`.
-/

namespace Jianpu

namespace Builder

/-- A modifier is an anchor that no slot owns, with `p` around it. -/
structure Anchor (b : Builder) (h : Ownership) (a : Nat) (p : Option Nat) : Prop where
  parent? : b.score.parent? a = p
  kind? : b.score.kind? a = some .anchor
  owner : h.owner a = none

/-- A modifier that was made and is in no chain yet. -/
structure Loose (b : Builder) (h : Ownership) (m : Nat) (kind : Modifier.Kind) : Prop where
  parent? : b.score.parent? m = none
  kind? : b.score.kind? m = some kind
  owner : h.owner m = none
  top : ∀ i s, (b.line i).strand = some s → s.top ≠ m

theorem Anchor.congr {b b' : Builder} {h h' : Ownership} {a : Nat} {p : Option Nat}
    (ha : b.Anchor h a p) (hparent : b'.score.parent? a = b.score.parent? a)
    (hg : b.score.Grows b'.score) (howner : h'.owner a = h.owner a) : b'.Anchor h' a p :=
  ⟨hparent.trans ha.parent?, hg.kind? a _ ha.kind?, howner.trans ha.owner⟩

/-- What `b` says about slots and anchors that hang below another still holds in `b'`. -/
structure Keeps (b : Builder) (h : Ownership) (b' : Builder) (h' : Ownership) : Prop where
  filled : ∀ (k : Nat) (p : FilledSlot), b.slots[k]? = some p →
    ∃ p' : FilledSlot, b'.slots[k]? = some p' ∧ p'.slot.node? = p.slot.node? ∧
      p'.slot.top = p.slot.top
  head : ∀ k a, (h.ids k).head? = some a → (h'.ids k).head? = some a
  anchor : ∀ a top, b.Anchor h a (some top) → b'.Anchor h' a (some top)

/-- An anchor below another one does not end a chain. -/
theorem Anchor.ne_of_root {b : Builder} {h : Ownership} {a r top : Nat}
    (ha : b.Anchor h a (some top)) (hr : b.Anchor h r none) : a ≠ r := by
  rintro rfl
  have heq := ha.parent?.symm.trans hr.parent?
  simp at heq

end Builder

/-- All nodes of a plan hang below an anchor: a note by its own slot, the nodes of a group by the
anchor of the group, which has the group's slot around it, and those of a further branch by an
anchor of their own. -/
def Plan.Hung (b : Builder) (h : Ownership) : Plan → Nat → Prop
  | .empty, _ => True
  | .node n k, top =>
    ∃ p : FilledSlot, b.slots[k]? = some p ∧ p.slot.node? = some n ∧ p.slot.top = top
  | .branch p q, top =>
    p.Hung b h top ∧ (q.Hung b h top ∨ ∃ a, q.Hung b h a ∧ b.Anchor h a (some top))
  | .seq p q none, top => p.Hung b h top ∧ q.Hung b h top
  | .seq p q (some k), top => p.Hung b h top ∧ ∃ (filled : FilledSlot) (a : Nat),
    b.slots[k]? = some filled ∧ filled.slot.node? = none ∧ filled.slot.top = top ∧
      (h.ids k).head? = some a ∧ q.Hung b h a

theorem Plan.Hung.mono {b b' : Builder} {h h' : Ownership} (hk : b.Keeps h b' h') {p : Plan}
    {top : Nat} (hp : p.Hung b h top) : p.Hung b' h' top := by
  induction p generalizing top with
  | empty => trivial
  | node n k =>
    obtain ⟨filled, hfilled, hnode, htop⟩ := hp
    obtain ⟨filled', hfilled', hnode', htop'⟩ := hk.filled k filled hfilled
    exact ⟨filled', hfilled', hnode'.trans hnode, htop'.trans htop⟩
  | branch p q ihp ihq =>
    obtain ⟨hp, hq⟩ := hp
    refine ⟨ihp hp, ?_⟩
    rcases hq with hq | ⟨a, hq, ha⟩
    · exact .inl (ihq hq)
    · exact .inr ⟨a, ihq hq, hk.anchor a top ha⟩
  | seq p q k ihp ihq =>
    cases k with
    | none => exact ⟨ihp hp.1, ihq hp.2⟩
    | some k =>
      obtain ⟨hp, filled, a, hfilled, hnode, htop, hhead, hq⟩ := hp
      obtain ⟨filled', hfilled', hnode', htop'⟩ := hk.filled k filled hfilled
      exact ⟨ihp hp, filled', a, hfilled', hnode'.trans hnode, htop'.trans htop, hk.head k a hhead,
        ihq hq⟩

/-- The nodes of a line hang below the anchor of its strand, which ends the chain. -/
def Line.Hung (b : Builder) (h : Ownership) (l : Line) : Prop :=
  match l.strand with
  | none => ∀ top, l.plan.Hung b h top
  | some s => l.plan.Hung b h s.top ∧ b.Anchor h s.top none

/-- The owners after a move of a builder: the slot of a group holds the group's anchor from the
start. -/
def Ownership.after (h : Ownership) (b : Builder) : Builder.Move → Ownership
  | .node .. | .append .. | .branch .. => h
  | .concat _ j =>
    match (b.line j).strand with
    | none => h
    | some o => h.own b.slots.length o.top
  | .suffix k .. => h.own k b.score.modifiers.size

/-- How the modifiers of a builder nest. -/
structure Builder.Nested (b : Builder) (h : Ownership) : Prop where
  filled : ∀ (k : Nat) (p : FilledSlot), b.slots[k]? = some p → p.Hung b.score (h.ids k)
  spare : ∀ k, b.slots.length ≤ k → h.ids k = []
  owned : ∀ k, ∀ m ∈ h.ids k, h.owner m = some k
  free : ∀ m, b.score.modifiers.size ≤ m → h.owner m = none
  placed : ∀ (k : Nat) (p : FilledSlot) (n : Nat), b.slots[k]? = some p → p.slot.node? = some n →
    n ∈ b.placed ∧ n < b.score.nodes.size
  once : ∀ (j k : Nat) (p q : FilledSlot) (n : Nat), b.slots[j]? = some p → b.slots[k]? = some q →
    p.slot.node? = some n → q.slot.node? = some n → j = k
  line : ∀ i, (b.line i).Hung b h
  tops : ∀ i j s o, i ≠ j → (b.line i).strand = some s → (b.line j).strand = some o → s.top ≠ o.top

/-! ## The moves -/

theorem Line.Hung.mono {b b' : Builder} {h h' : Ownership} (hk : b.Keeps h b' h') {l : Line}
    (hroot : ∀ s, l.strand = some s → b.Anchor h s.top none → b'.Anchor h' s.top none)
    (hl : l.Hung b h) : l.Hung b' h' := by
  unfold Line.Hung at hl ⊢
  cases hs : l.strand with
  | none =>
    rw [hs] at hl
    exact fun top => (hl top).mono hk
  | some s =>
    rw [hs] at hl
    exact ⟨hl.1.mono hk, hroot s hs hl.2⟩

namespace Builder.Nested

variable {b b' : Builder} {h h' : Ownership}

theorem start : Nested {} {} where
  filled k p hp := by simp at hp
  spare _ _ := rfl
  owned k m hm := by simp at hm
  free _ _ := rfl
  placed k p n hp := by simp at hp
  once j k p q n hp := by simp at hp
  line _ := fun _ => trivial
  tops i j s o _ hs := by simp at hs

theorem anchor_top (hb : b.Nested h) {i : Nat} {s : Strand} (hs : (b.line i).strand = some s) :
    b.Anchor h s.top none := by
  have hl := hb.line i
  rw [Line.Hung, hs] at hl
  exact hl.2

theorem plan_hung (hb : b.Nested h) (i : Nat) {top : Nat}
    (ht : ∀ s, (b.line i).strand = some s → top = s.top) : (b.line i).plan.Hung b h top := by
  have hl := hb.line i
  unfold Line.Hung at hl
  cases hs : (b.line i).strand with
  | none =>
    rw [hs] at hl
    exact hl top
  | some s =>
    rw [hs] at hl
    rw [ht s hs]
    exact hl.1

theorem plan_hung_top (hb : b.Nested h) {i : Nat} {s : Strand}
    (hs : (b.line i).strand = some s) : (b.line i).plan.Hung b h s.top :=
  hb.plan_hung i fun s' hs' => by rw [Option.some.inj (hs.symm.trans hs')]

theorem plan_hung_none (hb : b.Nested h) {i : Nat} (hs : (b.line i).strand = none) (top : Nat) :
    (b.line i).plan.Hung b h top :=
  hb.plan_hung i fun s hs' => by simp [hs] at hs'

/-- The anchor of the strand that an operation on a line gives is free, and no other line has it. -/
theorem isTop (hb : b.Nested h) {i top : Nat} {g' : Score} (hg : b.score.Grows g')
    (ht : Strand.IsTop (b.line i).strand b.score g' top) :
    b.score.parent? top = none ∧ g'.kind? top = some .anchor ∧ h.owner top = none ∧
      ∀ j s, j ≠ i → (b.line j).strand = some s → top ≠ s.top := by
  unfold Strand.IsTop at ht
  cases hs : (b.line i).strand with
  | some s =>
    rw [hs] at ht
    obtain rfl : top = s.top := ht
    have ha := hb.anchor_top hs
    exact ⟨ha.parent?, hg.kind? _ _ ha.kind?, ha.owner,
      fun j o hj ho => hb.tops i j s o hj.symm hs ho⟩
  | none =>
    rw [hs] at ht
    obtain ⟨rfl, hkind⟩ := ht
    refine ⟨?_, hkind, hb.free _ (Nat.le_refl _), fun j s _ hj => ?_⟩
    · rw [Score.parent?, Array.getElem?_eq_none (Nat.le_refl _)]
      rfl
    · exact Nat.ne_of_gt (Score.lt_of_kind? (hb.anchor_top hj).kind?)

theorem hold (hb : b.Nested h) : h.Hold b.score b.slots b.placed :=
  ⟨hb.filled, hb.spare, hb.owned, hb.free, hb.placed, hb.once⟩

/-- A builder of which one line is made anew, and possibly others emptied. -/
theorem update (hb : b.Nested h) (i : Nat) (hk : b.Keeps h b' h')
    (hh : h'.Hold b'.score b'.slots b'.placed) (hi : (b'.line i).Hung b' h')
    (hline : ∀ k, k ≠ i → b'.line k = b.line k ∨ b'.line k = {})
    (hroot : ∀ k s, k ≠ i → (b'.line k).strand = some s → b'.Anchor h' s.top none)
    (htops : ∀ k s o, k ≠ i → (b'.line i).strand = some s → (b'.line k).strand = some o →
      s.top ≠ o.top) : b'.Nested h' where
  filled := hh.filled
  spare := hh.spare
  owned := hh.owned
  free := hh.free
  placed := hh.placed
  once := hh.once
  line k := by
    by_cases hki : k = i
    · rwa [hki]
    · rcases hline k hki with heq | heq
      · have hbefore := hb.line k
        rw [← heq] at hbefore
        exact hbefore.mono hk fun s hs _ => hroot k s hki hs
      · rw [heq]
        exact fun _ => trivial
  tops j k s o hjk hs ho := by
    by_cases hj : j = i
    · rw [hj] at hs hjk
      exact htops k s o hjk.symm hs ho
    · by_cases hki : k = i
      · rw [hki] at ho
        exact (htops j o s hj ho hs).symm
      · rcases hline j hj with hj' | hj' <;> rcases hline k hki with hk' | hk' <;>
          rw [hj'] at hs <;> rw [hk'] at ho
        · exact hb.tops j k s o hjk hs ho
        all_goals simp at hs ho

/-- Where the lines stay as they are. -/
theorem same (hb : b.Nested h) (hk : b.Keeps h b' h')
    (hh : h'.Hold b'.score b'.slots b'.placed) (hline : b'.line = b.line)
    (hroot : ∀ i s, (b.line i).strand = some s → b'.Anchor h' s.top none) : b'.Nested h' where
  filled := hh.filled
  spare := hh.spare
  owned := hh.owned
  free := hh.free
  placed := hh.placed
  once := hh.once
  line k := by
    rw [hline]
    exact (hb.line k).mono hk fun s hs _ => hroot k s hs
  tops := by
    rw [hline]
    exact hb.tops

theorem node (hb : b.Nested h) (content : Content) (span : Span) :
    Nested { b with score := (b.score.addNode content span).2 } h := by
  have hg := b.score.grows_addNode content span
  have hanchor : ∀ a c, b.Anchor h a c →
      Anchor { b with score := (b.score.addNode content span).2 } h a c :=
    fun a c ha => ha.congr rfl hg rfl
  refine hb.same ⟨fun k p hp => ⟨p, hp, rfl, rfl⟩, fun _ _ ha => ha, fun a top => hanchor a _⟩
    ?_ rfl fun i s hs => hanchor _ _ (hb.anchor_top hs)
  exact hb.hold.congr hg (fun _ _ _ => rfl) fun _ _ => Score.modifier?_addNode ..

/-- A new modifier is in no chain. -/
theorem modifier (hb : b.Nested h) (kind : Modifier.Kind) (span : Span) :
    Nested { b with score := (b.score.addModifier kind span).2 } h ∧
      Loose { b with score := (b.score.addModifier kind span).2 } h
        b.score.modifiers.size kind := by
  have hparent := fun m => Score.parent?_addModifier b.score m kind span
  have hg := b.score.grows_addModifier kind span
  have hanchor : ∀ a c, b.Anchor h a c →
      Anchor { b with score := (b.score.addModifier kind span).2 } h a c :=
    fun a c ha => ha.congr (hparent a) hg rfl
  refine ⟨?_, ?_, ?_, hb.free _ (Nat.le_refl _), fun i s hs => ?_⟩
  · refine hb.same ⟨fun k p hp => ⟨p, hp, rfl, rfl⟩, fun _ _ ha => ha, fun a top => hanchor a _⟩ ?_
      rfl fun i s hs => hanchor _ _ (hb.anchor_top hs)
    exact hb.hold.congr hg (fun _ m _ => hparent m) fun _ _ => rfl
  · rw [hparent, Score.parent?, Array.getElem?_eq_none (Nat.le_refl _)]
    rfl
  · exact (Score.kind?_addModifier ..).trans (if_pos rfl)
  · exact Nat.ne_of_lt (Score.lt_of_kind? (hb.anchor_top hs).kind?)

theorem inserted (hb : b.Nested h) {k m : Nat} {p : FilledSlot} (hp : b.slots[k]? = some p)
    {kind : Modifier.Kind} (hm : b.Loose h m kind) :
    p.slot.Inserted (p.slot.insert b.score m).1 b.score (p.slot.insert b.score m).2 m (h.ids k) :=
  (hb.filled k p hp).inserted (fun n hn => (hb.placed k p n hp hn).2) (Score.lt_of_kind? hm.kind?)
    (hb.hold.notMem_ids hm.owner)

/-- A modifier that was in no chain, put into a slot. -/
theorem insert (hb : b.Nested h) {k m : Nat} {p : FilledSlot} (hp : b.slots[k]? = some p)
    {kind : Modifier.Kind} (hm : b.Loose h m kind) :
    let r := p.slot.insert b.score m
    Nested { b with score := r.2, slots := b.slots.set k ⟨r.1, p.kinds ++ [kind]⟩ }
      (h.own k m) := by
  intro r
  have hins := hb.inserted hp hm
  have hanchor : ∀ a c, b.Anchor h a c → a ≠ m →
      Anchor { b with score := r.2, slots := b.slots.set k ⟨r.1, p.kinds ++ [kind]⟩ }
        (h.own k m) a c := by
    intro a c ha hne
    refine ⟨?_, (hins.kind? a).trans ha.kind?, (h.owner_own_of_ne k hne).trans ha.owner⟩
    exact (hins.parent? a (hb.hold.notMem_ids ha.owner) hne).trans ha.parent?
  have hbelow : ∀ a top, b.Anchor h a (some top) → a ≠ m := by
    rintro a top ha rfl
    have heq := ha.parent?.symm.trans hm.parent?
    simp at heq
  refine hb.same
    ⟨fun j q hq => ?_, fun j a ha => ?_, fun a top ha => hanchor a _ ha (hbelow a top ha)⟩
    (hb.hold.insert hp hm.owner hm.kind? hins) rfl
    fun i s hs => hanchor _ _ (hb.anchor_top hs) (hm.top i s hs)
  · by_cases hj : j = k
    · subst hj
      obtain rfl := Option.some.inj (hp.symm.trans hq)
      exact ⟨_, List.getElem?_set_self (List.getElem?_eq_some_iff.1 hp).1, hins.node?, hins.top⟩
    · exact ⟨q, (List.getElem?_set_ne (Ne.symm hj)).trans hq, rfl, rfl⟩
  · by_cases hj : j = k
    · subst hj
      simp [h.ids_own_self, ha]
    · rwa [h.ids_own_of_ne hj]

/-- A node put at the end of a line. -/
theorem append (hb : b.Nested h) (i : Nat) {n : Nat} (hn : n < b.score.nodes.size)
    (hfresh : n ∉ b.placed) :
    let r := Strand.append (b.line i).strand b.score n
    let b' : Builder := {
      score := r.2.2
      line := Function.update b.line i
        ⟨some r.1, (b.line i).plan.seq (.node n b.slots.length) none⟩
      slots := b.slots ++ [⟨r.2.1, []⟩]
      placed := n :: b.placed }
    b'.Nested h := by
  intro r b'
  obtain ⟨htop, hslot, hg, hparent, hmod⟩ := Strand.append_chains (b.line i).strand b.score hn
  obtain ⟨hnone, hkind, howner, hne⟩ := hb.isTop hg htop
  have hslots : b'.slots = b.slots ++ [⟨.note n r.1.top none, []⟩] := by rw [← hslot]
  have hi : b'.line i = ⟨some r.1, (b.line i).plan.seq (.node n b.slots.length) none⟩ :=
    Function.update_self ..
  have hline : ∀ k, k ≠ i → b'.line k = b.line k := fun k hk => Function.update_of_ne hk ..
  have hanchor : ∀ a c, b.Anchor h a c → b'.Anchor h a c := fun a c ha =>
    ha.congr (hparent a) hg rfl
  have hkeeps : b.Keeps h b' h :=
    ⟨fun k p hp => ⟨p, getElem?_append_of_eq_some hp _, rfl, rfl⟩, fun _ _ ha => ha,
      fun a top => hanchor a _⟩
  refine hb.update i hkeeps ?_ ?_ (fun k hk => .inl (hline k hk)) ?_ ?_
  · rw [hslots]
    exact hb.hold.note hn hfresh hg hparent hmod
  · rw [hi]
    refine ⟨⟨(hb.plan_hung i fun s hs => htop.eq hs).mono hkeeps, ?_⟩, ?_⟩
    · refine ⟨⟨.note n r.1.top none, []⟩, ?_, rfl, rfl⟩
      rw [hslots]
      exact List.getElem?_concat_length
    · exact ⟨(hparent _).trans hnone, hkind, howner⟩
  · intro k s hk hs
    rw [hline k hk] at hs
    exact hanchor _ _ (hb.anchor_top hs)
  · intro k s o hk hs ho
    rw [hi] at hs
    rw [hline k hk] at ho
    obtain rfl := Option.some.inj hs
    exact hne k o hk ho

/-- One line made of two, where the other is empty then. -/
theorem merge (hb : b.Nested h) {i j : Nat} (hij : i ≠ j) {l : Line}
    (hline : b'.line = Function.update (Function.update b.line i l) j {})
    (hk : b.Keeps h b' h') (hh : h'.Hold b'.score b'.slots b'.placed) (hl : l.Hung b' h')
    (hroot : ∀ a, b.Anchor h a none → (∀ o, (b.line j).strand = some o → a ≠ o.top) →
      b'.Anchor h' a none)
    (htops : ∀ s, l.strand = some s → ∀ k o, k ≠ i → k ≠ j → (b.line k).strand = some o →
      s.top ≠ o.top) : b'.Nested h' := by
  have hi : b'.line i = l := by
    rw [hline, Function.update_of_ne hij, Function.update_self]
  have hj : b'.line j = {} := by
    rw [hline, Function.update_self]
  have hother : ∀ k, k ≠ i → k ≠ j → b'.line k = b.line k := by
    intro k hki hkj
    rw [hline, Function.update_of_ne hkj, Function.update_of_ne hki]
  have hstrand : ∀ k s, k ≠ i → (b'.line k).strand = some s →
      k ≠ j ∧ (b.line k).strand = some s := by
    intro k s hki hs
    by_cases hkj : k = j
    · rw [hkj, hj] at hs
      simp at hs
    · rw [hother k hki hkj] at hs
      exact ⟨hkj, hs⟩
  refine hb.update i hk hh (hi ▸ hl) (fun k hki => ?_) (fun k s hki hs => ?_)
    fun k s o hki hs ho => ?_
  · by_cases hkj : k = j
    · exact .inr (hkj ▸ hj)
    · exact .inl (hother k hki hkj)
  · obtain ⟨hkj, hs⟩ := hstrand k s hki hs
    exact hroot s.top (hb.anchor_top hs) fun o ho => hb.tops k j s o hkj hs ho
  · rw [hi] at hs
    obtain ⟨hkj, ho⟩ := hstrand k o hki ho
    exact htops s hs k o hki hkj ho

/-- Where the score and the slots stay as they are. -/
theorem merge_same (hb : b.Nested h) {i j : Nat} (hij : i ≠ j) {l : Line} (hl : l.Hung b h)
    (htops : ∀ s, l.strand = some s → ∀ k o, k ≠ i → k ≠ j → (b.line k).strand = some o →
      s.top ≠ o.top) :
    Nested { b with line := Function.update (Function.update b.line i l) j {} } h := by
  have hkeeps : b.Keeps h { b with line := Function.update (Function.update b.line i l) j {} } h :=
    ⟨fun k p hp => ⟨p, hp, rfl, rfl⟩, fun _ _ ha => ha,
      fun a top ha => ⟨ha.parent?, ha.kind?, ha.owner⟩⟩
  refine hb.merge hij rfl hkeeps hb.hold ?_ (fun a ha _ => ⟨ha.parent?, ha.kind?, ha.owner⟩) htops
  exact hl.mono hkeeps fun s _ ha => ⟨ha.parent?, ha.kind?, ha.owner⟩

/-- A strand put beside that of a line. -/
theorem branch_some (hb : b.Nested h) {i j : Nat} (hij : i ≠ j) {s o : Strand}
    (hs : (b.line i).strand = some s) (ho : (b.line j).strand = some o) :
    let r := Strand.branch (some s) (some o) b.score
    let b' : Builder := { b with
      score := r.2
      line := Function.update (Function.update b.line i
        ⟨r.1, (b.line i).plan.branch (b.line j).plan⟩) j {} }
    b'.Nested h := by
  intro r b'
  have has := hb.anchor_top hs
  have hao := hb.anchor_top ho
  obtain ⟨hg, hparent, hmod⟩ := Strand.branch_chains s o b.score (Score.lt_of_kind? hao.kind?)
  -- only the anchor of the other strand gets something around it
  have hanchor : ∀ a c, b.Anchor h a c → a ≠ o.top → b'.Anchor h a c := fun a c ha hne =>
    ha.congr ((hparent a).trans (if_neg hne)) hg rfl
  have hkeeps : b.Keeps h b' h :=
    ⟨fun k p hp => ⟨p, hp, rfl, rfl⟩, fun _ _ ha => ha,
      fun a top ha => hanchor a _ ha (ha.ne_of_root hao)⟩
  have hh : h.Hold r.2 b.slots b.placed := by
    refine hb.hold.congr hg (fun k m hm => ?_) fun n _ => hmod n
    exact (hparent m).trans (if_neg fun heq => hb.hold.notMem_ids hao.owner (heq ▸ hm))
  refine hb.merge hij rfl hkeeps hh ⟨⟨(hb.plan_hung_top hs).mono hkeeps, .inr ⟨o.top, ?_, ?_⟩⟩, ?_⟩
    (fun a ha hne => hanchor a _ ha (hne o ho)) ?_
  · exact (hb.plan_hung_top ho).mono hkeeps
  · exact ⟨(hparent _).trans (if_pos rfl), hg.kind? _ _ hao.kind?, hao.owner⟩
  · exact hanchor _ _ has (hb.tops i j s o hij hs ho)
  · rintro s' hs' k o' hki - hk
    obtain rfl := Option.some.inj hs'
    exact hb.tops i k s o' (Ne.symm hki) hs hk

theorem branch (hb : b.Nested h) {i j : Nat} (hij : i ≠ j) :
    let r := Strand.branch (b.line i).strand (b.line j).strand b.score
    Nested { b with
      score := r.2
      line := Function.update (Function.update b.line i
        ⟨r.1, (b.line i).plan.branch (b.line j).plan⟩) j {} } h := by
  cases ho : (b.line j).strand with
  | none =>
    have hplan : ∀ top, (b.line j).plan.Hung b h top := hb.plan_hung_none ho
    refine hb.merge_same hij ?_ fun s hs k o hki _ hk => hb.tops i k s o (Ne.symm hki) hs hk
    unfold Line.Hung
    cases hs : (b.line i).strand with
    | none => exact fun top => ⟨hb.plan_hung_none hs top, .inl (hplan top)⟩
    | some s => exact ⟨⟨hb.plan_hung_top hs, .inl (hplan s.top)⟩, hb.anchor_top hs⟩
  | some o =>
    cases hs : (b.line i).strand with
    | none =>
      refine hb.merge_same hij
        ⟨⟨hb.plan_hung_none hs o.top, .inl (hb.plan_hung_top ho)⟩, hb.anchor_top ho⟩ ?_
      rintro s hs' k o' - hkj hk
      obtain rfl := Option.some.inj hs'
      exact hb.tops j k o o' (Ne.symm hkj) ho hk
    | some s => exact hb.branch_some hij hs ho

/-- A strand put after that of a line; the slot of the group starts with its anchor. -/
theorem concat_some (hb : b.Nested h) {i j : Nat} (hij : i ≠ j) {o : Strand}
    (ho : (b.line j).strand = some o) :
    let r := Strand.concat (b.line i).strand (some o) b.score
    let b' : Builder := { b with
      score := r.2.2
      line := Function.update (Function.update b.line i
        ⟨r.1, (b.line i).plan.seq (b.line j).plan (r.2.1.map fun _ => b.slots.length)⟩) j {}
      slots := b.slots ++ r.2.1.toList.map (⟨·, []⟩) }
    b'.Nested (h.own b.slots.length o.top) := by
  intro r b'
  have hao := hb.anchor_top ho
  obtain ⟨s', hs', htop, hslot, hg, hparent, hmod⟩ :=
    Strand.concat_chains (b.line i).strand o b.score (Score.lt_of_kind? hao.kind?)
  obtain ⟨hnone, hkind, howner, hne⟩ := hb.isTop hg htop
  change r.1 = some s' at hs'
  change r.2.1 = some (.group s'.top o.top) at hslot
  have hslots : b'.slots = b.slots ++ [⟨.group s'.top o.top, []⟩] := by
    simp only [b', hslot]
    rfl
  have hso : s'.top ≠ o.top := hne j o (Ne.symm hij) ho
  have hanchor : ∀ a c, b.Anchor h a c → a ≠ o.top →
      b'.Anchor (h.own b.slots.length o.top) a c := fun a c ha hao =>
    ha.congr ((hparent a).trans (if_neg hao)) hg (h.owner_own_of_ne _ hao)
  have hids : ∀ k a, (h.ids k).head? = some a → k ≠ b.slots.length := by
    rintro k a ha rfl
    rw [hb.spare _ (Nat.le_refl _)] at ha
    simp at ha
  have hkeeps : b.Keeps h b' (h.own b.slots.length o.top) := by
    refine ⟨fun k p hp => ⟨p, getElem?_append_of_eq_some hp _, rfl, rfl⟩, fun k a ha => ?_,
      fun a top ha => hanchor a _ ha (ha.ne_of_root hao)⟩
    rwa [h.ids_own_of_ne (hids k a ha)]
  have hh : (h.own b.slots.length o.top).Hold b'.score b'.slots b'.placed := by
    rw [hslots]
    exact hb.hold.group hao.owner hao.kind? hg hparent hmod
  refine hb.merge hij (l := ⟨some s', (b.line i).plan.seq (b.line j).plan (some b.slots.length)⟩)
    ?_ hkeeps hh ?_ (fun a ha hne => hanchor a _ ha (hne o ho)) ?_
  · simp only [b', hs', hslot]
    rfl
  · refine ⟨⟨(hb.plan_hung i fun s hs => htop.eq hs).mono hkeeps, ⟨.group s'.top o.top, []⟩, o.top,
      ?_, rfl, rfl, ?_, (hb.plan_hung_top ho).mono hkeeps⟩, (hparent _).trans ?_, hkind, ?_⟩
    · rw [hslots]
      exact List.getElem?_concat_length
    · rw [h.ids_own_self, hb.spare _ (Nat.le_refl _)]
      rfl
    · exact (if_neg hso).trans hnone
    · exact (h.owner_own_of_ne _ hso).trans howner
  · rintro s hs k o' hki - hk
    obtain rfl := Option.some.inj hs
    exact hne k o' hki hk

/-- An empty strand put after that of a line. -/
theorem concat_none (hb : b.Nested h) {i j : Nat} (hij : i ≠ j) (ho : (b.line j).strand = none) :
    Nested { b with line := Function.update (Function.update b.line i
      ⟨(b.line i).strand, (b.line i).plan.seq (b.line j).plan none⟩) j {} } h := by
  have hplan : ∀ top, (b.line j).plan.Hung b h top := hb.plan_hung_none ho
  refine hb.merge_same hij ?_ fun s hs k o hki _ hk => hb.tops i k s o (Ne.symm hki) hs hk
  unfold Line.Hung
  cases hs : (b.line i).strand with
  | none => exact fun top => ⟨hb.plan_hung_none hs top, hplan top⟩
  | some s => exact ⟨⟨hb.plan_hung_top hs, hplan s.top⟩, hb.anchor_top hs⟩

/-- **Every move keeps the nesting.** -/
theorem move (hb : b.Nested h) {m : Move} (hm : b.move m = some b') :
    b'.Nested (h.after b m) := by
  cases m with
  | node content span =>
    obtain rfl := Option.some.inj hm
    exact hb.node content span
  | append i n =>
    simp only [Builder.move] at hm
    split at hm
    · rename_i hn
      obtain rfl := Option.some.inj hm
      exact hb.append i hn.1 hn.2
    · simp at hm
  | branch i j =>
    simp only [Builder.move] at hm
    split at hm
    · simp at hm
    · rename_i hij
      obtain rfl := Option.some.inj hm
      exact hb.branch hij
  | concat i j =>
    simp only [Builder.move] at hm
    split at hm
    · simp at hm
    · rename_i hij
      obtain rfl := Option.some.inj hm
      simp only [Ownership.after]
      cases ho : (b.line j).strand with
      | none =>
        have hc := hb.concat_none hij ho
        cases hs : (b.line i).strand <;> simpa [Strand.concat, hs] using hc
      | some o => exact hb.concat_some hij ho
  | suffix k kind span =>
    obtain ⟨p, hp, rfl⟩ := Option.map_eq_some_iff.1 hm
    obtain ⟨hb', hloose⟩ := hb.modifier kind span
    exact hb'.insert hp hloose

theorem run (hb : b.Nested h) (ms : List Move) (hr : b.run ms = some b') : ∃ h', b'.Nested h' := by
  induction ms generalizing b h with
  | nil =>
    obtain rfl := Option.some.inj hr
    exact ⟨h, hb⟩
  | cons m ms ih =>
    obtain ⟨c, hc, hr⟩ := Option.bind_eq_some_iff.1 hr
    exact ih (hb.move hc) hr

end Builder.Nested

/-! ## The modifiers of a node -/

/-- The modifiers that do something. -/
def Modifier.proper (ks : List Modifier.Kind) : List Modifier.Kind := ks.filter (· ≠ .anchor)

/-- What is in a slot. -/
def Builder.kinds (b : Builder) (k : Nat) : List Modifier.Kind :=
  (b.slots[k]?.map (·.kinds)).getD []

/-- The nodes of a plan with what is in the slots around them, from the inside out, where `outer`
is around the plan. -/
def Plan.wraps (kinds : Nat → List Modifier.Kind) :
    Plan → List Modifier.Kind → List (Nat × List Modifier.Kind)
  | .empty, _ => []
  | .node n k, outer => [(n, kinds k ++ outer)]
  | .branch p q, outer => p.wraps kinds outer ++ q.wraps kinds outer
  | .seq p q none, outer => p.wraps kinds outer ++ q.wraps kinds outer
  | .seq p q (some k), outer => p.wraps kinds outer ++ q.wraps kinds (kinds k ++ outer)

/-- The nodes of a plan with the slots around them, from the inside out, where `outer` are around
the plan. -/
def Plan.slots : Plan → List Nat → List (Nat × List Nat)
  | .empty, _ => []
  | .node n k, outer => [(n, k :: outer)]
  | .branch p q, outer | .seq p q none, outer => p.slots outer ++ q.slots outer
  | .seq p q (some k), outer => p.slots outer ++ q.slots (k :: outer)

theorem Plan.map_fst_slots (p : Plan) (outer : List Nat) :
    (p.slots outer).map Prod.fst = p.nodes := by
  induction p generalizing outer with
  | empty | node => rfl
  | branch p q ihp ihq => rw [slots, List.map_append, ihp, ihq, nodes]
  | seq p q k ihp ihq => cases k <;> rw [slots, List.map_append, ihp, ihq, nodes]

/-- What is around a node is what is in the slots around it. -/
theorem Plan.wraps_eq (kinds : Nat → List Modifier.Kind) (p : Plan) (outer : List Nat) :
    p.wraps kinds (outer.flatMap kinds) =
      (p.slots outer).map fun x => (x.1, x.2.flatMap kinds) := by
  induction p generalizing outer with
  | empty => rfl
  | node n k => rfl
  | branch p q ihp ihq => rw [wraps, slots, ihp, ihq, List.map_append]
  | seq p q k ihp ihq =>
    cases k with
    | none => rw [wraps, slots, ihp, ihq, List.map_append]
    | some k => rw [wraps, slots, ihp, ← List.flatMap_cons, ihq, List.map_append]

/-- The modifiers that are no anchors. -/
def Score.proper (g : Score) (ids : List Nat) : List Nat := ids.filter (g.kind? · ≠ some .anchor)

/-- A way to the end of the chain, through the modifiers `ids` and through anchors. -/
def Score.Leads (g : Score) (p : Option Nat) (ids : List Nat) : Prop :=
  ∃ l, g.Path p l none ∧ (∀ m ∈ l, m < g.modifiers.size) ∧ g.proper l = g.proper ids

theorem Score.Leads.anchor {g : Score} {p : Option Nat} {ids : List Nat} {a : Nat}
    (h : g.Leads p ids) (hp : g.parent? a = p) (ha : g.kind? a = some .anchor) :
    g.Leads (some a) ids := by
  obtain ⟨l, hpath, hlt, hl⟩ := h
  refine ⟨a :: l, ⟨rfl, hp ▸ hpath⟩, List.forall_mem_cons.2 ⟨Score.lt_of_kind? ha, hlt⟩, ?_⟩
  rw [← hl, Score.proper, Score.proper, List.filter_cons_of_neg (by simpa using ha)]

theorem FilledSlot.Hung.leads {g : Score} {p : FilledSlot} {ids outer : List Nat} (h : p.Hung g ids)
    (ht : g.Leads (some p.slot.top) outer) : g.Leads (p.slot.entry g ids) (ids ++ outer) := by
  obtain ⟨l, hpath, hlt, hl⟩ := ht
  refine ⟨ids ++ l, h.path.append hpath, ?_, ?_⟩
  · exact List.forall_mem_append.2 ⟨fun m hm => h.lt_size hm, hlt⟩
  · simp only [Score.proper, List.filter_append] at hl ⊢
    rw [hl]

/-- Going outwards from a node of a plan, one passes what is in the slots around it. -/
theorem Plan.Hung.leads {b : Builder} {h : Ownership} (hb : b.Nested h) {p : Plan} {top : Nat}
    {outer : List Nat} (hp : p.Hung b h top) (ht : b.score.Leads (some top) (outer.flatMap h.ids)) :
    ∀ x ∈ p.slots outer, b.score.Leads (b.score.modifier? x.1) (x.2.flatMap h.ids) := by
  induction p generalizing top outer with
  | empty => simp [Plan.slots]
  | node n k =>
    obtain ⟨filled, hfilled, hnode, rfl⟩ := hp
    have hlead := (hb.filled k filled hfilled).leads ht
    intro x hx
    obtain rfl := List.mem_singleton.1 hx
    rw [List.flatMap_cons]
    cases hs : filled.slot with
    | note n' top last =>
      rw [hs] at hlead hnode
      obtain rfl : n' = n := Option.some.inj hnode
      exact hlead
    | group top last => simp [hs, Slot.node?] at hnode
  | branch p q ihp ihq =>
    obtain ⟨hp, hq⟩ := hp
    refine List.forall_mem_append.2 ⟨ihp hp ht, ?_⟩
    rcases hq with hq | ⟨a, hq, ha⟩
    · exact ihq hq ht
    · exact ihq hq (ht.anchor ha.parent? ha.kind?)
  | seq p q k ihp ihq =>
    cases k with
    | none => exact List.forall_mem_append.2 ⟨ihp hp.1 ht, ihq hp.2 ht⟩
    | some k =>
      obtain ⟨hp, filled, a, hfilled, hnode, rfl, hhead, hq⟩ := hp
      refine List.forall_mem_append.2 ⟨ihp hp ht, ihq hq ?_⟩
      have hlead := (hb.filled k filled hfilled).leads ht
      rw [List.flatMap_cons]
      cases hs : filled.slot with
      | note n' top last => simp [hs, Slot.node?] at hnode
      | group top last =>
        rw [hs, Slot.entry, hhead] at hlead
        exact hlead

namespace Builder.Nested

variable {b : Builder} {h : Ownership}

/-- **The modifiers of a node follow the nesting**: those in its own slot come first, then those in
the slots of the groups around it. -/
theorem leads (hb : b.Nested h) {i n : Nat} {s : Strand} (hs : (b.line i).strand = some s)
    {ks : List Nat} (hmem : (n, ks) ∈ (b.line i).plan.slots []) :
    b.score.Leads (b.score.modifier? n) (ks.flatMap h.ids) := by
  have ha := hb.anchor_top hs
  have hend : b.score.Leads none (([] : List Nat).flatMap h.ids) := ⟨[], rfl, by simp, rfl⟩
  exact (hb.plan_hung_top hs).leads hb (hend.anchor ha.parent? ha.kind?) (n, ks) hmem

/-- What the modifiers in a slot do is what the slot says. -/
theorem proper_ids (hb : b.Nested h) (k : Nat) :
    Modifier.proper ((h.ids k).filterMap b.score.kind?) = Modifier.proper (b.kinds k) := by
  unfold Builder.kinds
  cases hp : b.slots[k]? with
  | none =>
    rw [hb.spare k (List.getElem?_eq_none_iff.1 hp)]
    rfl
  | some p =>
    have hids : (h.ids k).filterMap b.score.kind? = p.marks := by
      have hmap := congrArg (List.filterMap id) (hb.filled k p hp).marks
      rw [List.filterMap_map, List.filterMap_map] at hmap
      simpa using hmap
    rw [hids, Option.map_some, Option.getD_some, FilledSlot.marks]
    cases p.slot.node? <;> simp [Modifier.proper]

/-- What the modifiers of a node do. -/
theorem proper_modifiersOf (hb : b.Nested h) {i n : Nat} {s : Strand}
    (hs : (b.line i).strand = some s) {ks : List Modifier.Kind} {x : Node}
    (hmem : (n, ks) ∈ (b.line i).plan.wraps b.kinds []) (hx : b.score.nodes[n]? = some x) :
    Modifier.proper ((b.score.modifiersOf x).map (·.kind)) = Modifier.proper ks := by
  have hwraps : (b.line i).plan.wraps b.kinds [] = _ := Plan.wraps_eq b.kinds (b.line i).plan []
  rw [hwraps] at hmem
  obtain ⟨⟨n', js⟩, hslots, heq⟩ := List.mem_map.1 hmem
  obtain ⟨rfl, rfl⟩ := Prod.mk.inj heq
  obtain ⟨l, hpath, hlt, hl⟩ := hb.leads hs hslots
  -- anchors may be left out before or after looking up what the modifiers do
  have hproper : ∀ ids : List Nat, Modifier.proper (ids.filterMap b.score.kind?) =
      (b.score.proper ids).filterMap b.score.kind? := by
    intro ids
    rw [Modifier.proper, Score.proper, List.filter_filterMap, List.filterMap_filter]
    refine List.filterMap_congr fun m _ => ?_
    cases b.score.kind? m <;> simp [Option.filter]
  rw [Score.map_kind_modifiersOf hx hpath hlt, hproper, hl, ← hproper, List.filterMap_flatMap]
  simp only [Modifier.proper, List.filter_flatMap]
  exact List.flatMap_congr fun k _ => hb.proper_ids k

end Builder.Nested

end Jianpu
