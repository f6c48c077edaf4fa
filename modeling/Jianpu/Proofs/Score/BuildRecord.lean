import Jianpu.Proofs.Schedule.Rendition

/-!
# The modifiers of a node, told from what happened

A `BuildRecord` is a builder with a record of what it did: which modifiers were put into which
slot, and which groups a node was made part of. Nothing in the record is read off the score. In
contrast to the moves of a builder, its steps may make modifiers long before they are used.

`BuildRecord.Faithful` says that the score agrees with the record; every step keeps it. It gives
`modifiersOf_of_steps`: the chain of a node ends, and apart from anchors it holds just what was put
into the node's own slot, then what was put into the slots of the groups around it.
-/

namespace Jianpu

/-- A builder and what it did. -/
structure BuildRecord where
  builder : Builder := {}
  /-- The modifiers that are in no slot yet, with what they do. -/
  loose : List (Nat × Modifier.Kind) := []
  /-- The modifiers that were put into each slot, in order. -/
  put : Nat → List (Nat × Modifier.Kind) := fun _ => []
  /-- The slots around each node: its own, then that of every group that it became part of. -/
  around : Nat → List Nat := fun _ => []

namespace BuildRecord

/-- A step in making strands. -/
inductive Step where
  /-- Adds a node to the score. -/
  | node (content : Content) (span : Span)
  /-- Adds a modifier to the score. -/
  | modifier (kind : Modifier.Kind) (span : Span)
  /-- Appends a node to a line. -/
  | append (line node : Nat)
  /-- Puts the strand of another line beside that of a line. -/
  | branch (line other : Nat)
  /-- Puts the strand of another line after that of a line. -/
  | concat (line other : Nat)
  /-- Puts a modifier into a slot. -/
  | insert (slot modifier : Nat)
  deriving DecidableEq, Repr

/-- Makes a step and notes it down. There is no step with a modifier that is in a slot already, and
otherwise there are those for which there is a move. -/
def step (c : BuildRecord) : Step → Option BuildRecord
  | .node content span =>
    (c.builder.move (.node content span)).map fun builder => { c with builder }
  | .modifier kind span =>
    let (m, score) := c.builder.score.addModifier kind span
    some { c with builder := { c.builder with score }, loose := c.loose ++ [(m, kind)] }
  | .append i n => (c.builder.move (.append i n)).map fun builder =>
    { c with builder, around := Function.update c.around n [c.builder.slots.length] }
  | .branch i j => (c.builder.move (.branch i j)).map fun builder => { c with builder }
  | .concat i j => (c.builder.move (.concat i j)).map fun builder =>
    { c with
      builder
      around := fun n =>
        if n ∈ (c.builder.line j).nodes then c.around n ++ [c.builder.slots.length]
        else c.around n }
  | .insert k m =>
    match c.builder.slots[k]?, c.loose.find? (·.1 = m) with
    | some p, some x =>
      let (slot, score) := p.slot.insert c.builder.score m
      let slots := c.builder.slots.set k ⟨slot, p.kinds ++ [x.2]⟩
      some { c with
        builder := { c.builder with score, slots }
        loose := c.loose.erase x
        put := Function.update c.put k (c.put k ++ [x]) }
    | _, _ => none

/-- Makes steps one after another. -/
def run (c : BuildRecord) : List Step → Option BuildRecord
  | [] => some c
  | s :: ss => (c.step s).bind (·.run ss)

end BuildRecord

/-! ## Modifiers that wait -/

namespace Builder.Loose

variable {b b' : Builder} {h : Ownership} {x : Nat} {kind : Modifier.Kind}

theorem congr {h' : Ownership} (hl : b.Loose h x kind)
    (hparent : b'.score.parent? x = b.score.parent? x) (hg : b.score.Grows b'.score)
    (howner : h'.owner x = h.owner x)
    (htop : ∀ i s, (b'.line i).strand = some s → s.top ≠ x) : b'.Loose h' x kind :=
  ⟨hparent.trans hl.parent?, hg.kind? x _ hl.kind?, howner.trans hl.owner, htop⟩

/-- No operation makes it the anchor of a strand. -/
theorem ne_of_isTop (hl : b.Loose h x kind) {i top : Nat} {g' : Score}
    (ht : Strand.IsTop (b.line i).strand b.score g' top) : top ≠ x := by
  unfold Strand.IsTop at ht
  cases hs : (b.line i).strand with
  | some s =>
    rw [hs] at ht
    obtain rfl : top = s.top := ht
    exact hl.top i s hs
  | none =>
    rw [hs] at ht
    exact Nat.ne_of_gt (ht.1 ▸ Score.lt_of_kind? hl.kind?)

/-- Where one line is made anew. -/
theorem top_update {line : Nat → Line} (h : ∀ i s, (line i).strand = some s → s.top ≠ x) (i : Nat)
    {l : Line} (hl : ∀ s, l.strand = some s → s.top ≠ x) (k : Nat) (s : Strand)
    (hs : (Function.update line i l k).strand = some s) : s.top ≠ x := by
  by_cases hk : k = i
  · rw [hk, Function.update_self] at hs
    exact hl s hs
  · rw [Function.update_of_ne hk] at hs
    exact h k s hs

/-- Where one line is made of two, and the other is empty then. -/
theorem top_merge (hl : b.Loose h x kind) {i j : Nat} {l : Line}
    (ht : ∀ s, l.strand = some s → s.top ≠ x) (k : Nat) (s : Strand) :
    (Function.update (Function.update b.line i l) j {} k).strand = some s → s.top ≠ x :=
  top_update (top_update hl.top i ht) j (by simp) k s

end Builder.Loose

namespace Builder.Nested

variable {b b' : Builder} {h : Ownership} {x : Nat} {kind : Modifier.Kind}

theorem loose_modifier (hl : b.Loose h x kind) (kind' : Modifier.Kind) (span : Span) :
    Loose { b with score := (b.score.addModifier kind' span).2 } h x kind :=
  hl.congr (Score.parent?_addModifier ..) (b.score.grows_addModifier kind' span) rfl hl.top

theorem loose_insert (hb : b.Nested h) {k m : Nat} {p : FilledSlot} (hp : b.slots[k]? = some p)
    {kind' : Modifier.Kind} (hm : b.Loose h m kind') (hl : b.Loose h x kind) (hne : x ≠ m)
    (slots : List FilledSlot) :
    Loose { b with score := (p.slot.insert b.score m).2, slots } (h.own k m) x kind := by
  have hins := hb.inserted hp hm
  refine ⟨?_, (hins.kind? x).trans hl.kind?, (h.owner_own_of_ne k hne).trans hl.owner, hl.top⟩
  exact (hins.parent? x (hb.hold.notMem_ids hl.owner) hne).trans hl.parent?

/-- A move leaves the modifiers alone that are in no chain. -/
theorem loose_move (hb : b.Nested h) {m : Move} (hm : b.move m = some b') :
    b.score.Grows b'.score ∧ ∀ x kind, b.Loose h x kind → b'.Loose (h.after b m) x kind := by
  cases m with
  | node content span =>
    obtain rfl := Option.some.inj hm
    have hg := b.score.grows_addNode content span
    exact ⟨hg, fun x kind hl => hl.congr rfl hg rfl hl.top⟩
  | append i n =>
    simp only [Builder.move] at hm
    split at hm
    · rename_i hn
      obtain rfl := Option.some.inj hm
      obtain ⟨htop, -, hg, hparent, -⟩ := Strand.append_chains (b.line i).strand b.score hn.1
      refine ⟨hg, fun x kind hl => hl.congr (hparent x) hg rfl (Loose.top_update hl.top i ?_)⟩
      rintro s ⟨⟩
      exact hl.ne_of_isTop htop
    · simp at hm
  | branch i j =>
    simp only [Builder.move] at hm
    split at hm
    · simp at hm
    · obtain rfl := Option.some.inj hm
      cases ho : (b.line j).strand with
      | none =>
        exact ⟨.refl _, fun x kind hl => hl.congr rfl (.refl _) rfl (hl.top_merge (hl.top i))⟩
      | some o =>
        cases hs : (b.line i).strand with
        | none =>
          refine ⟨.refl _, fun x kind hl => hl.congr rfl (.refl _) rfl (hl.top_merge ?_)⟩
          rintro s ⟨⟩
          exact hl.top j o ho
        | some s =>
          have hao := hb.anchor_top ho
          obtain ⟨hg, hparent, -⟩ := Strand.branch_chains s o b.score (Score.lt_of_kind? hao.kind?)
          refine ⟨hg, fun x kind hl =>
            hl.congr ((hparent x).trans (if_neg (hl.top j o ho).symm)) hg rfl (hl.top_merge ?_)⟩
          rintro s' ⟨⟩
          exact hl.top i s hs
  | concat i j =>
    simp only [Builder.move] at hm
    split at hm
    · simp at hm
    · obtain rfl := Option.some.inj hm
      simp only [Ownership.after]
      cases ho : (b.line j).strand with
      | none =>
        cases hs : (b.line i).strand with
        | none =>
          exact ⟨.refl _, fun x kind hl => hl.congr rfl (.refl _) rfl
            (hl.top_merge (by simp [Strand.concat]))⟩
        | some s =>
          refine ⟨.refl _, fun x kind hl => hl.congr rfl (.refl _) rfl (hl.top_merge ?_)⟩
          rintro s' ⟨⟩
          exact hl.top i s hs
      | some o =>
        have hao := hb.anchor_top ho
        obtain ⟨s', hs', htop, -, hg, hparent, -⟩ :=
          Strand.concat_chains (b.line i).strand o b.score (Score.lt_of_kind? hao.kind?)
        refine ⟨hg, fun x kind hl => ?_⟩
        have hne := (hl.top j o ho).symm
        refine hl.congr ((hparent x).trans (if_neg hne)) hg (h.owner_own_of_ne _ hne)
          (hl.top_merge fun s hs => ?_)
        obtain rfl := Option.some.inj (hs'.symm.trans hs)
        exact hl.ne_of_isTop htop
  | suffix k kind' span =>
    obtain ⟨p, hp, rfl⟩ := Option.map_eq_some_iff.1 hm
    obtain ⟨hb', hnew⟩ := hb.modifier kind' span
    have hins := hb'.inserted hp hnew
    have hg := b.score.grows_addModifier kind' span
    refine ⟨⟨?_, ?_, fun x c hx => (hins.kind? x).trans (hg.kind? x c hx),
      fun n c hc => (hins.content? n).trans hc⟩, fun x kind hl => ?_⟩
    · exact Nat.le_trans hg.modifiers (Nat.le_of_eq hins.modifiers.symm)
    · exact Nat.le_of_eq hins.nodes.symm
    · exact hb'.loose_insert hp hnew (loose_modifier hl kind' span)
        (Nat.ne_of_lt (Score.lt_of_kind? hl.kind?)) _

end Builder.Nested

/-! ## The record and the score -/

/-- The modifiers among `ids` that are no anchors, with what they do. -/
def Score.labels (g : Score) (ids : List Nat) : List (Nat × Modifier.Kind) :=
  (ids.filterMap fun m => (g.kind? m).map (m, ·)).filter (·.2 ≠ .anchor)

namespace Score

variable {g : Score}

theorem labels_append (ids ids' : List Nat) :
    g.labels (ids ++ ids') = g.labels ids ++ g.labels ids' := by
  simp only [labels, List.filterMap_append, List.filter_append]

theorem labels_flatMap (ks : List Nat) (ids : Nat → List Nat) :
    g.labels (ks.flatMap ids) = ks.flatMap fun k => g.labels (ids k) := by
  simp only [labels, List.filterMap_flatMap, List.filter_flatMap]

theorem labels_proper (ids : List Nat) : g.labels (g.proper ids) = g.labels ids := by
  rw [labels, labels, proper, List.filterMap_filter, List.filter_filterMap, List.filter_filterMap]
  refine List.filterMap_congr fun m _ => ?_
  cases hk : g.kind? m with
  | none => simp
  | some k => by_cases hk : k = .anchor <;> simp [hk, Option.filter]

theorem labels_congr {g' : Score} {ids : List Nat} (h : ∀ m ∈ ids, g'.kind? m = g.kind? m) :
    g'.labels ids = g.labels ids := by
  rw [labels, labels]
  exact congrArg _ (List.filterMap_congr fun m hm => by rw [h m hm])

end Score

namespace Builder.Nested

variable {b b' : Builder} {h : Ownership}

/-- What a modifier in a slot does stays the same. -/
theorem kind?_ids (hb : b.Nested h) {g' : Score} (hg : b.score.Grows g') {k m : Nat}
    (hm : m ∈ h.ids k) : g'.kind? m = b.score.kind? m := by
  cases hp : b.slots[k]? with
  | none =>
    rw [hb.spare k (List.getElem?_eq_none_iff.1 hp)] at hm
    simp at hm
  | some p =>
    obtain ⟨kind, hkind⟩ := (hb.filled k p hp).kind?_eq_some hm
    rw [hkind, hg.kind? m kind hkind]

/-- A slot gets nothing but an anchor from a move without a suffix. -/
theorem labels_after (hb : b.Nested h) {m : Move} (hm : b.move m = some b')
    (hsuffix : ∀ k kind span, m ≠ .suffix k kind span) (k : Nat) :
    b'.score.labels ((h.after b m).ids k) = b.score.labels (h.ids k) := by
  obtain ⟨hg, -⟩ := hb.loose_move hm
  have hsame : b'.score.labels (h.ids k) = b.score.labels (h.ids k) :=
    Score.labels_congr fun x hx => hb.kind?_ids hg hx
  cases m with
  | node | append | branch => exact hsame
  | suffix k kind span => exact absurd rfl (hsuffix k kind span)
  | concat i j =>
    simp only [Ownership.after]
    cases ho : (b.line j).strand with
    | none => exact hsame
    | some o =>
      by_cases hk : k = b.slots.length
      · have hanchor := hg.kind? _ _ (hb.anchor_top ho).kind?
        have hnone : b'.score.labels [o.top] = [] := by simp [Score.labels, hanchor]
        rw [hk] at hsame ⊢
        rw [h.ids_own_self, Score.labels_append, hsame, hnone, List.append_nil]
      · rw [h.ids_own_of_ne hk]
        exact hsame

end Builder.Nested

namespace Plan

/-- What is around a plan comes last. -/
theorem slots_append (p : Plan) (inner outer : List Nat) :
    p.slots (inner ++ outer) = (p.slots inner).map fun x => (x.1, x.2 ++ outer) := by
  induction p generalizing inner with
  | empty | node => rfl
  | branch p q ihp ihq => rw [slots, slots, List.map_append, ihp, ihq]
  | seq p q k ihp ihq =>
    cases k with
    | none => rw [slots, slots, List.map_append, ihp, ihq]
    | some k => rw [slots, slots, List.map_append, ihp, ← List.cons_append, ihq]

end Plan

namespace BuildRecord

/-- The modifiers that are no anchors, put into the slots around a node, from the inside out. -/
def labels (c : BuildRecord) (n : Nat) : List (Nat × Modifier.Kind) :=
  ((c.around n).flatMap c.put).filter (·.2 ≠ .anchor)

/-- The score agrees with the record. -/
structure Faithful (c : BuildRecord) (h : Ownership) : Prop where
  sound : c.builder.Sound
  nested : c.builder.Nested h
  loose : ∀ x ∈ c.loose, c.builder.Loose h x.1 x.2
  distinct : (c.loose.map Prod.fst).Nodup
  put : ∀ k, c.builder.score.labels (h.ids k) = (c.put k).filter (·.2 ≠ .anchor)
  around : ∀ i, ∀ x ∈ (c.builder.line i).plan.slots [], c.around x.1 = x.2

namespace Faithful

variable {c c' : BuildRecord} {h : Ownership}

theorem start : Faithful {} {} where
  sound := .start
  nested := .start
  loose x hx := by simp at hx
  distinct := List.nodup_nil
  put _ := rfl
  around i x hx := by simp [Plan.slots] at hx

/-- A move, with what is around the nodes then. -/
theorem moved (hc : c.Faithful h) {m : Builder.Move} {builder : Builder}
    (hm : c.builder.move m = some builder) (hsuffix : ∀ k kind span, m ≠ .suffix k kind span)
    {around : Nat → List Nat}
    (haround : ∀ i, ∀ x ∈ (builder.line i).plan.slots [], around x.1 = x.2) :
    Faithful { c with builder, around } (h.after c.builder m) where
  sound := hc.sound.move m hm
  nested := hc.nested.move hm
  loose x hx := (hc.nested.loose_move hm).2 x.1 x.2 (hc.loose x hx)
  distinct := hc.distinct
  put k := (hc.nested.labels_after hm hsuffix k).trans (hc.put k)
  around := haround

theorem modifier (hc : c.Faithful h) (kind : Modifier.Kind) (span : Span) :
    Faithful { c with
      builder := { c.builder with score := (c.builder.score.addModifier kind span).2 }
      loose := c.loose ++ [(c.builder.score.modifiers.size, kind)] } h := by
  obtain ⟨hnested, hnew⟩ := hc.nested.modifier kind span
  have hg := c.builder.score.grows_addModifier kind span
  refine ⟨?_, hnested, ?_, ?_, fun k => ?_, hc.around⟩
  · exact hc.sound.same rfl rfl (fun _ n _ => .of_nodes (Score.nodes_addModifier ..) n)
      fun _ hn => hn
  · refine List.forall_mem_append.2 ⟨fun x hx => ?_, by simpa using hnew⟩
    exact Builder.Nested.loose_modifier (hc.loose x hx) kind span
  · rw [List.map_append, List.map_singleton]
    refine List.nodup_append'.2 ⟨hc.distinct, List.nodup_singleton _, ?_⟩
    simp only [List.disjoint_singleton, List.mem_map, not_exists, not_and]
    exact fun x hx => Nat.ne_of_lt (Score.lt_of_kind? (hc.loose x hx).kind?)
  · rw [← hc.put k]
    exact Score.labels_congr fun m hm => hc.nested.kind?_ids hg hm

theorem insert (hc : c.Faithful h) {k : Nat} {p : FilledSlot} {x : Nat × Modifier.Kind}
    (hp : c.builder.slots[k]? = some p) (hx : x ∈ c.loose) :
    let r := p.slot.insert c.builder.score x.1
    Faithful { c with
      builder := { c.builder with
        score := r.2
        slots := c.builder.slots.set k ⟨r.1, p.kinds ++ [x.2]⟩ }
      loose := c.loose.erase x
      put := Function.update c.put k (c.put k ++ [x]) } (h.own k x.1) := by
  intro r
  have hloose := hc.loose x hx
  have hins := hc.nested.inserted hp hloose
  have hlinks := fun n => p.slot.sameLinks_insert c.builder.score x.1 n
  have hsame : ∀ ids, r.2.labels ids = c.builder.score.labels ids := fun ids =>
    Score.labels_congr fun m _ => hins.kind? m
  refine ⟨?_, hc.nested.insert hp hloose, fun y hy => ?_, ?_, fun j => ?_, hc.around⟩
  · refine hc.sound.same rfl rfl (fun _ n _ => hlinks n) fun n hn => ?_
    rw [(hlinks n).next?, (hlinks n).sibling?]
    exact hn
  · have hne : y.1 ≠ x.1 := by
      intro heq
      obtain ⟨hyx, hmem⟩ := (List.Nodup.mem_erase_iff (.of_map _ hc.distinct)).1 hy
      exact hyx (List.inj_on_of_nodup_map hc.distinct hmem hx heq)
    exact hc.nested.loose_insert hp hloose (hc.loose y (List.mem_of_mem_erase hy)) hne _
  · exact hc.distinct.sublist (List.erase_sublist.map _)
  · show r.2.labels ((h.own k x.1).ids j) =
      (Function.update c.put k (c.put k ++ [x]) j).filter (·.2 ≠ .anchor)
    rw [hsame]
    by_cases hj : j = k
    · have hlabel : c.builder.score.labels [x.1] = [x].filter (·.2 ≠ .anchor) := by
        simp [Score.labels, hloose.kind?]
      rw [hj, h.ids_own_self, Function.update_self, Score.labels_append, List.filter_append,
        hc.put, hlabel]
    · rw [h.ids_own_of_ne hj, Function.update_of_ne hj, hc.put]

theorem mem_nodes {i : Nat} {x : Nat × List Nat} (hx : x ∈ (c.builder.line i).plan.slots []) :
    x.1 ∈ (c.builder.line i).nodes := by
  rw [Line.nodes, ← Plan.map_fst_slots _ []]
  exact List.mem_map_of_mem hx

/-- Around a node that is appended is its own slot. -/
theorem append (hc : c.Faithful h) {i n : Nat} {builder : Builder}
    (hm : c.builder.move (.append i n) = some builder) :
    Faithful { c with
      builder
      around := Function.update c.around n [c.builder.slots.length] } h := by
  refine hc.moved hm (by simp) ?_
  simp only [Builder.move] at hm
  split at hm
  · rename_i hn
    obtain rfl := Option.some.inj hm
    have hold : ∀ j, ∀ x ∈ (c.builder.line j).plan.slots [],
        Function.update c.around n [c.builder.slots.length] x.1 = x.2 := by
      intro j x hx
      have hne : x.1 ≠ n := ne_of_mem_of_not_mem (hc.sound.placed j x.1 (mem_nodes hx)) hn.2
      rw [Function.update_of_ne hne]
      exact hc.around j x hx
    intro j x hx
    by_cases hj : j = i
    · simp only [hj, Function.update_self, Plan.slots] at hx
      rcases List.mem_append.1 hx with hx | hx
      · exact hold i x hx
      · rw [List.mem_singleton.1 hx]
        exact Function.update_self ..
    · simp only [Function.update_of_ne hj] at hx
      exact hold j x hx
  · simp at hm

/-- Where one line is made of two, and the other is empty then. -/
theorem around_merge (c : BuildRecord) (around : Nat → List Nat) {i j : Nat} {l : Line}
    (hold : ∀ k, k ≠ j → ∀ x ∈ (c.builder.line k).plan.slots [], around x.1 = x.2)
    (hl : ∀ x ∈ l.plan.slots [], around x.1 = x.2) (k : Nat) :
    ∀ x ∈ (Function.update (Function.update c.builder.line i l) j {} k).plan.slots [],
      around x.1 = x.2 := by
  by_cases hkj : k = j
  · rw [hkj, Function.update_self]
    simp [Plan.slots]
  · rw [Function.update_of_ne hkj]
    by_cases hki : k = i
    · rw [hki, Function.update_self]
      exact hl
    · rw [Function.update_of_ne hki]
      exact hold k hkj

/-- Branches have nothing around them but what is around them all. -/
theorem branch (hc : c.Faithful h) {i j : Nat} {builder : Builder}
    (hm : c.builder.move (.branch i j) = some builder) : Faithful { c with builder } h := by
  refine hc.moved hm (by simp) ?_
  simp only [Builder.move] at hm
  split at hm
  · simp at hm
  · obtain rfl := Option.some.inj hm
    exact around_merge c c.around (fun k _ => hc.around k)
      (List.forall_mem_append.2 ⟨hc.around i, hc.around j⟩)

/-- The nodes of a group have the slot of the group around them. -/
theorem concat (hc : c.Faithful h) {i j : Nat} {builder : Builder}
    (hm : c.builder.move (.concat i j) = some builder) :
    Faithful { c with
      builder
      around := fun n =>
        if n ∈ (c.builder.line j).nodes then c.around n ++ [c.builder.slots.length]
        else c.around n }
      (h.after c.builder (.concat i j)) := by
  refine hc.moved hm (by simp) ?_
  simp only [Builder.move] at hm
  split at hm
  · simp at hm
  · rename_i hij
    obtain rfl := Option.some.inj hm
    let around : Nat → List Nat := fun n =>
      if n ∈ (c.builder.line j).nodes then c.around n ++ [c.builder.slots.length] else c.around n
    have hold : ∀ k, k ≠ j → ∀ x ∈ (c.builder.line k).plan.slots [], around x.1 = x.2 := by
      intro k hk x hx
      exact (if_neg (hc.sound.disjoint k j hk (mem_nodes hx))).trans (hc.around k x hx)
    refine around_merge c around hold ?_
    cases ho : (c.builder.line j).strand with
    | none =>
      have hnil : (c.builder.line j).plan.nodes = [] := by
        have hl := hc.sound.line j
        rwa [Line.Sound, ho] at hl
      have hslots : (c.builder.line j).plan.slots [] = [] := by
        rw [← List.map_eq_nil_iff, Plan.map_fst_slots, hnil]
      have hnone : (Strand.concat (c.builder.line i).strand none c.builder.score).2.1 = none := by
        cases (c.builder.line i).strand <;> rfl
      rw [hnone, Option.map_none, Plan.slots, hslots, List.append_nil]
      exact hold i hij
    | some o =>
      obtain ⟨slot, hsome⟩ : ∃ slot,
          (Strand.concat (c.builder.line i).strand (some o) c.builder.score).2.1 = some slot := by
        cases (c.builder.line i).strand <;> exact ⟨_, rfl⟩
      rw [hsome, Option.map_some, Plan.slots]
      refine List.forall_mem_append.2 ⟨hold i hij, ?_⟩
      rw [← List.nil_append [c.builder.slots.length], Plan.slots_append]
      intro x hx
      obtain ⟨y, hy, rfl⟩ := List.mem_map.1 hx
      exact (if_pos (mem_nodes hy)).trans (by rw [hc.around j y hy])

/-- **Every step keeps the record faithful.** -/
theorem step (hc : c.Faithful h) {s : Step} (hs : c.step s = some c') : ∃ h', c'.Faithful h' := by
  cases s with
  | node content span =>
    obtain rfl := Option.some.inj hs
    exact ⟨h, hc.moved (m := .node content span) rfl (by simp) hc.around⟩
  | modifier kind span =>
    obtain rfl := Option.some.inj hs
    exact ⟨h, hc.modifier kind span⟩
  | append i n =>
    obtain ⟨builder, hm, rfl⟩ := Option.map_eq_some_iff.1 hs
    exact ⟨h, hc.append hm⟩
  | branch i j =>
    obtain ⟨builder, hm, rfl⟩ := Option.map_eq_some_iff.1 hs
    exact ⟨h, hc.branch hm⟩
  | concat i j =>
    obtain ⟨builder, hm, rfl⟩ := Option.map_eq_some_iff.1 hs
    exact ⟨_, hc.concat hm⟩
  | insert k m =>
    simp only [BuildRecord.step] at hs
    split at hs
    · rename_i p x hp hx
      obtain rfl := Option.some.inj hs
      obtain rfl : x.1 = m := by simpa using List.find?_some hx
      exact ⟨_, hc.insert hp (List.mem_of_find?_eq_some hx)⟩
    · simp at hs

theorem run (hc : c.Faithful h) (ss : List Step) (hr : c.run ss = some c') :
    ∃ h', c'.Faithful h' := by
  induction ss generalizing c h with
  | nil =>
    obtain rfl := Option.some.inj hr
    exact ⟨h, hc⟩
  | cons s ss ih =>
    obtain ⟨d, hd, hr⟩ := Option.bind_eq_some_iff.1 hr
    obtain ⟨h', hd⟩ := hc.step hd
    exact ih hd hr

/-- The chain of a node, as the record has it. -/
theorem exists_path (hc : c.Faithful h) {i n : Nat} (hn : n ∈ (c.builder.line i).nodes) :
    ∃ l, c.builder.score.Path (c.builder.score.modifier? n) l none ∧
      (∀ m ∈ l, m < c.builder.score.modifiers.size) ∧ c.builder.score.labels l = c.labels n := by
  obtain ⟨s, hs⟩ := hc.sound.exists_strand hn
  rw [Line.nodes, ← Plan.map_fst_slots _ []] at hn
  obtain ⟨⟨n', ks⟩, hslots, rfl⟩ := List.mem_map.1 hn
  obtain ⟨l, hpath, hlt, hl⟩ := hc.nested.leads hs hslots
  refine ⟨l, hpath, hlt, ?_⟩
  have hks : c.around n' = ks := hc.around i _ hslots
  rw [← Score.labels_proper, hl, Score.labels_proper, Score.labels_flatMap, labels, hks,
    List.filter_flatMap]
  exact List.flatMap_congr fun k _ => hc.put k

end Faithful

end BuildRecord

/-! ## The pitch of a note -/

theorem Score.map_snd_labels (g : Score) (ids : List Nat) :
    (g.labels ids).map Prod.snd = Modifier.proper (ids.filterMap g.kind?) := by
  rw [labels, Modifier.proper, List.filter_filterMap, List.filter_filterMap, List.map_filterMap]
  refine List.filterMap_congr fun m _ => ?_
  cases g.kind? m with
  | none => rfl
  | some k => by_cases hk : k = .anchor <;> simp [hk, Option.filter]

/-- **The modifiers of a node follow the nesting, in whatever order the score was made**: going
outwards from a node one comes to an end, and meets, apart from anchors, what was put into the
node's own slot and then what was put into the slots of the groups around it. The pitch of a note is
moved by just these and brought between 0 and 131; a sum that does not fit into 32 bits wraps around
before. -/
theorem modifiersOf_of_steps (ss : List BuildRecord.Step) (c : BuildRecord)
    (hr : BuildRecord.run {} ss = some c) (i n : Nat) (hn : n ∈ (c.builder.line i).nodes) :
    ∃ (x : Node) (l : List Nat), c.builder.score.nodes[n]? = some x ∧
      c.builder.score.Path x.modifier l none ∧
      (c.builder.score.modifiersOf x).map some = l.map (c.builder.score.modifiers[·]?) ∧
      c.builder.score.labels l = c.labels n ∧
      ∀ pitch velocity division, x.content = .note pitch velocity →
        let sum := pitch.toInt + Modifier.semitones ((c.labels n).map Prod.snd)
        ((c.builder.score.resolve x division).pitch : Int) =
            max 0 (min 131 (sum.bmod 0x100000000)) ∧
          (-0x80000000 ≤ sum → sum ≤ 0x7FFFFFFF →
            ((c.builder.score.resolve x division).pitch : Int) = max 0 (min 131 sum)) := by
  obtain ⟨h, hc⟩ := BuildRecord.Faithful.start.run ss hr
  obtain ⟨x, hx⟩ : ∃ x, c.builder.score.nodes[n]? = some x :=
    ⟨_, Array.getElem?_eq_getElem (hc.sound.lt_size hn)⟩
  obtain ⟨l, hpath, hlt, hl⟩ := hc.exists_path hn
  have hpath' : c.builder.score.Path x.modifier l none := by
    rw [Score.modifier?, hx] at hpath
    exact hpath
  refine ⟨x, l, hx, hpath', Score.map_modifiersOf hpath' hlt, hl, ?_⟩
  intro pitch velocity division hnote sum
  have hkinds : Modifier.semitones ((c.builder.score.modifiersOf x).map (·.kind)) =
      Modifier.semitones ((c.labels n).map Prod.snd) := by
    rw [← hl, Score.map_snd_labels, Modifier.semitones_proper,
      Score.map_kind_modifiersOf hx hpath hlt]
  have hpitch : ((c.builder.score.resolve x division).pitch : Int) =
      max 0 (min 131 (sum.bmod 0x100000000)) := by
    rw [Score.pitch_resolve _ hnote, hkinds]
    exact Int.toNat_of_nonneg (Int.le_max_left ..)
  refine ⟨hpitch, fun hlow hhigh => ?_⟩
  rw [hpitch, Int.bmod_eq_of_le (by omega) (by omega)]

/-- The steps for a group in a group, `{{x#b|y}'z}`, with the largest pitch of all at `y`. All
modifiers are made first and those of the first note are put in last. -/
def wrappedGroup : List BuildRecord.Step :=
  [60, 0x7FFFFFFF, 200].map (fun pitch => .node (.note pitch 80) {}) ++
    [.sharp, .flat, .octaveUp].map (.modifier · {}) ++
    [.append 0 0, .append 1 1, .branch 0 1, .concat 2 0, .insert 2 2, .append 2 2, .concat 3 2,
      .insert 0 0, .insert 0 1]

theorem modifiersOf_wrappedGroup : ∃ c, BuildRecord.run {} wrappedGroup = some c ∧
    c.labels 0 = [(0, .sharp), (1, .flat), (2, .octaveUp)] ∧ c.labels 1 = [(2, .octaveUp)] ∧
    c.labels 2 = [] ∧ ∃ x y z : Node, c.builder.score.nodes[0]? = some x ∧
      c.builder.score.nodes[1]? = some y ∧ c.builder.score.nodes[2]? = some z ∧
      (∃ l, c.builder.score.Path x.modifier l none ∧ c.builder.score.labels l = c.labels 0) ∧
      ((c.builder.score.resolve x 480).pitch : Int) = 72 ∧
      ((c.builder.score.resolve y 480).pitch : Int) = 0 ∧
      ((c.builder.score.resolve z 480).pitch : Int) = 131 := by
  obtain ⟨x, l, hx, hpath, -, hl, hpitch⟩ :=
    modifiersOf_of_steps wrappedGroup _ rfl 3 0 (by decide)
  obtain ⟨y, -, hy, -, -, -, hpitch₁⟩ := modifiersOf_of_steps wrappedGroup _ rfl 3 1 (by decide)
  obtain ⟨z, -, hz, -, -, -, hpitch₂⟩ := modifiersOf_of_steps wrappedGroup _ rfl 3 2 (by decide)
  have hnote : x.content = .note 60 80 := by cases hx; rfl
  have hnote₁ : y.content = .note 0x7FFFFFFF 80 := by cases hy; rfl
  have hnote₂ : z.content = .note 200 80 := by cases hz; rfl
  exact ⟨_, rfl, by decide, by decide, by decide, x, y, z, hx, hy, hz, ⟨l, hpath, hl⟩,
    (hpitch 60 80 480 hnote).2 (by decide) (by decide), (hpitch₁ _ 80 480 hnote₁).1,
    (hpitch₂ 200 80 480 hnote₂).2 (by decide) (by decide)⟩

end Jianpu
