import Jianpu.Proofs.Score.Shape
import Mathlib.Data.List.Lattice
import Mathlib.Logic.Function.Basic

/-!
# Making strands

A builder makes strands: it has a score, any number of lines with a strand under construction on
each, and the slots for suffixes that were given out on the way. A `Builder.Move` adds a node,
appends a node to a line, puts the strand of one line beside or after that of another, which is then
empty, or puts a suffix into a slot. A node is appended only once.

`Builder.Sound` is kept by every move (`Builder.Sound.move`), so it holds after any number of them.
What it says about the links of a strand, seen from the whole score, is `ForkJoin`.
-/

namespace Jianpu

/-- A line of a builder: the strand on it, if there is one yet, and how it was made. -/
structure Line where
  strand : Option Strand := none
  plan : Plan := .empty
  deriving DecidableEq, Repr

namespace Line

/-- The nodes of the strand on a line. -/
abbrev nodes (l : Line) : List Nat := l.plan.nodes

/-- The strand on a line is woven from its nodes, and starts and links them by its plan. -/
def Sound (g : Score) (l : Line) : Prop :=
  match l.strand with
  | none => l.nodes = []
  | some s => Woven g s l.nodes ∧ Timed g s l.plan ∧ Drawn g s l.plan.shape

variable {g : Score} {l o : Line}

theorem Sound.congr {g' : Score} (h : l.Sound g) (hl : ∀ n ∈ l.nodes, Score.SameLinks g g' n) :
    l.Sound g' := by
  unfold Sound at h ⊢
  split at h
  · exact h
  · exact ⟨h.1.congr hl, h.2.1.congr hl, h.2.2.congr (by simpa using hl)⟩

/-- A node put at the end of a line. -/
theorem Sound.append (h : l.Sound g) {n : Nat} (k : Nat) (hn : n < g.nodes.size)
    (hmem : n ∉ l.nodes) (hnext : g.next? n = none) (hsib : g.sibling? n = none) :
    Sound (Strand.append l.strand g n).2.2
        ⟨some (Strand.append l.strand g n).1, .seq l.plan (.node n k) none⟩ ∧
      ∀ m, m ∉ l.nodes ++ [n] → Score.SameLinks g (Strand.append l.strand g n).2.2 m := by
  obtain ⟨strand, plan⟩ := l
  cases strand with
  | none =>
    have hnil : plan.nodes = [] := h
    have hlinks : ∀ m, Score.SameLinks g (Strand.append none g n).2.2 m := fun m =>
      (Score.SameLinks.of_nodes (Score.nodes_addModifier ..) m).trans
        (Score.sameLinks_setModifier ..)
    refine ⟨⟨?_, ?_, ?_⟩, fun m _ => hlinks m⟩
    · change Woven _ _ (plan.nodes ++ [n])
      rw [hnil]
      exact (Woven.single _ hn hnext hsib).congr fun m _ => hlinks m
    · exact ((Timed.single _ k hnext hsib).congr fun m _ => hlinks m).empty_seq hnil _
    · rw [Plan.shape, Plan.shape_of_nodes_eq_nil hnil]
      exact (Drawn.single _ hnext hsib).congr fun m _ => hlinks m
  | some s =>
    obtain ⟨hw, ht, hdraw⟩ : Woven g s plan.nodes ∧ Timed g s plan ∧ Drawn g s plan.shape := h
    have hwn : Woven g ⟨n, n, n, s.top, []⟩ (Plan.node n k).nodes := Woven.single _ hn hnext hsib
    have hd : plan.nodes.Disjoint (Plan.node n k).nodes := by
      simpa [Plan.nodes] using hmem
    have hc : s.Connected n g (Strand.append (some s) g n).2.2 :=
      (Strand.connected_connect s g n (fun t ht => hw.bound t (hw.tail_mem ht)) hn).of_sameLinks
        fun m => Score.sameLinks_setModifier ..
    have htn := Timed.single s.top k hnext hsib
    refine ⟨⟨hw.connect hwn hd hc, Timed.connect hw hwn hd hc ht htn none,
      hdraw.connect (by simpa using hw) hwn (plan.toList_shape ▸ hd) hc
        (.single s.top hnext hsib)⟩, ?_⟩
    intro m hm
    rw [List.mem_append, List.mem_singleton, not_or] at hm
    exact ⟨by rw [hc.next?, if_neg fun ht => hm.1 (hw.tail_mem ht)], hc.sibling? m,
      by rw [hc.join?, if_neg hm.2]⟩

/-- The links of a strand that another one is put beside. -/
theorem branched_branch {s : Strand} {ns : List Nat} (hw : Woven g s ns) (o : Strand) :
    s.Branched o.head g (Strand.branch (some s) (some o) g).2 :=
  (Strand.branched_setSibling s g o.head (hw.bound _ hw.lastSibling_mem)).of_sameLinks
    fun m => .of_nodes (Score.nodes_setParent ..) m

/-- A strand put beside that of a line. -/
theorem Sound.branch (h : l.Sound g) (ho : o.Sound g) (hd : l.nodes.Disjoint o.nodes) :
    Sound (Strand.branch l.strand o.strand g).2
        ⟨(Strand.branch l.strand o.strand g).1, .branch l.plan o.plan⟩ ∧
      ∀ m, m ∉ l.nodes ++ o.nodes →
        Score.SameLinks g (Strand.branch l.strand o.strand g).2 m := by
  obtain ⟨strand, plan⟩ := l
  obtain ⟨other, plan'⟩ := o
  cases other with
  | none =>
    have hnil : plan'.nodes = [] := ho
    refine ⟨?_, fun m _ => .refl g m⟩
    cases strand with
    | none => exact List.append_eq_nil_iff.2 ⟨h, hnil⟩
    | some s =>
      refine ⟨?_, h.2.1.branch_empty hnil, ?_⟩
      · change Woven g s (plan.nodes ++ plan'.nodes)
        rw [hnil, List.append_nil]
        exact h.1
      · rw [Plan.shape, Plan.shape_of_nodes_eq_nil hnil, Shape.beside_nil]
        exact h.2.2
  | some o =>
    obtain ⟨hwo, hto, hdo⟩ : Woven g o plan'.nodes ∧ Timed g o plan' ∧ Drawn g o plan'.shape := ho
    cases strand with
    | none =>
      have hnil : plan.nodes = [] := h
      refine ⟨⟨?_, hto.empty_branch hnil, ?_⟩, fun m _ => .refl g m⟩
      · change Woven g o (plan.nodes ++ plan'.nodes)
        rw [hnil]
        exact hwo
      · rw [Plan.shape, Plan.shape_of_nodes_eq_nil hnil, Shape.nil_beside]
        exact hdo
    | some s =>
      obtain ⟨hw, ht, hdraw⟩ : Woven g s plan.nodes ∧ Timed g s plan ∧ Drawn g s plan.shape := h
      have hb := branched_branch hw o
      refine ⟨⟨hw.branch hwo hd hb, Timed.branch hw hwo hb ht hto, hdraw.branch (by simpa using hw)
        (by simpa using hwo) (by simpa using hd) hb hdo⟩, ?_⟩
      intro m hm
      rw [List.mem_append, not_or] at hm
      have hne : m ≠ s.lastSibling := fun heq => hm.1 (heq ▸ hw.lastSibling_mem)
      exact ⟨hb.next? m, by rw [hb.sibling?, if_neg hne], hb.join? m⟩

/-- A strand put after that of a line. -/
theorem Sound.concat (h : l.Sound g) (ho : o.Sound g) (hd : l.nodes.Disjoint o.nodes)
    (k : Option Nat) :
    Sound (Strand.concat l.strand o.strand g).2.2
        ⟨(Strand.concat l.strand o.strand g).1, .seq l.plan o.plan k⟩ ∧
      ∀ m, m ∉ l.nodes ++ o.nodes →
        Score.SameLinks g (Strand.concat l.strand o.strand g).2.2 m := by
  obtain ⟨strand, plan⟩ := l
  obtain ⟨other, plan'⟩ := o
  cases other with
  | none =>
    have hnil : plan'.nodes = [] := ho
    refine ⟨?_, fun m _ => .refl g m⟩
    cases strand with
    | none => exact List.append_eq_nil_iff.2 ⟨h, hnil⟩
    | some s =>
      refine ⟨?_, h.2.1.seq_empty hnil k, ?_⟩
      · change Woven g s (plan.nodes ++ plan'.nodes)
        rw [hnil, List.append_nil]
        exact h.1
      · rw [Plan.shape, Plan.shape_of_nodes_eq_nil hnil, Shape.append_nil]
        exact h.2.2
  | some o =>
    obtain ⟨hwo, hto, hdo⟩ : Woven g o plan'.nodes ∧ Timed g o plan' ∧ Drawn g o plan'.shape := ho
    cases strand with
    | none =>
      have hnil : plan.nodes = [] := h
      have hlinks : ∀ m, Score.SameLinks g (Strand.concat none (some o) g).2.2 m := fun m =>
        (Score.SameLinks.of_nodes (Score.nodes_addModifier ..) m).trans
          (.of_nodes (Score.nodes_setParent ..) m)
      refine ⟨⟨?_, ?_, ?_⟩, fun m _ => hlinks m⟩
      · change Woven _ _ (plan.nodes ++ plan'.nodes)
        rw [hnil]
        exact (hwo.withTop _).congr fun m _ => hlinks m
      · exact ((hto.withTop _).congr fun m _ => hlinks m).empty_seq hnil k
      · rw [Plan.shape, Plan.shape_of_nodes_eq_nil hnil]
        exact (hdo.withTop _).congr fun m _ => hlinks m
    | some s =>
      obtain ⟨hw, ht, hdraw⟩ : Woven g s plan.nodes ∧ Timed g s plan ∧ Drawn g s plan.shape := h
      have hc : s.Connected o.head g (Strand.concat (some s) (some o) g).2.2 :=
        (Strand.connected_connect s g o.head (fun t ht => hw.bound t (hw.tail_mem ht))
          (hwo.bound _ hwo.head_mem)).of_sameLinks fun m => .of_nodes (Score.nodes_setParent ..) m
      refine ⟨⟨hw.connect hwo hd hc, Timed.connect hw hwo hd hc ht hto k, hdraw.connect
        (by simpa using hw) (by simpa using hwo) (by simpa using hd) hc hdo⟩, ?_⟩
      intro m hm
      rw [List.mem_append, not_or] at hm
      have hne : m ≠ o.head := fun heq => hm.2 (heq ▸ hwo.head_mem)
      exact ⟨by rw [hc.next?, if_neg fun ht => hm.1 (hw.tail_mem ht)], hc.sibling? m,
        by rw [hc.join?, if_neg hne]⟩

end Line

/-! ## The builder -/

/-- A slot that was given out, and the suffixes put into it, in order. -/
structure FilledSlot where
  slot : Slot
  kinds : List Modifier.Kind := []
  deriving DecidableEq, Repr

/-- Strands under construction on the lines of a score. -/
structure Builder where
  score : Score := {}
  line : Nat → Line := fun _ => {}
  /-- The slots, by number. -/
  slots : List FilledSlot := []
  /-- The nodes that were appended. -/
  placed : List Nat := []

namespace Builder

/-- A step in making strands. -/
inductive Move where
  /-- Adds a node to the score. -/
  | node (content : Content) (span : Span)
  /-- Appends a node to a line. -/
  | append (line node : Nat)
  /-- Puts the strand of another line beside that of a line. -/
  | branch (line other : Nat)
  /-- Puts the strand of another line after that of a line. -/
  | concat (line other : Nat)
  /-- Puts a new modifier into a slot. -/
  | suffix (slot : Nat) (kind : Modifier.Kind) (span : Span)
  deriving DecidableEq, Repr

/-- Makes a move. There is no move with a line that is its own operand, with a node that does not
exist or was appended before, or with a slot that was not given out. -/
def move (b : Builder) : Move → Option Builder
  | .node content span => some { b with score := (b.score.addNode content span).2 }
  | .append i n =>
    if n < b.score.nodes.size ∧ n ∉ b.placed then
      let (strand, slot, score) := Strand.append (b.line i).strand b.score n
      let plan := (b.line i).plan.seq (.node n b.slots.length) none
      some {
        score
        line := Function.update b.line i ⟨some strand, plan⟩
        slots := b.slots ++ [⟨slot, []⟩]
        placed := n :: b.placed }
    else none
  | .branch i j =>
    if i = j then none
    else
      let (strand, score) := Strand.branch (b.line i).strand (b.line j).strand b.score
      let plan := (b.line i).plan.branch (b.line j).plan
      some { b with
        score
        line := Function.update (Function.update b.line i ⟨strand, plan⟩) j {} }
  | .concat i j =>
    if i = j then none
    else
      let (strand, slot, score) := Strand.concat (b.line i).strand (b.line j).strand b.score
      let plan := (b.line i).plan.seq (b.line j).plan (slot.map fun _ => b.slots.length)
      some { b with
        score
        line := Function.update (Function.update b.line i ⟨strand, plan⟩) j {}
        slots := b.slots ++ slot.toList.map (⟨·, []⟩) }
  | .suffix k kind span =>
    (b.slots[k]?).map fun p =>
      let (m, score) := b.score.addModifier kind span
      let (slot, score) := p.slot.insert score m
      { b with score, slots := b.slots.set k ⟨slot, p.kinds ++ [kind]⟩ }

/-- Makes moves one after another. -/
def run (b : Builder) : List Move → Option Builder
  | [] => some b
  | m :: ms => (b.move m).bind (·.run ms)

theorem run_append (b : Builder) (ms ms' : List Move) :
    b.run (ms ++ ms') = (b.run ms).bind (·.run ms') := by
  induction ms generalizing b with
  | nil => rfl
  | cons m ms ih =>
    rw [List.cons_append, run, run]
    cases b.move m with
    | none => rfl
    | some b' => exact ih b'

/-- Every line is sound, no node is on two lines, and a node on no line has no links. -/
structure Sound (b : Builder) : Prop where
  line : ∀ i, (b.line i).Sound b.score
  disjoint : ∀ i j, i ≠ j → (b.line i).nodes.Disjoint (b.line j).nodes
  placed : ∀ i, ∀ n ∈ (b.line i).nodes, n ∈ b.placed
  loose : ∀ n, (∀ i, n ∉ (b.line i).nodes) → b.score.next? n = none ∧ b.score.sibling? n = none

namespace Sound

variable {b b' : Builder}

theorem start : Sound {} where
  line _ := rfl
  disjoint _ _ _ := by simp [Line.nodes]
  placed _ _ h := by simp [Line.nodes] at h
  loose _ _ := ⟨rfl, rfl⟩

/-- A builder of which one line is made anew, from its own nodes, those of lines that are empty
then, and loose ones. -/
theorem update (h : b.Sound) (i : Nat) (hi : (b'.line i).Sound b'.score)
    (hk : ∀ k, k ≠ i → b'.line k = b.line k ∨ b'.line k = {})
    (hd : ∀ k, k ≠ i → (b'.line k).nodes.Disjoint (b'.line i).nodes)
    (hcover : ∀ k, ∀ n ∈ (b.line k).nodes, n ∈ (b'.line k).nodes ∨ n ∈ (b'.line i).nodes)
    (hsame : ∀ n, n ∉ (b'.line i).nodes → Score.SameLinks b.score b'.score n)
    (hplaced : ∀ n ∈ (b'.line i).nodes, n ∈ b'.placed) (hsub : b.placed ⊆ b'.placed) :
    b'.Sound where
  line k := by
    by_cases hki : k = i
    · rwa [hki]
    · rcases hk k hki with heq | heq <;> rw [heq]
      · refine (h.line k).congr fun n hn => hsame n fun hni => ?_
        exact hd k hki (heq ▸ hn) hni
      · rfl
  disjoint j k hjk := by
    by_cases hj : j = i
    · rw [hj]
      exact (hd k fun hki => hjk (hj.trans hki.symm)).symm
    · by_cases hki : k = i
      · rw [hki]
        exact hd j hj
      · rcases hk j hj with hj | hj <;> rcases hk k hki with hk | hk <;> rw [hj, hk]
        · exact h.disjoint j k hjk
        all_goals simp [Line.nodes]
  placed k n hn := by
    by_cases hki : k = i
    · exact hplaced n (hki ▸ hn)
    · rcases hk k hki with heq | heq
      · exact hsub (h.placed k n (heq ▸ hn))
      · rw [heq] at hn
        simp [Line.nodes] at hn
  loose n hn := by
    have hold := h.loose n fun k hmem => (hcover k n hmem).elim (hn k) (hn i)
    rw [(hsame n (hn i)).next?, (hsame n (hn i)).sibling?]
    exact hold

/-- Where the lines stay as they are and no link of theirs changes. -/
theorem same (h : b.Sound) (hline : b'.line = b.line) (hplaced : b'.placed = b.placed)
    (hlinks : ∀ i, ∀ n ∈ (b.line i).nodes, Score.SameLinks b.score b'.score n)
    (hloose : ∀ n, b.score.next? n = none ∧ b.score.sibling? n = none →
      b'.score.next? n = none ∧ b'.score.sibling? n = none) : b'.Sound where
  line i := by
    rw [hline]
    exact (h.line i).congr (hlinks i)
  disjoint := by
    rw [hline]
    exact h.disjoint
  placed := by
    rw [hline, hplaced]
    exact h.placed
  loose n hn := by
    rw [hline] at hn
    exact hloose n (h.loose n hn)

theorem lt_size (h : b.Sound) {i n : Nat} (hn : n ∈ (b.line i).nodes) :
    n < b.score.nodes.size := by
  have hline := h.line i
  unfold Line.Sound at hline
  split at hline
  · rw [hline] at hn
    simp at hn
  · exact hline.1.bound n hn

theorem node (h : b.Sound) (content : Content) (span : Span) :
    Sound { b with score := (b.score.addNode content span).2 } := by
  have hold : ∀ n, n ≠ b.score.nodes.size →
      (b.score.addNode content span).2.nodes[n]? = b.score.nodes[n]? := fun n hn => by
    rw [Score.getElem?_addNode, if_neg hn]
  refine h.same rfl rfl ?_ ?_
  · intro i n hn
    have heq := hold n (Nat.ne_of_lt (h.lt_size hn))
    constructor <;> simp only [Score.next?, Score.sibling?, Score.join?, heq]
  · intro n hn
    by_cases hsize : n = b.score.nodes.size
    · simp [Score.next?, Score.sibling?, Score.getElem?_addNode, hsize]
    · simpa only [Score.next?, Score.sibling?, hold n hsize] using hn

theorem suffix (h : b.Sound) (slot : Slot) (kind : Modifier.Kind) (span : Span)
    (slots : List FilledSlot) :
    Sound { b with
      score := (slot.insert (b.score.addModifier kind span).2 (b.score.addModifier kind span).1).2
      slots } := by
  have hlinks : ∀ n, Score.SameLinks b.score
      (slot.insert (b.score.addModifier kind span).2 (b.score.addModifier kind span).1).2 n :=
    fun n => (Score.SameLinks.of_nodes (Score.nodes_addModifier ..) n).trans
      (slot.sameLinks_insert ..)
  refine h.same rfl rfl (fun _ n _ => hlinks n) fun n hn => ?_
  rw [(hlinks n).next?, (hlinks n).sibling?]
  exact hn

theorem append (h : b.Sound) (i n k : Nat) (slots : List FilledSlot) (hn : n < b.score.nodes.size)
    (hfresh : n ∉ b.placed) :
    Sound {
      score := (Strand.append (b.line i).strand b.score n).2.2
      line := Function.update b.line i
        ⟨some (Strand.append (b.line i).strand b.score n).1, (b.line i).plan.seq (.node n k) none⟩
      slots
      placed := n :: b.placed } := by
  have hloose : ∀ j, n ∉ (b.line j).nodes := fun j hmem => hfresh (h.placed j n hmem)
  obtain ⟨hnext, hsib⟩ := h.loose n hloose
  obtain ⟨hline, hsame⟩ := (h.line i).append k hn (hloose i) hnext hsib
  refine h.update i ?_ ?_ ?_ ?_ ?_ ?_ ?_ <;>
    simp only [Function.update_self, Line.nodes, Plan.nodes, List.mem_append, List.mem_singleton]
  · exact hline
  · intro k hk
    exact .inl (Function.update_of_ne hk ..)
  · intro k hk
    rw [Function.update_of_ne hk, List.disjoint_append_right]
    exact ⟨h.disjoint k i hk, by simpa using hloose k⟩
  · intro k m hm
    by_cases hk : k = i
    · exact .inr (.inl (hk ▸ hm))
    · rw [Function.update_of_ne hk]
      exact .inl hm
  · exact fun m hm => hsame m (by simpa using hm)
  · rintro m (hm | rfl)
    · exact List.mem_cons_of_mem _ (h.placed i m hm)
    · exact List.mem_cons_self
  · exact List.subset_cons_self ..

/-- One line made of two, where the other is empty then. -/
theorem merge (h : b.Sound) {i j : Nat} (hij : i ≠ j) {l : Line} {score : Score}
    (slots : List FilledSlot) (hl : l.Sound score)
    (hnodes : l.nodes = (b.line i).nodes ++ (b.line j).nodes)
    (hsame : ∀ n, n ∉ (b.line i).nodes ++ (b.line j).nodes → Score.SameLinks b.score score n) :
    Sound { b with
      score
      line := Function.update (Function.update b.line i l) j {}
      slots } := by
  have hi : Function.update (Function.update b.line i l) j {} i = l := by
    rw [Function.update_of_ne hij, Function.update_self]
  refine h.update i ?_ ?_ ?_ ?_ ?_ ?_ ?_ <;> simp only [hi, hnodes]
  · exact hl
  · intro k hk
    by_cases hkj : k = j
    · exact .inr (by rw [hkj, Function.update_self])
    · exact .inl (by rw [Function.update_of_ne hkj, Function.update_of_ne hk])
  · intro k hk
    by_cases hkj : k = j
    · rw [hkj, Function.update_self]
      simp [Line.nodes]
    · rw [Function.update_of_ne hkj, Function.update_of_ne hk, List.disjoint_append_right]
      exact ⟨h.disjoint k i hk, h.disjoint k j hkj⟩
  · intro k m hm
    by_cases hkj : k = j
    · exact .inr (List.mem_append_right _ (hkj ▸ hm))
    · by_cases hki : k = i
      · exact .inr (List.mem_append_left _ (hki ▸ hm))
      · rw [Function.update_of_ne hkj, Function.update_of_ne hki]
        exact .inl hm
  · exact hsame
  · intro m hm
    exact (List.mem_append.1 hm).elim (h.placed i m) (h.placed j m)
  · exact List.Subset.refl _

/-- Every move keeps the builder sound. -/
theorem move (h : b.Sound) (m : Move) (hm : b.move m = some b') : b'.Sound := by
  cases m with
  | node content span =>
    obtain rfl := Option.some.inj hm
    exact h.node content span
  | append i n =>
    simp only [Builder.move] at hm
    split at hm
    · rename_i hn
      obtain rfl := Option.some.inj hm
      exact h.append i n _ _ hn.1 hn.2
    · simp at hm
  | branch i j =>
    simp only [Builder.move] at hm
    split at hm
    · simp at hm
    · rename_i hij
      obtain rfl := Option.some.inj hm
      obtain ⟨hl, hsame⟩ := (h.line i).branch (h.line j) (h.disjoint i j hij)
      exact h.merge hij _ hl rfl hsame
  | concat i j =>
    simp only [Builder.move] at hm
    split at hm
    · simp at hm
    · rename_i hij
      obtain rfl := Option.some.inj hm
      obtain ⟨hl, hsame⟩ := (h.line i).concat (h.line j) (h.disjoint i j hij)
        ((Strand.concat (b.line i).strand (b.line j).strand b.score).2.1.map
          fun _ => b.slots.length)
      exact h.merge hij _ hl rfl hsame
  | suffix k kind span =>
    obtain ⟨p, -, rfl⟩ := Option.map_eq_some_iff.1 hm
    exact h.suffix p.slot kind span _

theorem run (h : b.Sound) (ms : List Move) (hr : b.run ms = some b') : b'.Sound := by
  induction ms generalizing b with
  | nil =>
    obtain rfl := Option.some.inj hr
    exact h
  | cons m ms ih =>
    obtain ⟨c, hc, hr⟩ := Option.bind_eq_some_iff.1 hr
    exact ih (h.move m hc) hr

end Sound

end Builder

end Jianpu
