import Jianpu.Proofs.Schedule.Arrival
import Mathlib.Logic.Relation

/-!
# The order in which nodes are started

Which node a queue starts when depends on little: the links between the nodes and the ticks of their
events. A `Cast` is just this, and `Cast.Step` is a step of a queue that knows nothing else. A
`Scene` is what such a queue holds between two steps. The steps from a scene lead to one end at most
(`Cast.halt_unique`).

A cast may be found within a larger one, under other names and with other nodes beside its own:
`Cast.Copy`. Then the larger one starts the nodes of the smaller one in the order in which that
starts them alone (`Cast.Copy.visited`).
-/

namespace Jianpu

/-- Where there is one way to go on at most, there is one end at most. -/
theorem end_unique {α : Type} {r : α → α → Prop} (hr : Relator.RightUnique r) {a b b' : α}
    (h : Relation.ReflTransGen r a b) (h' : Relation.ReflTransGen r a b') (hb : ∀ c, ¬r b c)
    (hb' : ∀ c, ¬r b' c) : b = b' := by
  rcases h.total_of_right_unique hr h' with h | h
  · rcases Relation.ReflTransGen.cases_head h with rfl | ⟨_, hstep, -⟩
    · rfl
    · exact absurd hstep (hb _)
  · rcases Relation.ReflTransGen.cases_head h with rfl | ⟨_, hstep, -⟩
    · rfl
    · exact absurd hstep (hb' _)

/-- An event to come: the node that brings it, its tick, and whether the node ends with it. -/
structure Cue where
  node : Nat
  tick : Nat
  ends : Bool
  deriving DecidableEq, Repr

/-- A cue for a node of another name. -/
def Cue.rename (f : Nat → Nat) (x : Cue) : Cue := { x with node := f x.node }

/-- What the order in which nodes are started depends on. -/
structure Cast where
  nodes : List Nat
  next : Nat → Option Nat
  sibling : Nat → Option Nat
  /-- The ticks of a node's events, and whether the node ends with the event. -/
  cues : Nat → List (Nat × Bool)

/-- What was started and has ended so far, what is started next, and the events to come, in the
order in which they became known. -/
structure Scene where
  visited : List Nat := []
  finished : List Nat := []
  coming : List Nat := []
  cues : List Cue := []
  deriving DecidableEq, Repr

/-- Nothing is left to do. -/
def Scene.Halted (s : Scene) : Prop := s.coming = [] ∧ s.cues = []

namespace Cast

variable (c : Cast)

/-- The events of a node. -/
def cuesOf (n : Nat) : List Cue := (c.cues n).map fun x => ⟨n, x.1, x.2⟩

/-- Whether a node ends with one of its events. -/
def lasts (n : Nat) : Bool := (c.cues n).any (·.2)

/-- The successor of a node, if it waited for the end of this node only. -/
def follow (finished : List Nat) (n : Nat) : List Nat :=
  ((c.next n).filter fun k => ∀ m ∈ c.nodes, c.next m = some k → m ∈ n :: finished).toList

/-- A node ends. -/
def finish (s : Scene) (n : Nat) : Scene :=
  { s with finished := n :: s.finished, coming := c.follow s.finished n ++ s.coming }

/-- A node is started. -/
def visit (s : Scene) (n : Nat) (rest : List Nat) : Scene :=
  let s' := { s with
    visited := s.visited ++ [n]
    coming := (c.sibling n).toList ++ rest
    cues := s.cues ++ c.cuesOf n }
  if c.lasts n then s' else c.finish s' n

/-- An event is given out. -/
def give (s : Scene) (x : Cue) (others : List Cue) : Scene :=
  let s' := { s with cues := others }
  if x.ends then c.finish s' x.node else s'

/-- A step: what comes next is started, or, if nothing does, the first of the earliest events is
given out. -/
inductive Step : Scene → Scene → Prop
  | visit {s : Scene} {n : Nat} {rest : List Nat} (h : s.coming = n :: rest) :
      Step s (c.visit s n rest)
  | give {s : Scene} {before after : List Cue} {x : Cue} (h : s.coming = [])
      (hcues : s.cues = before ++ x :: after) (hbefore : ∀ y ∈ before, x.tick < y.tick)
      (hafter : ∀ y ∈ after, x.tick ≤ y.tick) : Step s (c.give s x (before ++ after))

variable {c}

theorem node_of_mem_cuesOf {n : Nat} {x : Cue} (h : x ∈ c.cuesOf n) : x.node = n := by
  obtain ⟨y, -, rfl⟩ := List.mem_map.1 h
  rfl

theorem filter_cuesOf (p : Nat → Bool) (n : Nat) : (c.cuesOf n).filter (fun x => p x.node) =
    if p n then c.cuesOf n else [] := by
  split
  · rename_i hn
    exact List.filter_eq_self.2 fun x hx => by rw [node_of_mem_cuesOf hx, hn]
  · rename_i hn
    exact List.filter_eq_nil_iff.2 fun x hx => by rwa [node_of_mem_cuesOf hx]

/-- There is one first among the earliest events. -/
theorem first_unique {before before' after after' : List Cue} {x x' : Cue}
    (h : before ++ x :: after = before' ++ x' :: after') (hb : ∀ y ∈ before, x.tick < y.tick)
    (ha : ∀ y ∈ after, x.tick ≤ y.tick) (hb' : ∀ y ∈ before', x'.tick < y.tick)
    (ha' : ∀ y ∈ after', x'.tick ≤ y.tick) : before = before' ∧ x = x' ∧ after = after' := by
  induction before generalizing before' with
  | nil =>
    cases before' with
    | nil =>
      obtain ⟨rfl, rfl⟩ := List.cons.inj h
      exact ⟨rfl, rfl, rfl⟩
    | cons y before' =>
      obtain ⟨rfl, rfl⟩ := List.cons.inj h
      have hlt := hb' x List.mem_cons_self
      have hle := ha x' (by simp)
      omega
  | cons y before ih =>
    cases before' with
    | nil =>
      obtain ⟨rfl, rfl⟩ := List.cons.inj h
      have hlt := hb y List.mem_cons_self
      have hle := ha' x (by simp)
      omega
    | cons y' before' =>
      obtain ⟨rfl, htail⟩ := List.cons.inj h
      obtain ⟨rfl, hx, hafter⟩ := ih htail (fun z hz => hb z (List.mem_cons_of_mem _ hz))
        fun z hz => hb' z (List.mem_cons_of_mem _ hz)
      exact ⟨rfl, hx, hafter⟩

theorem Step.rightUnique : Relator.RightUnique c.Step := by
  intro s t t' h h'
  cases h with
  | visit h =>
    cases h' with
    | visit h' =>
      obtain ⟨rfl, rfl⟩ := List.cons.inj (h.symm.trans h')
      rfl
    | give h' => simp [h] at h'
  | give h hc hb ha =>
    cases h' with
    | visit h' => simp [h] at h'
    | give h' hc' hb' ha' =>
      obtain ⟨rfl, rfl, rfl⟩ := first_unique (hc.symm.trans hc') hb ha hb' ha'
      rfl

/-- What was started or comes next stays so. -/
theorem Step.mem {s t : Scene} (h : c.Step s t) {n : Nat} (hn : n ∈ s.visited ++ s.coming) :
    n ∈ t.visited ++ t.coming := by
  cases h with
  | visit h =>
    rw [h] at hn
    unfold Cast.visit
    split <;> simp only [Cast.finish, List.mem_append, List.mem_cons] at hn ⊢ <;> tauto
  | give =>
    unfold Cast.give
    split <;> simp only [Cast.finish, List.mem_append] at hn ⊢ <;> tauto

theorem Step.not_halted {s t : Scene} (h : c.Step s t) : ¬ s.Halted := by
  rintro ⟨hcoming, hcues⟩
  cases h with
  | visit h => simp [hcoming] at h
  | give h hc => simp [hcues] at hc

/-- The steps from a scene lead to one end at most. -/
theorem halt_unique {s t t' : Scene} (h : Relation.ReflTransGen c.Step s t)
    (h' : Relation.ReflTransGen c.Step s t') (ht : t.Halted) (ht' : t'.Halted) : t = t' :=
  end_unique Step.rightUnique h h' (fun _ hstep => hstep.not_halted ht)
    fun _ hstep => hstep.not_halted ht'

/-! ## A cast within another -/

/-- No node is started twice, and none that is not of the cast. -/
structure Clear (c : Cast) (s : Scene) : Prop where
  nodup : (s.visited ++ s.coming).Nodup
  mem : ∀ n ∈ s.visited ++ s.coming, n ∈ c.nodes

/-- Whether a node is one of the cast `c'`, where a node `n` of it is called `f n`. -/
def owns (c' : Cast) (f : Nat → Nat) (n : Nat) : Bool := c'.nodes.any fun m => f m = n

theorem owns_iff {c' : Cast} {f : Nat → Nat} {n : Nat} :
    c'.owns f n = true ↔ ∃ m ∈ c'.nodes, f m = n := by
  simp [owns]

theorem owns_of_mem {c' : Cast} {f : Nat → Nat} {n : Nat} (h : n ∈ c'.nodes) :
    c'.owns f (f n) = true :=
  owns_iff.2 ⟨n, h, rfl⟩

theorem owns_id (c : Cast) (n : Nat) : c.owns id n = decide (n ∈ c.nodes) := by
  rw [Bool.eq_iff_iff]
  simp [owns_iff]

/-- Steps that keep the scenes so. -/
def Reaches (c : Cast) : Scene → Scene → Prop :=
  Relation.ReflTransGen fun s t => c.Step s t ∧ c.Clear t

/-- The cast `c'` is found in the cast `c`, where a node `n` is called `f n`. Its first node can
come after another one as a sibling, and nothing else leads to it from outside. -/
structure Copy (c' c : Cast) (f : Nat → Nat) (head : Nat) : Prop where
  injective : ∀ m ∈ c'.nodes, ∀ n ∈ c'.nodes, f m = f n → m = n
  head_mem : head ∈ c'.nodes
  next_mem : ∀ m ∈ c'.nodes, ∀ n, c'.next m = some n → n ∈ c'.nodes
  sibling_mem : ∀ m ∈ c'.nodes, ∀ n, c'.sibling m = some n → n ∈ c'.nodes
  sub : ∀ n ∈ c'.nodes, f n ∈ c.nodes
  cues : ∀ n ∈ c'.nodes, c.cues (f n) = c'.cues n
  next : ∀ n ∈ c'.nodes, c.next (f n) = (c'.next n).map f
  sibling : ∀ m ∈ c'.nodes, (c.sibling (f m)).filter (c'.owns f) = (c'.sibling m).map f
  next_outside : ∀ m ∈ c.nodes, c'.owns f m = false → ∀ n, c.next m = some n → c'.owns f n = false
  sibling_outside : ∀ m ∈ c.nodes, c'.owns f m = false → ∀ n ∈ c'.nodes, c.sibling m = some (f n) →
    n = head

/-- What a scene of the larger cast shows of the smaller one. -/
structure Shows (c' c : Cast) (f : Nat → Nat) (s s' : Scene) : Prop where
  visited : s.visited.filter (c'.owns f) = s'.visited.map f
  finished : s.finished.filter (c'.owns f) = s'.finished.map f
  coming : s.coming.filter (c'.owns f) = s'.coming.map f
  cues : s.cues.filter (fun x => c'.owns f x.node) = s'.cues.map (Cue.rename f)
  finished_mem : ∀ n ∈ s'.finished, n ∈ c'.nodes
  coming_mem : ∀ n ∈ s'.coming, n ∈ c'.nodes
  cues_mem : ∀ x ∈ s'.cues, x.node ∈ c'.nodes
  within : ∀ x ∈ s.cues, x.node ∈ c.nodes

namespace Copy

variable {c' c : Cast} {f : Nat → Nat} {head : Nat} {s s' : Scene} {n : Nat}

theorem mem_finished (h : Copy c' c f head) (hs : Shows c' c f s s') (hn : n ∈ c'.nodes) :
    f n ∈ s.finished ↔ n ∈ s'.finished := by
  have hfilter : f n ∈ s.finished ↔ f n ∈ s.finished.filter (c'.owns f) := by
    simp [List.mem_filter, owns_of_mem hn]
  rw [hfilter, hs.finished, List.mem_map]
  constructor
  · rintro ⟨m, hm, heq⟩
    rwa [← h.injective m (hs.finished_mem m hm) n hn heq]
  · exact fun hn' => ⟨n, hn', rfl⟩

/-- A successor in the smaller cast is started in both or in none. -/
theorem follow (h : Copy c' c f head) (hs : Shows c' c f s s') (hn : n ∈ c'.nodes) :
    c.follow s.finished (f n) = (c'.follow s'.finished n).map f := by
  unfold Cast.follow
  rw [h.next n hn]
  cases hk : c'.next n with
  | none => rfl
  | some k =>
    have hkmem := h.next_mem n hn k hk
    have hiff : (∀ m ∈ c.nodes, c.next m = some (f k) → m ∈ f n :: s.finished) ↔
        ∀ m ∈ c'.nodes, c'.next m = some k → m ∈ n :: s'.finished := by
      constructor
      · intro hall m hm hmk
        have hmem := hall (f m) (h.sub m hm) (by rw [h.next m hm, hmk]; rfl)
        rcases List.mem_cons.1 hmem with heq | hmem
        · rw [h.injective m hm n hn heq]
          exact List.mem_cons_self
        · exact List.mem_cons_of_mem _ ((h.mem_finished hs hm).1 hmem)
      · intro hall m hm hmk
        cases hown : c'.owns f m with
        | true =>
          obtain ⟨m', hm', rfl⟩ := owns_iff.1 hown
          rw [h.next m' hm'] at hmk
          obtain ⟨k', hk', heq⟩ := Option.map_eq_some_iff.1 hmk
          obtain rfl := h.injective k' (h.next_mem m' hm' k' hk') k hkmem heq
          rcases List.mem_cons.1 (hall m' hm' hk') with rfl | hmem
          · exact List.mem_cons_self
          · exact List.mem_cons_of_mem _ ((h.mem_finished hs hm').2 hmem)
        | false =>
          have hout := h.next_outside m hm hown (f k) hmk
          rw [owns_of_mem hkmem] at hout
          simp at hout
    rw [Option.map_some, Option.filter_some, Option.filter_some]
    by_cases hready : ∀ m ∈ c'.nodes, c'.next m = some k → m ∈ n :: s'.finished
    · rw [if_pos (decide_eq_true (hiff.2 hready)), if_pos (decide_eq_true hready)]
      rfl
    · rw [if_neg fun hall => hready (hiff.1 (of_decide_eq_true hall)),
        if_neg fun hall => hready (of_decide_eq_true hall)]
      rfl

theorem follow_mem (h : Copy c' c f head) (hn : n ∈ c'.nodes) (finished : List Nat) :
    ∀ k ∈ c'.follow finished n, k ∈ c'.nodes := by
  intro k hk
  rw [Cast.follow, Option.mem_toList, Option.filter_eq_some_iff] at hk
  exact h.next_mem n hn k hk.1

/-- What is started at the end of another node is none of the smaller cast's. -/
theorem follow_outside (h : Copy c' c f head) (hn : n ∈ c.nodes) (hown : c'.owns f n = false)
    (finished : List Nat) : (c.follow finished n).filter (c'.owns f) = [] := by
  rw [List.filter_eq_nil_iff]
  intro k hk
  rw [Cast.follow, Option.mem_toList, Option.filter_eq_some_iff] at hk
  simp [h.next_outside n hn hown k hk.1]

/-- A node of the smaller cast ends in both. -/
theorem finish (h : Copy c' c f head) (hs : Shows c' c f s s') (hn : n ∈ c'.nodes) :
    Shows c' c f (c.finish s (f n)) (c'.finish s' n) where
  visited := hs.visited
  finished := by
    simp only [Cast.finish, List.filter_cons_of_pos (owns_of_mem hn), hs.finished, List.map_cons]
  coming := by
    have hown : ∀ k ∈ (c'.follow s'.finished n).map f, c'.owns f k = true := by
      intro k hk
      obtain ⟨k', hk', rfl⟩ := List.mem_map.1 hk
      exact owns_of_mem (h.follow_mem hn _ k' hk')
    simp only [Cast.finish, List.filter_append, List.map_append, h.follow hs hn, hs.coming,
      List.filter_eq_self.2 hown]
  cues := hs.cues
  finished_mem := List.forall_mem_cons.2 ⟨hn, hs.finished_mem⟩
  coming_mem := List.forall_mem_append.2 ⟨h.follow_mem hn _, hs.coming_mem⟩
  cues_mem := hs.cues_mem
  within := hs.within

/-- Another node ends. -/
theorem finish_outside (h : Copy c' c f head) (hs : Shows c' c f s s') (hn : n ∈ c.nodes)
    (hown : c'.owns f n = false) : Shows c' c f (c.finish s n) s' where
  visited := hs.visited
  finished := by
    rw [Cast.finish, List.filter_cons_of_neg (by simp [hown])]
    exact hs.finished
  coming := by
    rw [Cast.finish, List.filter_append, h.follow_outside hn hown, List.nil_append]
    exact hs.coming
  cues := hs.cues
  finished_mem := hs.finished_mem
  coming_mem := hs.coming_mem
  cues_mem := hs.cues_mem
  within := hs.within

theorem lasts (h : Copy c' c f head) (hn : n ∈ c'.nodes) : c.lasts (f n) = c'.lasts n := by
  rw [Cast.lasts, Cast.lasts, h.cues n hn]

theorem cuesOf (h : Copy c' c f head) (hn : n ∈ c'.nodes) :
    c.cuesOf (f n) = (c'.cuesOf n).map (Cue.rename f) := by
  rw [Cast.cuesOf, Cast.cuesOf, h.cues n hn, List.map_map]
  rfl

/-- A node of the smaller cast is started in both. -/
theorem visit (h : Copy c' c f head) (hs : Shows c' c f s s') {rest : List Nat}
    (hcoming : s.coming = f n :: rest) (hn : n ∈ c'.nodes) :
    ∃ rest', s'.coming = n :: rest' ∧
      Shows c' c f (c.visit s (f n) rest) (c'.visit s' n rest') := by
  have hfilter := hs.coming
  rw [hcoming, List.filter_cons_of_pos (owns_of_mem hn)] at hfilter
  obtain ⟨n', rest', hcoming', heq, hrest⟩ := List.map_eq_cons_iff.1 hfilter.symm
  have hmem : ∀ m ∈ n' :: rest', m ∈ c'.nodes := hcoming' ▸ hs.coming_mem
  obtain rfl := h.injective n' (hmem n' List.mem_cons_self) n hn heq
  have hstart : Shows c' c f
      { s with
        visited := s.visited ++ [f n']
        coming := (c.sibling (f n')).toList ++ rest
        cues := s.cues ++ c.cuesOf (f n') }
      { s' with
        visited := s'.visited ++ [n']
        coming := (c'.sibling n').toList ++ rest'
        cues := s'.cues ++ c'.cuesOf n' } := by
    refine ⟨?_, hs.finished, ?_, ?_, hs.finished_mem, ?_, ?_, ?_⟩
    · rw [List.filter_append, hs.visited, List.map_append, List.filter_cons_of_pos (owns_of_mem hn)]
      rfl
    · have hsib := congrArg Option.toList (h.sibling n' hn)
      rw [Option.toList_filter, Option.toList_map] at hsib
      rw [List.filter_append, List.map_append, hrest, hsib]
    · rw [List.filter_append, hs.cues, filter_cuesOf, if_pos (owns_of_mem hn), h.cuesOf hn,
        List.map_append]
    · refine List.forall_mem_append.2
        ⟨fun k hk => ?_, fun k hk => hmem k (List.mem_cons_of_mem _ hk)⟩
      exact h.sibling_mem n' hn k (Option.mem_toList.1 hk)
    · refine List.forall_mem_append.2 ⟨hs.cues_mem, fun x hx => ?_⟩
      obtain ⟨y, -, rfl⟩ := List.mem_map.1 hx
      exact hn
    · refine List.forall_mem_append.2 ⟨hs.within, fun x hx => ?_⟩
      obtain ⟨y, -, rfl⟩ := List.mem_map.1 hx
      exact h.sub n' hn
  refine ⟨rest', hcoming', ?_⟩
  rw [Cast.visit, Cast.visit, h.lasts hn]
  split
  · exact hstart
  · exact h.finish hstart hn

/-- Another node is started. Of its siblings, `new` are of the smaller cast. -/
theorem visit_outside (h : Copy c' c f head) (hs : Shows c' c f s s') (new : List Nat)
    {rest : List Nat} (hcoming : s.coming = n :: rest) (hn : n ∈ c.nodes)
    (hown : c'.owns f n = false) (hnew : (c.sibling n).toList.filter (c'.owns f) = new.map f)
    (hmem : ∀ k ∈ new, k ∈ c'.nodes) :
    Shows c' c f (c.visit s n rest) { s' with coming := new ++ s'.coming } := by
  have hstart : Shows c' c f
      { s with
        visited := s.visited ++ [n]
        coming := (c.sibling n).toList ++ rest
        cues := s.cues ++ c.cuesOf n }
      { s' with coming := new ++ s'.coming } := by
    have hrest := hs.coming
    rw [hcoming, List.filter_cons_of_neg (by simp [hown])] at hrest
    refine ⟨?_, hs.finished, ?_, ?_, hs.finished_mem, ?_, hs.cues_mem, ?_⟩
    · rw [List.filter_append, List.filter_cons_of_neg (by simp [hown]), List.filter_nil,
        List.append_nil]
      exact hs.visited
    · rw [List.filter_append, hnew, hrest, List.map_append]
    · rw [List.filter_append, filter_cuesOf, if_neg (by simp [hown]), List.append_nil]
      exact hs.cues
    · exact List.forall_mem_append.2 ⟨hmem, hs.coming_mem⟩
    · refine List.forall_mem_append.2 ⟨hs.within, fun x hx => ?_⟩
      obtain ⟨y, -, rfl⟩ := List.mem_map.1 hx
      exact hn
  rw [Cast.visit]
  split
  · exact hstart
  · exact h.finish_outside hstart hn hown

/-- An event of the smaller cast is given out in both. -/
theorem give (h : Copy c' c f head) (hs : Shows c' c f s s') {before after : List Cue} {x : Cue}
    (hcues : s.cues = before ++ x :: after) (hbefore : ∀ y ∈ before, x.tick < y.tick)
    (hafter : ∀ y ∈ after, x.tick ≤ y.tick) (hown : c'.owns f x.node = true)
    (hcoming : s.coming = []) :
    ∃ t', c'.Step s' t' ∧ Shows c' c f (c.give s x (before ++ after)) t' := by
  have hfilter := hs.cues
  rw [hcues, List.filter_append, List.filter_cons_of_pos (by simpa using hown)] at hfilter
  obtain ⟨before', tail', hcues', hbefore', htail⟩ := List.map_eq_append_iff.1 hfilter.symm
  obtain ⟨x', after', rfl, rfl, hafter'⟩ := List.map_eq_cons_iff.1 htail
  have hx' : x'.node ∈ c'.nodes := hs.cues_mem x' (by simp [hcues'])
  have htick : ∀ l l' : List Cue, l'.map (Cue.rename f) = l.filter (fun y => c'.owns f y.node) →
      ∀ y ∈ l', ∃ z ∈ l, z.tick = y.tick := by
    intro l l' heq y hy
    have hmem : y.rename f ∈ l.filter fun y => c'.owns f y.node := heq ▸ List.mem_map_of_mem hy
    exact ⟨_, (List.mem_filter.1 hmem).1, rfl⟩
  have hcoming' : s'.coming = [] := by
    have hmap := hs.coming
    rw [hcoming] at hmap
    exact List.map_eq_nil_iff.1 hmap.symm
  have hstart : Shows c' c f { s with cues := before ++ after }
      { s' with cues := before' ++ after' } := by
    refine ⟨hs.visited, hs.finished, hs.coming, ?_, hs.finished_mem, hs.coming_mem, ?_, ?_⟩
    · rw [List.filter_append, List.map_append, hbefore', hafter']
    · intro y hy
      apply hs.cues_mem y
      rw [hcues']
      simp only [List.mem_append, List.mem_cons] at hy ⊢
      tauto
    · intro y hy
      exact hs.within y (by rw [hcues]; simp only [List.mem_append, List.mem_cons] at hy ⊢; tauto)
  refine ⟨c'.give s' x' (before' ++ after'), ?_, ?_⟩
  · refine .give hcoming' hcues' (fun y hy => ?_) fun y hy => ?_
    · obtain ⟨z, hz, heq⟩ := htick before before' hbefore' y hy
      exact heq ▸ hbefore z hz
    · obtain ⟨z, hz, heq⟩ := htick after after' hafter' y hy
      exact heq ▸ hafter z hz
  · show Shows c' c f (if x'.ends then _ else _) (if x'.ends then _ else _)
    split
    · exact h.finish hstart hx'
    · exact hstart

/-- Another event is given out. -/
theorem give_outside (h : Copy c' c f head) (hs : Shows c' c f s s') {before after : List Cue}
    {x : Cue} (hcues : s.cues = before ++ x :: after) (hown : c'.owns f x.node = false) :
    Shows c' c f (c.give s x (before ++ after)) s' := by
  have hfilter := hs.cues
  rw [hcues, List.filter_append, List.filter_cons_of_neg (by simpa using hown),
    ← List.filter_append] at hfilter
  have hstart : Shows c' c f { s with cues := before ++ after } s' := by
    refine ⟨hs.visited, hs.finished, hs.coming, hfilter, hs.finished_mem, hs.coming_mem,
      hs.cues_mem, ?_⟩
    intro y hy
    exact hs.within y (by rw [hcues]; simp only [List.mem_append, List.mem_cons] at hy ⊢; tauto)
  rw [Cast.give]
  split
  · exact h.finish_outside hstart (hs.within x (by simp [hcues])) hown
  · exact hstart

/-- A step of the larger cast is one of the smaller cast, or none, or it reaches the smaller cast's
first node. -/
theorem step (h : Copy c' c f head) {t : Scene} (hs : Shows c' c f s s') (hstep : c.Step s t)
    (ht : c.Clear t) : (∃ t', c'.Step s' t' ∧ Shows c' c f t t') ∨ Shows c' c f t s' ∨
      Shows c' c f t { s' with coming := head :: s'.coming } := by
  cases hstep with
  | @visit n rest hcoming =>
    have hvisited : n ∈ (c.visit s n rest).visited := by
      unfold Cast.visit
      split <;> simp [Cast.finish]
    have hn : n ∈ c.nodes := ht.mem n (List.mem_append_left _ hvisited)
    cases hown : c'.owns f n with
    | true =>
      obtain ⟨n', hn', rfl⟩ := owns_iff.1 hown
      obtain ⟨rest', hcoming', ht'⟩ := h.visit hs hcoming hn'
      exact .inl ⟨_, .visit hcoming', ht'⟩
    | false =>
      cases hk : (c.sibling n).filter (c'.owns f) with
      | none =>
        have hnew := congrArg Option.toList hk
        rw [Option.toList_filter] at hnew
        exact .inr (.inl (h.visit_outside hs [] hcoming hn hown hnew (by simp)))
      | some k =>
        have hnew := congrArg Option.toList hk
        rw [Option.toList_filter] at hnew
        obtain ⟨hsib, hkown⟩ := Option.filter_eq_some_iff.1 hk
        obtain ⟨k', hk', rfl⟩ := owns_iff.1 hkown
        obtain rfl := h.sibling_outside n hn hown k' hk' hsib
        exact .inr (.inr (h.visit_outside hs [k'] hcoming hn hown hnew (by simpa using hk')))
  | @give before after x hcoming hcues hbefore hafter =>
    cases hown : c'.owns f x.node with
    | true => exact .inl (h.give hs hcues hbefore hafter hown hcoming)
    | false => exact .inr (.inl (h.give_outside hs hcues hown))

/-- The smaller cast, too, starts no node twice. -/
theorem nodup (h : Shows c' c f s s') (hs : c.Clear s) : (s'.visited ++ s'.coming).Nodup := by
  have hmap : (s.visited ++ s.coming).filter (c'.owns f) = (s'.visited ++ s'.coming).map f := by
    rw [List.filter_append, h.visited, h.coming, List.map_append]
  exact .of_map f (hmap ▸ hs.nodup.filter _)

/-- **The nodes of a cast are started in the same order within a larger one.** -/
theorem visited (h : Copy c' c f head) {first : Nat} {t : Scene}
    (hrun : c.Reaches { coming := [first] } t) (ht : t.Halted) (hhead : f head ∈ t.visited)
    (hfirst : ∀ n ∈ c'.nodes, f n = first → n = head) :
    ∃ t', Relation.ReflTransGen c'.Step { coming := [head] } t' ∧ t'.Halted ∧
      t.visited.filter (c'.owns f) = t'.visited.map f := by
  have hinv : Shows c' c f t {} ∨ ∃ t', Relation.ReflTransGen c'.Step { coming := [head] } t' ∧
      Shows c' c f t t' ∧ head ∈ t'.visited ++ t'.coming := by
    clear ht hhead
    induction hrun with
    | refl =>
      cases hown : c'.owns f first with
      | true =>
        obtain ⟨n, hn, rfl⟩ := owns_iff.1 hown
        obtain rfl := hfirst n hn rfl
        refine .inr ⟨_, .refl, ⟨rfl, rfl, ?_, rfl, ?_, ?_, ?_, ?_⟩, ?_⟩ <;> simp [hown, hn]
      | false =>
        refine .inl ⟨rfl, rfl, ?_, rfl, ?_, ?_, ?_, ?_⟩ <;> simp [hown]
    | tail _ hstep ih =>
      rcases ih with hs | ⟨s', hrun', hs, hbegun⟩
      · rcases h.step hs hstep.1 hstep.2 with ⟨t', hstep', -⟩ | ht | ht
        · exact absurd ⟨rfl, rfl⟩ hstep'.not_halted
        · exact .inl ht
        · exact .inr ⟨_, .refl, ht, by simp⟩
      · right
        rcases h.step hs hstep.1 hstep.2 with ⟨t', hstep', ht⟩ | ht | ht
        · exact ⟨t', hrun'.tail hstep', ht, hstep'.mem hbegun⟩
        · exact ⟨s', hrun', ht, hbegun⟩
        · have hnodup : (s'.visited ++ head :: s'.coming).Nodup := nodup ht hstep.2
          exact absurd hbegun (List.nodup_middle.1 hnodup).notMem
  rcases hinv with hs | ⟨t', hrun', hs, -⟩
  · have hmem : f head ∈ t.visited.filter (c'.owns f) :=
      List.mem_filter.2 ⟨hhead, owns_of_mem h.head_mem⟩
    rw [hs.visited] at hmem
    simp at hmem
  · refine ⟨t', hrun', ⟨?_, ?_⟩, hs.visited⟩
    · have hcoming := hs.coming
      rw [ht.1] at hcoming
      exact List.map_eq_nil_iff.1 hcoming.symm
    · have hcues := hs.cues
      rw [ht.2] at hcues
      exact List.map_eq_nil_iff.1 hcues.symm

end Copy

end Cast

/-! ## The cast of a score -/

namespace Score

/-- The ticks of the events of a node that starts at tick `t`, and whether the node ends with
them. -/
def cuesAt (g : Score) (division n t : Nat) : List (Nat × Bool) :=
  if g.isNote n then [(t, false), (t + g.ticksOf division n, true)]
  else if g.isMeta n then [(t, false)] else []

/-- Nodes of a score that start at ticks `start`. -/
def cast (g : Score) (ns : List Nat) (division : Nat) (start : Nat → Nat) : Cast where
  nodes := ns
  next := g.next?
  sibling := g.sibling?
  cues n := g.cuesAt division n (start n)

theorem cuesAt_of_some {g : Score} {n : Nat} {x : Node} (hx : g.nodes[n]? = some x)
    (division t : Nat) : g.cuesAt division n t =
      match x.content with
      | .note .. => [(t, false), (t + (g.resolve x division).duration, true)]
      | .rest => []
      | _ => [(t, false)] := by
  simp only [cuesAt, isNote, isMeta, ticksOf, hx]
  cases hc : x.content <;> simp [hc, Content.isMeta]

end Score

end Jianpu
