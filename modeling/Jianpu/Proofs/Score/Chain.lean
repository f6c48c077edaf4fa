import Jianpu.Proofs.Score.Links
import Mathlib.Data.List.Perm.Subperm

/-!
# Chains of modifiers

The modifiers of a node are found by going outwards from the innermost one, each time to the one
around it. `Score.Path` is a way outwards through given modifiers. A way that ends holds no modifier
twice (`Path.nodup`), so `Score.modifiersOf` follows all of it (`map_modifiersOf`). What the
modifiers of a note do to its pitch is told by how many there are of each kind (`pitch_resolve`).

The rest of the module says what the operations on scores do to these pointers.
-/

namespace Jianpu

namespace Score

/-- The modifier around a modifier. -/
def parent? (g : Score) (m : Nat) : Option Nat := g.modifiers[m]?.bind (·.parent)

/-- What a modifier does. -/
def kind? (g : Score) (m : Nat) : Option Modifier.Kind := g.modifiers[m]?.map (·.kind)

/-- The innermost modifier of a node. -/
def modifier? (g : Score) (n : Nat) : Option Nat := g.nodes[n]?.bind (·.modifier)

/-- What stands at a node. -/
def content? (g : Score) (n : Nat) : Option Content := g.nodes[n]?.map (·.content)

theorem lt_of_kind? {g : Score} {m : Nat} {k : Modifier.Kind} (h : g.kind? m = some k) :
    m < g.modifiers.size := by
  by_contra hm
  rw [kind?, Array.getElem?_eq_none (by omega)] at h
  simp at h

/-! ## Ways outwards -/

/-- The way from one place to another that leads through given modifiers. -/
def Path (g : Score) : Option Nat → List Nat → Option Nat → Prop
  | p, [], q => p = q
  | p, m :: l, q => p = some m ∧ g.Path (g.parent? m) l q

namespace Path

variable {g g' : Score} {p q r : Option Nat} {l l' : List Nat}

theorem append (h : g.Path p l q) (h' : g.Path q l' r) : g.Path p (l ++ l') r := by
  induction l generalizing p with
  | nil =>
    obtain rfl : p = q := h
    exact h'
  | cons m l ih => exact ⟨h.1, ih h.2⟩

theorem split (h : g.Path p (l ++ l') r) : ∃ q, g.Path p l q ∧ g.Path q l' r := by
  induction l generalizing p with
  | nil => exact ⟨p, rfl, h⟩
  | cons m l ih =>
    obtain ⟨q, hl, hl'⟩ := ih h.2
    exact ⟨q, ⟨h.1, hl⟩, hl'⟩

theorem congr (h : g.Path p l q) (hl : ∀ m ∈ l, g'.parent? m = g.parent? m) : g'.Path p l q := by
  induction l generalizing p with
  | nil => exact h
  | cons m l ih =>
    refine ⟨h.1, ?_⟩
    rw [hl m List.mem_cons_self]
    exact ih h.2 fun x hx => hl x (List.mem_cons_of_mem _ hx)

/-- There is one way to the end. -/
theorem unique (h : g.Path p l none) (h' : g.Path p l' none) : l = l' := by
  induction l generalizing p l' with
  | nil =>
    obtain rfl : p = none := h
    cases l' with
    | nil => rfl
    | cons m l' => exact absurd h'.1 (by simp)
  | cons m l ih =>
    obtain ⟨rfl, hl⟩ := h
    cases l' with
    | nil => exact absurd (show some m = none from h') (by simp)
    | cons m' l' =>
      obtain rfl : m = m' := Option.some.inj h'.1
      rw [ih hl h'.2]

/-- A way that ends meets no modifier twice: from there on it would go round for ever. -/
theorem nodup (h : g.Path p l none) : l.Nodup := by
  induction l generalizing p with
  | nil => exact List.nodup_nil
  | cons m l ih =>
    refine List.nodup_cons.2 ⟨fun hm => ?_, ih h.2⟩
    obtain ⟨before, after, rfl⟩ := List.append_of_mem hm
    obtain ⟨q, -, hagain⟩ := h.2.split
    have hstart : g.Path (some m) (m :: (before ++ m :: after)) none := ⟨rfl, h.2⟩
    have hround : g.Path (some m) (m :: after) none := ⟨rfl, hagain.2⟩
    have hlen := congrArg List.length (hstart.unique hround)
    simp only [List.length_cons, List.length_append] at hlen
    omega

theorem length_le (h : g.Path p l none) (hl : ∀ m ∈ l, m < g.modifiers.size) :
    l.length ≤ g.modifiers.size := by
  have hle := (List.subperm_of_subset h.nodup fun m hm => List.mem_range.2 (hl m hm)).length_le
  rwa [List.length_range] at hle

/-- Following the chain gives what stands along the way. -/
theorem map_chain (h : g.Path p l none) (hl : ∀ m ∈ l, m < g.modifiers.size) {fuel : Nat}
    (hf : l.length ≤ fuel) : (g.chain fuel p).map some = l.map (g.modifiers[·]?) := by
  induction l generalizing p fuel with
  | nil =>
    obtain rfl : p = none := h
    cases fuel <;> rfl
  | cons m l ih =>
    obtain ⟨rfl, hpath⟩ := h
    obtain ⟨hm, hl⟩ := List.forall_mem_cons.1 hl
    obtain ⟨fuel, rfl⟩ : ∃ k, fuel = k + 1 := ⟨fuel - 1, by simp at hf; omega⟩
    have hlen : l.length ≤ fuel := by simpa using hf
    have hx : g.modifiers[m]? = some g.modifiers[m] := Array.getElem?_eq_getElem hm
    have hparent : g.parent? m = g.modifiers[m].parent := by rw [parent?, hx]; rfl
    rw [List.map_cons, ← ih hpath hl hlen, hparent]
    simp only [chain, hx, List.map_cons]

end Path

/-- The modifiers of a node are those on its way outwards. -/
theorem map_modifiersOf {g : Score} {x : Node} {l : List Nat} (h : g.Path x.modifier l none)
    (hl : ∀ m ∈ l, m < g.modifiers.size) :
    (g.modifiersOf x).map some = l.map (g.modifiers[·]?) :=
  h.map_chain hl (h.length_le hl)

theorem map_kind_modifiersOf {g : Score} {n : Nat} {x : Node} {l : List Nat}
    (hx : g.nodes[n]? = some x) (h : g.Path (g.modifier? n) l none)
    (hl : ∀ m ∈ l, m < g.modifiers.size) :
    (g.modifiersOf x).map (·.kind) = l.filterMap g.kind? := by
  have hp : g.modifier? n = x.modifier := by rw [modifier?, hx]; rfl
  rw [hp] at h
  have hkinds := congrArg (List.filterMap fun m : Option Modifier => m.map (·.kind))
    (map_modifiersOf h hl)
  rw [List.filterMap_map, List.filterMap_map] at hkinds
  exact (congrFun List.filterMap_eq_map _).symm.trans hkinds

/-! ## Pitches under modifiers -/

end Score

namespace Modifier

/-- The semitones that modifiers add, told by how many there are of each kind. -/
def semitones (ks : List Kind) : Int :=
  ks.count .sharp - ks.count .flat + 12 * (ks.count .octaveUp - ks.count .octaveDown)

theorem semitones_cons (k : Kind) (ks : List Kind) :
    semitones (k :: ks) = k.transpose.toInt + semitones ks := by
  simp only [semitones, List.count_cons]
  cases k <;> simp [Kind.transpose] <;> omega

/-- Transposing by one modifier after another wraps around as the whole sum does: only the sum has
to fit into 32 bits, not what is reached on the way. -/
theorem toInt_foldl_transpose (ks : List Kind) (p : Int32) :
    (ks.foldl (fun p k => p + k.transpose) p).toInt =
      (p.toInt + semitones ks).bmod 0x100000000 := by
  induction ks generalizing p with
  | nil =>
    rw [List.foldl_nil, show semitones [] = 0 from rfl, Int.add_zero]
    exact p.toInt_bmod.symm
  | cons k ks ih =>
    rw [List.foldl_cons, ih, Int32.toInt_add, semitones_cons, ← Int.add_assoc]
    exact Int.bmod_add_bmod

end Modifier

namespace Score

/-- The pitch of a note under modifiers: the sum, wrapped around at 32 bits, brought between 0 and
131. -/
theorem pitch_resolve (g : Score) {x : Node} {pitch : Int32} {velocity : Nat}
    (hx : x.content = .note pitch velocity) (division : Nat) :
    (g.resolve x division).pitch = (max 0 (min 131 ((pitch.toInt +
      Modifier.semitones ((g.modifiersOf x).map (·.kind))).bmod 0x100000000))).toNat := by
  rw [← Modifier.toInt_foldl_transpose, resolve, hx]
  simp only [Pitch.clamp, Pitch.highest]
  omega

/-! ## Pointers after an operation -/

variable (g : Score) (id m n : Nat)

theorem parent?_setParent (parent : Nat) (h : id < g.modifiers.size) :
    (g.setParent id parent).parent? m = if m = id then some parent else g.parent? m := by
  simp only [setParent, modifyModifier, parent?, Array.getElem?_modify]
  by_cases hm : m = id
  · subst hm
    simp [h]
  · rw [if_neg (Ne.symm hm), if_neg hm]

theorem kind?_setParent (parent : Nat) : (g.setParent id parent).kind? m = g.kind? m := by
  simp only [setParent, modifyModifier, kind?, Array.getElem?_modify]
  split <;> cases g.modifiers[m]? <;> rfl

/-- A new modifier is around nothing and in nothing. -/
theorem parent?_addModifier (kind : Modifier.Kind) (span : Span) :
    (g.addModifier kind span).2.parent? m = g.parent? m := by
  simp only [addModifier, parent?, Array.getElem?_push]
  split
  · rename_i hm
    rw [hm, Array.getElem?_eq_none (Nat.le_refl _)]
    rfl
  · rfl

theorem kind?_addModifier (kind : Modifier.Kind) (span : Span) :
    (g.addModifier kind span).2.kind? m =
      if m = g.modifiers.size then some kind else g.kind? m := by
  simp only [addModifier, kind?, Array.getElem?_push]
  split <;> rfl

theorem modifier?_setModifier (h : id < g.nodes.size) :
    (g.setModifier id m).modifier? n = if n = id then some m else g.modifier? n := by
  rw [setModifier, modifier?, getElem?_modifyNode]
  by_cases hn : n = id
  · subst hn
    simp [h]
  · rw [if_neg (Ne.symm hn), if_neg hn, modifier?]

theorem content?_setModifier : (g.setModifier id m).content? n = g.content? n := by
  rw [setModifier, content?, getElem?_modifyNode, content?]
  split <;> cases g.nodes[n]? <;> rfl

theorem modifier?_addNode (content : Content) (span : Span) :
    (g.addNode content span).2.modifier? n = g.modifier? n := by
  rw [modifier?, getElem?_addNode, modifier?]
  split
  · rename_i hn
    rw [hn, Array.getElem?_eq_none (Nat.le_refl _)]
    rfl
  · rfl

theorem content?_addNode (content : Content) (span : Span) :
    (g.addNode content span).2.content? n =
      if n = g.nodes.size then some content else g.content? n := by
  rw [content?, getElem?_addNode, content?]
  split <;> rfl

/-- `g'` has the modifiers of `g` and holds the same at its nodes; only their links may differ. -/
structure SameHolds (g g' : Score) : Prop where
  modifiers : g'.modifiers = g.modifiers
  modifier? : ∀ n, g'.modifier? n = g.modifier? n
  content? : ∀ n, g'.content? n = g.content? n

namespace SameHolds

variable {g g' g'' : Score}

theorem trans (h : SameHolds g g') (h' : SameHolds g' g'') : SameHolds g g'' :=
  ⟨h'.modifiers.trans h.modifiers, fun n => (h'.modifier? n).trans (h.modifier? n),
    fun n => (h'.content? n).trans (h.content? n)⟩

theorem modifyNode (g : Score) (id : Nat) {f : Node → Node} (hm : ∀ x, (f x).modifier = x.modifier)
    (hc : ∀ x, (f x).content = x.content) : SameHolds g (g.modifyNode id f) where
  modifiers := rfl
  modifier? n := by
    rw [Score.modifier?, getElem?_modifyNode, Score.modifier?]
    split <;> cases g.nodes[n]? <;> simp [hm]
  content? n := by
    rw [Score.content?, getElem?_modifyNode, Score.content?]
    split <;> cases g.nodes[n]? <;> simp [hc]

theorem parent? (h : SameHolds g g') (m : Nat) : g'.parent? m = g.parent? m := by
  rw [Score.parent?, h.modifiers, Score.parent?]

theorem kind? (h : SameHolds g g') (m : Nat) : g'.kind? m = g.kind? m := by
  rw [Score.kind?, h.modifiers, Score.kind?]

end SameHolds

end Score

/-- Connecting a strand changes links alone. -/
theorem Strand.sameHolds_connect (s : Strand) (g : Score) (node : Nat) :
    Score.SameHolds g (s.connect g node) := by
  have hnext : ∀ (ts : List Nat) (g : Score),
      Score.SameHolds g (ts.foldl (·.setNext · node) g) := by
    intro ts
    induction ts with
    | nil => exact fun g => ⟨rfl, fun _ => rfl, fun _ => rfl⟩
    | cons t ts ih =>
      intro g
      have hfirst : Score.SameHolds g (g.setNext t node) :=
        .modifyNode g t (fun _ => rfl) fun _ => rfl
      exact hfirst.trans (ih _)
  rw [connect_eq]
  exact (hnext s.tails g).trans (.modifyNode _ _ (fun _ => rfl) fun _ => rfl)

end Jianpu
