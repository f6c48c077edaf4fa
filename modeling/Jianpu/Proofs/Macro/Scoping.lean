import Jianpu.Macro.Scope

/-!
# Leaving a scope

Operations on scopes, as data, so that something can be said of all sequences of them. Whatever is
done between opening a frame and closing it, the frames below are left as they were, apart from the
global one, and that one changes by the definitions that are made everywhere. So what a name stands
for after a scope is left is what it stood for before, unless a definition for everywhere shows
through: `leave_restores_scopes`.

The frames below are followed by `Above`, one operation at a time. What is bound in the global frame
depends on how many inner frames there are, since a definition that meets none is made in the global
frame too (`globals`).
-/

namespace Jianpu.Macro.Scopes

variable {δ : Type}

/-- What can be done to scopes. -/
inductive Operation (δ : Type) where
  | define (name : String) (b : Binding δ) (everywhere : Bool)
  | defineDirective (name : String) (d : δ)
  | enter
  | leave
  | reset
  deriving DecidableEq, Repr

/-- Carries out an operation. Leaving changes nothing if only the global frame is left. -/
def apply (s : Scopes δ) : Operation δ → Scopes δ
  | .define name b everywhere => s.define name b everywhere
  | .defineDirective name d => s.defineDirective name d
  | .enter => s.enter
  | .leave => s.leave?.getD s
  | .reset => s.reset

/-- Carries out operations one after another. -/
def run (s : Scopes δ) (ops : List (Operation δ)) : Scopes δ := ops.foldl apply s

namespace Operation

/-- What an operation binds a name to, and whether it does so everywhere. -/
def binds? (name : String) : Operation δ → Option (Binding δ × Bool)
  | define x b everywhere => if x = name then some (b, everywhere) else none
  | defineDirective x d => if x = name then some (.directive d, true) else none
  | enter | leave | reset => none

/-- The number of inner frames after an operation that finds `n` of them. -/
def level (n : Nat) : Operation δ → Nat
  | define .. | defineDirective .. => n
  | enter => n + 1
  | leave => n - 1
  | reset => 0

/-- The number of frames of their own that operations have open after one more, where they had `n`.
There is none if that one closes a frame that is not theirs. -/
def own? (n : Nat) : Operation δ → Option Nat
  | define .. | defineDirective .. => some n
  | enter => some (n + 1)
  | leave => if n = 0 then none else some (n - 1)
  | reset => none

theorem level_of_own? {op : Operation δ} {n m : Nat} (h : op.own? n = some m) (k : Nat) :
    op.level (n + 1 + k) = m + 1 + k := by
  cases op with
  | define | defineDirective =>
    obtain rfl := Option.some.inj h
    rfl
  | enter =>
    obtain rfl := Option.some.inj h
    simp only [level]
    omega
  | leave =>
    rw [own?] at h
    split at h
    · cases h
    · obtain rfl := Option.some.inj h
      simp only [level]
      omega
  | reset => cases h

end Operation

/-- Every frame that operations close is one that they opened before, and they close all of
these. -/
def WellNested (ops : List (Operation δ)) : Prop := ops.foldlM (fun n op => op.own? n) 0 = some 0

instance (ops : List (Operation δ)) : Decidable (WellNested ops) :=
  inferInstanceAs (Decidable (_ = _))

/-- The definitions of a name that are made everywhere, in order. -/
def everywhere (name : String) (ops : List (Operation δ)) : List (Binding δ) :=
  ops.filterMap fun op => ((op.binds? name).filter (·.2)).map (·.1)

/-- What a name is bound to in the global frame by operations that find `n` inner frames, in order.
A definition that finds none is made there, too. -/
def globals (name : String) : Nat → List (Operation δ) → List (Binding δ)
  | _, [] => []
  | n, op :: ops =>
    (((op.binds? name).filter fun p => p.2 || n == 0).map (·.1)).toList ++
      globals name (op.level n) ops

/-- An inner frame binds the name, so that the global one is not asked. -/
def Shadows (s : Scopes δ) (name : String) : Prop := ∃ f ∈ s.inner, (f.lookup name).isSome

theorem get?_eq (s : Scopes δ) (name : String) :
    s.get? name = (s.inner.findSome? (·.lookup name)).or (s.global.lookup name) := by
  rw [get?, List.findSome?_append]
  cases h : s.global.lookup name <;> simp [h]

theorem Shadows.get?_eq {s : Scopes δ} {name : String} (h : s.Shadows name) :
    s.get? name = s.inner.findSome? (·.lookup name) := by
  obtain ⟨f, hf, hlookup⟩ := h
  have hsome : (s.inner.findSome? (·.lookup name)).isSome :=
    List.findSome?_isSome_iff.2 ⟨f, hf, hlookup⟩
  obtain ⟨b, hb⟩ := Option.isSome_iff_exists.1 hsome
  rw [Scopes.get?_eq, hb, Option.some_or]

theorem get?_of_not_shadows {s : Scopes δ} {name : String} (h : ¬s.Shadows name) :
    s.get? name = s.global.lookup name := by
  have hnone : s.inner.findSome? (·.lookup name) = none := by
    rw [List.findSome?_eq_none_iff]
    exact fun f hf => Option.not_isSome_iff_eq_none.1 fun hsome => h ⟨f, hf, hsome⟩
  rw [get?_eq, hnone, Option.none_or]

theorem leave?_eq_none_iff {s : Scopes δ} : s.leave? = none ↔ s.depth = 1 := by
  rw [leave?, depth]
  cases s.inner <;> simp

/-! ## The global frame -/

theorem length_inner_apply (s : Scopes δ) (op : Operation δ) :
    (s.apply op).inner.length = op.level s.inner.length := by
  obtain ⟨inner, global⟩ := s
  cases op with
  | define name b everywhere => cases everywhere <;> cases inner <;> rfl
  | defineDirective | enter | reset => rfl
  | leave => cases inner <;> rfl

/-- What an operation does to the global frame. -/
theorem lookup_global_apply (s : Scopes δ) (op : Operation δ) (name : String) :
    (s.apply op).global.lookup name =
      (((op.binds? name).filter fun p => p.2 || s.inner.length == 0).map (·.1)).or
        (s.global.lookup name) := by
  obtain ⟨inner, global⟩ := s
  have hinsert (x : String) (b : Binding δ) (everywhere : Bool) {q : Binding δ × Bool → Bool}
      (hq : q (b, everywhere) = true) : (global.insert x b).lookup name =
        (((if x = name then some (b, everywhere) else none).filter q).map (·.1)).or
          (global.lookup name) := by
    rw [Table.lookup_insert]
    by_cases h : x = name
    · simp [h, hq, Option.filter_some]
    · simp [h, Ne.symm h]
  cases op with
  | define x b everywhere =>
    cases everywhere with
    | true => exact hinsert x b true rfl
    | false =>
      cases inner with
      | nil => exact hinsert x b false rfl
      | cons f fs =>
        -- the definition is made in the frame `f`
        show global.lookup name = _
        rw [Operation.binds?]
        split <;> rfl
  | defineDirective x d => exact hinsert x (.directive d) true rfl
  | enter | reset => rfl
  | leave => cases inner <;> rfl

/-- **The global frame holds the last of what is bound there, whatever else is done.** -/
theorem lookup_global_run (s : Scopes δ) (ops : List (Operation δ)) (name : String) :
    (s.run ops).global.lookup name =
      (globals name s.inner.length ops).getLast?.or (s.global.lookup name) := by
  induction ops generalizing s with
  | nil => rfl
  | cons op ops ih =>
    rw [run, List.foldl_cons, ← run, ih, length_inner_apply, lookup_global_apply, globals,
      List.getLast?_append, Option.or_assoc]
    cases (((op.binds? name).filter fun p => p.2 || s.inner.length == 0).map (·.1)) <;> rfl

/-! ## The frames below -/

/-- There are `n` frames above the inner frames `below`. -/
def Above (s : Scopes δ) (below : List (Frame δ)) (n : Nat) : Prop :=
  ∃ top, s.inner = top ++ below ∧ top.length = n

variable {s : Scopes δ} {below : List (Frame δ)} {n m : Nat}

/-- An operation on a frame of its own leaves the frames below alone. -/
theorem Above.apply (h : s.Above below (n + 1)) {op : Operation δ} (hop : op.own? n = some m) :
    (s.apply op).Above below (m + 1) := by
  obtain ⟨inner, global⟩ := s
  obtain ⟨_ | ⟨f, top⟩, rfl, hlength⟩ := h
  · cases hlength
  · have hlength : top.length = n := Nat.succ.inj hlength
    cases op with
    | define name b everywhere =>
      obtain rfl := Option.some.inj hop
      cases everywhere with
      | false => exact ⟨f.insert name b :: top, rfl, congrArg (· + 1) hlength⟩
      | true => exact ⟨f :: top, rfl, congrArg (· + 1) hlength⟩
    | defineDirective name d =>
      obtain rfl := Option.some.inj hop
      exact ⟨f :: top, rfl, congrArg (· + 1) hlength⟩
    | enter =>
      obtain rfl := Option.some.inj hop
      exact ⟨[] :: f :: top, rfl, congrArg (· + 2) hlength⟩
    | leave =>
      rw [Operation.own?] at hop
      split at hop
      · cases hop
      · obtain rfl := Option.some.inj hop
        exact ⟨top, rfl, by omega⟩
    | reset => cases hop

theorem Above.run (h : s.Above below (n + 1)) {ops : List (Operation δ)}
    (hops : ops.foldlM (fun n op => op.own? n) n = some m) : (s.run ops).Above below (m + 1) := by
  induction ops generalizing s n with
  | nil =>
    obtain rfl := Option.some.inj hops
    exact h
  | cons op ops ih =>
    obtain ⟨k, hop, hops⟩ := Option.bind_eq_some_iff.1 hops
    exact ih (h.apply hop) hops

/-- Where a frame of their own is open, operations bind in the global frame what they bind
everywhere. -/
theorem globals_eq_everywhere {ops : List (Operation δ)}
    (hops : ops.foldlM (fun n op => op.own? n) n = some m) (name : String) (k : Nat) :
    globals name (n + 1 + k) ops = everywhere name ops := by
  induction ops generalizing n with
  | nil => rfl
  | cons op ops ih =>
    obtain ⟨n', hop, hops⟩ := Option.bind_eq_some_iff.1 hops
    have hinner : (n + 1 + k == 0) = false := beq_false_of_ne (by omega)
    rw [globals, Operation.level_of_own? hop, ih hops]
    simp only [hinner, Bool.or_false, everywhere, List.filterMap_cons]
    cases ((op.binds? name).filter (·.2)).map (·.1) <;> rfl

/-- The scopes `s'` are what is left of `s` after a scope in which `ops` were carried out. -/
structure Restored (s s' : Scopes δ) (ops : List (Operation δ)) : Prop where
  depth : s'.depth = s.depth
  /-- A name that an inner frame binds, or that is not defined everywhere, stands for what it stood
  for. -/
  get?_eq : ∀ name, s.Shadows name ∨ everywhere name ops = [] → s'.get? name = s.get? name
  /-- Any other stands for the last definition made everywhere. -/
  get?_eq_last : ∀ name b, ¬s.Shadows name → (everywhere name ops).getLast? = some b →
    s'.get? name = some b

theorem exists_leave?_restored (s : Scopes δ) {ops : List (Operation δ)} (h : WellNested ops) :
    ∃ s', (s.enter.run ops).leave? = some s' ∧ s.Restored s' ops := by
  have habove : s.enter.Above s.inner 1 := ⟨[[]], rfl, rfl⟩
  obtain ⟨top, hinner, hlength⟩ := habove.run h
  obtain ⟨f, rfl⟩ := List.length_eq_one_iff.1 hlength
  have hglobal (name : String) : (s.enter.run ops).global.lookup name =
      (everywhere name ops).getLast?.or (s.global.lookup name) := by
    have hlevel : s.enter.inner.length = 0 + 1 + s.inner.length := by
      rw [enter, List.length_cons]
      omega
    rw [lookup_global_run, hlevel, globals_eq_everywhere h]
    rfl
  refine ⟨{ s.enter.run ops with inner := s.inner }, by rw [leave?, hinner]; rfl, rfl, ?_, ?_⟩
  · rintro name (hshadows | hnone)
    · rw [Shadows.get?_eq (s := { s.enter.run ops with inner := s.inner }) hshadows,
        hshadows.get?_eq]
    · rw [Scopes.get?_eq, Scopes.get?_eq, hglobal, hnone]
      rfl
  · intro name b hshadows hlast
    rw [get?_of_not_shadows (s := { s.enter.run ops with inner := s.inner }) hshadows, hglobal,
      hlast, Option.some_or]

/-- **Leaving a scope restores what was visible before it.** In the scopes that any operations lead
to, the global frame is there, with the last of what was bound in it, and leaving fails if and only
if it is the only one. -/
theorem leave_restores_scopes (δ : Type) :
    (∀ (s : Scopes δ) (ops : List (Operation δ)), WellNested ops →
      ∃ s', (s.enter.run ops).leave? = some s' ∧ s.Restored s' ops) ∧
    ∀ ops : List (Operation δ), 1 ≤ (run {} ops).depth ∧
      ((run {} ops).leave? = none ↔ (run {} ops).depth = 1) ∧
      ∀ name, (run {} ops).global.lookup name = (globals name 0 ops).getLast? := by
  refine ⟨fun s ops => s.exists_leave?_restored, fun ops => ?_⟩
  refine ⟨Nat.le_add_left 1 _, leave?_eq_none_iff, ?_⟩
  intro name
  rw [lookup_global_run]
  exact Option.or_none

/-- Scopes in which an inner frame binds one of two names. -/
def shadowing : Scopes Nat where
  inner := [[("\\x", .directive 1)]]
  global := [("\\x", .directive 0), ("\\y", .directive 0)]

/-- Definitions of both names, everywhere and in a scope within the scope. -/
def redefinitions : List (Operation Nat) :=
  [.define "\\x" (.directive 2) true, .enter, .define "\\y" (.directive 3) false,
    .define "\\y" (.directive 4) true, .leave, .defineDirective "\\y" 5,
    .define "\\y" (.directive 6) false]

/-- The definition made everywhere shows where no inner frame binds the name. -/
theorem leave_restores_shadowing : WellNested redefinitions ∧
    ∃ s', (shadowing.enter.run redefinitions).leave? = some s' ∧
      shadowing.Restored s' redefinitions ∧
      s'.get? "\\x" = some (.directive 1) ∧ s'.get? "\\y" = some (.directive 5) := by
  have hnested : WellNested redefinitions := by decide
  obtain ⟨s', hleave, hrestored⟩ := (leave_restores_scopes Nat).1 shadowing redefinitions hnested
  have hx : shadowing.Shadows "\\x" := ⟨_, List.mem_cons_self, by decide⟩
  have hy : ¬shadowing.Shadows "\\y" := by simp [Shadows, shadowing]
  exact ⟨hnested, s', hleave, hrestored, (hrestored.get?_eq _ (.inl hx)).trans (by decide),
    hrestored.get?_eq_last _ _ hy (by decide)⟩

end Jianpu.Macro.Scopes
