import Jianpu.Sheet.Parse

/-!
# Steps of reading

A reader is a step from state to state that can fail. `Yields` says what holds of what a step gives,
if it gives anything, and `Succeeds` that it gives something of which this holds. `Upholds` says
that a step keeps an invariant. `Jointly` says so of many steps taken side by side, each in a state
of its own: they all fail or all succeed, and keep what holds of their states together.

The readers of sequences, groups and branches go through the music in one way, whatever is to be
kept. A `Writing.Walk` is something that each single step of theirs keeps; then they keep it as a
whole (`Writing.Walk.sequence`).
-/

namespace Jianpu

/-- A step that succeeds is followed by the others. -/
theorem bind_of_eq_some {σ α β : Type} {m : StateT σ Option α} {f : α → StateT σ Option β}
    {s s' : σ} {a : α} (h : m s = some (a, s')) : (m >>= f) s = f a s' := by
  change (m s).bind _ = _
  rw [h]
  rfl

theorem bind_of_eq_none {σ α β : Type} {m : StateT σ Option α} {s : σ} (h : m s = none)
    (f : α → StateT σ Option β) : (m >>= f) s = none := by
  change (m s).bind _ = none
  rw [h]
  rfl

/-! ## Steps that may fail -/

/-- What a step gives satisfies `Q`, if it gives anything. -/
def Yields {σ α : Type} (m : StateT σ Option α) (s : σ) (Q : α → σ → Prop) : Prop :=
  ∀ a s', m s = some (a, s') → Q a s'

namespace Yields

variable {σ α β : Type} {m : StateT σ Option α} {f : α → StateT σ Option β} {s s' : σ} {a : α}
  {Q R : α → σ → Prop} {Q' : β → σ → Prop}

theorem of_eq (h : m s = some (a, s')) (hQ : Q a s') : Yields m s Q := by
  intro a' s'' heq
  rw [h] at heq
  obtain ⟨rfl, rfl⟩ := Prod.mk.inj (Option.some.inj heq)
  exact hQ

theorem of_pure (h : Q a s) : Yields (pure a) s Q := of_eq rfl h

theorem of_get {Q : σ → σ → Prop} (h : Q s s) : Yields (get : StateT σ Option σ) s Q := of_eq rfl h

theorem of_modify {g : σ → σ} {Q : PUnit → σ → Prop} (h : Q ⟨⟩ (g s)) :
    Yields (modify g : StateT σ Option PUnit) s Q := of_eq rfl h

theorem of_failure : Yields (failure : StateT σ Option α) s Q := by
  intro a s' h
  cases h

theorem bind (h : Yields m s fun a s' => Yields (f a) s' Q') : Yields (m >>= f) s Q' := by
  intro b s' heq
  obtain ⟨p, hp, hf⟩ := Option.bind_eq_some_iff.1 heq
  exact h p.1 p.2 hp b s' hf

theorem mono (h : Yields m s Q) (hQR : ∀ a s', Q a s' → R a s') : Yields m s R :=
  fun a s' heq => hQR a s' (h a s' heq)

/-- A step on a part of the state. -/
theorem of_eq_map {τ : Type} {n : StateT τ Option α} {t : τ} {g : τ → σ}
    (hm : m s = (n t).map fun r => (r.1, g r.2)) (h : Yields n t fun a t' => Q a (g t')) :
    Yields m s Q := by
  intro a s' heq
  rw [hm] at heq
  obtain ⟨r, hr, heq⟩ := Option.map_eq_some_iff.1 heq
  obtain ⟨rfl, rfl⟩ := Prod.mk.inj heq
  exact h r.1 r.2 hr

end Yields

/-- What is read in music is read from its source, and nothing else changes. -/
theorem Writing.yields_read {α : Type} {m : Reading α} {b : Body} {Q : α → Body → Prop}
    (h : ∀ x e, m b.input = some (x, e) → Q x { b with input := e }) : Yields (read m) b Q :=
  .of_eq_map rfl h

theorem Drafting.yields_read {α : Type} {m : Reading α} {d : Draft} {Q : α → Draft → Prop}
    (h : ∀ x e, m d.input = some (x, e) → Q x { d with input := e }) : Yields (read m) d Q :=
  .of_eq_map rfl h

/-! ## Steps that succeed -/

/-- The step gives something, and it satisfies `Q`. -/
def Succeeds {σ α : Type} (m : StateT σ Option α) (s : σ) (Q : α → σ → Prop) : Prop :=
  ∃ a s', m s = some (a, s') ∧ Q a s'

namespace Succeeds

variable {σ α β : Type} {m : StateT σ Option α} {f : α → StateT σ Option β} {s s' : σ} {a : α}
  {Q R : α → σ → Prop} {Q' : β → σ → Prop}

theorem of_eq (h : m s = some (a, s')) (hQ : Q a s') : Succeeds m s Q := ⟨a, s', h, hQ⟩

theorem of_pure (h : Q a s) : Succeeds (pure a) s Q := of_eq rfl h

theorem of_get {Q : σ → σ → Prop} (h : Q s s) : Succeeds (get : StateT σ Option σ) s Q :=
  of_eq rfl h

theorem of_modify {g : σ → σ} {Q : PUnit → σ → Prop} (h : Q ⟨⟩ (g s)) :
    Succeeds (modify g : StateT σ Option PUnit) s Q := of_eq rfl h

theorem bind (h : Succeeds m s fun a s' => Succeeds (f a) s' Q') : Succeeds (m >>= f) s Q' := by
  obtain ⟨a, s', hm, b, s'', hf, hQ⟩ := h
  exact ⟨b, s'', (bind_of_eq_some hm).trans hf, hQ⟩

theorem mono (h : Succeeds m s Q) (hQR : ∀ a s', Q a s' → R a s') : Succeeds m s R := by
  obtain ⟨a, s', hm, hQ⟩ := h
  exact ⟨a, s', hm, hQR a s' hQ⟩

end Succeeds

/-! ## Steps that keep an invariant -/

/-- A step keeps the invariant `I`, and what it gives satisfies `Q`. -/
def Upholds {σ α : Type} (I : σ → Prop) (m : StateT σ Option α) (Q : α → Prop) : Prop :=
  ∀ s, I s → Yields m s fun a s' => I s' ∧ Q a

namespace Upholds

variable {σ α β : Type} {I : σ → Prop} {m : StateT σ Option α} {f : α → StateT σ Option β}
  {Q : α → Prop} {Q' : β → Prop}

theorem bind (h : Upholds I m Q) (hf : ∀ a, Q a → Upholds I (f a) Q') : Upholds I (m >>= f) Q' :=
  fun s hs => .bind ((h s hs).mono fun a s' ha => hf a ha.2 s' ha.1)

theorem pure {a : α} (h : Q a) : Upholds I (pure a) Q := fun _ hs => .of_pure ⟨hs, h⟩

theorem get : Upholds I (MonadState.get : StateT σ Option σ) I := fun _ hs => .of_get ⟨hs, hs⟩

theorem modify {g : σ → σ} (h : ∀ s, I s → I (g s)) :
    Upholds I (modify g : StateT σ Option PUnit) fun _ => True :=
  fun s hs => .of_modify ⟨h s hs, trivial⟩

theorem failure : Upholds I (failure : StateT σ Option α) Q := fun _ _ => .of_failure

theorem mono {R : α → Prop} (h : Upholds I m Q) (hQR : ∀ a, Q a → R a) : Upholds I m R :=
  fun s hs => (h s hs).mono fun a _ ha => ⟨ha.1, hQR a ha.2⟩

end Upholds

/-! ## Steps side by side -/

/-- Steps from states of which `R` holds together: all fail, or all go on to states of which it
holds, and `Q` holds of what they give. -/
def Jointly {ι σ α : Type} (R : (ι → σ) → Prop) (m : ι → StateT σ Option α)
    (Q : (ι → α) → Prop) : Prop :=
  ∀ b, R b → (∀ i, m i (b i) = none) ∨
    ∃ r : ι → α × σ, (∀ i, m i (b i) = some (r i)) ∧ R (fun i => (r i).2) ∧ Q fun i => (r i).1

namespace Jointly

variable {ι σ α β : Type} {R : (ι → σ) → Prop} {m : ι → StateT σ Option α}
  {f : ι → α → StateT σ Option β} {Q : (ι → α) → Prop} {Q' : (ι → β) → Prop}

theorem pure {x : ι → α} (h : Q x) : Jointly R (fun i => pure (x i)) Q :=
  fun b hb => .inr ⟨fun i => (x i, b i), fun _ => rfl, hb, h⟩

theorem failure : Jointly R (fun _ => failure) Q := fun _ _ => .inl fun _ => rfl

theorem get : Jointly R (fun _ => MonadState.get) R :=
  fun b hb => .inr ⟨fun i => (b i, b i), fun _ => rfl, hb, hb⟩

theorem bind (h : Jointly R m Q) (hf : ∀ x, Q x → Jointly R (fun i => f i (x i)) Q') :
    Jointly R (fun i => m i >>= f i) Q' := by
  intro b hb
  rcases h b hb with hnone | ⟨r, hr, hR, hQ⟩
  · exact .inl fun i => bind_of_eq_none (hnone i) _
  · have hbind : ∀ i, (m i >>= f i) (b i) = f i (r i).1 (r i).2 := fun i => bind_of_eq_some (hr i)
    rcases hf _ hQ _ hR with hnone | ⟨r', hr', hR', hQ'⟩
    · exact .inl fun i => (hbind i).trans (hnone i)
    · exact .inr ⟨r', fun i => (hbind i).trans (hr' i), hR', hQ'⟩

theorem mono {Q' : (ι → α) → Prop} (h : Jointly R m Q) (hQ : ∀ x, Q x → Q' x) :
    Jointly R m Q' := by
  intro b hb
  rcases h b hb with hnone | ⟨r, hr, hR, hx⟩
  · exact .inl hnone
  · exact .inr ⟨r, hr, hR, hQ _ hx⟩

/-- Steps that all come from one outcome fail or succeed together. -/
theorem of_eq_map (γ : Type) (h : ∀ b, R b → ∃ (n : Option γ) (f : ι → γ → α × σ),
      (∀ i, m i (b i) = n.map (f i)) ∧ ∀ x, R (fun i => (f i x).2) ∧ Q fun i => (f i x).1) :
    Jointly R m Q := by
  intro b hb
  obtain ⟨n, f, hm, hf⟩ := h b hb
  cases n with
  | none => exact .inl hm
  | some x => exact .inr ⟨fun i => f i x, hm, hf x⟩

/-- What holds of one state by itself. -/
theorem of_upholds {I : σ → Prop} {m : Unit → StateT σ Option α} {Q : (Unit → α) → Prop}
    (h : Upholds I (m ()) fun x => Q fun _ => x) : Jointly (fun b => I (b ())) m Q := by
  intro b hb
  cases hm : m () (b ()) with
  | none => exact .inl fun _ => hm
  | some r =>
    obtain ⟨hI, hQ⟩ := h (b ()) hb r.1 r.2 hm
    exact .inr ⟨fun _ => r, fun _ => hm, hI, hQ⟩

theorem upholds {I : σ → Prop} {m : StateT σ Option α} {Q : α → Prop}
    (h : Jointly (fun b : Unit → σ => I (b ())) (fun _ => m) fun x => Q (x ())) :
    Upholds I m Q := by
  intro s hs x s' hm
  rcases h (fun _ => s) hs with hnone | ⟨r, hr, hI, hQ⟩
  · exact nomatch hm.symm.trans (hnone ())
  · have hx : r () = (x, s') := Option.some.inj ((hr ()).symm.trans hm)
    dsimp only at hI hQ
    rw [hx] at hI hQ
    exact ⟨hI, hQ⟩

end Jointly

/-! ## Through the music -/

namespace Writing

/-- Something that holds of the states of readings of music side by side, and that each single step
of the readers keeps. It can depend on what is ambient, on what is put into the score and on the
tokens; the tokens are the same for all. -/
structure Walk (ι : Type) where
  body : (ι → Body) → Prop
  ambient : (ι → Ambient) → Prop
  content : (ι → Content) → Prop
  token : Token → Prop
  input : ∀ {b}, body b → ∃ e, ∀ i, (b i).input = e
  peek : ∀ fuel, Jointly body (fun _ => read (Reading.peek fuel)) fun t =>
    ∃ u, token u ∧ t = fun _ => u
  next : ∀ fuel, Jointly body (fun _ => read (Reading.next fuel)) fun t =>
    ∃ u, token u ∧ t = fun _ => u
  unclosed : ∀ {t}, token t →
    Jointly body (fun _ => read (Reading.report .closingExpected t.span)) fun _ => True
  modifier? : ∀ fuel, Jointly body (fun _ => read (Writing.modifier? fuel)) fun x =>
    ∃ y, x = fun _ => y
  note : ∀ {t a}, token t → ambient a →
    Jointly body (fun i => read (Writing.content t (a i))) content
  directive : ∀ fuel d {t a}, token t → ambient a →
    Jointly body (fun i => Writing.directive fuel d t (a i)) fun r =>
      ∃ c a', r = (fun i => (c, a' i)) ∧ (∀ x ∈ c, content fun _ => x) ∧ ambient a'
  append : ∀ (s : ι → Option Strand) {c} span, content c →
    Jointly body (fun i => append (s i) (c i) span) fun _ => True
  concat : ∀ s o : ι → Option Strand, Jointly body (fun i => concat (s i) (o i)) fun _ => True
  branch : ∀ s o : ι → Option Strand, Jointly body (fun i => branch (s i) (o i)) fun _ => True
  insert : ∀ (slot : ι → Option Slot) kind span,
    Jointly body (fun i => insert (slot i) kind span) fun _ => True

namespace Walk

variable {ι : Type} (w : Walk ι) {fuel : Nat}

theorem modifiers (slot : ι → Option Slot) :
    Jointly w.body (fun i => Writing.modifiers fuel (slot i)) fun _ => True := by
  induction fuel generalizing slot with
  | zero => exact .failure
  | succ fuel ih =>
    simp only [Writing.modifiers]
    refine .bind (w.modifier? fuel) ?_
    rintro _ ⟨x, rfl⟩
    cases x with
    | none => exact .pure trivial
    | some x => exact .bind (w.insert slot x.1 x.2) fun slot' _ => ih slot'

/-- The readers keep it within a number of steps. -/
structure Keeps (fuel : Nat) : Prop where
  sequence : ∀ (s : ι → Option Strand) {a}, w.ambient a →
    Jointly w.body (fun i => Writing.sequence fuel (s i) (a i)) fun r => w.ambient fun i => (r i).2
  group : ∀ {a}, w.ambient a → Jointly w.body (fun i => Writing.group fuel (a i)) fun _ => True
  branches : ∀ (s : ι → Option Strand) {a}, w.ambient a →
    Jointly w.body (fun i => Writing.branches fuel (s i) (a i)) fun _ => True

variable {w} {a : ι → Ambient}

namespace Keeps

/-- A note or a group, its modifiers, and what comes after them. -/
theorem suffixed (h : w.Keeps fuel) (s : ι → Option Strand) (slot : ι → Option Slot)
    (ha : w.ambient a) : Jointly w.body (fun i => do
      Writing.modifiers fuel (slot i)
      Writing.sequence fuel (s i) (a i)) fun r => w.ambient fun i => (r i).2 :=
  .bind (w.modifiers slot) fun _ _ => h.sequence s ha

/-- A directive, and what comes after it, whether or not it puts a node there. -/
theorem directive (h : w.Keeps fuel) (d : Directive) {t : Token} (ht : w.token t)
    (s : ι → Option Strand) (ha : w.ambient a) : Jointly w.body (fun i => do
      match ← Writing.directive fuel d t (a i) with
      | (some c, a) =>
        let (s, _) ← Writing.append (s i) c t.span
        Writing.sequence fuel (some s) a
      | (none, a) => Writing.sequence fuel (s i) a) fun r => w.ambient fun i => (r i).2 := by
  refine .bind (w.directive fuel d ht ha) ?_
  rintro _ ⟨c, a', rfl, hc, ha'⟩
  cases c with
  | none => exact h.sequence s ha'
  | some c =>
    exact .bind (w.append s t.span (hc c rfl)) fun r _ => h.sequence (fun i => some (r i).1) ha'

theorem sequence_succ (h : w.Keeps fuel) (s : ι → Option Strand) (ha : w.ambient a) :
    Jointly w.body (fun i => Writing.sequence (fuel + 1) (s i) (a i)) fun r =>
      w.ambient fun i => (r i).2 := by
  simp only [Writing.sequence]
  refine .bind (w.peek fuel) ?_
  rintro _ ⟨t, ht, rfl⟩
  by_cases hstop : (t.isEof || t.kind = .closing || t.isSeparator) = true
  · simp only [if_pos hstop]
    exact .pure ha
  · simp only [if_neg hstop]
    by_cases hopening : t.kind = .opening
    · simp only [if_pos hopening]
      refine .bind (h.group ha) fun o _ => .bind (w.concat s o) fun r _ => ?_
      exact h.suffixed (fun i => (r i).1) (fun i => (r i).2) ha
    · simp only [if_neg hopening]
      refine .bind .get fun b hb => ?_
      obtain ⟨e, he⟩ := w.input hb
      simp only [he]
      cases e.directive? t with
      | none =>
        refine .bind (w.next fuel) ?_
        rintro _ ⟨t, ht, rfl⟩
        refine .bind (w.note ht ha) fun c hc => .bind (w.append s t.span hc) fun r _ => ?_
        exact h.suffixed (fun i => some (r i).1) (fun i => some (r i).2) ha
      | some d =>
        cases d with
        | track | voice => exact .pure ha
        | _ => exact .bind (w.next fuel) fun _ _ => h.directive _ ht s ha

theorem group_succ (h : w.Keeps fuel) (ha : w.ambient a) :
    Jointly w.body (fun i => Writing.group (fuel + 1) (a i)) fun _ => True := by
  simp only [Writing.group]
  refine .bind (w.next fuel) fun _ _ => .bind (h.sequence (fun _ => none) ha) fun r _ =>
    .bind (h.branches (fun i => (r i).1) ha) fun s _ => .bind (w.peek fuel) ?_
  rintro _ ⟨t, ht, rfl⟩
  by_cases hclosing : t.kind = .closing
  · simp only [if_pos hclosing]
    exact .bind (w.next fuel) fun _ _ => .pure trivial
  · simp only [if_neg hclosing]
    exact .bind (w.unclosed ht) fun _ _ => .pure trivial

theorem branches_succ (h : w.Keeps fuel) (s : ι → Option Strand) (ha : w.ambient a) :
    Jointly w.body (fun i => Writing.branches (fuel + 1) (s i) (a i)) fun _ => True := by
  simp only [Writing.branches]
  refine .bind (w.peek fuel) ?_
  rintro _ ⟨t, -, rfl⟩
  by_cases hseparator : t.isSeparator = true
  · simp only [if_pos hseparator]
    refine .bind (w.next fuel) fun _ _ => .bind (h.sequence (fun _ => none) ha) fun r _ => ?_
    exact .bind (w.branch s fun i => (r i).1) fun s' _ => h.branches s' ha
  · simp only [if_neg hseparator]
    exact .pure trivial

end Keeps

theorem keeps (w : Walk ι) (fuel : Nat) : w.Keeps fuel := by
  induction fuel with
  | zero => exact ⟨fun _ _ _ => .failure, fun _ => .failure, fun _ _ _ => .failure⟩
  | succ fuel ih =>
    exact ⟨fun s _ ha => ih.sequence_succ s ha, ih.group_succ, fun s _ ha => ih.branches_succ s ha⟩

/-- **What each step of the readers of music keeps, reading a sequence keeps.** -/
theorem sequence (w : Walk ι) (fuel : Nat) (s : ι → Option Strand) (ha : w.ambient a) :
    Jointly w.body (fun i => Writing.sequence fuel (s i) (a i)) fun r =>
      w.ambient fun i => (r i).2 :=
  (w.keeps fuel).sequence s ha

end Walk

end Writing

end Jianpu
