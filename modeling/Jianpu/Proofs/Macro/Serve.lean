import Jianpu.Proofs.Macro.Feed
import Jianpu.Proofs.Macro.Flatten

/-!
# Sources with directives

An expander over tokens whose only control sequences name directives, and whose braces match, gives
these tokens one by one, then the end. `Expander.Serves` says that it does so from now on, whatever
the readers report in between, and whether they look at a token, take it, or take the group that it
opens.
-/

namespace Jianpu.Macro

variable {δ : Type}

/-- Only the global frame binds names. -/
structure Scopes.Bare (s : Scopes δ) (global : Frame δ) : Prop where
  global : s.global = global
  inner : ∀ f ∈ s.inner, f = []

namespace Scopes.Bare

variable {s : Scopes δ} {global : Frame δ}

theorem get? (h : s.Bare global) (name : String) : s.get? name = global.lookup name := by
  have hnone : ∀ fs : List (Frame δ), (∀ f ∈ fs, f = []) →
      fs.findSome? (·.lookup name) = none := by
    intro fs hfs
    rw [List.findSome?_eq_none_iff]
    intro f hf
    rw [hfs f hf]
    rfl
  rw [Scopes.get?, List.findSome?_append, hnone _ h.inner, h.global]
  simp

theorem enter (h : s.Bare global) : s.enter.Bare global :=
  ⟨h.global, List.forall_mem_cons.2 ⟨rfl, h.inner⟩⟩

theorem leave? (h : s.Bare global) {s' : Scopes δ} (hs : s.leave? = some s') : s'.Bare global := by
  unfold Scopes.leave? at hs
  split at hs
  · cases hs
  · rename_i f fs hinner
    obtain rfl := Option.some.inj hs
    have hall := h.inner
    rw [hinner] at hall
    exact ⟨h.global, (List.forall_mem_cons.1 hall).2⟩

theorem reset (h : s.Bare global) : s.reset.Bare global := ⟨h.global, by simp [Scopes.reset]⟩

end Scopes.Bare

namespace Expander

/-- The token stands for itself: it is no end mark, and if it is a control sequence then it names a
directive. -/
def Literal (global : Frame δ) (t : Token) : Prop :=
  t.isEof = false ∧ (t.kind = .control → ∃ d, global.lookup t.text = some (.directive d))

variable {global : Frame δ} {log : List Diagnostic} {e : Expander δ} {t : Token} {ts : List Token}

/-- What stays as it is while tokens are taken. -/
structure Steady (global : Frame δ) (log : List Diagnostic) (e : Expander δ) : Prop where
  bare : e.scopes.Bare global
  reported : e.reported = log

theorem bare_track (h : e.scopes.Bare global) (t : Token) : (e.track t).scopes.Bare global := by
  unfold track
  split
  · exact h.enter
  · split
    · rename_i hs
      exact h.leave? hs
    · exact h
  · split
    · exact h.reset
    · exact h
  · exact h

/-- A token whose brace fits leaves nothing to report. -/
theorem Steady.track (h : Steady global log e) (heof : t.isEof = false) {level : Nat}
    (hl : levelAfter t.kind e.scopes.inner.length = some level) :
    Steady global log (e.track t) ∧ (e.track t).scopes.inner.length = level := by
  obtain ⟨scopes, htrack, hlength⟩ := track_of_levelAfter heof hl
  have hbare := bare_track h.bare t
  rw [htrack] at hbare ⊢
  exact ⟨⟨hbare, h.reported⟩, hlength⟩

/-! ## The tokens to come -/

/-- One source with the tokens `ts` and then the end. The braces in them close those that are
open. -/
structure Stocked (global : Frame δ) (e : Expander δ) (ts : List Token) : Prop where
  sources : ∃ ends endless, e.stack.sources = [⟨ts ++ ends, endless⟩] ∧ ∀ t ∈ ends, t.isEof = true
  literal : ∀ t ∈ ts, Literal global t
  level : levelAfterAll (ts.map (·.kind)) e.scopes.inner.length = some 0

/-- The expander has reported `log`, and gives the tokens `ts` and then the end, the token that was
looked at included. -/
inductive Serves (global : Frame δ) (log : List Diagnostic) (e : Expander δ) : List Token → Prop
  | fresh {ts : List Token} : Steady global log e → e.peeked = none → Stocked global e ts →
      Serves global log e ts
  | looked {t : Token} {ts : List Token} : Steady global log e → e.peeked = some t →
      Literal global t → Stocked global e ts → Serves global log e (t :: ts)
  | ended {t : Token} : Steady global log e → e.peeked = some t → t.isEof = true →
      Serves global log e []

theorem serves_ofSource {ends : List Token} (endless : Option Position) (scopes : Scopes δ)
    (limit : Nat) (hinner : scopes.inner = []) (hliteral : ∀ t ∈ ts, Literal scopes.global t)
    (hends : ∀ t ∈ ends, t.isEof = true) (hlevel : levelAfterAll (ts.map (·.kind)) 0 = some 0) :
    Serves scopes.global [] (ofSource ⟨ts ++ ends, endless⟩ scopes limit) ts :=
  .fresh ⟨⟨rfl, by simp [ofSource, hinner]⟩, rfl⟩ rfl
    ⟨⟨ends, endless, rfl, hends⟩, hliteral, by simpa [ofSource, hinner] using hlevel⟩

/-- A token that was not looked at before is taken as it stands. -/
theorem take_of_stocked (h : Steady global log e) (hpeeked : e.peeked = none)
    (hs : Stocked global e (t :: ts)) :
    ∃ e', e.nextRaw = (t, e') ∧ e.next 1 = some (t, e') ∧ Steady global log e' ∧
      e'.peeked = none ∧ Stocked global e' ts := by
  obtain ⟨⟨ends, endless, hsource, hends⟩, hliteral, hlevel⟩ := hs
  obtain ⟨⟨heof, hnamed⟩, hliteral⟩ := List.forall_mem_cons.1 hliteral
  obtain ⟨stack, position, hpull, hstack⟩ := pull_cons hsource
  rw [List.map_cons, levelAfterAll_cons] at hlevel
  obtain ⟨level, hl, hlevel⟩ := Option.bind_eq_some_iff.1 hlevel
  have hsteady : Steady global log { e with stack, position } := ⟨h.bare, h.reported⟩
  obtain ⟨hsteady', hlength⟩ := hsteady.track heof hl
  refine ⟨track { e with stack, position } t, ?_, ?_, hsteady', ?_, ?_, hliteral, ?_⟩
  · simp only [nextRaw, hpeeked, hpull]
  · have hnext : e.next 1 = e.read 1 := by rw [next, hpeeked]
    rw [hnext]
    simp only [read, hpull]
    split
    · -- a control sequence leaves the scopes alone
      rename_i hcontrol
      obtain ⟨d, hd⟩ := hnamed hcontrol
      rw [h.bare.get?, hd]
      simp [track, hcontrol]
    · rfl
  · rw [peeked_track, hpeeked]
  · rw [stack_track]
    exact ⟨ends, endless, hstack, hends⟩
  · rw [hlength]
    exact hlevel

/-- After the tokens comes the end. -/
theorem take_end_of_stocked (h : Steady global log e) (hpeeked : e.peeked = none)
    (hs : Stocked global e []) :
    ∃ t e', e.next 1 = some (t, e') ∧ t.isEof = true ∧ Steady global log e' := by
  obtain ⟨⟨ends, endless, hsource, hends⟩, -, hlevel⟩ := hs
  obtain ⟨t, stack, position, hpull, heof⟩ := pull_end hsource hends
  have hkind : t.kind = .eof := by simpa [Token.isEof] using heof
  have hinner : e.scopes.inner.length = 0 := Option.some.inj hlevel
  refine ⟨t, _, next_of_pull hpeeked hpull (by simp [hkind]), heof, ?_⟩
  have htrack : track { e with stack, position } t = { e with stack, position } := by
    simp [track, hkind, Scopes.depth, hinner]
  rw [htrack]
  exact ⟨h.bare, h.reported⟩

namespace Serves

variable {fuel : Nat}

theorem steady (h : Serves global log e ts) : Steady global log e := by
  cases h <;> assumption

theorem literal (h : Serves global log e ts) : ∀ t ∈ ts, Literal global t := by
  cases h with
  | fresh _ _ hs => exact hs.literal
  | looked _ _ ht hs => exact List.forall_mem_cons.2 ⟨ht, hs.literal⟩
  | ended => simp

/-- Taking a token, with calls replaced or not. -/
theorem take (h : Serves global log e (t :: ts)) :
    ∃ e', e.nextRaw = (t, e') ∧ e.next 1 = some (t, e') ∧ e'.peeked = none ∧
      Serves global log e' ts := by
  cases h with
  | fresh hsteady hpeeked hs =>
    obtain ⟨e', hraw, hnext, hsteady', hpeeked', hs'⟩ := take_of_stocked hsteady hpeeked hs
    exact ⟨e', hraw, hnext, hpeeked', .fresh hsteady' hpeeked' hs'⟩
  | looked hsteady hpeeked _ hs =>
    refine ⟨{ e with peeked := none }, ?_, ?_, rfl,
      .fresh ⟨hsteady.bare, hsteady.reported⟩ rfl ⟨hs.sources, hs.literal, hs.level⟩⟩
    · rw [nextRaw, hpeeked]
    · rw [Expander.next, hpeeked]

theorem next (h : Serves global log e (t :: ts)) (hf : 1 ≤ fuel) :
    ∃ e', e.next fuel = some (t, e') ∧ Serves global log e' ts := by
  obtain ⟨e', -, hnext, -, h'⟩ := h.take
  exact ⟨e', next_mono hf hnext, h'⟩

/-- A token that is looked at is still to come. -/
theorem peek (h : Serves global log e (t :: ts)) (hf : 1 ≤ fuel) :
    ∃ e', e.peek fuel = some (t, e') ∧ Serves global log e' (t :: ts) := by
  have ht := h.literal t List.mem_cons_self
  obtain ⟨e', -, hnext, hpeeked, h'⟩ := h.take
  refine ⟨{ e' with peeked := some t }, ?_, ?_⟩
  · rw [Expander.peek, next_mono hf hnext]
    rfl
  · cases h' with
    | fresh hsteady _ hs =>
      exact .looked ⟨hsteady.bare, hsteady.reported⟩ rfl ht ⟨hs.sources, hs.literal, hs.level⟩
    | looked _ hsome => simp [hpeeked] at hsome
    | ended _ hsome => simp [hpeeked] at hsome

theorem peek_end (h : Serves global log e []) (hf : 1 ≤ fuel) :
    ∃ t e', e.peek fuel = some (t, e') ∧ t.isEof = true ∧ Serves global log e' [] := by
  obtain ⟨t, e', hnext, heof, hsteady'⟩ : ∃ t e', e.next 1 = some (t, e') ∧ t.isEof = true ∧
      Steady global log e' := by
    cases h with
    | fresh hsteady hpeeked hs => exact take_end_of_stocked hsteady hpeeked hs
    | @ended t hsteady hpeeked heof =>
      exact ⟨t, { e with peeked := none }, by rw [Expander.next, hpeeked], heof,
        ⟨hsteady.bare, hsteady.reported⟩⟩
  refine ⟨t, { e' with peeked := some t }, ?_, heof,
    .ended ⟨hsteady'.bare, hsteady'.reported⟩ rfl heof⟩
  rw [Expander.peek, next_mono hf hnext]
  rfl

/-- Looking at what comes next, whether it is a token or the end. -/
theorem look (h : Serves global log e ts) (hf : 1 ≤ fuel) :
    ∃ t e', e.peek fuel = some (t, e') ∧ Serves global log e' ts ∧
      (ts.head? = some t ∨ ts = [] ∧ t.isEof = true) := by
  cases ts with
  | nil =>
    obtain ⟨t, e', hpeek, heof, h'⟩ := h.peek_end hf
    exact ⟨t, e', hpeek, h', .inr ⟨rfl, heof⟩⟩
  | cons t ts =>
    obtain ⟨e', hpeek, h'⟩ := h.peek hf
    exact ⟨t, e', hpeek, h', .inl rfl⟩

/-- A reader may report. -/
theorem report (h : Serves global log e ts) (c : Cause) (s : Span) :
    Serves global (⟨c, s⟩ :: log) (e.report c s) ts := by
  have hsteady : ∀ {e : Expander δ}, Steady global log e →
      Steady global (⟨c, s⟩ :: log) (e.report c s) := fun h =>
    ⟨h.bare, by rw [Expander.report, h.reported]⟩
  cases h with
  | fresh h hpeeked hs => exact .fresh (hsteady h) hpeeked ⟨hs.sources, hs.literal, hs.level⟩
  | looked h hpeeked ht hs =>
    exact .looked (hsteady h) hpeeked ht ⟨hs.sources, hs.literal, hs.level⟩
  | ended h hpeeked heof => exact .ended (hsteady h) hpeeked heof

theorem directive? (h : Serves global log e ts) (hkind : t.kind = .control) {d : δ}
    (hd : global.lookup t.text = some (.directive d)) : e.directive? t = some d := by
  simp [Expander.directive?, hkind, h.steady.bare.get?, hd]

/-! ## Groups -/

variable {inner : List Token} {c : Token}

theorem groupRestRaw (h : Serves global log e (inner ++ c :: ts))
    (hinner : ∀ u ∈ inner, u.kind = .other) (hc : c.kind = .closing) :
    ∃ e', Expander.groupRestRaw 0 e = (inner ++ [c], e') ∧ Serves global log e' ts := by
  induction inner generalizing e with
  | nil =>
    obtain ⟨e', hraw, -, -, h'⟩ := h.take
    refine ⟨e', ?_, h'⟩
    rw [Expander.groupRestRaw]
    simp [hraw, Token.isEof, hc, levelAfter]
  | cons u inner ih =>
    obtain ⟨hu, hinner⟩ := List.forall_mem_cons.1 hinner
    obtain ⟨e₁, hraw, -, -, h₁⟩ := h.take
    obtain ⟨e', hrest, h'⟩ := ih h₁ hinner
    refine ⟨e', ?_, h'⟩
    rw [Expander.groupRestRaw]
    simp [hraw, Token.isEof, hu, levelAfter, hrest]

theorem groupRest (h : Serves global log e (inner ++ c :: ts))
    (hinner : ∀ u ∈ inner, u.kind = .other) (hc : c.kind = .closing)
    (hf : inner.length + 2 ≤ fuel) :
    ∃ e', Expander.groupRest fuel 0 e = some (inner ++ [c], e') ∧ Serves global log e' ts := by
  induction inner generalizing e fuel with
  | nil =>
    obtain ⟨fuel, rfl⟩ : ∃ k, fuel = k + 1 := ⟨fuel - 1, by omega⟩
    obtain ⟨e', hnext, h'⟩ := h.next (by simpa using hf : 1 ≤ fuel)
    refine ⟨e', ?_, h'⟩
    simp [Expander.groupRest, hnext, Token.isEof, hc, levelAfter]
  | cons u inner ih =>
    rw [List.length_cons] at hf
    obtain ⟨fuel, rfl⟩ : ∃ k, fuel = k + 1 := ⟨fuel - 1, by omega⟩
    obtain ⟨hu, hinner⟩ := List.forall_mem_cons.1 hinner
    obtain ⟨e₁, hnext, h₁⟩ := h.next (by omega : 1 ≤ fuel)
    obtain ⟨e', hrest, h'⟩ := ih h₁ hinner (by omega : inner.length + 2 ≤ fuel)
    refine ⟨e', ?_, h'⟩
    simp [Expander.groupRest, hnext, Token.isEof, hu, levelAfter, hrest]

end Serves

end Expander

end Jianpu.Macro
