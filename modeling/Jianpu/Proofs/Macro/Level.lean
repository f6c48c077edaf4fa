import Jianpu.Proofs.Macro.Feed
import Jianpu.Proofs.Macro.Flatten

/-!
# Plain sources, in order or not

An expander over tokens among which there is no control sequence gives these tokens one by one, then
the end, whether their braces match or not. `Expander.Ahead` says which tokens are still to come and
how many braces are open before them, as long as nothing was reported. A brace that closes none and
an end with braces open are the only faults of such a source.
-/

namespace Jianpu.Macro.Expander

variable {δ : Type}

/-- Where nothing was reported, the number of braces open; `none` where something was. -/
def HasLevel (e : Expander δ) : Option Nat → Prop
  | some n => e.reported = [] ∧ e.scopes.inner.length = n
  | none => e.reported ≠ []

/-- All braces have to be closed at the end. -/
def levelAtEnd : Nat → Option Nat
  | 0 => some 0
  | _ + 1 => none

section Level

variable {e : Expander δ} {t : Token} {l : Option Nat}

theorem HasLevel.eq_some (h : e.HasLevel l) (hreported : e.reported = []) :
    l = some e.scopes.inner.length := by
  cases l with
  | some n => rw [h.2]
  | none => exact absurd hreported h

theorem reported_track_ne_nil (t : Token) (h : e.reported ≠ []) : (e.track t).reported ≠ [] := by
  obtain ⟨new, hnew⟩ := grows_track e t
  rw [← hnew]
  exact List.append_ne_nil_of_right_ne_nil new h

theorem HasLevel.track (h : e.HasLevel l) (heof : t.isEof = false) :
    (e.track t).HasLevel (l.bind (levelAfter t.kind)) := by
  cases l with
  | none => exact reported_track_ne_nil t h
  | some n =>
    obtain ⟨hreported, rfl⟩ := h
    cases hl : levelAfter t.kind e.scopes.inner.length with
    | some m =>
      obtain ⟨scopes, htrack, hscopes⟩ := track_of_levelAfter heof hl
      rw [htrack, Option.bind_some, hl]
      exact ⟨hreported, hscopes⟩
    | none =>
      -- only a brace that closes none leaves no level
      rw [Option.bind_some, hl]
      unfold levelAfter at hl
      split at hl
      · rename_i hkind hinner
        have hleave : e.scopes.leave? = none := by
          rw [Scopes.leave?, List.length_eq_zero_iff.1 hinner]
        simp [HasLevel, Expander.track, hkind, hleave, report]
      all_goals cases hl

theorem HasLevel.track_end (h : e.HasLevel l) (heof : t.isEof = true) :
    (e.track t).HasLevel (l.bind levelAtEnd) := by
  cases l with
  | none => exact reported_track_ne_nil t h
  | some n =>
    obtain ⟨hreported, hinner⟩ := h
    have hkind : t.kind = .eof := by simpa [Token.isEof] using heof
    cases n with
    | zero => simp [HasLevel, Expander.track, hkind, Scopes.depth, hinner, levelAtEnd, hreported]
    | succ n => simp [HasLevel, Expander.track, hkind, Scopes.depth, hinner, levelAtEnd, report]

theorem hasLevel_report (e : Expander δ) (c : Cause) (s : Span) : (e.report c s).HasLevel none :=
  List.cons_ne_nil _ _

end Level

/-! ## The tokens to come -/

/-- One source with the tokens `ts` and then the end. There is no control sequence among them. -/
def Holds (stack : Stack) (ts : List Token) : Prop :=
  ∃ ends endless, stack.sources = [⟨ts ++ ends, endless⟩] ∧
    (∀ t ∈ ts, t.kind ≠ .control ∧ t.isEof = false) ∧ ∀ t ∈ ends, t.isEof = true

/-- The tokens to come, the one that was looked at included, and the level before them. -/
inductive Ahead (e : Expander δ) : List Token → Option Nat → Prop
  | fresh {ts : List Token} {l : Option Nat} : e.peeked = none → Holds e.stack ts → e.HasLevel l →
      Ahead e ts l
  | looked {t : Token} {ts : List Token} {l : Option Nat} : e.peeked = some t → t.kind ≠ .control →
      t.isEof = false → Holds e.stack ts → e.HasLevel (l.bind (levelAfter t.kind)) →
      Ahead e (t :: ts) l
  | ended {t : Token} {l : Option Nat} : e.peeked = some t → t.isEof = true →
      e.HasLevel (l.bind levelAtEnd) → Ahead e [] l

theorem ahead_ofSource {ts ends : List Token} (endless : Option Position) (scopes : Scopes δ)
    (limit : Nat) (hscopes : scopes.inner = [])
    (hplain : ∀ t ∈ ts, t.kind ≠ .control ∧ t.isEof = false) (hends : ∀ t ∈ ends, t.isEof = true) :
    (ofSource ⟨ts ++ ends, endless⟩ scopes limit).Ahead ts (some 0) :=
  .fresh rfl ⟨ends, endless, rfl, hplain, hends⟩ ⟨rfl, by rw [ofSource, hscopes]; rfl⟩

section Reads

variable {e : Expander δ} {t : Token} {ts : List Token} {l : Option Nat}

/-- A token that was not looked at before is taken. -/
theorem next_of_holds (hpeeked : e.peeked = none) (h : Holds e.stack (t :: ts))
    (hlevel : e.HasLevel l) : ∃ e', e.next 1 = some (t, e') ∧ e'.peeked = none ∧
      Holds e'.stack ts ∧ e'.HasLevel (l.bind (levelAfter t.kind)) := by
  obtain ⟨ends, endless, hsource, hplain, hends⟩ := h
  obtain ⟨⟨hcontrol, heof⟩, hplain⟩ := List.forall_mem_cons.1 hplain
  obtain ⟨stack, position, hpull, hstack⟩ := pull_cons hsource
  have hlevel' : HasLevel { e with stack, position } l := hlevel
  refine ⟨_, next_of_pull hpeeked hpull hcontrol, by rw [peeked_track, hpeeked], ?_,
    hlevel'.track heof⟩
  rw [stack_track]
  exact ⟨ends, endless, hstack, hplain, hends⟩

/-- After the tokens comes the end. -/
theorem next_of_holds_nil (hpeeked : e.peeked = none) (h : Holds e.stack [])
    (hlevel : e.HasLevel l) :
    ∃ t e', e.next 1 = some (t, e') ∧ t.isEof = true ∧ e'.HasLevel (l.bind levelAtEnd) := by
  obtain ⟨ends, endless, hsource, -, hends⟩ := h
  obtain ⟨t, stack, position, hpull, heof⟩ := pull_end hsource hends
  have hkind : t.kind = .eof := by simpa [Token.isEof] using heof
  have hlevel' : HasLevel { e with stack, position } l := hlevel
  exact ⟨t, _, next_of_pull hpeeked hpull (by simp [hkind]), heof,
    hlevel'.track_end heof⟩

namespace Ahead

variable {fuel : Nat}

theorem plain (h : e.Ahead ts l) : ∀ t ∈ ts, t.kind ≠ .control ∧ t.isEof = false := by
  cases h with
  | fresh _ hholds _ => exact hholds.choose_spec.choose_spec.2.1
  | looked _ hcontrol heof hholds _ =>
    exact List.forall_mem_cons.2 ⟨⟨hcontrol, heof⟩, hholds.choose_spec.choose_spec.2.1⟩
  | ended => exact fun t ht => nomatch ht

theorem next (h : e.Ahead (t :: ts) l) (hf : 1 ≤ fuel) :
    ∃ e', e.next fuel = some (t, e') ∧ e'.Ahead ts (l.bind (levelAfter t.kind)) := by
  cases h with
  | fresh hpeeked hholds hlevel =>
    obtain ⟨e', hnext, hpeeked', hholds', hlevel'⟩ := next_of_holds hpeeked hholds hlevel
    exact ⟨e', next_mono hf hnext, .fresh hpeeked' hholds' hlevel'⟩
  | looked hpeeked _ _ hholds hlevel =>
    refine ⟨{ e with peeked := none }, ?_, .fresh rfl hholds hlevel⟩
    rw [Expander.next, hpeeked]

/-- Looking at a token leaves it ahead. -/
theorem peek (h : e.Ahead (t :: ts) l) (hf : 1 ≤ fuel) :
    ∃ e', e.peek fuel = some (t, e') ∧ e'.Ahead (t :: ts) l := by
  obtain ⟨hcontrol, heof⟩ := h.plain t List.mem_cons_self
  cases h with
  | fresh hpeeked hholds hlevel =>
    obtain ⟨e', hnext, -, hholds', hlevel'⟩ := next_of_holds hpeeked hholds hlevel
    refine ⟨{ e' with peeked := some t }, ?_, .looked rfl hcontrol heof hholds' hlevel'⟩
    rw [Expander.peek, next_mono hf hnext]
    rfl
  | looked hpeeked _ _ hholds hlevel =>
    refine ⟨{ e with peeked := some t }, ?_, .looked rfl hcontrol heof hholds hlevel⟩
    rw [Expander.peek, Expander.next, hpeeked]
    rfl

theorem peek_end (h : e.Ahead [] l) (hf : 1 ≤ fuel) :
    ∃ t e', e.peek fuel = some (t, e') ∧ t.isEof = true ∧ e'.Ahead [] l ∧
      e'.HasLevel (l.bind levelAtEnd) := by
  cases h with
  | fresh hpeeked hholds hlevel =>
    obtain ⟨t, e', hnext, heof, hlevel'⟩ := next_of_holds_nil hpeeked hholds hlevel
    refine ⟨t, { e' with peeked := some t }, ?_, heof, .ended rfl heof hlevel', hlevel'⟩
    rw [Expander.peek, next_mono hf hnext]
    rfl
  | @ended t _ hpeeked heof hlevel =>
    refine ⟨t, { e with peeked := some t }, ?_, heof, .ended rfl heof hlevel, hlevel⟩
    rw [Expander.peek, Expander.next, hpeeked]
    rfl

/-- Looking at what comes next, whether it is a token or the end. -/
theorem look (h : e.Ahead ts l) (hf : 1 ≤ fuel) :
    ∃ t e', e.peek fuel = some (t, e') ∧ e'.Ahead ts l ∧
      (ts.head? = some t ∨ ts = [] ∧ t.isEof = true) := by
  cases ts with
  | nil =>
    obtain ⟨t, e', hpeek, heof, h', -⟩ := h.peek_end hf
    exact ⟨t, e', hpeek, h', .inr ⟨rfl, heof⟩⟩
  | cons t ts =>
    obtain ⟨e', hpeek, h'⟩ := h.peek hf
    exact ⟨t, e', hpeek, h', .inl rfl⟩

/-- Something was reported from now on. -/
theorem report (h : e.Ahead ts l) (c : Cause) (s : Span) : (e.report c s).Ahead ts none := by
  cases h with
  | fresh hpeeked hholds _ => exact .fresh hpeeked hholds (hasLevel_report e c s)
  | looked hpeeked hcontrol heof hholds _ =>
    exact .looked hpeeked hcontrol heof hholds (hasLevel_report e c s)
  | ended hpeeked heof _ => exact .ended hpeeked heof (hasLevel_report e c s)

end Ahead

end Reads

end Jianpu.Macro.Expander
