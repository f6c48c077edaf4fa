import Jianpu.Macro.Expansion

/-!
# Plain sources

An expander over tokens among which there is no control sequence, and whose braces match, gives
these tokens one by one, then the end, and has nothing to report. `Expander.Feeds` says that it does
so from now on, whether a token was looked at before or not; `feeds_ofSource` says when it does from
the start.
-/

namespace Jianpu.Macro.Expander

variable {δ : Type}

/-- The expander has reported `log`, and gives the tokens `ts` and then the end without a further
report. -/
def Feeds (log : List Diagnostic) : Expander δ → List Token → Prop
  | e, [] => e.reported = log ∧ ∃ t e', e.next 1 = some (t, e') ∧ t.isEof = true ∧ e'.reported = log
  | e, t :: ts => e.reported = log ∧ ∃ e', e.next 1 = some (t, e') ∧ e'.peeked = none ∧
    Feeds log e' ts

namespace Feeds

variable {log : List Diagnostic} {e : Expander δ} {t : Token} {ts : List Token} {fuel : Nat}

theorem reported (h : Feeds log e ts) : e.reported = log := by
  cases ts <;> exact h.1

theorem next (h : Feeds log e (t :: ts)) (hf : 1 ≤ fuel) :
    ∃ e', e.next fuel = some (t, e') ∧ Feeds log e' ts := by
  obtain ⟨-, e', hnext, -, hrest⟩ := h
  exact ⟨e', next_mono hf hnext, hrest⟩

/-- A token that is looked at is still to come. -/
theorem peek (h : Feeds log e (t :: ts)) (hf : 1 ≤ fuel) :
    ∃ e', e.peek fuel = some (t, e') ∧ Feeds log e' (t :: ts) := by
  obtain ⟨-, e', hnext, hpeeked, hrest⟩ := h
  refine ⟨{ e' with peeked := some t }, ?_, hrest.reported, e', ?_, hpeeked, hrest⟩
  · rw [Expander.peek, next_mono hf hnext]
    rfl
  · rw [Expander.next, ← hpeeked]

theorem peek_end (h : Feeds log e []) (hf : 1 ≤ fuel) :
    ∃ t e', e.peek fuel = some (t, e') ∧ t.isEof = true ∧ Feeds log e' [] := by
  obtain ⟨-, t, e', hnext, heof, hrep⟩ := h
  refine ⟨t, { e' with peeked := some t }, ?_, heof, hrep, t, { e' with peeked := none }, rfl, heof,
    hrep⟩
  rw [Expander.peek, next_mono hf hnext]
  rfl

/-- Looking at what comes next, whether it is a token or the end. -/
theorem look (h : Feeds log e ts) (hf : 1 ≤ fuel) :
    ∃ t e', e.peek fuel = some (t, e') ∧ Feeds log e' ts ∧
      (ts.head? = some t ∨ ts = [] ∧ t.isEof = true) := by
  cases ts with
  | nil =>
    obtain ⟨t, e', hpeek, heof, hrest⟩ := h.peek_end hf
    exact ⟨t, e', hpeek, hrest, .inr ⟨rfl, heof⟩⟩
  | cons t ts =>
    obtain ⟨e', hpeek, hrest⟩ := h.peek hf
    exact ⟨t, e', hpeek, hrest, .inl rfl⟩

end Feeds

/-! ## Matching braces -/

/-- The number of braces open after tokens, where `level` are open before. There is none if a brace
closes that none opened. -/
def levelAfterAll (kinds : List Token.Kind) (level : Nat) : Option Nat :=
  kinds.foldlM (fun level k => levelAfter k level) level

theorem levelAfterAll_cons (k : Token.Kind) (ks : List Token.Kind) (level : Nat) :
    levelAfterAll (k :: ks) level = (levelAfter k level).bind (levelAfterAll ks) := rfl

theorem levelAfterAll_append (ks ks' : List Token.Kind) (level : Nat) :
    levelAfterAll (ks ++ ks') level = (levelAfterAll ks level).bind (levelAfterAll ks') := by
  induction ks generalizing level with
  | nil => rfl
  | cons k ks ih =>
    rw [List.cons_append, levelAfterAll_cons, levelAfterAll_cons, Option.bind_assoc]
    congr 1
    funext level
    exact ih level

/-- A token whose brace fits changes nothing but the scopes. -/
theorem track_of_levelAfter {e : Expander δ} {t : Token} {level : Nat} (heof : t.isEof = false)
    (hl : levelAfter t.kind e.scopes.inner.length = some level) :
    ∃ scopes, e.track t = { e with scopes } ∧ scopes.inner.length = level := by
  unfold track
  cases hk : t.kind with
  | eof => simp [Token.isEof, hk] at heof
  | opening =>
    rw [hk] at hl
    exact ⟨_, rfl, Option.some.inj hl⟩
  | closing =>
    rw [hk] at hl
    cases hi : e.scopes.inner with
    | nil => simp [hi, levelAfter] at hl
    | cons f fs =>
      rw [hi] at hl
      refine ⟨{ e.scopes with inner := fs }, ?_, Option.some.inj hl⟩
      simp [Scopes.leave?, hi]
  | control | param n | other =>
    rw [hk] at hl
    exact ⟨e.scopes, rfl, Option.some.inj hl⟩

/-! ## The tokens of a source -/

theorem pull_cons {e : Expander δ} {t : Token} {ts : List Token} {endless : Option Position}
    (h : e.stack.sources = [⟨t :: ts, endless⟩]) :
    ∃ stack position, e.pull = (t, { e with stack, position }) ∧
      stack.sources = [⟨ts, endless⟩] := by
  obtain ⟨scopes, ⟨sources, size, hsize⟩, peeked, reported, remarked, limit, position⟩ := e
  obtain rfl : sources = [⟨t :: ts, endless⟩] := h
  exact ⟨⟨[⟨ts, endless⟩], size, hsize⟩, _, rfl, rfl⟩

theorem pull_end {e : Expander δ} {ends : List Token} {endless : Option Position}
    (h : e.stack.sources = [⟨ends, endless⟩]) (hends : ∀ t ∈ ends, t.isEof = true) :
    ∃ t stack position, e.pull = (t, { e with stack, position }) ∧ t.isEof = true := by
  obtain ⟨scopes, ⟨sources, size, hsize⟩, peeked, reported, remarked, limit, position⟩ := e
  obtain rfl : sources = [⟨ends, endless⟩] := h
  cases ends with
  | cons t ts => exact ⟨t, _, _, rfl, hends t List.mem_cons_self⟩
  | nil => cases endless <;> exact ⟨_, _, _, rfl, rfl⟩

theorem next_of_pull {e : Expander δ} {t : Token} {stack : Stack} {position : Position}
    (hpeeked : e.peeked = none) (h : e.pull = (t, { e with stack, position }))
    (hkind : t.kind ≠ .control) :
    e.next 1 = some (t, Expander.track { e with stack, position } t) := by
  have hnext : e.next 1 = e.read 1 := by rw [next, hpeeked]
  rw [hnext]
  simp only [read, h, if_neg hkind]

end Jianpu.Macro.Expander
