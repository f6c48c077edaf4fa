import Jianpu.Macro.Call

/-!
# Expanding reads

The reads that replace calls as they meet them. A control sequence that names a directive is given
to the caller; one that defines or calls is carried out; an unbound one is reported and dropped.

A call can replace itself by itself without end, so these reads take a number of steps and give
`none` when it does not suffice. More steps never change an answer (`read_mono`, `groupRest_mono`,
`untilEof_mono`).
-/

namespace Jianpu.Macro.Expander

variable {δ : Type}

/-- A number of steps that no source of a practical size uses up. -/
def ample : Nat := 1 <<< 60

/-- Takes a token off the stack, carrying out what stands before it. -/
def read : Nat → Expander δ → Option (Token × Expander δ)
  | 0, _ => none
  | fuel + 1, e =>
    let r := e.pull
    if r.1.kind = .control then
      match r.2.scopes.get? r.1.text with
      | some (.directive _) => some r
      | some (.define everywhere) => read fuel (r.2.define everywhere)
      | some (.user d) => read fuel (r.2.expand r.1 d)
      | none => read fuel (r.2.report (.undefinedControl r.1.text) r.1.span)
    else some (r.1, r.2.track r.1)

/-- Takes the next token. One that was looked at before is taken as it was then. -/
def next (fuel : Nat) (e : Expander δ) : Option (Token × Expander δ) :=
  match e.peeked with
  | some t => some (t, { e with peeked := none })
  | none => e.read fuel

/-- Looks at the next token. -/
def peek (fuel : Nat) (e : Expander δ) : Option (Token × Expander δ) :=
  (e.next fuel).map fun r => (r.1, { r.2 with peeked := some r.1 })

/-- Takes the tokens up to the end of a group in which `level` further braces are open. A group that
the source does not close ends with it. -/
def groupRest : Nat → Nat → Expander δ → Option (List Token × Expander δ)
  | 0, _, _ => none
  | fuel + 1, level, e => do
    let (t, e) ← e.next fuel
    if t.isEof then return ([], e)
    match levelAfter t.kind level with
    | none => return ([t], e)
    | some level =>
      let (ts, e) ← groupRest fuel level e
      return (t :: ts, e)

/-- A token, and all of its group if it opens one. -/
def group (fuel : Nat) (t : Token) (e : Expander δ) : Option (List Token × Expander δ) :=
  if t.kind = .opening then (groupRest fuel 0 e).map fun g => (t :: g.1, g.2)
  else some ([t], e)

/-- Takes the tokens up to the first end mark, that one included. -/
def untilEof : Nat → Expander δ → Option (List Token × Expander δ)
  | 0, _ => none
  | fuel + 1, e => do
    let (t, e) ← e.next fuel
    if t.isEof then return ([t], e)
    let (ts, e) ← untilEof fuel e
    return (t :: ts, e)

/-- What an expander gives after the tokens `before`, the latest first, as a source. -/
def toSourceAfter : Nat → List Token → Expander δ → Source
  | 0, before, _ => .ofTokens before.reverse
  | fuel + 1, before, e =>
    if e.peeked.isNone && e.stack.sources.all (·.tokens.isEmpty) then
      { tokens := before.reverse, endless := some e.pull.1.span.start }
    else
      match e.next fuel with
      | none => .ofTokens before.reverse
      | some (t, e) => toSourceAfter fuel (t :: before) e

/-- What an expander gives within a number of steps, as a source. Where the steps suffice for all of
it, the source never runs dry. -/
def toSource (fuel : Nat) (e : Expander δ) : Source := toSourceAfter fuel [] e

/-! ## More steps -/

theorem read_mono {m n : Nat} {e : Expander δ} {r : Token × Expander δ} (hmn : m ≤ n)
    (h : e.read m = some r) : e.read n = some r := by
  induction m generalizing n e with
  | zero => simp [read] at h
  | succ m ih =>
    obtain ⟨n, rfl⟩ : ∃ k, n = k + 1 := ⟨n - 1, by omega⟩
    simp only [read] at h ⊢
    by_cases hc : e.pull.1.kind = .control
    · rw [if_pos hc] at h ⊢
      cases hb : e.pull.2.scopes.get? e.pull.1.text with
      | none =>
        rw [hb] at h
        exact ih (by omega) h
      | some b =>
        rw [hb] at h
        cases b with
        | directive x => exact h
        | define everywhere => exact ih (by omega) h
        | user d => exact ih (by omega) h
    · rw [if_neg hc] at h ⊢
      exact h

theorem next_mono {m n : Nat} {e : Expander δ} {r : Token × Expander δ} (hmn : m ≤ n)
    (h : e.next m = some r) : e.next n = some r := by
  unfold next at h ⊢
  split at h
  · exact h
  · exact read_mono hmn h

theorem groupRest_mono {m n level : Nat} {e : Expander δ} {r : List Token × Expander δ}
    (hmn : m ≤ n) (h : groupRest m level e = some r) : groupRest n level e = some r := by
  induction m generalizing n level e r with
  | zero => simp [groupRest] at h
  | succ m ih =>
    obtain ⟨n, rfl⟩ : ∃ k, n = k + 1 := ⟨n - 1, by omega⟩
    simp only [groupRest, Option.bind_eq_bind, Option.bind_eq_some_iff] at h ⊢
    obtain ⟨⟨t, e'⟩, ht, h⟩ := h
    refine ⟨(t, e'), next_mono (by omega) ht, ?_⟩
    cases he : t.isEof with
    | true => simpa [he] using h
    | false =>
      cases hl : levelAfter t.kind level with
      | none => simpa [he, hl] using h
      | some level' =>
        simp only [he, hl, Bool.false_eq_true, if_false, Option.bind_eq_some_iff] at h ⊢
        obtain ⟨g, hg, h⟩ := h
        exact ⟨g, ih (by omega) hg, h⟩

theorem untilEof_mono {m n : Nat} {e : Expander δ} {r : List Token × Expander δ} (hmn : m ≤ n)
    (h : untilEof m e = some r) : untilEof n e = some r := by
  induction m generalizing n e r with
  | zero => simp [untilEof] at h
  | succ m ih =>
    obtain ⟨n, rfl⟩ : ∃ k, n = k + 1 := ⟨n - 1, by omega⟩
    simp only [untilEof, Option.bind_eq_bind, Option.bind_eq_some_iff] at h ⊢
    obtain ⟨⟨t, e'⟩, ht, h⟩ := h
    refine ⟨(t, e'), next_mono (by omega) ht, ?_⟩
    cases he : t.isEof with
    | true => simpa [he] using h
    | false =>
      simp only [he, Bool.false_eq_true, if_false, Option.bind_eq_some_iff] at h ⊢
      obtain ⟨g, hg, h⟩ := h
      exact ⟨g, ih (by omega) hg, h⟩

end Jianpu.Macro.Expander
