import Jianpu.Diagnostic
import Jianpu.Journal
import Jianpu.Macro.Scope
import Jianpu.Macro.Stack

/-!
# The expander and its plain reads

An expander reads from a stack of sources: at the bottom the source text, above it the replacement
of every call under way. It keeps the scopes, one token that was looked at, and what there is to
report. This module has the reads that take each token as it stands. They enter and leave scopes at
braces, but leave calls alone. `Expander.remaining`, the number of tokens ahead, bounds every loop
over them.
-/

namespace Jianpu.Macro

/-- The state of macro expansion. -/
structure Expander (δ : Type) where
  scopes : Scopes δ
  /-- The sources in use. -/
  stack : Stack
  /-- A token that was looked at and not taken. -/
  peeked : Option Token := none
  /-- What was reported, the latest first. -/
  reported : List Diagnostic := []
  /-- What was remarked, the latest first. -/
  remarked : List Remark := []
  /-- The number of sources at which a further call is refused. -/
  limit : Nat := 100
  /-- The end of the last token read. -/
  position : Position := {}
  deriving Repr, Inhabited

namespace Expander

variable {δ : Type}

/-- The stack limit where none is asked for. -/
def defaultLimit : Nat := 100

/-- An expander over one source. At least one source is always allowed. -/
def ofSource (s : Source) (scopes : Scopes δ) (limit : Nat) : Expander δ :=
  { scopes, stack := .ofSource s, limit := max limit 1 }

/-- What was reported, in order. -/
def diagnostics (e : Expander δ) : List Diagnostic := e.reported.reverse

/-- What was remarked, in order. -/
def journal (e : Expander δ) : List Remark := e.remarked.reverse

/-- Notes a diagnostic. -/
def report (e : Expander δ) (c : Cause) (s : Span) : Expander δ :=
  { e with reported := ⟨c, s⟩ :: e.reported }

@[simp] theorem diagnostics_report (e : Expander δ) (c : Cause) (s : Span) :
    (e.report c s).diagnostics = e.diagnostics ++ [⟨c, s⟩] := by
  simp [report, diagnostics]

/-- Notes a diagnostic under a condition. -/
def reportIf (e : Expander δ) (bad : Bool) (c : Cause) (s : Span) : Expander δ :=
  if bad then e.report c s else e

/-- Notes a remark. -/
def remark (e : Expander δ) (level : Level) (text : String) : Expander δ :=
  { e with remarked := ⟨level, text⟩ :: e.remarked }

/-- The directive that a token names. -/
def directive? (e : Expander δ) (t : Token) : Option δ :=
  match t.kind, e.scopes.get? t.text with
  | .control, some (.directive d) => some d
  | _, _ => none

/-- Takes a token off the stack. An empty stack gives end marks. -/
def pull (e : Expander δ) : Token × Expander δ :=
  match e.stack.pull with
  | (some t, stack) => (t, { e with stack, position := t.span.stop })
  | (none, stack) => (Token.eof e.position false, { e with stack })

/-- What a token does to the scopes. At the end of the source no scope stays open. -/
def track (e : Expander δ) (t : Token) : Expander δ :=
  match t.kind with
  | .opening => { e with scopes := e.scopes.enter }
  | .closing =>
    match e.scopes.leave? with
    | some scopes => { e with scopes }
    | none => e.report .closingWithoutOpening t.span
  | .eof =>
    if e.scopes.depth > 1 then
      { e.report .missingClosing t.span with scopes := e.scopes.reset }
    else e
  | _ => e

/-- Takes the next token as it stands. -/
def nextRaw (e : Expander δ) : Token × Expander δ :=
  match e.peeked with
  | some t => (t, { e with peeked := none })
  | none =>
    let r := e.pull
    (r.1, r.2.track r.1)

/-- Looks at the next token as it stands. -/
def peekRaw (e : Expander δ) : Token × Expander δ :=
  let r := e.nextRaw
  (r.1, { r.2 with peeked := some r.1 })

/-! ## The tokens ahead -/

/-- One for every token but an end mark. -/
def weight (t : Token) : Nat := if t.isEof = false then 1 else 0

/-- The number of tokens ahead, end marks not counted. -/
def remaining (e : Expander δ) : Nat :=
  (e.peeked.toList ++ e.stack.tokens).countP (!·.isEof)

theorem countP_cons_weight (t : Token) (ts : List Token) :
    (t :: ts).countP (!·.isEof) = weight t + ts.countP (!·.isEof) := by
  cases h : t.isEof <;> simp [weight, h, Nat.add_comm]

theorem pullFrom_weight (sources : List Source) (size : Nat) (hs : size = sources.length) :
    (Stack.pullFrom sources size hs).1.toList.countP (!·.isEof) +
        (Stack.pullFrom sources size hs).2.tokens.countP (!·.isEof) =
      (sources.flatMap (·.tokens)).countP (!·.isEof) := by
  induction sources generalizing size with
  | nil => rfl
  | cons s rest ih =>
    obtain ⟨tokens, endless⟩ := s
    cases tokens with
    | cons t ts => simp [Stack.pullFrom, Stack.tokens, Source.next?, countP_cons_weight, weight]
    | nil =>
      cases endless with
      | none => simpa [Stack.pullFrom, Source.next?] using ih ..
      | some p => simp [Stack.pullFrom, Stack.tokens, Source.next?, Token.isEof, Token.eof]

theorem remaining_pull (e : Expander δ) (h : e.peeked = none) :
    weight e.pull.1 + e.pull.2.remaining = e.remaining := by
  have hw : _ = e.stack.tokens.countP _ :=
    pullFrom_weight e.stack.sources e.stack.size e.stack.size_eq
  rw [← Stack.pull] at hw
  unfold pull
  split <;> rename_i hp <;> rw [hp] at hw
  · simp_all [remaining, weight]
  · simp_all [remaining, weight, Token.isEof, Token.eof]

@[simp] theorem remaining_reportIf (e : Expander δ) (bad : Bool) (c : Cause) (s : Span) :
    (e.reportIf bad c s).remaining = e.remaining := by
  cases bad <;> rfl

@[simp] theorem remaining_track (e : Expander δ) (t : Token) :
    (e.track t).remaining = e.remaining := by
  unfold track
  split <;> (try split) <;> rfl

@[simp] theorem peeked_pull (e : Expander δ) : e.pull.2.peeked = e.peeked := by
  unfold pull
  split <;> rfl

@[simp] theorem peeked_track (e : Expander δ) (t : Token) : (e.track t).peeked = e.peeked := by
  unfold track
  split <;> (try split) <;> rfl

@[simp] theorem peeked_nextRaw (e : Expander δ) : e.nextRaw.2.peeked = none := by
  unfold nextRaw
  split
  · rfl
  · simp_all

/-- A plain read takes one token off those ahead, unless it meets the end. -/
theorem remaining_nextRaw (e : Expander δ) :
    weight e.nextRaw.1 + e.nextRaw.2.remaining = e.remaining := by
  unfold nextRaw
  split
  · rename_i t h
    simp [remaining, h, countP_cons_weight]
  · rename_i h
    simpa using remaining_pull e h

theorem remaining_nextRaw_le (e : Expander δ) : e.nextRaw.2.remaining ≤ e.remaining := by
  have := remaining_nextRaw e
  omega

theorem remaining_nextRaw_lt (e : Expander δ) (h : e.nextRaw.1.isEof = false) :
    e.nextRaw.2.remaining < e.remaining := by
  have hw := remaining_nextRaw e
  simp only [weight, h] at hw
  simp at hw
  omega

/-! ## Groups -/

/-- The number of braces open after a token, over and above the group's own. There is none after the
brace that closes the group. -/
def levelAfter : Token.Kind → Nat → Option Nat
  | .closing, 0 => none
  | .closing, level + 1 => some level
  | .opening, level => some (level + 1)
  | _, level => some level

/-- Takes the tokens up to the end of a group in which `level` further braces are open. A group that
the source does not close ends with it. -/
def groupRestRaw (level : Nat) (e : Expander δ) : List Token × Expander δ :=
  let r := e.nextRaw
  if h : r.1.isEof then ([], r.2)
  else
    have hlt : r.2.remaining < e.remaining := remaining_nextRaw_lt e (by simpa using h)
    match levelAfter r.1.kind level with
    | none => ([r.1], r.2)
    | some level =>
      let g := groupRestRaw level r.2
      (r.1 :: g.1, g.2)
termination_by e.remaining

/-- A token, and all of its group if it opens one. -/
def groupRaw (t : Token) (e : Expander δ) : List Token × Expander δ :=
  if t.kind = .opening then
    let g := groupRestRaw 0 e
    (t :: g.1, g.2)
  else ([t], e)

theorem remaining_groupRestRaw_le (level : Nat) (e : Expander δ) :
    (groupRestRaw level e).2.remaining ≤ e.remaining := by
  fun_induction groupRestRaw level e with
  | case1 level e r h => exact remaining_nextRaw_le e
  | case2 level e r h hlt hl => exact Nat.le_of_lt hlt
  | case3 level e r h hlt level' hl g ih => exact Nat.le_trans ih (Nat.le_of_lt hlt)

theorem remaining_groupRaw_le (t : Token) (e : Expander δ) :
    (groupRaw t e).2.remaining ≤ e.remaining := by
  unfold groupRaw
  split
  · exact remaining_groupRestRaw_le 0 e
  · exact Nat.le_refl _

end Expander

end Jianpu.Macro
