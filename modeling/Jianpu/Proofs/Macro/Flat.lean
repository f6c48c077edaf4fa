import Jianpu.Macro.Expansion

/-!
# Expansion on one list of tokens

An interpreter that has no stack of sources. All tokens ahead stand in one list, and a call is
replaced by writing its replacement in front of the others. Everything else it does as one would by
hand: `\def` and `\gdef` read their definition from the front, an unbound name is reported and
dropped, a directive is given to the caller, and each brace that is read opens or closes a frame.
-/

namespace Jianpu.Macro

/-- The state of the interpreter. -/
structure Flat (δ : Type) where
  /-- The tokens ahead. -/
  ahead : List Token
  /-- Where the end marks after them stand. If this is not known, it is where the last token ended.
  -/
  finish : Option Position
  /-- The frames. -/
  scopes : Scopes δ
  /-- A token that was looked at and not taken. -/
  looked : Option Token := none
  /-- What was reported, in order. -/
  diagnostics : List Diagnostic := []
  /-- The end of the last token read. -/
  position : Position := {}

namespace Flat

variable {δ : Type}

/-- The interpreter before a source is read. -/
def ofSource (s : Source) (scopes : Scopes δ) : Flat δ :=
  { ahead := s.tokens, finish := s.endless, scopes }

/-- Notes a diagnostic. -/
def report (f : Flat δ) (c : Cause) (s : Span) : Flat δ :=
  { f with diagnostics := f.diagnostics ++ [⟨c, s⟩] }

/-- Notes a diagnostic under a condition. -/
def reportIf (f : Flat δ) (bad : Bool) (c : Cause) (s : Span) : Flat δ :=
  if bad then f.report c s else f

/-- Takes a token off the list. After the last one there are end marks. -/
def pull (f : Flat δ) : Token × Flat δ :=
  match f.ahead with
  | t :: ts => (t, { f with ahead := ts, position := t.span.stop })
  | [] =>
    let p := f.finish.getD f.position
    (.eof p false, { f with position := p })

/-- What a token does to the frames. -/
def brace (f : Flat δ) (t : Token) : Flat δ :=
  match t.kind with
  | .opening => { f with scopes := f.scopes.enter }
  | .closing =>
    match f.scopes.leave? with
    | some scopes => { f with scopes }
    | none => f.report .closingWithoutOpening t.span
  | .eof =>
    if f.scopes.depth > 1 then { f.report .missingClosing t.span with scopes := f.scopes.reset }
    else f
  | _ => f

/-! ## Plain reads -/

/-- Takes the next token as it stands. -/
def nextRaw (f : Flat δ) : Token × Flat δ :=
  match f.looked with
  | some t => (t, { f with looked := none })
  | none =>
    let r := f.pull
    (r.1, r.2.brace r.1)

/-- The number of tokens to come. -/
def remaining (f : Flat δ) : Nat := f.looked.toList.length + f.ahead.length

@[simp] theorem remaining_brace (f : Flat δ) (t : Token) : (f.brace t).remaining = f.remaining := by
  unfold brace
  split <;> (try split) <;> rfl

@[simp] theorem remaining_reportIf (f : Flat δ) (bad : Bool) (c : Cause) (s : Span) :
    (f.reportIf bad c s).remaining = f.remaining := by
  cases bad <;> rfl

theorem remaining_nextRaw_lt (f : Flat δ) (h : ¬ f.nextRaw.1.isEof = true) :
    f.nextRaw.2.remaining < f.remaining := by
  obtain ⟨ahead, finish, scopes, looked, diagnostics, position⟩ := f
  cases looked with
  | some t => simp [nextRaw, remaining]
  | none =>
    cases ahead with
    | nil => exact absurd rfl h
    | cons t ts =>
      simp only [nextRaw, remaining_brace]
      simp [pull, remaining]

theorem remaining_nextRaw_le (f : Flat δ) : f.nextRaw.2.remaining ≤ f.remaining := by
  obtain ⟨ahead, finish, scopes, looked, diagnostics, position⟩ := f
  cases looked with
  | some t => simp [nextRaw, remaining]
  | none =>
    simp only [nextRaw, remaining_brace]
    cases ahead <;> simp [pull, remaining]

/-- Takes the tokens up to the end of a group in which `level` further braces are open. -/
def groupRestRaw (level : Nat) (f : Flat δ) : List Token × Flat δ :=
  let r := f.nextRaw
  if h : r.1.isEof then ([], r.2)
  else
    have : r.2.remaining < f.remaining := remaining_nextRaw_lt f h
    match Expander.levelAfter r.1.kind level with
    | none => ([r.1], r.2)
    | some level =>
      let g := groupRestRaw level r.2
      (r.1 :: g.1, g.2)
termination_by f.remaining

/-- A token, and all of its group if it opens one. -/
def groupRaw (t : Token) (f : Flat δ) : List Token × Flat δ :=
  if t.kind = .opening then
    let g := groupRestRaw 0 f
    (t :: g.1, g.2)
  else ([t], f)

theorem remaining_groupRestRaw_le (level : Nat) (f : Flat δ) :
    (groupRestRaw level f).2.remaining ≤ f.remaining := by
  fun_induction groupRestRaw level f with
  | case1 level f r h => exact remaining_nextRaw_le f
  | case2 level f r h hlt hl => exact Nat.le_of_lt hlt
  | case3 level f r h hlt level' hl g ih => exact Nat.le_trans ih (Nat.le_of_lt hlt)

theorem remaining_groupRaw_le (t : Token) (f : Flat δ) :
    (groupRaw t f).2.remaining ≤ f.remaining := by
  unfold groupRaw
  split
  · exact remaining_groupRestRaw_le 0 f
  · exact Nat.le_refl _

/-! ## Calls and definitions -/

/-- Takes tokens and whole groups up to the end or a token with the delimiter's text, which is
looked at but not taken. -/
def untilDelimiter (delimiter : String) (f : Flat δ) : List Token × Flat δ :=
  let r := f.nextRaw
  if h : r.1.isEof then ([], { r.2 with looked := some r.1 })
  else if r.1.text = delimiter then ([], { r.2 with looked := some r.1 })
  else
    let g := groupRaw r.1 r.2
    have : g.2.remaining < f.remaining :=
      Nat.lt_of_le_of_lt (remaining_groupRaw_le ..) (remaining_nextRaw_lt f h)
    let rest := untilDelimiter delimiter g.2
    (g.1 ++ rest.1, rest.2)
termination_by f.remaining

/-- The arguments of a call, by the pattern of its definition, if the tokens ahead match it. -/
def matchPattern (name : String) :
    List Token → Arguments → Flat δ → Option Arguments × Flat δ
  | [], args, f => (some args, f)
  | p :: pattern, args, f =>
    match slot? p, pattern.head?.filter (!·.isParam) with
    | none, _ =>
      let r := f.nextRaw
      if r.1.isEof then (none, r.2.report (.callCutShort name) r.1.span)
      else if r.1.text ≠ p.text then (none, r.2.report (.callMismatch name) r.1.span)
      else matchPattern name pattern args r.2
    | some i, none =>
      let r := f.nextRaw
      if r.1.isEof then (none, r.2.report (.callCutShort name) r.1.span)
      else
        let g := groupRaw r.1 r.2
        matchPattern name pattern (args.bind i g.1) g.2
    | some i, some delimiter =>
      let g := untilDelimiter delimiter.text f
      if g.1.isEmpty then
        let r := g.2.nextRaw
        (none, r.2.report (.callMismatch name) r.1.span)
      else matchPattern name pattern (args.bind i g.1) g.2

/-- Replaces a call and its arguments by the body of its definition. -/
def expand (f : Flat δ) (call : Token) (d : Definition) : Flat δ :=
  match matchPattern d.name d.pattern .empty f with
  | (none, f) => f
  | (some args, f) => { f with ahead := replacement call args d.body ++ f.ahead }

/-- Takes a pattern, up to the opening brace of the body or the end. Gives the pattern, the number
of placeholders in it, of which `count` come before, and the token that ended it. -/
def readPattern (count : Nat) (f : Flat δ) : (List Token × Nat × Token) × Flat δ :=
  let r := f.nextRaw
  if h : r.1.isEof then (([], count, r.1), r.2)
  else if r.1.kind = .opening then (([], count, r.1), r.2)
  else
    have hlt : r.2.remaining < f.remaining := remaining_nextRaw_lt f h
    let count := if r.1.isParam then count + 1 else count
    let bad := r.1.isParam && r.1.kind ≠ .param (some count)
    let rest := readPattern count (r.2.reportIf bad .parameterOrder r.1.span)
    ((r.1 :: rest.1.1, rest.1.2), rest.2)
termination_by f.remaining
decreasing_by simpa using hlt

/-- Reads a definition: the name, the pattern and the body. -/
def define (f : Flat δ) (everywhere : Bool) : Flat δ :=
  let name := f.nextRaw
  if name.1.kind ≠ .control then name.2.report .nameExpected name.1.span
  else
    let pattern := name.2.readPattern 0
    let (format, count, t) := pattern.1
    if t.kind ≠ .opening then pattern.2.report .openingExpected t.span
    else
      let group := groupRaw t pattern.2
      let body := Expander.unwrap group.1
      let (legal, illegal) := body.partition (Expander.legal count)
      { group.2 with
        diagnostics := group.2.diagnostics ++
          illegal.map fun t => ⟨.illegalParameter name.1.text, t.span⟩
        scopes := group.2.scopes.define name.1.text
          (.user ⟨name.1.text, format, legal⟩) everywhere }

/-! ## Expanding reads -/

/-- Takes a token off the list, carrying out what stands before it, within a number of steps. -/
def read : Nat → Flat δ → Option (Token × Flat δ)
  | 0, _ => none
  | fuel + 1, f =>
    let r := f.pull
    if r.1.kind = .control then
      match r.2.scopes.get? r.1.text with
      | some (.directive _) => some r
      | some (.define everywhere) => read fuel (r.2.define everywhere)
      | some (.user d) => read fuel (r.2.expand r.1 d)
      | none => read fuel (r.2.report (.undefinedControl r.1.text) r.1.span)
    else some (r.1, r.2.brace r.1)

/-- Takes the next token. -/
def next (fuel : Nat) (f : Flat δ) : Option (Token × Flat δ) :=
  match f.looked with
  | some t => some (t, { f with looked := none })
  | none => f.read fuel

/-- Takes the tokens up to the end of a group in which `level` further braces are open. -/
def groupRest : Nat → Nat → Flat δ → Option (List Token × Flat δ)
  | 0, _, _ => none
  | fuel + 1, level, f => do
    let (t, f) ← f.next fuel
    if t.isEof then return ([], f)
    match Expander.levelAfter t.kind level with
    | none => return ([t], f)
    | some level =>
      let (ts, f) ← groupRest fuel level f
      return (t :: ts, f)

/-- A token, and all of its group if it opens one. -/
def group (fuel : Nat) (t : Token) (f : Flat δ) : Option (List Token × Flat δ) :=
  if t.kind = .opening then (groupRest fuel 0 f).map fun g => (t :: g.1, g.2)
  else some ([t], f)

end Flat

end Jianpu.Macro
