import Jianpu.Macro.Expander

/-!
# Definitions and calls

How the source is read at `\def` and `\gdef`, and at a call of what they defined. Both read tokens
as they stand. A call has to match the pattern of its definition: a literal token by its text; a
placeholder takes all up to the literal after it, or, where none follows, one token or group. The
arguments then replace the placeholders of the body.
-/

namespace Jianpu.Macro

/-- The tokens bound to each placeholder number. -/
abbrev Arguments := Nat → List Token

namespace Arguments

/-- No placeholder is bound to anything. -/
def empty : Arguments := fun _ => []

/-- Binds a placeholder. -/
def bind (args : Arguments) (slot : Nat) (ts : List Token) : Arguments :=
  fun i => if i = slot then ts else args i

end Arguments

/-- The place of a placeholder's argument. Placeholders without a number share place 0. -/
def slot? (t : Token) : Option Nat :=
  match t.kind with
  | .param n => some (n.getD 0 % 10)
  | _ => none

/-- The tokens with the blank mark of the first one set. -/
def withSpace (spaced : Bool) : List Token → List Token
  | [] => []
  | t :: ts => { t with spaced } :: ts

/-- The body of a definition with each placeholder replaced by its argument, at which the
placeholder's own blank stands. -/
def substitute (args : Arguments) (body : List Token) : List Token :=
  body.flatMap fun t =>
    match slot? t with
    | some i => withSpace t.spaced (args i)
    | none => [t]

/-- The replacement of a call. A blank before the call stands before the replacement. -/
def replacement (call : Token) (args : Arguments) (body : List Token) : List Token :=
  match substitute args body with
  | [] => []
  | t :: ts => { t with spaced := t.spaced || call.spaced } :: ts

namespace Expander

variable {δ : Type}

/-- Takes tokens and whole groups up to the end or a token with the delimiter's text, which is
looked at but not taken. -/
def untilDelimiter (delimiter : String) (e : Expander δ) : List Token × Expander δ :=
  let r := e.nextRaw
  if h : r.1.isEof then ([], { r.2 with peeked := some r.1 })
  else if r.1.text = delimiter then ([], { r.2 with peeked := some r.1 })
  else
    let g := groupRaw r.1 r.2
    have hlt : g.2.remaining < e.remaining :=
      Nat.lt_of_le_of_lt (remaining_groupRaw_le ..) (remaining_nextRaw_lt e (by simpa using h))
    let rest := untilDelimiter delimiter g.2
    (g.1 ++ rest.1, rest.2)
termination_by e.remaining

/-- Binds the arguments of a call by the pattern of its definition. If the source does not match,
that is reported and there are none. -/
def matchPattern (name : String) :
    List Token → Arguments → Expander δ → Option Arguments × Expander δ
  | [], args, e => (some args, e)
  | f :: pattern, args, e =>
    match slot? f, pattern.head?.filter (!·.isParam) with
    | none, _ =>
      let r := e.nextRaw
      if r.1.isEof then (none, r.2.report (.callCutShort name) r.1.span)
      else if r.1.text ≠ f.text then (none, r.2.report (.callMismatch name) r.1.span)
      else matchPattern name pattern args r.2
    | some i, none =>
      let r := e.nextRaw
      if r.1.isEof then (none, r.2.report (.callCutShort name) r.1.span)
      else
        let g := groupRaw r.1 r.2
        matchPattern name pattern (args.bind i g.1) g.2
    | some i, some delimiter =>
      let g := untilDelimiter delimiter.text e
      if g.1.isEmpty then
        let r := g.2.nextRaw
        (none, r.2.report (.callMismatch name) r.1.span)
      else matchPattern name pattern (args.bind i g.1) g.2

/-- Replaces a call: its replacement becomes a source of its own on the stack. At the limit the call
is given up, together with all calls under way. -/
def expand (e : Expander δ) (call : Token) (d : Definition) : Expander δ :=
  match matchPattern d.name d.pattern .empty e with
  | (none, e) => e
  | (some args, e) =>
    if e.stack.size ≥ e.limit then
      let e := e.remark .trace
        ("expansion of " ++ d.name ++ " abandoned at depth " ++ e.stack.size.repr)
      let e := e.report .nestingExceeded call.span
      { e with stack := e.stack.bottom }
    else { e with stack := e.stack.push (.ofTokens (replacement call args d.body)) }

/-- Takes a pattern, up to the opening brace of the body or the end of the source. Gives the
pattern, the number of placeholders in it, of which `count` come before, and the token that ended
it. -/
def readPattern (count : Nat) (e : Expander δ) : (List Token × Nat × Token) × Expander δ :=
  let r := e.nextRaw
  if h : r.1.isEof then (([], count, r.1), r.2)
  else if r.1.kind = .opening then (([], count, r.1), r.2)
  else
    have hlt : r.2.remaining < e.remaining := remaining_nextRaw_lt e (by simpa using h)
    let count := if r.1.isParam then count + 1 else count
    let bad := r.1.isParam && r.1.kind ≠ .param (some count)
    let rest := readPattern count (r.2.reportIf bad .parameterOrder r.1.span)
    ((r.1 :: rest.1.1, rest.1.2), rest.2)
termination_by e.remaining
decreasing_by simpa using hlt

/-- The tokens of a group without the braces around it. -/
def unwrap (ts : List Token) : List Token :=
  match ts with
  | [] => []
  | _ :: ts => if ts.getLast?.any (·.kind = .closing) then ts.dropLast else ts

/-- Whether a token of a body is in order where the pattern has `count` placeholders. -/
def legal (count : Nat) (t : Token) : Bool :=
  match t.kind with
  | .param (some n) => 1 ≤ n && n ≤ count
  | .param none => false
  | _ => true

/-- Reads a definition: the name, the pattern and the body. Placeholders of the body that the
pattern does not have are reported and left out. -/
def define (e : Expander δ) (everywhere : Bool) : Expander δ :=
  let name := e.nextRaw
  if name.1.kind ≠ .control then name.2.report .nameExpected name.1.span
  else
    let pattern := name.2.readPattern 0
    let (format, count, t) := pattern.1
    if t.kind ≠ .opening then pattern.2.report .openingExpected t.span
    else
      let group := groupRaw t pattern.2
      let body := unwrap group.1
      let illegal := body.filter (!legal count ·)
      let e := illegal.foldl (fun e t => e.report (.illegalParameter name.1.text) t.span) group.2
      let e := e.remark .trace
        ("defined " ++ name.1.text ++ " (" ++ count.repr ++ " parameters, global = " ++
          (if everywhere then "true" else "false") ++ ")")
      let d : Definition := ⟨name.1.text, format, body.filter (legal count)⟩
      { e with scopes := e.scopes.define name.1.text (.user d) everywhere }

end Expander

end Jianpu.Macro
