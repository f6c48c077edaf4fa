import Jianpu.Key
import Jianpu.Macro.Expansion
import Jianpu.Sheet.Directive
import Jianpu.Text.Numeral

/-!
# Arguments of directives

An argument is a token or a group; its text is the tokens written out, without the braces and the
blanks around them. Each reader below reports an argument that is missing or out of order, and then
gives `none`. Running out of steps is the failure of the monad.
-/

namespace Jianpu

/-- Reading from an expander of music. -/
abbrev Reading := StateT (Macro.Expander Directive) Option

/-- The text of an argument and where it stands. -/
structure Argument where
  text : String
  span : Span
  deriving DecidableEq, Repr, Inhabited

namespace Argument

/-- The argument that a token starts, given the token with its group. -/
def ofTokens (t : Token) (group : List Token) : Argument :=
  let last := (group.getLast?.map (·.span)).getD t.span
  let inner := if t.kind = .opening then Macro.Expander.unwrap group else group
  ⟨Text.trim (Token.displayAll inner), .between t.span last⟩

end Argument

namespace Reading

/-- Takes the next token. -/
def next (fuel : Nat) : Reading Token := fun e => e.next fuel

/-- Looks at the next token. -/
def peek (fuel : Nat) : Reading Token := fun e => e.peek fuel

/-- Reports what is wrong with a part of the source. -/
def report (c : Cause) (s : Span) : Reading Unit := modify (·.report c s)

/-- Reports, and has nothing to give. -/
def reject {α : Type} (c : Cause) (s : Span) : Reading (Option α) := do
  report c s
  return none

/-- An argument in which calls are replaced. -/
def argument (fuel : Nat) : Reading (Option Argument) := do
  let t ← next fuel
  if t.isEof then reject .argumentExpected t.span
  else
    let ts ← fun e => e.group fuel t
    return some (.ofTokens t ts)

/-- An argument as it stands. -/
def argumentRaw : Reading (Option Argument) := do
  let t ← modifyGet (·.nextRaw)
  if t.isEof then reject .argumentExpected t.span
  else
    let ts ← modifyGet (·.groupRaw t)
    return some (.ofTokens t ts)

/-- A number of 32 bits, and where it stands. -/
def number (fuel : Nat) : Reading (Option (Nat × Span)) := do
  let some a ← argument fuel | return none
  match Text.nat? (0xFFFFFFFF) a.text with
  | some n => return some (n, a.span)
  | none => reject (.invalidNumber a.text) a.span

/-- A number up to 127. -/
def sevenBits (fuel : Nat) (c : Cause) : Reading (Option Nat) := do
  let some (n, s) ← number fuel | return none
  if n ≤ 127 then return some n else reject c s

/-- Microseconds per beat, given as they are or as beats per minute. -/
def tempo (fuel : Nat) (perMinute : Bool) : Reading (Option Nat) := do
  let some (n, s) ← number fuel | return none
  if perMinute && n = 0 then reject (.invalidNumber "0") s
  else
    let t := if perMinute then 60000000 / n else n
    if t > 0xFFFFFF then reject .tempoTooLarge s else return some t

/-- A key. -/
def key (fuel : Nat) (minor : Bool) : Reading (Option Key) := do
  let some a ← argument fuel | return none
  match Key.parse? a.text minor with
  | some k => return some k
  | none => reject (.unknownKey a.text) a.span

/-- The time signature of two numerals: at least one beat, and a power of two. -/
def signature? (n d : String) : Option (UInt8 × UInt8) := do
  let n ← Text.nat? 255 n
  let d ← Text.nat? 255 d
  if 0 < n ∧ d ∈ [1, 2, 4, 8, 16, 32, 64, 128] then some (.ofNat n, .ofNat d) else none

/-- A time signature, of two arguments. -/
def timeSignature (fuel : Nat) : Reading (Option (UInt8 × UInt8)) := do
  let some n ← argument fuel | return none
  let some d ← argument fuel | return none
  match signature? n.text d.text with
  | some r => return some r
  | none => reject (.invalidTimeSignature n.text d.text) (.between n.span d.span)

/-- An octave. -/
def octave (fuel : Nat) : Reading (Option Int) := do
  let some a ← argument fuel | return none
  match (Text.int32? a.text).filter fun n => -1 ≤ n && n ≤ 9 with
  | some n => return some n
  | none => reject (.invalidOctave a.text) a.span

/-- The ticks of a plain note. -/
def division (fuel : Nat) : Reading (Option Nat) := do
  let some (n, s) ← number fuel | return none
  if 1 ≤ n ∧ n ≤ 0x7FFF then return some n else reject (.invalidDivision n) s

/-- An instrument. One that is unknown is reported and taken for the first. -/
def instrument (fuel : Nat) : Reading (Option Nat) := do
  let some a ← argument fuel | return none
  match Text.nat? 127 a.text with
  | some n => return some n
  | none =>
    report (.unknownInstrument a.text) a.span
    return some 0

end Reading

end Jianpu
