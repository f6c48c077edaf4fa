import Jianpu.Proofs.Macro.Serve
import Jianpu.Proofs.Schedule.Alike
import Jianpu.Proofs.Sheet.PhraseReading

/-!
# Passages

A passage is the music of a sequence as a tree, with directives among the notes and groups. Each
directive that is read here takes its arguments in braces, written in ordinary characters. What it
asks for may make no sense, and then it does nothing.

`Passage.contents` and `Passage.after` interpret a passage by handing what is ambient down the tree:
a directive changes it for the rest of its own sequence, every branch of a group starts with what is
ambient at the brace, and what comes after the group does not see what its branches changed.
`Passage.pattern` is the pattern of the strand. `Passage.Written` says which tokens write a passage
down.
-/

namespace Jianpu

/-! ## Directives -/

/-- A directive inside the music, with its arguments as they are written. -/
inductive Change where
  | octave (text : String)
  | velocity (text : String)
  | key (minor : Bool) (text : String)
  | tempo (perMinute : Bool) (text : String)
  | times (numerator denominator : String)
  deriving DecidableEq, Repr

namespace Change

def directive : Change → Directive
  | octave _ => .octave
  | velocity _ => .vel
  | key minor _ => if minor then .minor else .major
  | tempo perMinute _ => if perMinute then .bpm else .tempo
  | times _ _ => .times

/-- The arguments. -/
def texts : Change → List String
  | octave text | velocity text | key _ text | tempo _ text => [text]
  | times numerator denominator => [numerator, denominator]

def octave? (text : String) : Option Int :=
  (Text.int32? text).filter fun n => -1 ≤ n && n ≤ 9

def velocity? (text : String) : Option Nat := (Text.nat? 0xFFFFFFFF text).filter (· ≤ 127)

/-- Microseconds per beat, given as they are or as beats per minute. -/
def tempo? (perMinute : Bool) (text : String) : Option Nat :=
  ((Text.nat? 0xFFFFFFFF text).filter fun n => !(perMinute && n = 0)).bind fun n =>
    (some (if perMinute then 60000000 / n else n)).filter (· ≤ 0xFFFFFF)

/-- What stands at the node of a directive, if it makes one. -/
def content? : Change → Option Content
  | octave _ | velocity _ => none
  | key minor text => (Key.parse? text minor).map .key
  | tempo perMinute text => (tempo? perMinute text).map .tempo
  | times numerator denominator =>
    (Reading.signature? numerator denominator).map fun p => .time p.1 p.2

/-- What is ambient after a directive. One that asks for nothing sensible changes nothing. -/
def ambient (a : Ambient) : Change → Ambient
  | octave text => { a with octave := (octave? text).getD a.octave }
  | velocity text => { a with velocity := (velocity? text).getD a.velocity }
  | key minor text => { a with shift := ((Key.parse? text minor).map (·.shift)).getD a.shift }
  | tempo _ _ | times _ _ => a

end Change

/-! ## Passages -/

mutual

/-- Notes, rests, groups and directives one after another. Degree 0 is a rest. -/
inductive Passage where
  | nil
  | note (degree : Fin 8) (marks : List Mark) (rest : Passage)
  | group (branches : Passages) (marks : List Mark) (rest : Passage)
  | change (c : Change) (rest : Passage)

/-- The branches of a group. -/
inductive Passages where
  | last (p : Passage)
  | more (p : Passage) (rest : Passages)

end

mutual

/-- What stands at the nodes of a passage, in the order in which they are written. -/
def Passage.contents : Passage → Ambient → List Content
  | .nil, _ => []
  | .note degree _ rest, a => a.content degree :: rest.contents a
  | .group branches _ rest, a => branches.contents a ++ rest.contents a
  | .change c rest, a => c.content?.toList ++ rest.contents (c.ambient a)

/-- What stands at the nodes of branches, which all start with the same ambient. -/
def Passages.contents : Passages → Ambient → List Content
  | .last p, a => p.contents a
  | .more p rest, a => p.contents a ++ rest.contents a

end

/-- What is ambient after a passage. -/
def Passage.after : Passage → Ambient → Ambient
  | .nil, a => a
  | .note _ _ rest, a | .group _ _ rest, a => rest.after a
  | .change c rest, a => rest.after (c.ambient a)

/-- The pattern of the node of a directive. -/
def Change.pattern (c : Change) (outer : List Modifier.Kind) : Shape ModifiedContent :=
  match c.content? with
  | none => .nil
  | some x => .node (some x, outer) .nil

mutual

/-- The pattern of a passage, where `outer` is around it. -/
def Passage.pattern : Passage → Ambient → List Modifier.Kind → Shape ModifiedContent
  | .nil, _, _ => .nil
  | .note degree marks rest, a, outer =>
    .node (some (a.content degree), Mark.kinds marks ++ outer) (rest.pattern a outer)
  | .group branches marks rest, a, outer =>
    branches.pattern a (Mark.kinds marks ++ outer) .nil ++ rest.pattern a outer
  | .change c rest, a, outer => c.pattern outer ++ rest.pattern (c.ambient a) outer

/-- The pattern of branches beside another pattern. -/
def Passages.pattern :
    Passages → Ambient → List Modifier.Kind → Shape ModifiedContent → Shape ModifiedContent
  | .last p, a, outer, w => w.beside (p.pattern a outer)
  | .more p rest, a, outer, w => rest.pattern a outer (w.beside (p.pattern a outer))

end

mutual

/-- There are no directives in a passage. -/
def Passage.Plain : Passage → Prop
  | .nil => True
  | .note _ _ rest => rest.Plain
  | .group branches _ rest => branches.Plain ∧ rest.Plain
  | .change _ _ => False

def Passages.Plain : Passages → Prop
  | .last p => p.Plain
  | .more p rest => p.Plain ∧ rest.Plain

end

/-! ## Tokens -/

namespace Token

/-- The token is the control sequence of a directive. -/
def Names (t : Token) (d : Directive) : Prop := t.kind = .control ∧ (t.text, d) ∈ Directive.table

/-- A text in braces, in ordinary characters. Blanks around it do not count. -/
def Bracketed (text : String) (ts : List Token) : Prop :=
  ∃ o inner c, ts = o :: (inner ++ [c]) ∧ o.kind = .opening ∧ c.kind = .closing ∧
    (∀ t ∈ inner, t.kind = .other) ∧ Text.trim (displayAll inner) = text

/-- The tokens are those of the things in a list, one after another. -/
def InTurn {α : Type} (W : α → List Token → Prop) : List α → List Token → Prop
  | [], ts => ts = []
  | x :: xs, ts => ∃ us vs, ts = us ++ vs ∧ W x us ∧ InTurn W xs vs

end Token

/-- The control sequence of a directive with its arguments. -/
def Change.Written (c : Change) (ts : List Token) : Prop :=
  ∃ t us, ts = t :: us ∧ t.Names c.directive ∧ Token.InTurn Token.Bracketed c.texts us

mutual

/-- The tokens write a passage down. -/
def Passage.Written : Passage → List Token → Prop
  | .nil, ts => ts = []
  | .note degree marks rest, ts => ∃ t ms us, ts = t :: (ms ++ us) ∧
      t.lexeme = .glyph (Phrase.digit degree) ∧ ms.map (·.lexeme) = Mark.render marks ∧
      rest.Written us
  | .group branches marks rest, ts => ∃ o bs c ms us, ts = o :: (bs ++ c :: (ms ++ us)) ∧
      o.kind = .opening ∧ branches.Written bs ∧ c.kind = .closing ∧
      ms.map (·.lexeme) = Mark.render marks ∧ rest.Written us
  | .change c rest, ts => ∃ cs us, ts = cs ++ us ∧ c.Written cs ∧ rest.Written us

/-- The tokens write branches down, with bars or commas between them. -/
def Passages.Written : Passages → List Token → Prop
  | .last p, ts => p.Written ts
  | .more p rest, ts => ∃ us t vs, ts = us ++ t :: vs ∧ p.Written us ∧ t.isSeparator = true ∧
      rest.Written vs

end

end Jianpu
