import Jianpu.Token.Source

/-!
# Stacks of sources

The sources that are read from, one upon another. Their number is kept beside them, since every call
asks for it.
-/

namespace Jianpu.Macro

/-- Sources, the one read first at the head, and their number. -/
structure Stack where
  sources : List Source
  size : Nat
  size_eq : size = sources.length
  deriving Repr

namespace Stack

/-- A stack without sources. -/
def empty : Stack := ⟨[], 0, rfl⟩

instance : Inhabited Stack := ⟨empty⟩

/-- A stack of one source. -/
def ofSource (s : Source) : Stack := ⟨[s], 1, rfl⟩

/-- Puts a source upon the others. -/
def push (stack : Stack) (s : Source) : Stack :=
  ⟨s :: stack.sources, stack.size + 1, congrArg (· + 1) stack.size_eq⟩

/-- The lowest source alone. -/
def bottom (stack : Stack) : Stack :=
  let sources := stack.sources.drop (stack.size - 1)
  ⟨sources, sources.length, rfl⟩

/-- The first token of some sources, and the stack after it. Sources that have run dry are dropped
on the way. -/
def pullFrom : (sources : List Source) → (size : Nat) → size = sources.length → Option Token × Stack
  | [], _, _ => (none, empty)
  | s :: rest, size, h =>
    match s.next? with
    | some (t, s') => (some t, ⟨s' :: rest, size, h⟩)
    | none => pullFrom rest (size - 1) (congrArg (· - 1) h)

/-- The first token of a stack, and the stack after it. -/
def pull (stack : Stack) : Option Token × Stack :=
  pullFrom stack.sources stack.size stack.size_eq

/-- The tokens ahead. -/
def tokens (stack : Stack) : List Token := stack.sources.flatMap (·.tokens)

@[simp] theorem sources_push (stack : Stack) (s : Source) :
    (stack.push s).sources = s :: stack.sources := rfl

/-- At most one source is left at the bottom. -/
theorem size_bottom_le (stack : Stack) : stack.bottom.size ≤ 1 := by
  have := stack.size_eq
  simp only [bottom, List.length_drop]
  omega

end Stack

end Jianpu.Macro
