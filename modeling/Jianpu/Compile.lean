import Jianpu.Sheet.Arrange

/-!
# Compiling

From the source of a sheet to a composition. A composition is made even of a source with faults, but
`compile` gives one only where nothing was reported.
-/

namespace Jianpu

/-- What a compilation can be asked to do differently. -/
structure Options where
  alphabet : Alphabet := .music
  /-- The limit on nested calls. -/
  limit : Nat := Macro.Expander.defaultLimit
  deriving DecidableEq, Repr

/-- A composition, what is wrong with its source, and the remarks made on the way. -/
structure Compiled where
  composition : Composition
  diagnostics : List Diagnostic
  journal : List Remark
  deriving Repr, Inhabited

/-- Compiles a source, within a number of steps. -/
def compile (fuel : Nat) (o : Options) (text : String) : Option Compiled := do
  let r ← Sheet.parse fuel (.ofText o.alphabet text) o.limit
  let (composition, journal) := r.sheet.arrange
  return ⟨composition, r.diagnostics, r.journal ++ journal⟩

end Jianpu
