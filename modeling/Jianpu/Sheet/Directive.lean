import Jianpu.Macro.Scope

/-!
# Directives

The control sequences that the music itself understands. They are bound in the global frame beside
`\def` and `\gdef`.
-/

namespace Jianpu

/-- What a directive sets or starts. -/
inductive Directive where
  | track
  | voice
  | tempo
  | bpm
  | major
  | minor
  | times
  | div
  | vel
  | octave
  | instrument
  | volume
  deriving DecidableEq, Repr, Inhabited

namespace Directive

/-- The directives by name. -/
def table : List (String × Directive) :=
  [("\\track", track), ("\\v", voice), ("\\tempo", tempo), ("\\bpm", bpm), ("\\major", major),
    ("\\minor", minor), ("\\times", times), ("\\div", div), ("\\vel", vel), ("\\octave", octave),
    ("\\instrument", instrument), ("\\volume", volume)]

/-- The scopes at the start of a sheet. -/
def scopes : Macro.Scopes Directive :=
  table.foldl (fun s p => s.defineDirective p.1 p.2) .builtin

end Directive

end Jianpu
