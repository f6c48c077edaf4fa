import Jianpu.Table
import Jianpu.Token

/-!
# Scopes

What the names of control sequences stand for. Braces open and close frames; a name means what the
innermost frame that binds it says. The global frame is always there, so leaving can fail but never
empties the scopes.
-/

namespace Jianpu.Macro

/-- A definition from the source: the tokens that a call must match, and what replaces it. -/
structure Definition where
  name : String
  pattern : List Token
  body : List Token
  deriving DecidableEq, Repr, Inhabited

/-- What a name can stand for: a definition from the source, one of the two commands that define
(`\gdef` when `everywhere`, else `\def`), or a directive, which is left to the reader. -/
inductive Binding (δ : Type) where
  | user (d : Definition)
  | define (everywhere : Bool)
  | directive (d : δ)
  deriving DecidableEq, Repr, Inhabited

/-- The bindings of one frame. -/
abbrev Frame (δ : Type) := Table String (Binding δ)

/-- The frames in force, the innermost first, over the global one. -/
structure Scopes (δ : Type) where
  inner : List (Frame δ) := []
  global : Frame δ := []
  deriving DecidableEq, Repr, Inhabited

namespace Scopes

variable {δ : Type}

/-- Binds a name in the innermost frame, or in the global one. -/
def define (s : Scopes δ) (name : String) (b : Binding δ) (everywhere : Bool) : Scopes δ :=
  match everywhere, s.inner with
  | false, f :: fs => { s with inner := f.insert name b :: fs }
  | _, _ => { s with global := s.global.insert name b }

/-- Binds a directive in the global frame. -/
def defineDirective (s : Scopes δ) (name : String) (d : δ) : Scopes δ :=
  s.define name (.directive d) true

/-- The scopes in which only `\def` and `\gdef` are bound. -/
def builtin : Scopes δ :=
  (({} : Scopes δ).define "\\def" (.define false) true).define "\\gdef" (.define true) true

/-- What a name stands for. -/
def get? (s : Scopes δ) (name : String) : Option (Binding δ) :=
  (s.inner ++ [s.global]).findSome? (·.lookup name)

/-- Opens a frame. -/
def enter (s : Scopes δ) : Scopes δ := { s with inner := [] :: s.inner }

/-- Closes the innermost frame, unless only the global one is left. -/
def leave? (s : Scopes δ) : Option (Scopes δ) :=
  match s.inner with
  | [] => none
  | _ :: fs => some { s with inner := fs }

/-- The number of frames, the global one included. -/
def depth (s : Scopes δ) : Nat := s.inner.length + 1

/-- Closes every frame but the global one. -/
def reset (s : Scopes δ) : Scopes δ := { s with inner := [] }

end Scopes

end Jianpu.Macro
