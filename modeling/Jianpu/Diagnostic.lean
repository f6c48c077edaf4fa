import Jianpu.Text.Position

/-!
# Diagnostics

What can be wrong with a source, and where. `Cause.message` is the wording of each cause.
-/

namespace Jianpu

/-- What is wrong with a source. -/
inductive Cause where
  | undefinedControl (name : String)
  | closingWithoutOpening
  | missingClosing
  | nestingExceeded
  | callMismatch (name : String)
  | callCutShort (name : String)
  | nameExpected
  | parameterOrder
  | openingExpected
  | illegalParameter (name : String)
  | unexpectedSeparator (text : String)
  | closingExpected
  | unknownNote (digit : Nat)
  | noteExpected
  | argumentExpected
  | invalidNumber (text : String)
  | invalidDivision (n : Nat)
  | lateDivision
  | tempoTooLarge
  | unknownKey (text : String)
  | invalidTimeSignature (numerator denominator : String)
  | velocityTooLarge
  | invalidOctave (text : String)
  | unknownInstrument (text : String)
  | volumeTooLarge
  deriving DecidableEq, Repr, Inhabited

namespace Cause

/-- The wording of a cause. -/
def message : Cause → String
  | undefinedControl name => "undefined control sequence " ++ name
  | closingWithoutOpening => "'\x7d' without '\x7b'"
  | missingClosing => "missing '\x7d'"
  | nestingExceeded => "maximum nested macro expansion exceeded"
  | callMismatch name => "use of macro " ++ name ++ " that doesn't match its definition"
  | callCutShort name =>
    "unexpected end of input: use of macro " ++ name ++ " that doesn't match its definition"
  | nameExpected => "macro name expected"
  | parameterOrder => "macro parameter number must be consecutive"
  | openingExpected => "'\x7b' expected"
  | illegalParameter name => "illegal parameter number in definition of " ++ name
  | unexpectedSeparator text => "unexpected '" ++ text ++ "'"
  | closingExpected => "'\x7d' expected"
  | unknownNote digit => "unknown note \"" ++ digit.repr ++ "\", valid notes are 0-7"
  | noteExpected => "note expected"
  | argumentExpected => "argument expected"
  | invalidNumber text => "invalid number \"" ++ text ++ "\""
  | invalidDivision n => "invalid division \"" ++ n.repr ++ "\""
  | lateDivision => "\\div is only allowed before any notes"
  | tempoTooLarge => "tempo must not exceed 16777215"
  | unknownKey text => "unknown key \"" ++ text ++ "\""
  | invalidTimeSignature n d => "invalid time signature \"" ++ n ++ "/" ++ d ++ "\""
  | velocityTooLarge => "velocity must not exceed 127"
  | invalidOctave text => "invalid octave \"" ++ text ++ "\""
  | unknownInstrument text => "unknown instrument \"" ++ text ++ "\""
  | volumeTooLarge => "volume must not exceed 127"

end Cause

/-- A cause and the part of the source that it is about. -/
structure Diagnostic where
  cause : Cause
  span : Span
  deriving DecidableEq, Repr, Inhabited

namespace Diagnostic

/-- What there is to say. -/
def message (d : Diagnostic) : String := d.cause.message

end Diagnostic

end Jianpu
