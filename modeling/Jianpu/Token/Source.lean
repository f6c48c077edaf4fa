import Jianpu.Token.Scan

/-!
# Sources of tokens

A source is a list of tokens still to come. One made from a text never runs dry: after the end
mark of the text it gives an end mark without blanks, at the same place, for ever. One made from a
list of tokens ends with the list.
-/

namespace Jianpu

/-- Tokens still to come, and where the end marks that follow them for ever stand, if any do. -/
structure Source where
  tokens : List Token
  endless : Option Position := none
  deriving DecidableEq, Repr, Inhabited

namespace Source

/-- A source that ends with its tokens. -/
def ofTokens (ts : List Token) : Source := { tokens := ts }

/-- The tokens of a text. -/
def ofText (a : Alphabet) (text : String) : Source :=
  let ts := Token.scan a text
  { tokens := ts, endless := ts.getLast?.map (·.span.start) }

/-- The next token, and the source after it. -/
def next? (s : Source) : Option (Token × Source) :=
  match s.tokens with
  | t :: ts => some (t, { s with tokens := ts })
  | [] => s.endless.map fun p => (Token.eof p false, s)

end Source

end Jianpu
