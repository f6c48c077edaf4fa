import Jianpu.Text.Terminal

/-!
# The journal

Remarks that the program makes on its own work, each with a level. A reader chooses how much of it
to see: a threshold shows the levels up to it. Remarks are printed on a terminal, so they are spelt
for one.
-/

namespace Jianpu

/-- How much a remark matters, most first. -/
inductive Level where
  | warn
  | info
  | debug
  | trace
  deriving DecidableEq, Repr, Inhabited

namespace Level

/-- The level as it is printed. -/
def name : Level → String
  | warn => "WARN"
  | info => "INFO"
  | debug => "DEBUG"
  | trace => "TRACE"

/-- The position of a level, from the one that matters most. -/
def rank : Level → Nat
  | warn => 0
  | info => 1
  | debug => 2
  | trace => 3

/-- The threshold for a number of requests for more. -/
def ofVerbosity : Nat → Level
  | 0 => warn
  | 1 => info
  | 2 => debug
  | _ => trace

end Level

/-- A remark of a given level. -/
structure Remark where
  level : Level
  text : String
  deriving DecidableEq, Repr, Inhabited

namespace Remark

/-- The remark as it is printed. -/
def line (r : Remark) : String := r.level.name ++ " " ++ Text.printable r.text

/-- The lines of the remarks that a threshold shows. -/
def shown (threshold : Level) (rs : List Remark) : List String :=
  (rs.filter fun r => r.level.rank ≤ threshold.rank).map line

end Remark

end Jianpu
