import Jianpu.Text.Hex

/-!
# JSON

Documents of whole numbers, texts, lists and objects, and how they are written: compactly, or with a
line for each item. The fields of an object are written in the order in which they stand.
-/

namespace Jianpu

/-- A JSON document. -/
inductive Json where
  | num (n : Int)
  | str (s : String)
  | bool (b : Bool)
  | list (items : List Json)
  | object (fields : List (String × Json))
  deriving Repr, Inhabited

namespace Json

/-- A character inside quotes. -/
def escape (c : Char) : List Char :=
  match c with
  | '"' => ['\\', '"']
  | '\\' => ['\\', '\\']
  | '\n' => ['\\', 'n']
  | '\r' => ['\\', 'r']
  | '\t' => ['\\', 't']
  | '\x08' => ['\\', 'b']
  | '\x0c' => ['\\', 'f']
  | c =>
    if c.toNat < 0x20 then '\\' :: 'u' :: '0' :: '0' :: Text.hexByte c.toNat
    else [c]

/-- A text in quotes. -/
def quote (s : String) : String := "\"" ++ String.ofList (s.toList.flatMap escape) ++ "\""

mutual

/-- A document without blanks. -/
def compact : Json → String
  | num n => n.repr
  | str s => quote s
  | bool b => if b then "true" else "false"
  | list items => "[" ++ ",".intercalate (compactItems items) ++ "]"
  | object fields => "\x7b" ++ ",".intercalate (compactFields fields) ++ "\x7d"

/-- The items of a list. -/
def compactItems : List Json → List String
  | [] => []
  | j :: js => j.compact :: compactItems js

/-- The fields of an object. -/
def compactFields : List (String × Json) → List String
  | [] => []
  | (key, j) :: fields => (quote key ++ ":" ++ j.compact) :: compactFields fields

end

/-- Items between brackets, each on a line of its own, where the brackets stand `depth` steps in. -/
def block (opening closing : String) (depth : Nat) (items : List String) : String :=
  if items.isEmpty then opening ++ closing
  else
    let indent (n : Nat) := String.ofList (List.replicate (2 * n) ' ')
    opening ++ "\n" ++ ",\n".intercalate (items.map (indent (depth + 1) ++ ·)) ++ "\n" ++
      indent depth ++ closing

mutual

/-- A document with a line for each item, `depth` steps in. -/
def prettyAt (depth : Nat) : Json → String
  | list items => block "[" "]" depth (prettyItems (depth + 1) items)
  | object fields => block "\x7b" "\x7d" depth (prettyFields (depth + 1) fields)
  | num n => n.repr
  | str s => quote s
  | bool b => if b then "true" else "false"

/-- The items of a list. -/
def prettyItems (depth : Nat) : List Json → List String
  | [] => []
  | j :: js => prettyAt depth j :: prettyItems depth js

/-- The fields of an object. -/
def prettyFields (depth : Nat) : List (String × Json) → List String
  | [] => []
  | (key, j) :: fields => (quote key ++ ": " ++ prettyAt depth j) :: prettyFields depth fields

end

/-- A document with a line for each item. -/
def pretty (j : Json) : String := prettyAt 0 j

end Json

end Jianpu
