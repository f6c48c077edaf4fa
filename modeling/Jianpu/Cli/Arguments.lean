/-!
# Arguments of a command

Options and operands. A long option is `--name`, with its value after `=` or as the next argument.
Short options can share a dash; the value of the last one follows at once, after `=`, or as the next
argument. `--` ends the options. A value given as the next argument does not start with a dash,
unless it is just one. Arguments are taken in order, and the first that is wrong, or that asks for
help or the version, decides.
-/

namespace Jianpu.Cli

/-- What an option does: it can be given once, be counted, or take a value once. -/
inductive Action where
  | flag
  | count
  | value (accepts : String → Bool)

/-- An option, by its long name and, if it has one, its letter. -/
structure Choice where
  name : String
  letter : Option Char := none
  action : Action

/-- The options of a command and the number of operands that it takes at most. -/
structure Grammar where
  choices : List Choice
  operands : Nat

/-- Why a command does not run: its arguments are wrong, or it is asked about itself. -/
inductive Halt where
  | usage
  | help
  | version
  deriving DecidableEq, Repr, Inhabited

/-- The options given, each time with its value if it has one, and the operands. -/
structure Arguments where
  options : List (String × String) := []
  operands : List String := []
  deriving DecidableEq, Repr, Inhabited

namespace Arguments

/-- How often an option was given. -/
def count (a : Arguments) (name : String) : Nat := a.options.countP (·.1 = name)

/-- The value of an option. -/
def value? (a : Arguments) (name : String) : Option String := a.options.lookup name

/-- Takes in an option. Only a counted one can be given again. -/
def addOption (a : Arguments) (c : Choice) (value : String) : Except Halt Arguments :=
  let again := match c.action with
    | .count => true
    | _ => a.count c.name = 0
  let accepted := match c.action with
    | .value accepts => accepts value
    | _ => true
  if again && accepted then return { a with options := a.options ++ [(c.name, value)] }
  else throw .usage

/-- Takes in an operand, which must not be empty. -/
def addOperand (g : Grammar) (a : Arguments) (s : String) : Except Halt Arguments :=
  if a.operands.length < g.operands ∧ s ≠ "" then return { a with operands := a.operands ++ [s] }
  else throw .usage

end Arguments

/-- Whether an option takes a value. -/
def Choice.takesValue (c : Choice) : Bool :=
  match c.action with
  | .value _ => true
  | _ => false

/-- Whether an argument looks like an option. -/
def isDashed (s : String) : Bool :=
  match s.toList with
  | ['-'] => false
  | '-' :: _ => true
  | _ => false

/-- Takes in the letters after a dash. If the last one wants a value that does not follow at once,
its option is given back. -/
def letters (g : Grammar) : List Char → Arguments → Except Halt (Arguments × Option Choice)
  | [], a => return (a, none)
  | c :: cs, a => do
    match g.choices.find? (·.letter = some c) with
    | none => throw (if c = 'h' then .help else if c = 'V' then .version else .usage)
    | some choice =>
      if choice.takesValue then
        match cs with
        | [] => return (a, some choice)
        | '=' :: cs => return (← a.addOption choice (String.ofList cs), none)
        | cs => return (← a.addOption choice (String.ofList cs), none)
      else letters g cs (← a.addOption choice "")

/-- Takes in a long option, without its dashes. If it wants a value that does not follow at once,
the option is given back. -/
def longOption (g : Grammar) (cs : List Char) (a : Arguments) :
    Except Halt (Arguments × Option Choice) := do
  let name := String.ofList (cs.takeWhile (· ≠ '='))
  let value : Option String :=
    match cs.dropWhile (· ≠ '=') with
    | _ :: cs => some (String.ofList cs)
    | [] => none
  match g.choices.find? (·.name = name), value with
  | none, none =>
    throw (if name = "help" then .help else if name = "version" then .version else .usage)
  | none, some _ => throw .usage
  | some choice, none =>
    if choice.takesValue then return (a, some choice) else return (← a.addOption choice "", none)
  | some choice, some value =>
    if choice.takesValue then return (← a.addOption choice value, none) else throw .usage

/-- Takes in all arguments. -/
def parseFrom (g : Grammar) : List String → Arguments → Except Halt Arguments
  | [], a => return a
  | s :: rest, a => do
    match s.toList with
    | ['-', '-'] => rest.foldlM (Arguments.addOperand g) a
    | '-' :: c :: cs =>
      match ← if c = '-' then longOption g cs a else letters g (c :: cs) a with
      | (a, none) => parseFrom g rest a
      | (a, some choice) =>
        match rest with
        | [] => throw .usage
        | value :: rest =>
          if isDashed value then throw .usage
          else parseFrom g rest (← a.addOption choice value)
    | _ => parseFrom g rest (← Arguments.addOperand g a s)

/-- The options and operands of a command. -/
def Grammar.parse (g : Grammar) (args : List String) : Except Halt Arguments := parseFrom g args {}

/-- Values that name a file. -/
def isPath (s : String) : Bool := s ≠ ""

/-- Values of one character. -/
def isCharacter (s : String) : Bool := s.length = 1

end Jianpu.Cli
