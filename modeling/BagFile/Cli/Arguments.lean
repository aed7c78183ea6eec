/-
  The arguments of the command line.

  * `Request` is what the arguments ask for, and `Request.ofArguments` reads it off them;
  * an option's value stands behind it as an argument of its own, or is attached to it, with or
    without an equals sign for a letter, with one for a word; an argument that starts with a
    hyphen is a value only if it is attached or is the hyphen alone;
  * everything behind the argument `--` is an operand.
-/
import BagFile.Decimal.Reading
import BagFile.Query

namespace BagFile.Cli

/-! ## Requests -/

/-- What the arguments ask for. -/
inductive Request where
  /-- a summary of a bag -/
  | info (bag : String)
  /-- a line for each message of a query -/
  | list (bag : String) (query : Query)
  /-- a copy of the messages of a query -/
  | filter (input output : String) (query : Query) (compression : String)
  | help
  | version
  /-- nothing, for the arguments make no sense -/
  | misuse
  deriving DecidableEq

/-- A reading of arguments, which may end early with a request. -/
abbrev Parse (α : Type) := Except Request α

/-! ## The shape of an argument -/

/-- What an argument is by its shape alone. -/
inductive Shape where
  | operand
  /-- the argument behind which all are operands -/
  | separator
  /-- an option given by a word, and the value attached to it -/
  | word (name : String) (value : Option String)
  /-- an option given by a letter, and the value attached to it -/
  | letter (name : Char) (value : Option String)
  deriving DecidableEq

namespace Shape

/-- The value behind an equals sign, if there is one. -/
def assigned : List Char → Option String
  | '=' :: cs => some (String.ofList cs)
  | _ => none

/-- The value attached to a letter. -/
def attached (cs : List Char) : Option String :=
  if cs = [] then none else some ((assigned cs).getD (String.ofList cs))

/-- The shape of an argument. -/
def ofText (s : String) : Shape :=
  match s.toList with
  | ['-', '-'] => separator
  | '-' :: '-' :: cs =>
    word (String.ofList (cs.takeWhile (· ≠ '='))) (assigned (cs.dropWhile (· ≠ '=')))
  | '-' :: c :: cs => letter c (attached cs)
  | _ => operand

/-- Whether the argument asks for help; a word may have no value then. -/
def isHelp (s : Shape) : Bool :=
  match s with
  | word "help" none | letter 'h' _ => true
  | _ => false

/-- Whether the argument asks for the version. -/
def isVersion (s : Shape) : Bool :=
  match s with
  | word "version" none | letter 'V' _ => true
  | _ => false

/-- The name of the option in full, and the value attached to it. -/
def option? : Shape → Option (String × Option String)
  | word name value => some (name, value)
  | letter 't' value => some ("topic", value)
  | letter 's' value => some ("start", value)
  | letter 'e' value => some ("end", value)
  | letter 'c' value => some ("compression", value)
  | _ => none

end Shape

/-! ## Options and operands -/

/-- What a command takes. -/
structure Form where
  /-- the names of its options -/
  options : List String
  /-- how many operands it needs -/
  operands : Nat
  deriving DecidableEq

/-- What is given to a command. -/
structure Given where
  topics : List String
  start : Option Time
  stop : Option Time
  compression : Option String
  operands : List String
  deriving DecidableEq

namespace Given

/-- Nothing. -/
def nothing : Given := ⟨[], none, none, none, []⟩

/-- A value for something that can be given once only. -/
def once {α : Type} (old : Option α) (new : α) : Parse (Option α) :=
  if old.isSome then throw .misuse else return some new

/-- The point in time that a number of seconds stands for. -/
def readTime (s : String) : Parse Time :=
  match Decimal.Number.ofText? s with
  | some n => return Time.ofSeconds n.toFloat
  | none => throw .misuse

/-- With the value of an option. -/
def addOption (g : Given) (name value : String) : Parse Given := do
  match name with
  | "topic" => return { g with topics := g.topics ++ [value] }
  | "start" => return { g with start := ← once g.start (← readTime value) }
  | "end" => return { g with stop := ← once g.stop (← readTime value) }
  | "compression" => return { g with compression := ← once g.compression value }
  | _ => throw .misuse

/-- With one operand more; the empty text names no file. -/
def addOperand (f : Form) (g : Given) (s : String) : Parse Given :=
  if s = "" ∨ f.operands ≤ g.operands.length then throw .misuse
  else return { g with operands := g.operands ++ [s] }

/-- With the arguments of a command. -/
def addAll (f : Form) (g : Given) : List String → Parse Given
  | [] => return g
  | a :: rest =>
    match Shape.ofText a with
    | .separator => rest.foldlM (addOperand f) g
    | .operand => do addAll f (← addOperand f g a) rest
    | shape =>
      if shape.isHelp then throw .help
      else
        match shape.option? with
        | none => throw .misuse
        | some (name, value) =>
          if !f.options.contains name then throw .misuse
          else
            match value, rest with
            | some v, rest => do addAll f (← addOption g name v) rest
            | none, [] => throw .misuse
            | none, v :: rest =>
              if Shape.ofText v = .operand then do addAll f (← addOption g name v) rest
              else throw .misuse

/-- The query that the options make; without topics all are selected. -/
def query (g : Given) : Query :=
  ⟨if g.topics.isEmpty then none else some g.topics, g.start, g.stop⟩

end Given

/-! ## Commands -/

/-- The options that make a query. -/
def queryOptions : List String := ["topic", "start", "end"]

/-- The names of the commands. -/
def commandNames : List String := ["info", "list", "filter", "help"]

/-- Reads the arguments of a command. -/
def readCommand (name : String) (rest : List String) : Parse Request := do
  match name with
  | "info" =>
    match (← Given.nothing.addAll ⟨[], 1⟩ rest).operands with
    | [bag] => return .info bag
    | _ => throw .misuse
  | "list" =>
    let g ← Given.nothing.addAll ⟨queryOptions, 1⟩ rest
    match g.operands with
    | [bag] => return .list bag g.query
    | _ => throw .misuse
  | "filter" =>
    let g ← Given.nothing.addAll ⟨"compression" :: queryOptions, 2⟩ rest
    match g.operands with
    | [input, output] => return .filter input output g.query (g.compression.getD "none")
    | _ => throw .misuse
  | "help" =>
    match rest with
    | [] => return .help
    | [command] => if commandNames.contains command then return .help else throw .misuse
    | _ => throw .misuse
  | _ => throw .misuse

/-- What the arguments ask for. -/
def Request.ofArguments : List String → Request
  | [] => .misuse
  | a :: rest =>
    if (Shape.ofText a).isHelp then .help
    else if (Shape.ofText a).isVersion then .version
    else
      match readCommand a rest with
      | .ok request | .error request => request

end BagFile.Cli
