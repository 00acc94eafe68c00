/-!
# BinaryAst.CommandLine.Arguments

The arguments of the inspection command.

    decode PATH --shapes FILE [--config FILE] [--flag NAME]... [--strict] [--trace] [--json]
    info   PATH --shapes FILE [--config FILE] [--flag NAME]... [--strict] [--trace] [--json]

Options and the path come in any order; an option's value follows it, or stands
behind an equals sign. After `--` everything is a path.
-/

namespace BinaryAst.CommandLine

/-- What is done with a module. -/
inductive Action
  /-- Its root and its objects are printed. -/
  | decode
  /-- Its tag table and its substreams are printed. -/
  | info
  deriving DecidableEq, Repr

/-- A complete command. -/
structure Command where
  action : Action
  /-- The file of the module. -/
  path : String
  /-- The file of the schema. -/
  shapes : String
  /-- The file of the configuration. -/
  config : Option String
  /-- Names of flags to turn on, in order. -/
  flags : List String
  strict : Bool
  trace : Bool
  json : Bool
  deriving DecidableEq, Repr

/-- Arguments taken up so far. -/
structure Arguments where
  path : Option String := none
  shapes : Option String := none
  config : Option String := none
  flags : List String := []
  strict : Bool := false
  trace : Bool := false
  json : Bool := false
  deriving DecidableEq, Repr

namespace Arguments

/-- Gives a place a value: it must still be free, and a file needs a name. -/
def fill (place : Option String) (value : String) : Option (Option String) :=
  if place.isSome || value.isEmpty then none else some (some value)

/-- Turns a switch on, which must still be off. -/
def turnOn (switch : Bool) : Option Bool := if switch then none else some true

/-- Takes up a path. -/
def addPath (a : Arguments) (path : String) : Option Arguments := do
  return { a with path := ← fill a.path path }

/-- The options that have a value. -/
def takesValue (name : String) : Bool := name ∈ ["shapes", "config", "flag"]

/-- Takes up an option with its value. -/
def addOption (a : Arguments) (name value : String) : Option Arguments :=
  match name with
  | "shapes" => do return { a with shapes := ← fill a.shapes value }
  | "config" => do return { a with config := ← fill a.config value }
  | "flag" => some { a with flags := a.flags ++ [value] }
  | _ => none

/-- Takes up an option without a value. -/
def addSwitch (a : Arguments) (name : String) : Option Arguments :=
  match name with
  | "strict" => do return { a with strict := ← turnOn a.strict }
  | "trace" => do return { a with trace := ← turnOn a.trace }
  | "json" => do return { a with json := ← turnOn a.json }
  | _ => none

/-- The form of an argument. -/
inductive Form
  /-- `--`. -/
  | separator
  /-- `--name`, or `--name=value`. -/
  | option (name : String) (value : Option String)
  /-- A single hyphen and letters. -/
  | letters
  /-- Anything else, a lone hyphen among it. -/
  | plain
  deriving DecidableEq, Repr

/-- The form of an argument. -/
def form (argument : String) : Form :=
  match argument.toList with
  | ['-', '-'] => .separator
  | '-' :: '-' :: rest =>
    let name := String.ofList (rest.takeWhile (· != '='))
    match rest.dropWhile (· != '=') with
    | _ :: value => .option name (some (String.ofList value))
    | [] => .option name none
  | ['-'] => .plain
  | '-' :: _ => .letters
  | _ => .plain

/-- Takes up paths. -/
def addPaths (a : Arguments) (paths : List String) : Option Arguments := paths.foldlM addPath a

/-- Takes up arguments; `none` when they are not understood. -/
def addAll (a : Arguments) : List String → Option Arguments
  | [] => some a
  | argument :: rest =>
    match form argument with
    | .separator => a.addPaths rest
    | .letters => none
    | .plain => do (← a.addPath argument).addAll rest
    | .option name (some value) => do (← a.addOption name value).addAll rest
    | .option name none =>
      if takesValue name then
        match rest with
        | [] => none
        | value :: rest =>
          if form value = .plain then do (← a.addOption name value).addAll rest else none
      else do (← a.addSwitch name).addAll rest

/-- The command of an action, when the path and the shapes are there. -/
def command? (a : Arguments) (action : Action) : Option Command := do
  return { a with action, path := ← a.path, shapes := ← a.shapes }

end Arguments

/-- The action of a name. -/
def Action.ofName? : String → Option Action
  | "decode" => some .decode
  | "info" => some .info
  | _ => none

/-- The command that arguments spell; `none` when they are not understood. -/
def Command.ofArguments? : List String → Option Command
  | [] => none
  | name :: arguments => do
    let action ← Action.ofName? name
    (← ({} : Arguments).addAll arguments).command? action

end BinaryAst.CommandLine
