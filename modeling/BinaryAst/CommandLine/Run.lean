import BinaryAst.CommandLine.Arguments
import BinaryAst.CommandLine.Report
import BinaryAst.Configuration.Json
import BinaryAst.Schema.Json
/-!
# BinaryAst.CommandLine.Run

Running the inspection command against a set of files.

Inputs are loaded in a fixed order, and the first that fails ends the run: the
configuration, the flags on top of it, the schema, then the module.
-/

namespace BinaryAst.CommandLine

/-- What a run leaves behind. -/
structure Outcome where
  exit : Nat
  stdout : String
  stderr : String
  deriving DecidableEq, Repr

/-- The contents of files by name. -/
abbrev Files := String → Except FileFault Bytes

namespace Files

/-- The bytes of a file. -/
def bytes (files : Files) (path : String) : Except DecodeError Bytes :=
  (files path).mapError .file

/-- The text of a file. -/
def text (files : Files) (path : String) : Except DecodeError String := do
  match Bytes.toText? (← files.bytes path) with
  | some text => pure text
  | none => throw (.file .notText)

end Files

namespace Command

/-- The configuration of a command: a file's, if one is named, then the flags. -/
def configuration (command : Command) (files : Files) :
    Except DecodeError Configuration := do
  let base ← match command.config with
    | none => pure {}
    | some path => Configuration.ofJson (← files.text path)
  base.enableAll command.flags

/-- The schema of a command. -/
def schema (command : Command) (files : Files) : Except DecodeError Schema := do
  Schema.ofJson (← files.text command.shapes)

/-- The container of a command. -/
def container (command : Command) (files : Files) : Except DecodeError Container := do
  Container.ofBytes (← files.bytes command.path)

/-- The limits of a command. -/
def limits (command : Command) : Limits := { strict := command.strict }

/-- What a command prints about a module. -/
def report (command : Command) (container : Container) (schema : Schema) (m : Module) :
    String :=
  match command.action, command.json with
  | .decode, true => (graphJson command.path schema.shapeKey m).write ++ "\n"
  | .decode, false => graphText command.path m
  | .info, true => (containerJson command.path container.bytes.length m).write ++ "\n"
  | .info, false => containerText command.path container.bytes.length m

/-- The outcome of a run that fails, after what it has traced. -/
def failed (trace : String) (e : DecodeError) : Outcome :=
  ⟨1, "", trace ++ s!"error: {e.message}\n"⟩

/-- Everything a command needs before decoding. -/
def load (command : Command) (files : Files) :
    Except DecodeError (Configuration × Schema × Container) := do
  let configuration ← command.configuration files
  let schema ← command.schema files
  let container ← command.container files
  pure (configuration, schema, container)

/-- Runs a command. -/
def run (command : Command) (files : Files) : Outcome :=
  match command.load files with
  | .error e => failed "" e
  | .ok (configuration, schema, container) =>
    let decoding := container.decode configuration schema command.limits
    let trace := if command.trace then String.join (decoding.events.map eventText) else ""
    match decoding.result with
    | .error e => failed trace e
    | .ok m => ⟨0, command.report container schema m, trace⟩

end Command

/-- What is printed when the arguments are not understood. -/
def usage : String :=
  "usage: decode|info PATH --shapes FILE [--config FILE] [--flag NAME]... " ++
    "[--strict] [--trace] [--json]\n"

/-- Runs the command that arguments spell. -/
def run (arguments : List String) (files : Files) : Outcome :=
  match Command.ofArguments? arguments with
  | none => ⟨2, "", usage⟩
  | some command => command.run files

end BinaryAst.CommandLine
