import BinaryAst.Decode.Container
import BinaryAst.Value.Json
import BinaryAst.Value.Text
/-!
# BinaryAst.CommandLine.Report

What the inspection command prints about a module, as text and as JSON.
-/

namespace BinaryAst.CommandLine

open Json (Tree)

/-! ### The decoded graph -/

/-- A slot of the object table as text. -/
def slotText (slot : Nat) (object : ObjectValue) : String :=
  s!"  #{slot}\n" ++ object.render {} 2 0

/-- The root and the objects as text. -/
def graphText (path : String) (m : Module) : String :=
  s!"path: {path}\nroot:\n" ++ m.root.render {} 2 0 ++ s!"objects: {m.objects.length}\n" ++
    String.join (m.objects.mapIdx slotText)

/-- The root and the objects as JSON. -/
def graphJson (path shapeKey : String) (m : Module) : Tree :=
  .object
    [("path", .string path),
      ("root", m.root.toJson shapeKey),
      ("objects", .array (m.objects.map (·.toJson shapeKey)))]

/-! ### The container -/

/-- A substream as a line of text. -/
def streamText (s : StreamUse) : String :=
  s!"  {s.description} @{s.offset} len={s.length} consumed={s.consumed} " ++
    s!"leftover={s.leftover}\n"

/-- A tag as a line of text. -/
def tagText (index : Nat) (tag : String) : String := s!"  {index}: {tag}\n"

/-- The container as text. -/
def containerText (path : String) (size : Nat) (m : Module) : String :=
  s!"path: {path}\nsize: {size}\ntag_count: {m.header.tagCount}\n" ++
    s!"object_count: {m.header.objectCount}\n" ++
    "flags: " ++ String.intercalate ", " m.configuration.flagNames ++ "\n" ++
    "tags:\n" ++ String.join (m.tags.mapIdx tagText) ++
    "streams:\n" ++ String.join (m.streams.map streamText)

/-- A substream as JSON. -/
def streamJson (s : StreamUse) : Tree :=
  .object
    [("description", .string s.description),
      ("offset", .integer s.offset),
      ("len", .integer s.length),
      ("consumed", .integer s.consumed)]

/-- The container as JSON. -/
def containerJson (path : String) (size : Nat) (m : Module) : Tree :=
  .object
    [("path", .string path),
      ("size", .integer size),
      ("tag_count", .integer m.header.tagCount),
      ("object_count", .integer m.header.objectCount),
      ("flags", .array (m.configuration.flagNames.map .string)),
      ("tags", .array (m.tags.map .string)),
      ("streams", .array (m.streams.map streamJson))]

/-! ### Events -/

/-- An event as a line of text. -/
def eventText : Event → String
  | .stream description offset length =>
    s!"trace: stream {description} at {offset} ({length} bytes)\n"
  | .tag stream tag => s!"trace: tag {tag} from {stream}\n"
  | .field shape name stream redirected =>
    s!"trace: field {shape}.{name} from {stream}" ++
      (if redirected then " (redirected)\n" else "\n")
  | .inline shape stream => s!"trace: inline {shape} from {stream}\n"
  | .slot index shape => s!"trace: slot {index} = {shape}\n"

end BinaryAst.CommandLine
