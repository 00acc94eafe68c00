import BinaryAst.Value
import BinaryAst.Decimal.Style
/-!
# BinaryAst.Value.Text

Decoded values as indented text.

A value is laid out as lines, each with its own indent, and only then written: so
moving a value to the right changes the indents and nothing else. What exceeds the
limits is left out, and a line says how much of it there is.
-/

namespace BinaryAst

/-- How much of a value is shown. -/
structure TextLimits where
  /-- Fields of one object. -/
  maxFields : Nat := 80
  /-- Characters of one string or symbol. -/
  maxString : Nat := 200
  /-- Items of one array. -/
  maxItems : Nat := 16
  /-- Levels of arrays and inline objects. -/
  maxDepth : Nat := 6
  deriving DecidableEq, Repr

/-- A line of text and the width of the blank before it. -/
structure Line where
  indent : Nat
  text : String
  deriving DecidableEq, Repr

namespace Line

/-- The written form of a line, with its end. -/
def write (line : Line) : String :=
  String.ofList (List.replicate line.indent ' ') ++ line.text ++ "\n"

/-- The written form of lines. -/
def writeAll (lines : List Line) : String := String.join (lines.map write)

end Line

namespace Value

/-- How numbers are written: with all their places. -/
def numberStyle : Decimal.Style where
  tie := .up
  isPositional _ := true
  pointZero := false

/-- The text of a double. -/
def doubleText (x : Binary64) : String :=
  if x.isNaN then "NaN"
  else if x.isFinite then numberStyle.text x
  else if x.isNegative then "-inf"
  else "inf"

/-- A text cut after so many characters; three points show that it was cut. -/
def cutText (limit : Nat) (text : String) : String :=
  if (text.toList.drop limit).isEmpty then text
  else String.ofList (text.toList.take limit) ++ "..."

/-- The text of a value that fits on one line. -/
def scalarText? (limits : TextLimits) : Value → Option String
  | null => some "null"
  | bool value => some (toString value)
  | integer value => some (toString value.toInt)
  | double value => some (doubleText value)
  | string text => some ("\"" ++ cutText limits.maxString text ++ "\"")
  | symbol text => some (":" ++ cutText limits.maxString text)
  | internedSymbol index => some s!":#{index}"
  | ref slot => some s!"-> #{slot}"
  | array _ | inline _ => none

/-- The line that stands for what a limit left out of a list, if it did. -/
def moreLines (indent shown total : Nat) (what : String) : List Line :=
  if shown < total then [⟨indent, s!"... {total - shown} more{what}"⟩] else []

mutual

/-- The lines of a value at an indent, inside so many levels. -/
def lines (limits : TextLimits) (indent depth : Nat) : Value → List Line
  | array items =>
    if limits.maxDepth ≤ depth then [⟨indent, s!"[... {items.length} items]"⟩]
    else
      [⟨indent, "["⟩] ++ itemLines limits (indent + 2) (depth + 1) limits.maxItems items ++
        moreLines (indent + 2) limits.maxItems items.length "" ++ [⟨indent, "]"⟩]
  | inline ⟨shape, fields⟩ =>
    if limits.maxDepth ≤ depth then [⟨indent, shape ++ " \x7b ... \x7d"⟩]
    else
      [⟨indent, shape ++ " \x7b"⟩] ++
        fieldLines limits (indent + 2) (depth + 1) limits.maxFields fields ++
        moreLines (indent + 2) limits.maxFields fields.length " fields" ++ [⟨indent, "\x7d"⟩]
  | scalar => (scalarText? limits scalar).toList.map (Line.mk indent)

/-- The lines of the first items of an array. -/
def itemLines (limits : TextLimits) (indent depth : Nat) :
    (shown : Nat) → List Value → List Line
  | shown + 1, item :: items =>
    item.lines limits indent depth ++ itemLines limits indent depth shown items
  | 0, _ | _, [] => []

/-- The lines of the first fields of an object. A value that fits on one line goes
behind its name, and any other goes below. -/
def fieldLines (limits : TextLimits) (indent depth : Nat) :
    (shown : Nat) → List (Field Value) → List Line
  | shown + 1, ⟨name, value⟩ :: fields =>
    (match scalarText? limits value with
      | some text => [⟨indent, name ++ " = " ++ text⟩]
      | none => ⟨indent, name ++ " = "⟩ :: value.lines limits (indent + 2) depth) ++
      fieldLines limits indent depth shown fields
  | 0, _ | _, [] => []

end

/-- A value as text. -/
def render (limits : TextLimits) (indent depth : Nat) (value : Value) : String :=
  Line.writeAll (value.lines limits indent depth)

end Value

/-- An object as text. -/
def Object.render (limits : TextLimits) (indent depth : Nat) (object : ObjectValue) :
    String :=
  (Value.inline object).render limits indent depth

end BinaryAst
