import BinaryAst.Decimal.Style
/-!
# BinaryAst.Json.Tree

JSON values, and their written form over several lines.

An integer and a double stay apart, also where they are the same number. The
members of an object are written in the order they have here; an object that is
built by `insert` has each key once, in increasing order.
-/

namespace BinaryAst.Json

/-- A JSON value. -/
inductive Tree
  | null
  | boolean (value : Bool)
  | integer (value : Int)
  /-- A number that is not an integer by its kind; it has to be finite. -/
  | double (value : Binary64)
  | string (text : String)
  | array (items : List Tree)
  | object (members : List (String × Tree))
  deriving Repr

namespace Tree

/-! ### Members by key -/

/-- Puts a member in its place by key; a member that has the key gives way. -/
def insert (key : String) (value : Tree) : List (String × Tree) → List (String × Tree)
  | [] => [(key, value)]
  | (other, old) :: rest =>
    if key < other then (key, value) :: (other, old) :: rest
    else if key = other then (key, value) :: rest
    else (other, old) :: insert key value rest

/-! ### Written form -/

/-- How numbers are written: plainly from `0.00001` up to sixteen digits, with an
exponent beyond. -/
def numberStyle : Decimal.Style where
  tie := .toEven
  isPositional exponent := -5 ≤ exponent && exponent < 16
  pointZero := true

/-- A character inside a string: quotes, backslashes and control characters are
escaped. -/
def escape (c : Char) : String :=
  match c with
  | '"' => "\\\""
  | '\\' => "\\\\"
  | '\x08' => "\\b"
  | '\t' => "\\t"
  | '\n' => "\\n"
  | '\x0c' => "\\f"
  | '\r' => "\\r"
  | c =>
    if c.toNat < 0x20 then
      "\\u00" ++ String.ofList [(c.toNat / 16).digitChar, (c.toNat % 16).digitChar]
    else c.toString

/-- A string in quotes. -/
def quote (text : String) : String := "\"" ++ String.join (text.toList.map escape) ++ "\""

/-- The start of a line at a nesting level. -/
def newline (level : Nat) : String := "\n" ++ String.ofList (List.replicate (2 * level) ' ')

/-- Parts between brackets: one line each, one level further in than the brackets. -/
def enclose (level : Nat) (left right : String) : List String → String
  | [] => left ++ right
  | parts =>
    left ++ newline (level + 1) ++ String.intercalate ("," ++ newline (level + 1)) parts ++
      newline level ++ right

mutual

/-- The written form of a value that starts at a nesting level. -/
def print (level : Nat) : Tree → String
  | null => "null"
  | boolean value => toString value
  | integer value => toString value
  | double value => if value.isFinite then numberStyle.text value else "null"
  | string text => quote text
  | array items => enclose level "[" "]" (printItems (level + 1) items)
  | object members => enclose level "\x7b" "\x7d" (printMembers (level + 1) members)

/-- The written forms of items. -/
def printItems (level : Nat) : List Tree → List String
  | [] => []
  | item :: items => item.print level :: printItems level items

/-- The written forms of members. -/
def printMembers (level : Nat) : List (String × Tree) → List String
  | [] => []
  | (key, value) :: members =>
    (quote key ++ ": " ++ value.print level) :: printMembers level members

end

/-- The written form of a whole value. -/
def write (tree : Tree) : String := tree.print 0

end Tree

end BinaryAst.Json
