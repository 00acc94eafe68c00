import BinaryAst.Json.Token
/-!
# BinaryAst.Json.Parse

Reading typed values from the tokens of a JSON text.

A reader goes through the tokens once, from the left, and stops at the first
problem. So a wrong type early in the text is reported even when the text breaks
off later, and an unknown member is reported before its value is looked at.
-/

namespace BinaryAst.Json

/-- A reader that takes tokens from the front. -/
abbrev Parse := StateT (List Token) (Except Fault)

namespace Parse

/-- What is wrong when the next value is not of the kind asked for. A scalar has
to be well formed to be of the wrong kind. -/
def mismatch : List Token → Fault
  | [] => .truncated
  | .openArray :: _ | .openObject :: _ | .null :: _ | .boolean _ :: _ => .unexpected
  | .string (.ok _) _ :: _ | .number (.ok _) _ :: _ => .unexpected
  | .string (.error fault) _ :: _ | .number (.error fault) _ :: _ => fault
  | .broken fault :: _ => fault
  | .closeArray :: _ | .closeObject :: _ | .comma :: _ | .colon :: _ | .stray :: _ => .malformed

/-- What is wrong when the next token is not the punctuation asked for. -/
def misplaced : List Token → Fault
  | [] => .truncated
  | _ => .malformed

/-! ### Scalars -/

/-- A truth value. -/
def boolean : Parse Bool
  | .boolean value :: rest => .ok (value, rest)
  | tokens => .error (mismatch tokens)

/-- A text. -/
def text : Parse String
  | .string (.ok value) _ :: rest => .ok (value, rest)
  | tokens => .error (mismatch tokens)

/-- A text, or `null` for none. -/
def optionalText : Parse (Option String)
  | .null :: rest => .ok (none, rest)
  | tokens => (some <$> text) tokens

/-! ### Arrays -/

/-- Whether an item comes next in an array; `first` says that none came before.
The comma in front of the item is taken. -/
def hasItem (first : Bool) : Parse Bool
  | [] => .error .truncated
  | .closeArray :: rest => .ok (false, .closeArray :: rest)
  | tokens =>
    if first then .ok (true, tokens)
    else
      match tokens with
      | [.comma] => .error .truncated
      -- A comma before the end is refused here, so that no item is asked for there.
      | .comma :: .closeArray :: _ => .error .malformed
      | .comma :: rest => .ok (true, rest)
      | _ => .error .malformed

/-- The end of an array. -/
def endArray : Parse Unit
  | .closeArray :: rest => .ok ((), rest)
  | tokens => .error (misplaced tokens)

/-- The items of an array up to its end; `done` is reversed. Each round takes a
token, so `rounds` need not be more than there are tokens. -/
def items {α : Type} (item : Parse α) : (rounds : Nat) → (done : List α) → Parse (List α)
  | 0, _ => throw .malformed
  | rounds + 1, done => do
    -- Nothing was collected yet exactly when the next item is the first.
    if ← hasItem done.isEmpty then
      items item rounds ((← item) :: done)
    else
      endArray
      pure done.reverse

/-- An array of items of one kind. -/
def array {α : Type} (item : Parse α) : Parse (List α)
  | .openArray :: rest => items item (rest.length + 1) [] rest
  | tokens => .error (mismatch tokens)

/-! ### Objects -/

/-- The text of a key. -/
def key : Parse String
  | .string (.ok name) _ :: rest => .ok (name, rest)
  | .string (.error fault) _ :: _ => .error fault
  | tokens => .error (misplaced tokens)

/-- The key of the next member of an object, if one comes; `first` says that none
came before. -/
def nextKey (first : Bool) : Parse (Option String)
  | [] => .error .truncated
  | .closeObject :: rest => .ok (none, .closeObject :: rest)
  | tokens =>
    if first then (some <$> key) tokens
    else
      match tokens with
      | .comma :: rest => (some <$> key) rest
      | _ => .error .malformed

/-- The colon between a key and its value. -/
def colon : Parse Unit
  | .colon :: rest => .ok ((), rest)
  | tokens => .error (misplaced tokens)

/-- The end of an object. -/
def endObject : Parse Unit
  | .closeObject :: rest => .ok ((), rest)
  | tokens => .error (misplaced tokens)

/-- The members of an object up to its end. `member` takes up a member from behind
its key, colon included. Each round takes a token, so `rounds` need not be more
than there are tokens. -/
def members {σ : Type} (member : σ → String → Parse σ) :
    (rounds : Nat) → (first : Bool) → (state : σ) → Parse σ
  | 0, _, _ => throw .malformed
  | rounds + 1, first, state => do
    match ← nextKey first with
    | some name => members member rounds false (← member state name)
    | none => pure state

/-- A value with named members, written as an object or as the array of its
members in order. -/
def record {α σ : Type} (inOrder : Parse α) (member : σ → String → Parse σ) (start : σ)
    (finish : σ → Parse α) : Parse α
  | .openArray :: rest =>
    (do
      let value ← inOrder
      endArray
      pure value : Parse α) rest
  | .openObject :: rest =>
    (do
      let state ← members member (rest.length + 1) true start
      let value ← finish state
      endObject
      pure value : Parse α) rest
  | tokens => .error (mismatch tokens)

/-- Takes up the value of a member that must not have come before. -/
def once {α : Type} (before : Option α) (value : Parse α) : Parse (Option α) := do
  if before.isSome then
    throw .unexpected
  else
    colon
    some <$> value

/-- The value of a member that has to have come. -/
def required {α : Type} : Option α → Parse α
  | some value => pure value
  | none => throw .unexpected

/-- The next item of an array that stands for a record; it has to come. -/
def requiredItem {α : Type} (first : Bool) (item : Parse α) : Parse α := do
  if ← hasItem first then item else throw .unexpected

/-! ### Passing over values

A value that is passed over is followed token by token, with the brackets that
are open and the place inside them as the only memory. -/

/-- How much is asked of a value that is passed over. -/
inductive Care
  /-- It is kept: its strings and numbers have to be readable, and it may nest only
  so many levels. -/
  | kept (levels : Nat)
  /-- It is dropped: it only has to have an end. -/
  | dropped
  deriving Repr

/-- A bracket that is open. -/
inductive Bracket
  | array
  | object
  deriving DecidableEq, Repr

/-- What may come next. -/
inductive Place
  | value
  | itemOrEnd
  | keyOrEnd
  | key
  | colon
  | commaOrEnd
  deriving DecidableEq, Repr

/-- The place inside a value, with the open brackets, innermost first; `none` once
the value has ended. -/
abbrev Progress := Option (Place × List Bracket)

/-- Where the end of a value leads. -/
def Progress.afterValue : List Bracket → Progress
  | [] => none
  | openBrackets => some (.commaOrEnd, openBrackets)

namespace Care

/-- The outcome of a string or number under this care. -/
def accept {α : Type} (care : Care) (read : Except Fault α) (passed : Except Fault Unit) :
    Except Fault Unit :=
  match care with
  | .kept _ => read.map fun _ => ()
  | .dropped => passed

/-- Whether one more bracket may open inside those that are open. -/
def allows (care : Care) (openBrackets : List Bracket) : Bool :=
  match care with
  | .kept levels => openBrackets.length < levels
  | .dropped => true

/-- The first token of a value. -/
def startValue (care : Care) (openBrackets : List Bracket) : Token → Except Fault Progress
  | .openArray =>
    if care.allows openBrackets then .ok (some (.itemOrEnd, .array :: openBrackets))
    else .error .malformed
  | .openObject =>
    if care.allows openBrackets then .ok (some (.keyOrEnd, .object :: openBrackets))
    else .error .malformed
  | .string read passed => do
    care.accept read passed
    pure (.afterValue openBrackets)
  | .number read passed => do
    care.accept read passed
    pure (.afterValue openBrackets)
  | .null | .boolean _ => .ok (.afterValue openBrackets)
  | .broken fault => .error fault
  | _ => .error .malformed

/-- The key of a member. -/
def startMember (care : Care) (openBrackets : List Bracket) : Token → Except Fault Progress
  | .string read passed => do
    care.accept read passed
    pure (some (.colon, openBrackets))
  | _ => .error .malformed

/-- One token further. -/
def step (care : Care) (openBrackets : List Bracket) :
    Place → Token → Except Fault Progress
  | .itemOrEnd, .closeArray => .ok (.afterValue openBrackets.tail)
  | .keyOrEnd, .closeObject => .ok (.afterValue openBrackets.tail)
  | .value, token | .itemOrEnd, token => care.startValue openBrackets token
  | .key, token | .keyOrEnd, token => care.startMember openBrackets token
  | .colon, .colon => .ok (some (.value, openBrackets))
  | .commaOrEnd, token =>
    match openBrackets.head?, token with
    | some .array, .comma => .ok (some (.value, openBrackets))
    | some .object, .comma => .ok (some (.key, openBrackets))
    | some .array, .closeArray | some .object, .closeObject =>
      .ok (.afterValue openBrackets.tail)
    | _, _ => .error .malformed
  | .colon, _ => .error .malformed

/-- What follows the value that is under way. -/
def finish (care : Care) : Progress → List Token → Except Fault (List Token)
  | none, tokens => .ok tokens
  | some _, [] => .error .truncated
  | some (place, openBrackets), token :: rest =>
    match care.step openBrackets place token with
    | .ok progress => care.finish progress rest
    | .error fault => .error fault

end Care

/-- Passes over a value. -/
def pass (care : Care) : Parse Unit := fun tokens =>
  (care.finish (some (.value, [])) tokens).map fun rest => ((), rest)

/-- Passes over a member from behind its key. -/
def passMember : Parse Unit := do
  colon
  pass .dropped

/-! ### Whole texts -/

/-- Reads a text that holds one value and nothing else. -/
def run {α : Type} (value : Parse α) (text : String) : Except Fault α :=
  match value (Token.ofText text) with
  | .ok (result, []) => .ok result
  | .ok (_, _ :: _) => .error .malformed
  | .error fault => .error fault

end Parse

end BinaryAst.Json
