/-!
# BinaryAst.Decode.Event

What an observer of a decode is told, in the order in which it happens.
-/

namespace BinaryAst

/-- One step of a decode that is worth telling. Streams are given by their
descriptions. -/
inductive Event
  /-- A substream was opened. -/
  | stream (description : String) (offset length : Nat)
  /-- A type tag was read. -/
  | tag (stream tag : String)
  /-- A field is about to be read; `redirected` when from another stream than the
  object around it. -/
  | field (shape field stream : String) (redirected : Bool)
  /-- An inline object is about to be read. -/
  | inline (shape stream : String)
  /-- A slot of the object table was filled. -/
  | slot (index : Nat) (shape : String)
  deriving DecidableEq, Repr

end BinaryAst
