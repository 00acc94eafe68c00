import BinaryAst.Proofs.Encode.Program
import BinaryAst.Proofs.Wire.SignedGroups
import BinaryAst.Wire.ReaderStack
/-!
# BinaryAst.Proofs.Encode.Readback

A whole program of writing steps is read back, operation by operation.

Every writing step has operations that read it: one for a primitive, and for a substream
those of its steps between opening it and leaving it. A reader of the bytes of a program that
performs the operations of the program succeeds with each of them, is given what was written,
and comes to the end of every substream and of the bytes.

The bytes of a step come first and those of the program around it later, so what is proved of
a step is about any stack whose top has the bytes of the step next (`ReaderStack.Runs`).
-/

namespace BinaryAst

/-! ### Operations for steps -/

/-- The reader of a payload that is written, as a substream of this description, at an offset. -/
def Write.payloadReader (format : WireFormat) (offset : Nat) (description : String)
    (payload : Bytes) : Reader :=
  ⟨.ofBytes (offset + (Write.string format (some description)).length + 4) payload, format,
    description⟩

@[simp] theorem Write.unread_payloadReader (format : WireFormat) (offset : Nat)
    (description : String) (payload : Bytes) :
    (payloadReader format offset description payload).unread = payload := rfl

namespace WriteStep

open ReaderStack

mutual

/-- The operations that read what a step writes. -/
def reads : WriteStep → List Op
  | .raw bytes => [.bytes bytes.length]
  | .byte _ => [.byte]
  | .uint32 _ => [.uint32]
  | .uint24 _ => [.uint24]
  | .int32 _ => [.int32]
  | .binary64 _ => [.binary64]
  | .lebUnsigned _ | .varUInt32 _ => [.varUInt32]
  | .lebSigned _ => [.varInt32]
  | .index _ => [.index]
  | .string _ => [.string]
  | .substream _ steps => .enter :: (readsAll steps ++ [.leave])
  | .framed _ payload => [.enter, .bytes payload.length, .leave]
  | .header _ _ => [.header]
  | .tagTable tags => .enter :: .uint32 :: (tags.map (fun _ => .string) ++ [.leave])

/-- The operations that read what steps write. -/
def readsAll : List WriteStep → List Op
  | [] => []
  | step :: steps => step.reads ++ readsAll steps

end

mutual

/-- What the operations of a step give where the step stands at an offset, with so many
readers on the stack. -/
def answers (format : WireFormat) (offset height : Nat) : WriteStep → List Answer
  | .raw bytes => [.bytes bytes]
  | .byte value => [.byte value]
  | .uint32 value | .uint24 value | .lebUnsigned value | .varUInt32 value => [.unsigned value]
  | .int32 value | .lebSigned value => [.signed value]
  | .binary64 value => [.double value]
  | .index value => [.index value]
  | .string value => [.string value]
  | .substream description steps =>
    let inner := Write.payloadReader format offset description (bytesAll format steps)
    .entered inner :: (answersAll format inner.offset (height + 1) steps ++ [.left height])
  | .framed description payload =>
    [.entered (Write.payloadReader format offset description payload), .bytes payload,
      .left height]
  | .header tagCount objectCount => [.header ⟨tagCount, objectCount⟩]
  | .tagTable tags =>
    .entered (Write.payloadReader format offset "tags" (Write.tagNames format tags)) ::
      .unsigned tags.length :: (tags.map (fun tag => .string (some tag)) ++ [.left height])

/-- What the operations of steps give. -/
def answersAll (format : WireFormat) (offset height : Nat) : List WriteStep → List Answer
  | [] => []
  | step :: steps => step.answers format offset height ++
      answersAll format (offset + (step.bytes format).length) height steps

end

mutual

/-- A step that writes base-128 groups is read only in a format that has them. -/
def Readable (format : WireFormat) : WriteStep → Prop
  | .lebUnsigned _ | .lebSigned _ => format.varints = true
  | .substream _ steps => AllReadable format steps
  | _ => True

/-- Every step is one that can be read in the format. -/
def AllReadable (format : WireFormat) : List WriteStep → Prop
  | [] => True
  | step :: steps => step.Readable format ∧ AllReadable format steps

end

end WriteStep

/-! ### Runs of a stack -/

namespace ReaderStack

/-- Every reader that is left has come to its end, and the one that is there at last is the
only one and has come to its end, too. -/
def Drains (s : ReaderStack) : List Op → Prop
  | [] => s.below = [] ∧ s.top.remaining = 0
  | op :: ops => (op = .leave → s.top.remaining = 0) ∧ (s.perform op).2.Drains ops

/-- All operations succeed, with these answers, and every reader that is left has come to its
end. -/
inductive Runs : ReaderStack → List Op → List Answer → ReaderStack → Prop
  | nil {s} : Runs s [] [] s
  | cons {s next t : ReaderStack} {op ops answer answers} : s.perform op = (.ok answer, next) →
      (op = .leave → s.top.remaining = 0) → Runs next ops answers t →
      Runs s (op :: ops) (answer :: answers) t

namespace Runs

variable {s next t : ReaderStack} {ops more : List Op} {answers others : List Answer}

theorem append (h : Runs s ops answers next) (hmore : Runs next more others t) :
    Runs s (ops ++ more) (answers ++ others) t := by
  induction h with
  | nil => exact hmore
  | cons hop hleave _ ih => exact .cons hop hleave (ih hmore)

theorem performAll_eq (h : Runs s ops answers t) :
    (s.performAll ops).map (·.1) = answers.map .ok := by
  induction h with
  | nil => rfl
  | cons hop _ _ ih => rw [performAll, List.map_cons, List.map_cons, hop, ih]

theorem drains (h : Runs s ops answers t) (hbelow : t.below = []) (htop : t.top.remaining = 0) :
    s.Drains ops := by
  induction h with
  | nil => exact ⟨hbelow, htop⟩
  | cons hop hleave _ ih => exact ⟨hleave, hop ▸ ih hbelow htop⟩

end Runs

/-- The stack with some bytes less ahead in its top. -/
def skip (s : ReaderStack) (count : Nat) : ReaderStack := { s with top := s.top.skip count }

theorem height_mk (top : Reader) (below : List Reader) :
    height ⟨top, below⟩ = below.length + 1 := rfl

theorem skip_skip (s : ReaderStack) (count more : Nat) :
    (s.skip count).skip more = s.skip (count + more) := by
  rw [skip, skip, skip, Reader.skip_skip]

/-- A single read `Runs` over bytes that spell a value (`Spells`), and answers it. -/
theorem Runs.read {α : Type} {read : Read α} {format : WireFormat} {bytes : Bytes} {v : α}
    {op : Op} {s : ReaderStack} (answer : α → Answer) (hs : s.top.format = format)
    (hspell : Read.Spells format read bytes v) (hp : bytes <+: s.top.unread)
    (hop : s.perform op = s.onTop read answer) (hleave : op ≠ .leave) :
    s.Runs [op] [answer v] (s.skip bytes.length) := by
  refine .cons ?_ (fun h => absurd h hleave) .nil
  rw [hop, onTop, hspell s.top hs hp]
  rfl

/-- A substream is opened, read to its end and left: what `Runs` over its payload runs over the
frame, between `enter` and `leave`. -/
theorem Runs.substream {s : ReaderStack} {format : WireFormat} {description : String}
    {payload : Bytes} {ops : List Op} {answers : List Answer} (hs : s.top.format = format)
    (hname : format.Holds (some description)) (hlength : payload.length < 2 ^ 32)
    (hp : Write.substream format description payload <+: s.top.unread)
    (hbody : ∀ outer, outer.length = s.height → Runs
      ⟨Write.payloadReader format s.top.offset description payload, outer⟩ ops answers
      (skip ⟨Write.payloadReader format s.top.offset description payload, outer⟩
        payload.length)) :
    s.Runs (.enter :: (ops ++ [.leave]))
      (.entered (Write.payloadReader format s.top.offset description payload) ::
        (answers ++ [.left s.height]))
      (s.skip (Write.substream format description payload).length) := by
  have hvalid : (Decode.Section.whole format description payload).frame.Valid format :=
    Decode.Section.valid_whole hname hlength
  rw [← Decode.Section.bytes_whole] at hp ⊢
  have hopen := Read.substream_of_isPrefix (hs ▸ hvalid) hp
  have hreader : (Decode.Section.whole format description payload).frame.reader s.top.format
      s.top.offset = Write.payloadReader format s.top.offset description payload := by
    rw [hs, Frame.reader, Write.payloadReader, Frame.lead, List.length_append, ← Nat.add_assoc]
    rfl
  rw [hreader] at hopen
  have hentered : s.perform .enter =
      (.ok (.entered (Write.payloadReader format s.top.offset description payload)),
        ⟨Write.payloadReader format s.top.offset description payload,
          s.top.skip (Decode.Section.whole format description payload).frame.bytes.length ::
            s.below⟩) := by
    rw [perform, enter, hopen]
  have hinside := hbody (s.top.skip
    (Decode.Section.whole format description payload).frame.bytes.length :: s.below) rfl
  refine .cons hentered (fun h => by cases h) (hinside.append (.cons rfl (fun _ => ?_) .nil))
  -- `leave` answers how much is left of the payload, which is nothing.
  rw [skip, Reader.remaining_eq, Reader.unread_skip, Write.unread_payloadReader, List.drop_length]
  rfl

end ReaderStack

/-! ### Reading back -/

namespace Write

variable {format : WireFormat}

theorem spells_varUInt32_groups (hgroups : format.varints = true) {value : Nat}
    (h : value < 2 ^ 32) : Read.Spells format Read.varUInt32 (lebUnsigned value) value := by
  have hencoding : format.indexEncoding = .leb128 := by simp [WireFormat.indexEncoding, hgroups]
  have hbound : value < format.indexBound := by simpa [WireFormat.indexBound, hencoding] using h
  simpa [varUInt32, hencoding] using spells_varUInt32 hbound

theorem spells_varInt32_groups (hgroups : format.varints = true) (value : Int32) :
    Read.Spells format Read.varInt32 (lebSigned value.toInt) value := by
  have hencoding : format.indexEncoding = .leb128 := by simp [WireFormat.indexEncoding, hgroups]
  intro r hr hp
  rw [Read.varInt32, get_bind_eq, hr, hencoding]
  exact spells_lebSigned value r hr hp

end Write

theorem Read.spells_header {format : WireFormat} {h : Header} (hfits : h.Fits) :
    Read.Spells format Header.read h.bytes h := fun _ _ hp =>
  Read.header_eq_ok_iff.mpr ⟨hfits, hp, by rw [Header.length_bytes]⟩

namespace WriteStep

open ReaderStack

variable {format : WireFormat}

/-- Names that are written one after the other are read back by as many `string` operations. -/
theorem runs_names {tags : List String} (htags : ∀ tag ∈ tags, format.Holds (some tag))
    {s : ReaderStack} (hs : s.top.format = format)
    (hp : (tags.flatMap fun tag => Write.string format (some tag)) <+: s.top.unread) :
    s.Runs (tags.map fun _ => .string) (tags.map fun tag => .string (some tag))
      (s.skip (tags.flatMap fun tag => Write.string format (some tag)).length) := by
  induction tags generalizing s with
  | nil => exact .nil
  | cons tag tags ih =>
      obtain ⟨htag, hrest⟩ := List.forall_mem_cons.mp htags
      rw [List.flatMap_cons] at hp ⊢
      obtain ⟨hfirst, hlater⟩ := Decode.State.prefix_append_iff.mp hp
      have hname : s.Runs [.string] [.string (some tag)]
          (s.skip (Write.string format (some tag)).length) :=
        .read .string hs (Write.spells_string htag) hfirst rfl nofun
      rw [List.length_append, ← skip_skip]
      exact hname.append (ih hrest hs hlater)

/-- The payload of a tag table, `tagNames`, is read back by a `uint32` and as many `string`
operations as it says. -/
theorem runs_tagNames {tags : List String} (hcount : tags.length < 2 ^ 32)
    (htags : ∀ tag ∈ tags, format.Holds (some tag)) {s : ReaderStack} (hs : s.top.format = format)
    (hp : Write.tagNames format tags <+: s.top.unread) :
    s.Runs (.uint32 :: tags.map fun _ => .string)
      (.unsigned tags.length :: tags.map fun tag => .string (some tag))
      (s.skip (Write.tagNames format tags).length) := by
  obtain ⟨hfirst, hlater⟩ := Decode.State.prefix_append_iff.mp hp
  have hcounted : s.Runs [.uint32] [.unsigned tags.length]
      (s.skip (Write.uint32 tags.length).length) :=
    .read .unsigned hs (Write.spells_uint32 hcount) hfirst rfl nofun
  rw [Write.tagNames, List.length_append, ← skip_skip]
  exact hcounted.append (runs_names htags hs hlater)

mutual

/-- The operations of a step (`reads`) read its bytes back wherever these come next, and answer as
`answers` says. -/
theorem runs : ∀ (step : WriteStep) {s : ReaderStack}, step.Fits format → step.Readable format →
    s.top.format = format → step.bytes format <+: s.top.unread →
      s.Runs step.reads (step.answers format s.top.offset s.height)
        (s.skip (step.bytes format).length)
  | .raw bytes, _, _, _, hs, hp =>
      .read .bytes hs (Read.spells_ofCursor (Cursor.takes_take bytes)) hp rfl nofun
  | .byte value, _, _, _, hs, hp => .read .byte hs (Write.spells_byte value) hp rfl nofun
  | .uint32 _, _, hfit, _, hs, hp => .read .unsigned hs (Write.spells_uint32 hfit) hp rfl nofun
  | .uint24 _, _, hfit, _, hs, hp => .read .unsigned hs (Write.spells_unsigned hfit) hp rfl nofun
  | .int32 value, _, _, _, hs, hp => .read .signed hs (Write.spells_int32 value) hp rfl nofun
  | .binary64 value, _, _, _, hs, hp => .read .double hs (Write.spells_binary64 value) hp rfl nofun
  | .lebUnsigned _, _, hfit, hgroups, hs, hp =>
      .read .unsigned hs (Write.spells_varUInt32_groups hgroups hfit) hp rfl nofun
  | .lebSigned value, _, _, hgroups, hs, hp =>
      .read .signed hs (Write.spells_varInt32_groups hgroups value) hp rfl nofun
  | .varUInt32 _, _, hfit, _, hs, hp =>
      .read .unsigned hs (Write.spells_varUInt32 hfit) hp rfl nofun
  | .index _, _, hfit, _, hs, hp => .read .index hs (Write.spells_index hfit) hp rfl nofun
  | .string _, _, hfit, _, hs, hp => .read .string hs (Write.spells_string hfit) hp rfl nofun
  -- The one step with steps inside: its payload is a program, read from a reader of its own.
  | .substream description steps, s, hfit, hreadable, hs, hp =>
      Runs.substream hs hfit.1 hfit.2.2 hp fun outer houter => by
        have hsteps := runsAll steps (s := ⟨Write.payloadReader format s.top.offset description
          (bytesAll format steps), outer⟩) hfit.2.1 hreadable rfl List.prefix_rfl
        rwa [height_mk, houter] at hsteps
  | .framed description payload, s, hfit, _, hs, hp => by
      have hbody : ∀ outer,
          Runs ⟨Write.payloadReader format s.top.offset description payload, outer⟩
            [.bytes payload.length] [.bytes payload]
            (skip ⟨Write.payloadReader format s.top.offset description payload, outer⟩
              payload.length) := fun _ =>
        .read .bytes rfl (Read.spells_ofCursor (Cursor.takes_take payload)) List.prefix_rfl rfl
          nofun
      exact Runs.substream hs hfit.1 hfit.2 hp fun outer _ => hbody outer
  | .header _ _, _, hfit, _, hs, hp =>
      .read .header hs (Read.spells_header (h := ⟨_, _⟩) ⟨hfit.1, hfit.2⟩) hp rfl nofun
  | .tagTable tags, _, hfit, _, hs, hp =>
      Runs.substream hs (WireFormat.holds_tags format) hfit.2.2 hp fun _ _ =>
        runs_tagNames hfit.1 hfit.2.1 rfl List.prefix_rfl

/-- `readsAll` reads the bytes of a program back, one step after the other. -/
theorem runsAll : ∀ (steps : List WriteStep) {s : ReaderStack}, AllFit format steps →
    AllReadable format steps → s.top.format = format → bytesAll format steps <+: s.top.unread →
      s.Runs (readsAll steps) (answersAll format s.top.offset s.height steps)
        (s.skip (bytesAll format steps).length)
  | [], _, _, _, _, _ => .nil
  | step :: steps, s, hfit, hreadable, hs, hp => by
      obtain ⟨hfirst, hlater⟩ := Decode.State.prefix_append_iff.mp hp
      have hstep := runs step hfit.1 hreadable.1 hs hfirst
      have hsteps := runsAll steps (s := s.skip (step.bytes format).length) hfit.2 hreadable.2 hs
        hlater
      have hoffset : (s.skip (step.bytes format).length).top.offset =
          s.top.offset + (step.bytes format).length := Reader.offset_skip _ _
      rw [hoffset] at hsteps
      rw [bytesAll, List.length_append, ← skip_skip]
      exact hstep.append hsteps

end

/-- What is written is read back, over whole programs and in every format. Where every step fits the
format (`AllFit`) and can be read in it (`AllReadable`), `performAll` of `readsAll` on the bytes
succeeds with each operation and answers just what was written. Each substream has come to its end
where it is left, and so have the bytes in the end. -/
theorem performAll_reads {format : WireFormat} {steps : List WriteStep}
    (hfit : AllFit format steps) (hreadable : AllReadable format steps) (description : String) :
    let start := ofReader (.ofBytes format description (bytesAll format steps))
    (start.performAll (readsAll steps)).map (·.1) = (answersAll format 0 1 steps).map .ok ∧
      start.Drains (readsAll steps) := by
  have hruns := runsAll steps (s := ofReader (.ofBytes format description (bytesAll format steps)))
    hfit hreadable rfl List.prefix_rfl
  refine ⟨hruns.performAll_eq, hruns.drains rfl ?_⟩
  rw [skip, Reader.remaining_eq, Reader.unread_skip]
  exact congrArg List.length List.drop_length

/-- A program with a null beside index zero, the null string beside the empty one, numbers of
two groups, and a substream in a substream. -/
def nestedProgram : List WriteStep :=
  [.lebSigned (-65), .index none, .index (some 0), .string none, .string (some ""),
    .substream "a" [.substream "b" [.lebUnsigned 300], .uint24 7]]

/-- Base-128 groups, and strings that end at a zero byte. -/
def nestedFormat : WireFormat := { varints := true, nullTerminatedStrings := true }

/-- `nestedProgram` is read back step by step, through both substreams and out of them again. -/
theorem performAll_reads_nestedProgram :
    let start := ofReader (.ofBytes nestedFormat "test" (bytesAll nestedFormat nestedProgram))
    AllFit nestedFormat nestedProgram ∧ AllReadable nestedFormat nestedProgram ∧
      answersAll nestedFormat 0 1 nestedProgram =
        [.signed (-65), .index none, .index (some 0), .string none, .string (some ""),
          .entered
            ⟨.ofBytes 12 [98, 0, 2, 0, 0, 0, 172, 2, 2, 0, 0, 0, 7, 0, 0], nestedFormat, "a"⟩,
          .entered ⟨.ofBytes 18 [172, 2], nestedFormat, "b"⟩, .unsigned 300, .left 2, .unsigned 7,
          .left 1] ∧
      (start.performAll (readsAll nestedProgram)).map (·.1) =
        (answersAll nestedFormat 0 1 nestedProgram).map .ok ∧
      start.Drains (readsAll nestedProgram) := by
  have hfit : AllFit nestedFormat nestedProgram := by decide +kernel
  have hreadable : AllReadable nestedFormat nestedProgram :=
    ⟨rfl, trivial, trivial, trivial, trivial, ⟨⟨rfl, trivial⟩, trivial, trivial⟩, trivial⟩
  exact ⟨hfit, hreadable, by decide +kernel, performAll_reads hfit hreadable "test"⟩

end WriteStep

end BinaryAst
