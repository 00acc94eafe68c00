import BinaryAst.Proofs.Wire.Primitives
/-!
# BinaryAst.Proofs.Wire.Frame

A substream as it stands in the bytes around it.

A `Frame` cuts a substream into its four parts. It is valid in a format when the
parts fit each other, and then `Read.substream` succeeds where the bytes of the frame
come next, and nowhere else (`substream_eq_ok_iff`). What the payload is made of plays
no part.
-/

namespace BinaryAst

/-- A framed substream, cut into its parts. -/
structure Frame where
  /-- The description, as it is spelled. -/
  name : Bytes
  /-- The length before the payload. -/
  before : Bytes
  payload : Bytes
  /-- The length behind the payload. -/
  after : Bytes
  /-- The description that `name` stands for. -/
  description : String

namespace Frame

/-- What stands before the payload. -/
def lead (f : Frame) : Bytes := f.name ++ f.before

/-- The whole frame. -/
def bytes (f : Frame) : Bytes := f.lead ++ (f.payload ++ f.after)

/-- The parts of a frame fit each other: the name spells the description, and both lengths are that
of the payload. -/
structure Valid (format : WireFormat) (f : Frame) : Prop where
  name : ∃ text : Option String, Read.Spells format Read.string f.name text ∧
    text.getD Read.unnamed = f.description
  before : Read.Spells format Read.uint32 f.before f.payload.length
  after : Read.Spells format Read.uint32 f.after f.payload.length

/-- The reader of the payload of a frame that stands at an offset. -/
def reader (f : Frame) (format : WireFormat) (offset : Nat) : Reader :=
  ⟨.ofBytes (offset + f.lead.length) f.payload, format, f.description⟩

variable {format : WireFormat} {f : Frame}

@[simp] theorem description_reader (offset : Nat) :
    (f.reader format offset).description = f.description := rfl

@[simp] theorem format_reader (offset : Nat) : (f.reader format offset).format = format := rfl

@[simp] theorem unread_reader (offset : Nat) : (f.reader format offset).unread = f.payload := rfl

@[simp] theorem base_reader (offset : Nat) :
    (f.reader format offset).base = offset + f.lead.length := rfl

@[simp] theorem consumed_reader (offset : Nat) : (f.reader format offset).consumed = 0 := rfl

@[simp] theorem length_reader (offset : Nat) :
    (f.reader format offset).length = f.payload.length := by
  simp [Reader.length_eq]

/-- The length behind the payload takes four bytes in every format. -/
theorem Valid.length_after (hf : f.Valid format) : f.after.length = 4 :=
  (Read.spells_unsigned_iff.mp hf.after).1

theorem length_bytes : f.bytes.length = f.lead.length + f.payload.length + f.after.length := by
  simp [bytes, Nat.add_assoc]

end Frame

namespace Read

variable {format : WireFormat} {f : Frame} {r r' inner : Reader}

/-- A substream behind its description and its first length. -/
def framed (description : String) (header : Nat) : Read Reader := do
  let base := (← get).offset
  let payload ← bytes header
  let footer ← uint32
  if footer = header then
    pure ⟨.ofBytes base payload, (← get).format, description⟩
  else
    throw (.framingMismatch description header footer)

theorem substream_eq :
    substream = string >>= fun text => uint32 >>= framed (text.getD unnamed) := rfl

/-- Where payload and second length of a valid frame are ahead, `framed` gives the reader of the
payload. -/
theorem framed_of_isPrefix (hf : f.Valid r.format) (hp : f.payload ++ f.after <+: r.unread) :
    framed f.description f.payload.length r =
      .ok ⟨.ofBytes r.offset f.payload, r.format, f.description⟩
        (r.skip (f.payload ++ f.after).length) := by
  obtain ⟨rest, hrest⟩ := hp
  rw [List.append_assoc] at hrest
  have hafter : f.after <+: (r.skip f.payload.length).unread := by
    rw [Reader.unread_skip, ← hrest, List.drop_left]
    exact List.prefix_append f.after rest
  rw [framed, get_bind_eq, bind_of_ok (bytes_of_isPrefix ⟨_, hrest⟩),
    bind_of_ok (hf.after (r.skip f.payload.length) rfl hafter), if_pos rfl, get_bind_eq,
    Reader.skip_skip, List.length_append]
  rfl

/-- Where a valid frame is ahead, `substream` gives the reader of its payload and moves on behind
it. -/
theorem substream_of_isPrefix (hf : f.Valid r.format) (hp : f.bytes <+: r.unread) :
    substream r = .ok (f.reader r.format r.offset) (r.skip f.bytes.length) := by
  obtain ⟨text, hname, htext⟩ := hf.name
  obtain ⟨rest, hrest⟩ := hp
  rw [Frame.bytes, Frame.lead, List.append_assoc, List.append_assoc] at hrest
  have hbefore : f.before <+: (r.skip f.name.length).unread := by
    rw [Reader.unread_skip, ← hrest, List.drop_left]
    exact List.prefix_append f.before _
  have hpayload : f.payload ++ f.after <+:
      ((r.skip f.name.length).skip f.before.length).unread := by
    rw [Reader.unread_skip, Reader.unread_skip, ← hrest, List.drop_left, List.drop_left]
    exact List.prefix_append _ rest
  rw [substream_eq, bind_of_ok (hname r rfl ⟨_, hrest⟩),
    bind_of_ok (hf.before (r.skip f.name.length) rfl hbefore), htext,
    framed_of_isPrefix (by exact hf) hpayload, Reader.skip_skip, Reader.skip_skip]
  simp [Frame.reader, Frame.bytes, Frame.lead, Nat.add_assoc]

/-- Whatever `framed` gives, a payload of the first length and a second length equal to it were
ahead. -/
theorem frame_of_framed {description : String} {header : Nat}
    (h : framed description header r = .ok inner r') :
    ∃ payload after, payload.length = header ∧ Spells r.format uint32 after header ∧
      payload ++ after <+: r.unread ∧ inner = ⟨.ofBytes r.offset payload, r.format, description⟩ ∧
      r' = r.skip (payload ++ after).length := by
  rw [framed, get_bind_eq] at h
  obtain ⟨payload, s, hpayload, h⟩ := bind_eq_ok_iff.mp h
  obtain ⟨⟨rest, hrest⟩, rfl, rfl⟩ := bytes_eq_ok_iff.mp hpayload
  obtain ⟨footer, t, hfooter, h⟩ := bind_eq_ok_iff.mp h
  obtain ⟨after, ⟨tail, htail⟩, rfl, hs, -⟩ := exact_uint32 _ _ _ hfooter
  split at h
  case isTrue heq =>
    subst heq
    rw [get_bind_eq] at h
    obtain ⟨rfl, rfl⟩ := pure_eq_ok_iff.mp h
    rw [Reader.unread_skip, ← hrest, List.drop_left] at htail
    refine ⟨payload, after, rfl, hs, ⟨tail, ?_⟩, rfl, ?_⟩
    · rw [← hrest, List.append_assoc, htail]
    · rw [Reader.skip_skip, List.length_append]
  case isFalse => exact absurd h throw_ne_ok

/-- `substream` succeeds exactly where the bytes of a valid frame come next. -/
theorem substream_eq_ok_iff :
    substream r = .ok inner r' ↔ ∃ f : Frame, f.Valid r.format ∧ f.bytes <+: r.unread ∧
      inner = f.reader r.format r.offset ∧ r' = r.skip f.bytes.length := by
  constructor
  · intro h
    rw [substream_eq] at h
    obtain ⟨text, s, hname, h⟩ := bind_eq_ok_iff.mp h
    obtain ⟨name, ⟨rest, hrest⟩, rfl, hsname, -⟩ := exact_string _ _ _ hname
    obtain ⟨header, t, hheader, h⟩ := bind_eq_ok_iff.mp h
    obtain ⟨before, ⟨tail, htail⟩, rfl, hsbefore, -⟩ := exact_uint32 _ _ _ hheader
    obtain ⟨payload, after, rfl, hsafter, ⟨last, hlast⟩, rfl, rfl⟩ := frame_of_framed h
    rw [Reader.unread_skip, ← hrest, List.drop_left] at htail
    rw [Reader.unread_skip, Reader.unread_skip, ← hrest, List.drop_left, ← htail,
      List.drop_left] at hlast
    refine ⟨⟨name, before, payload, after, text.getD unnamed⟩,
      ⟨⟨text, hsname, rfl⟩, hsbefore, hsafter⟩, ⟨last, ?_⟩, ?_, ?_⟩
    · simp only [Frame.bytes, Frame.lead]
      rw [← hrest, ← htail, ← hlast]
      simp
    · simp [Frame.reader, Frame.lead, Nat.add_assoc]
    · simp only [Reader.skip_skip, Frame.bytes, Frame.lead, List.length_append]
  · intro h
    rcases h with ⟨f, hf, hp, rfl, rfl⟩
    exact substream_of_isPrefix hf hp

/-- A read that looks at its reader `Starves` where it would starve from any reader. -/
theorem Starves.of_get {α : Type} {x : Reader → Read α} {bytes : Bytes}
    (h : ∀ r, Starves format (x r) bytes) : Starves format (get >>= x) bytes :=
  fun r hr hp hlt => h r r hr hp hlt

/-- Behind the first length, `framed` is cut short in the payload or in the second length. -/
theorem starves_framed (hf : f.Valid format) (description : String) :
    Starves format (framed description f.payload.length) (f.payload ++ f.after) := by
  have hbytes := Cursor.takes_take f.payload
  refine .of_get fun r => Starves.bind (spells_ofCursor hbytes) (starves_ofCursor hbytes) ?_
  rw [← List.append_nil f.after]
  exact Starves.bind hf.after (exact_uint32.starves hf.after) (.nil _)

/-- `substream` is cut short where the frame is, and reports so. -/
theorem starves_substream (hf : f.Valid format) : Starves format substream f.bytes := by
  obtain ⟨text, hname, -⟩ := hf.name
  rw [substream_eq, Frame.bytes, Frame.lead, List.append_assoc]
  exact Starves.bind hname (exact_string.starves hname)
    (Starves.bind hf.before (exact_uint32.starves hf.before) (starves_framed hf _))

end Read

end BinaryAst
