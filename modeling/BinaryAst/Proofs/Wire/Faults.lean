import BinaryAst.Proofs.Wire.Reports
/-!
# BinaryAst.Proofs.Wire.Faults

Which errors end which reads.

The causes of failure fall in three: those that a value can fail for (`OfValue`), those that
only a container as a whole fails for (`OfContainer`), and those that no container is to blame
for. A read of a primitive fails for want of bytes, or because the bytes spell nothing
(`OfPrimitive`). It never changes the description of its reader, so whatever it is told of, it
is told of the stream that was opened.
-/

namespace BinaryAst

namespace DecodeError

/-- The errors that a primitive read can fail with. -/
def OfPrimitive : DecodeError → Prop
  | truncated _ _ _ _ | varintOverflow _ _ | invalidUtf8 _ _ _ => True
  | _ => False

/-- The errors that a value can fail to be decoded with. -/
def OfValue : DecodeError → Prop
  | truncated _ _ _ _ | varintOverflow _ _ | invalidUtf8 _ _ _ | invalidTagIndex _ _
  | unknownShape _ | nestedAny | invalidObjectIndex _ _ | missingValueStream _
  | depthExceeded _ | arrayTooLarge _ _ => True
  | _ => False

/-- The errors that only a container as a whole can fail to be decoded with. -/
def OfContainer : DecodeError → Prop
  | badMagic _ | framingMismatch _ _ _ | nullTagName _ | objectCountMismatch _ _
  | tooManyObjects _ _ | nullRoot | trailingBytes _ _ => True
  | _ => False

/-- No container is to blame for this: a table that is not there, or is there twice, or has an
empty slot; or something that goes wrong before there is a container. -/
def OfProgram : DecodeError → Prop
  | uninitializedSlot _ | objectTableMissing | objectTableAlreadyAllocated | unknownFlag _
  | duplicateShape _ | invalidJson _ | file _ => True
  | _ => False

/-- A section as a whole can fail to be decoded for this. -/
def OfSection : DecodeError → Prop
  | objectCountMismatch _ _ | nullRoot => True
  | _ => False

/-- The stream that the error tells of. -/
def stream? : DecodeError → Option String
  | truncated stream _ _ _ | varintOverflow stream _ | invalidUtf8 stream _ _
  | framingMismatch stream _ _ | trailingBytes stream _ => some stream
  | _ => none

/-- The error can end the decoding of a value, which may be that of a field. -/
def EndsValue (e : DecodeError) : Prop := e.cause.OfValue

/-- The error can end the decoding of a value that is read from streams of these names. -/
structure EndsValueIn (names : List String) (e : DecodeError) : Prop where
  endsValue : e.EndsValue
  stream : ∀ name, e.cause.stream? = some name → name ∈ names

/-- The error can end the decoding of a section that is read from streams of these names. -/
def EndsSectionIn (names : List String) (e : DecodeError) : Prop :=
  e.EndsValueIn names ∨ e.OfSection

/-- The error can end the decoding of a container. -/
def EndsDecoding (e : DecodeError) : Prop := e.EndsValue ∨ e.OfContainer

/-- What a primitive fails for (`OfPrimitive`), a value can fail for (`EndsValue`). -/
theorem OfPrimitive.endsValue {e : DecodeError} (h : e.OfPrimitive) : e.EndsValue := by
  cases e <;> trivial

/-- An error `OfPrimitive` has no `path`: it is put down to no field, as long as it is that of the
read alone. -/
theorem OfPrimitive.path_eq_nil {e : DecodeError} (h : e.OfPrimitive) : e.path = [] := by
  cases e <;> first | rfl | cases h

/-- An error `OfContainer` has no `path`: nothing is put down to a field but what a value fails for.
-/
theorem OfContainer.path_eq_nil {e : DecodeError} (h : e.OfContainer) : e.path = [] := by
  cases e <;> first | rfl | cases h

/-- The errors that opening the streams of a container can fail with. -/
def OfLayout (e : DecodeError) : Prop := e.OfPrimitive ∨ e.OfContainer

/-- What opening the streams fails for (`OfLayout`), decoding can end with. -/
theorem OfLayout.endsDecoding {e : DecodeError} (h : e.OfLayout) : e.EndsDecoding :=
  h.imp OfPrimitive.endsValue id

theorem OfLayout.path_eq_nil {e : DecodeError} (h : e.OfLayout) : e.path = [] :=
  h.elim OfPrimitive.path_eq_nil OfContainer.path_eq_nil

theorem OfSection.ofContainer {e : DecodeError} (h : e.OfSection) : e.OfContainer := by
  cases e <;> trivial

theorem EndsSectionIn.endsDecoding {names : List String} {e : DecodeError}
    (h : e.EndsSectionIn names) : e.EndsDecoding :=
  h.imp EndsValueIn.endsValue OfSection.ofContainer

/-- An error `OfContainer` is its own `cause`: it is wrapped into no field. -/
theorem OfContainer.cause_eq {e : DecodeError} (h : e.OfContainer) : e.cause = e := by
  cases e <;> first | rfl | cases h

/-- The three kinds of causes exclude each other; here, `OfValue` and `OfProgram`. -/
theorem OfValue.not_ofProgram {e : DecodeError} (h : e.OfValue) : ¬e.OfProgram := by
  cases e <;> first | exact id | cases h

/-- Of the three kinds of causes, `OfContainer` and `OfProgram` exclude each other. -/
theorem OfContainer.not_ofProgram {e : DecodeError} (h : e.OfContainer) : ¬e.OfProgram := by
  cases e <;> first | exact id | cases h

/-- Of the three kinds of causes, `OfContainer` and `OfValue` exclude each other. -/
theorem OfContainer.not_ofValue {e : DecodeError} (h : e.OfContainer) : ¬e.OfValue := by
  cases e <;> first | exact id | cases h

end DecodeError

/-- What is reported by `Report` is an error of a primitive. -/
theorem Report.ofPrimitive {text : Prop} {start : Nat} {r : Reader} {e : DecodeError}
    (h : Report text start r e) : e.OfPrimitive := by
  cases h <;> trivial

/-- A `Report` names the stream of the reader, so with that stream among `names` it is an error of
`EndsValueIn names`. -/
theorem Report.endsValueIn {text : Prop} {start : Nat} {r : Reader} {e : DecodeError}
    {names : List String} (h : Report text start r e) (hr : r.description ∈ names) :
    e.EndsValueIn names := by
  refine ⟨h.ofPrimitive.endsValue, fun name hname => ?_⟩
  cases h <;> exact Option.some.inj hname ▸ hr

namespace Read

variable {α β : Type} {fault : DecodeError → Prop}

/-- The read fails with errors of `fault` only, and leaves the description of its reader as it is,
whether it fails or not. -/
def Faults (fault : DecodeError → Prop) (read : Read α) : Prop :=
  ∀ description, Triple (·.description = description) read
    (fun _ r => r.description = description) fun e _ => fault e

namespace Faults

theorem pure (v : α) : Faults fault (Pure.pure v : Read α) := fun _ => .pure fun _ h => h

theorem throw {e : DecodeError} (h : fault e) : Faults fault (throw e : Read α) := fun _ =>
  .throw fun _ _ => h

/-- `Faults` goes through a sequence of reads. -/
theorem bind {x : Read α} {f : α → Read β} (hx : Faults fault x) (hf : ∀ v, Faults fault (f v)) :
    Faults fault (x >>= f) := fun description => (hx description).bind fun v => hf v description

/-- A look at the reader cannot fail. -/
theorem get_bind {f : Reader → Read α} (h : ∀ r, Faults fault (f r)) :
    Faults fault (get >>= f) := fun description =>
  .get_bind fun r => (h r description).mono (fun _ hs => hs.1) (fun _ _ hr => hr) fun _ _ he => he

/-- The errors may be more. -/
theorem mono {other : DecodeError → Prop} {x : Read α} (hx : Faults fault x)
    (h : ∀ e, fault e → other e) : Faults other x := fun description =>
  (hx description).mono (fun _ hr => hr) (fun _ _ hr => hr) fun e _ => h e

theorem collect {step : Nat → Read α} (count : Nat) (h : ∀ position, Faults fault (step position)) :
    Faults fault (Decode.collect count step) := fun description =>
  .collectFrom (fun position => h position description) count 0

end Faults

/-! ### Primitives -/

/-- A read that is `Accurate` for a law fails with what the law allows. -/
theorem Faults.of_accurate {law : Reader → Reader → DecodeError → Prop} {read : Read α}
    (h : ∀ r, Accurate (law r) read r) (hlaw : ∀ r r' e, law r r' e → fault e) :
    Faults fault read := by
  intro description r hr
  have hread := h r
  unfold Accurate at hread
  cases hrun : read r with
  | ok v r' =>
      rw [hrun] at hread
      exact hread.description_eq.trans hr
  | error e r' =>
      rw [hrun] at hread
      exact hlaw r r' e hread.2

/-- A read that reports by `Report` from wherever it starts fails with errors of `OfPrimitive`. -/
theorem faults_primitive {read : Read α} (h : ∀ r, Accurate (Report True r.offset) read r) :
    Faults DecodeError.OfPrimitive read :=
  .of_accurate h fun _ _ _ he => he.ofPrimitive

theorem faults_byte : Faults DecodeError.OfPrimitive byte :=
  faults_primitive (whole_byte.reports)

theorem faults_unsigned (width : Nat) : Faults DecodeError.OfPrimitive (unsigned width) :=
  faults_primitive ((whole_unsigned width).reports)

theorem faults_int32 : Faults DecodeError.OfPrimitive int32 :=
  faults_primitive (whole_int32.reports)

theorem faults_binary64 : Faults DecodeError.OfPrimitive binary64 :=
  faults_primitive (whole_binary64.reports)

theorem faults_varUInt32 : Faults DecodeError.OfPrimitive varUInt32 :=
  faults_primitive accurate_varUInt32

theorem faults_index : Faults DecodeError.OfPrimitive index := faults_primitive accurate_index

theorem faults_string : Faults DecodeError.OfPrimitive string := faults_primitive accurate_string

/-! ### Header and substreams -/

/-- A read with the faults of a primitive may stand where the streams of a container are opened
(`OfLayout`). -/
theorem Faults.ofLayout {read : Read α} (h : read.Faults DecodeError.OfPrimitive) :
    read.Faults DecodeError.OfLayout := h.mono fun _ => .inl

/-- A header fails for want of bytes, or for its first bytes (`badMagic`). -/
theorem faults_header : Faults DecodeError.OfLayout Header.read := by
  refine .of_accurate (accurate_header True) fun _ _ _ he => he.imp Report.ofPrimitive ?_
  rintro ⟨_, rfl⟩
  trivial

/-- A substream fails as its parts do, or for the two lengths of its frame (`framingMismatch`). -/
theorem faults_substream : Faults DecodeError.OfLayout substream := by
  refine .of_accurate accurate_substream fun _ _ _ he => he.imp Report.ofPrimitive ?_
  rintro ⟨_, _, _, rfl⟩
  trivial

end Read

end BinaryAst
