import BinaryAst.Proofs.Decode.Objects
/-!
# BinaryAst.Proofs.Decode.IndexLaw

What an object reference decodes to, in each of its encodings.

Zero is no object and other numbers count the slots from one, wherever a reference is an
index: on its own, behind a flag byte, or with the flag packed into it. The laws here say so
of every outcome, with what is left unread: `PlainLaw` for an index, `FlaggedLaw` and
`PackedLaw` for references that may be inline, and `IndexLaw` picks the one that applies.
-/

namespace BinaryAst.Decode

variable {n : Nat}

/-- How a step ends. -/
abbrev Outcome (n : Nat) (α : Type) := EStateM.Result DecodeError (State n) α

/-! ### The laws -/

section

variable (ctx : Context n) (inner : Inner n) (source : Source n) (s : State n)
  (outcome : Outcome n Value)

/-- One index is read from the source, and nothing else happens: zero is no object, and `wire`
stands for the slot before it, if there are so many. -/
structure PlainLaw : Prop where
  null : ∀ r, Read.varUInt32 (s.reader source) = .ok 0 r →
    outcome = .ok .null (s.setReader source r)
  slot : ∀ wire r, Read.varUInt32 (s.reader source) = .ok wire r →
    1 ≤ wire → wire ≤ ctx.objectCount →
      outcome = .ok (.ref (wire - 1)) (s.setReader source r)
  outside : ∀ wire r, Read.varUInt32 (s.reader source) = .ok wire r → ctx.objectCount < wire →
    outcome =
      .error (.invalidObjectIndex (wire - 1) ctx.objectCount) (s.setReader source r)
  unread : ∀ e r, Read.varUInt32 (s.reader source) = .error e r →
    outcome = .error e (s.setReader source r)

/-- The object itself follows, of the shape of this name, and the value is inline. -/
structure InlineLaw (name : String) : Prop where
  object : outcome = (Value.inline <$> inlineObject ctx inner source name) s
  shape : ∀ value t, outcome = .ok value t →
    ∃ object, value = .inline object ∧ object.shape = name

/-- A flag is read first. 0xFF is no object and takes nothing more, zero is followed by an index
(`PlainLaw`), and any other flag by a type tag and the object. -/
structure FlaggedLaw : Prop where
  null : ∀ t, Step.fromInlining source Read.byte s = .ok 0xFF t → outcome = .ok .null t
  plain : ∀ t, Step.fromInlining source Read.byte s = .ok 0 t → PlainLaw ctx source t outcome
  inline : ∀ flag name t u, Step.fromInlining source Read.byte s = .ok flag t →
    flag ≠ 0xFF → flag ≠ 0 → typeTag ctx source t = .ok name u →
      InlineLaw ctx inner source u outcome name
  untagged : ∀ flag e t u, Step.fromInlining source Read.byte s = .ok flag t →
    flag ≠ 0xFF → flag ≠ 0 → typeTag ctx source t = .error e u → outcome = .error e u
  unread : ∀ e t, Step.fromInlining source Read.byte s = .error e t → outcome = .error e t

/-- An index is read whose value behind zero has the flag in its low bit: with the flag it is that
of a tag and the object follows, and without it is that of a slot. -/
structure PackedLaw : Prop where
  null : ∀ t, Step.fromPackedIndices source Read.varUInt32 s = .ok 0 t → outcome = .ok .null t
  slot : ∀ packed t, Step.fromPackedIndices source Read.varUInt32 s = .ok (packed + 1) t →
    packed % 2 = 0 → packed / 2 < ctx.objectCount → outcome = .ok (.ref (packed / 2)) t
  outside : ∀ packed t, Step.fromPackedIndices source Read.varUInt32 s = .ok (packed + 1) t →
    packed % 2 = 0 → ctx.objectCount ≤ packed / 2 →
      outcome = .error (.invalidObjectIndex (packed / 2) ctx.objectCount) t
  inline : ∀ packed name t,
    Step.fromPackedIndices source Read.varUInt32 s = .ok (packed + 1) t →
      packed % 2 = 1 → ctx.tags[packed / 2]? = some name →
        InlineLaw ctx inner source t outcome name
  untagged : ∀ packed t, Step.fromPackedIndices source Read.varUInt32 s = .ok (packed + 1) t →
    packed % 2 = 1 → ctx.tags.size ≤ packed / 2 →
      outcome = .error (.invalidTagIndex (some (packed / 2)) ctx.tags.size) t
  unread : ∀ e t, Step.fromPackedIndices source Read.varUInt32 s = .error e t →
    outcome = .error e t

/-- What a value of an object tag decodes to, by the configuration. `viaAny` is for one behind a
type tag of its own, which is never inline. -/
structure IndexLaw (tag : String) (viaAny : Bool) : Prop where
  unknown : tag ≠ Tag.object → ctx.schema.contains tag = false →
    outcome = .error (.unknownShape tag) s
  plain : tag = Tag.object ∨ ctx.schema.contains tag = true →
    ctx.configuration.conditionalInlining = false ∨ viaAny = true →
      PlainLaw ctx source s outcome
  flagged : tag = Tag.object ∨ ctx.schema.contains tag = true →
    ctx.configuration.conditionalInlining = true → viaAny = false →
      ctx.configuration.packedInliningFlags = false → FlaggedLaw ctx inner source s outcome
  packed : tag = Tag.object ∨ ctx.schema.contains tag = true →
    ctx.configuration.conditionalInlining = true → viaAny = false →
      ctx.configuration.packedInliningFlags = true → PackedLaw ctx inner source s outcome

end

/-! ### Reading the number behind an index -/

/-- Mapping what is read and mapping what `serve` gives are the same. -/
theorem serve_map {α β : Type} (g : α → β) (r : Reader) (putBack : Reader → State n)
    (read : Read α) (s : State n) : State.serve r putBack (g <$> read) =
      EStateM.map g (fun _ => State.serve r putBack read) s := by
  have hmap : (g <$> read) r = EStateM.map g read r := rfl
  simp only [State.serve, hmap, EStateM.map]
  cases read r <;> rfl

/-- `Step.fromSource` commutes with a map of what is read, so an index is a number that is read and
then shifted. -/
theorem fromSource_map {α β : Type} (g : α → β) (source : Source n) (read : Read α) :
    Step.fromSource source (g <$> read) = g <$> Step.fromSource source read :=
  funext fun s => serve_map g _ _ read s

theorem fromPackedIndices_map {α β : Type} (g : α → β) (source : Source n) (read : Read α) :
    Step.fromPackedIndices source (g <$> read) = g <$> Step.fromPackedIndices source read := by
  funext s
  change _ = EStateM.map g (Step.fromPackedIndices source read) s
  unfold EStateM.map Step.fromPackedIndices
  cases s.side.packedIndices with
  | none => exact serve_map g _ _ read s
  | some r => exact serve_map g _ _ read s

/-- `fromSource`, by how the read ends. -/
theorem fromSource_eq {α : Type} (source : Source n) (read : Read α) (s : State n) :
    Step.fromSource source read s =
      match read (s.reader source) with
      | .ok v r => .ok v (s.setReader source r)
      | .error e r => .error e (s.setReader source r) := rfl

section

variable {ctx : Context n} {inner : Inner n} {source : Source n} {s : State n}

/-! ### A plain index -/

/-- `slotValue` of a slot of the table is a reference, whether the slot was filled yet or not. -/
theorem slotValue_of_lt {index : Nat} (h : index < ctx.objectCount) :
    slotValue ctx index s = .ok (.ref index) s := by
  rw [slotValue, if_pos h]
  rfl

/-- `slotValue` of an index behind the table is an error, with the number of slots. -/
theorem slotValue_of_le {index : Nat} (h : ctx.objectCount ≤ index) :
    slotValue ctx index s = .error (.invalidObjectIndex index ctx.objectCount) s := by
  rw [slotValue, if_neg (by omega)]
  rfl

/-- A plain reference obeys `PlainLaw`. -/
theorem plainLaw (ctx : Context n) (inner : Inner n) (source : Source n) (s : State n) :
    PlainLaw ctx source s ((plainReference source >>= referredValue ctx inner source) s) := by
  have hstep : plainReference source >>= referredValue ctx inner source =
      Step.fromSource source Read.varUInt32 >>= fun wire =>
        referredValue ctx inner source (.ofIndex (Read.indexOf wire)) := by
    rw [plainReference, Read.index, fromSource_map, bind_map_left, bind_map_left]
  rw [hstep]
  have hread : ∀ wire r, Read.varUInt32 (s.reader source) = .ok wire r →
      Step.fromSource source Read.varUInt32 s = .ok wire (s.setReader source r) :=
    fun wire r h => by rw [fromSource_eq, h]
  refine ⟨fun r h => ?_, fun wire r h hpos hle => ?_, fun wire r h hlt => ?_, fun e r h => ?_⟩
  · rw [bind_of_ok (hread _ _ h)]
    rfl
  · obtain ⟨index, rfl⟩ := Nat.exists_eq_add_of_le' hpos
    rw [bind_of_ok (hread _ _ h)]
    exact slotValue_of_lt hle
  · obtain ⟨index, rfl⟩ := Nat.exists_eq_add_of_le' (Nat.one_le_of_lt hlt)
    rw [bind_of_ok (hread _ _ h)]
    exact slotValue_of_le (Nat.le_of_lt_succ hlt)
  · exact bind_of_error (by rw [fromSource_eq, h])

/-! ### An object in place -/

/-- The object that `fields` decodes has the shape whose fields they are. -/
theorem shape_of_fields {active : Source n} {pinned : Bool} {shape : Shape}
    {decode : Source n → String → Step n Value} {object : ObjectValue} {t : State n}
    (h : fields ctx decode active pinned shape s = .ok object t) : object.shape = shape.name := by
  obtain ⟨_, _, -, hobject⟩ := bind_eq_ok_iff.mp h
  obtain ⟨rfl, -⟩ := pure_eq_ok_iff.mp hobject
  rfl

/-- What stands behind a reference to an inline object obeys `InlineLaw`. -/
theorem inlineLaw (ctx : Context n) (inner : Inner n) (source : Source n) (s : State n)
    (name : String) :
    InlineLaw ctx inner source s (referredValue ctx inner source (.inline name) s) name := by
  refine ⟨rfl, fun value t h => ?_⟩
  obtain ⟨object, hobject, rfl⟩ := map_eq_ok_iff.mp h
  rw [inlineObject_eq] at hobject
  obtain ⟨shape, _, hshape, hobject⟩ := bind_eq_ok_iff.mp hobject
  obtain ⟨active, _, -, hobject⟩ := bind_eq_ok_iff.mp hobject
  obtain ⟨_, _, -, hobject⟩ := bind_eq_ok_iff.mp hobject
  obtain ⟨_, _, -, hobject⟩ := bind_eq_ok_iff.mp hobject
  obtain ⟨_, _, -, hfields⟩ := bind_eq_ok_iff.mp hobject
  have hname := Schema.name_of_shape? (lookUpShape_eq_ok_iff.mp hshape).1
  exact ⟨object, rfl, (shape_of_fields hfields).trans hname⟩

/-! ### An index behind a flag, or with a flag in it -/

/-- A flagged reference obeys `FlaggedLaw`. -/
theorem flaggedLaw (ctx : Context n) (inner : Inner n) (source : Source n) (s : State n) :
    FlaggedLaw ctx inner source s
      ((flaggedReference ctx source >>= referredValue ctx inner source) s) := by
  have hstep : flaggedReference ctx source >>= referredValue ctx inner source =
      Step.fromInlining source Read.byte >>= fun flag =>
        if flag = nullMarker then pure .null
        else if flag = 0 then plainReference source >>= referredValue ctx inner source
        else typeTag ctx source >>= fun name => referredValue ctx inner source (.inline name) := by
    rw [flaggedReference, bind_assoc]
    refine congrArg _ (funext fun flag => ?_)
    split
    · rfl
    · split
      · rfl
      · rw [bind_map_left]
  have hrest : ∀ {flag : UInt8} {x y z : Step n Value}, flag ≠ 0xFF → flag ≠ 0 →
      (if flag = nullMarker then x else if flag = 0 then y else z) = z :=
    fun hnull hzero => (if_neg hnull).trans (if_neg hzero)
  rw [hstep]
  refine ⟨fun t h => ?_, fun t h => ?_, fun flag name t u h hnull hzero htag => ?_,
    fun flag e t u h hnull hzero htag => ?_, fun e t h => bind_of_error h⟩
  · rw [bind_of_ok h]
    rfl
  · rw [bind_of_ok h]
    exact plainLaw ctx inner source t
  · rw [bind_of_ok h, hrest hnull hzero, bind_of_ok htag]
    exact inlineLaw ctx inner source u name
  · rw [bind_of_ok h, hrest hnull hzero, bind_of_error htag]

theorem lookUpTag_of_getElem? {index : Nat} {name : String} (h : ctx.tags[index]? = some name) :
    lookUpTag ctx (some index) s = .ok name s := by
  rw [lookUpTag, tagAt, Option.bind_some, h]
  rfl

theorem lookUpTag_of_size_le {index : Nat} (h : ctx.tags.size ≤ index) :
    lookUpTag ctx (some index) s = .error (.invalidTagIndex (some index) ctx.tags.size) s := by
  rw [lookUpTag, tagAt, Option.bind_some, Array.getElem?_eq_none h]
  rfl

/-- A packed reference obeys `PackedLaw`. -/
theorem packedLaw (ctx : Context n) (inner : Inner n) (source : Source n) (s : State n) :
    PackedLaw ctx inner source s
      ((packedReference ctx source >>= referredValue ctx inner source) s) := by
  have hstep : packedReference ctx source >>= referredValue ctx inner source =
      Step.fromPackedIndices source Read.varUInt32 >>= fun wire =>
        unpack ctx (Read.indexOf wire) >>= referredValue ctx inner source := by
    rw [packedReference_eq, Read.index, fromPackedIndices_map, bind_assoc, bind_map_left]
  -- The low bit of the wire value says whether the rest is a tag or a slot.
  have hodd : ∀ {packed : Nat}, packed % 2 = 1 →
      unpack ctx (some packed) >>= referredValue ctx inner source =
        lookUpTag ctx (some (packed / 2)) >>= fun name =>
          referredValue ctx inner source (.inline name) :=
    fun h => by rw [unpack, if_pos h, bind_map_left]
  have heven : ∀ {packed : Nat}, packed % 2 = 0 →
      unpack ctx (some packed) >>= referredValue ctx inner source = slotValue ctx (packed / 2) :=
    fun h => by
      rw [unpack, if_neg (by omega)]
      rfl
  rw [hstep]
  refine ⟨fun t h => ?_, fun packed t h hflag hlt => ?_, fun packed t h hflag hle => ?_,
    fun packed name t h hflag htag => ?_, fun packed t h hflag hle => ?_,
    fun e t h => bind_of_error h⟩
  · rw [bind_of_ok h]
    rfl
  · rw [bind_of_ok h, Read.indexOf, heven hflag, slotValue_of_lt hlt]
  · rw [bind_of_ok h, Read.indexOf, heven hflag, slotValue_of_le hle]
  · rw [bind_of_ok h, Read.indexOf, hodd hflag, bind_of_ok (lookUpTag_of_getElem? htag)]
    exact inlineLaw ctx inner source t name
  · rw [bind_of_ok h, Read.indexOf, hodd hflag, bind_of_error (lookUpTag_of_size_le hle)]

/-! ### References -/

/-- `objectValue` obeys `IndexLaw`, by the three encodings of a reference. -/
theorem indexLaw (ctx : Context n) (inner : Inner n) (source : Source n) (s : State n)
    (tag : String) (viaAny : Bool) :
    IndexLaw ctx inner source s (objectValue ctx inner source tag viaAny s) tag viaAny := by
  refine ⟨fun hobject hcontains => ?_, fun h hplain => ?_, fun h hinlining hany hflags => ?_,
    fun h hinlining hany hflags => ?_⟩
  · rw [objectValue_eq, if_pos ⟨hobject, by simp [hcontains]⟩]
    rfl
  · have hreference : reference ctx source viaAny = plainReference source := by
      obtain h | h := hplain
      · simp [reference, Configuration.referenceEncoding, h]
      · simp [reference, h]
    rw [objectValue_of_known h, hreference]
    exact plainLaw ctx inner source s
  · have hreference : reference ctx source viaAny = flaggedReference ctx source := by
      simp [reference, Configuration.referenceEncoding, hinlining, hany, hflags]
    rw [objectValue_of_known h, hreference]
    exact flaggedLaw ctx inner source s
  · have hreference : reference ctx source viaAny = packedReference ctx source := by
      simp [reference, Configuration.referenceEncoding, hinlining, hany, hflags]
    rw [objectValue_of_known h, hreference]
    exact packedLaw ctx inner source s

/-- Every reference that `value` decodes obeys the `IndexLaw` of its encoding, whether its tag was
declared or read; it is never inline behind a tag that was read. -/
theorem references_obey_index_law (ctx : Context n) (levels : Nat) (source : Source n)
    (s : State n) :
    (∀ tag, Tag.kind tag = .object →
      IndexLaw ctx (innerAt ctx levels) source s (value ctx levels source tag s) tag false) ∧
    (∀ slot tag t, Tag.kind slot = .any → typeTag ctx source s = .ok tag t →
      Tag.kind tag = .object →
        IndexLaw ctx (innerAt ctx levels) source t (value ctx levels source slot s) tag true) := by
  rw [value_eq]
  constructor
  · intro tag hkind
    have hdeclared : Tag.kind tag ≠ .any := by simp [hkind]
    rw [valueWithin_of_declared hdeclared, taggedValue_of_object hkind]
    exact indexLaw ctx (innerAt ctx levels) source s tag false
  · intro slot tag t hslot htag hkind
    rw [valueWithin_of_any hslot, bind_of_ok htag, taggedValue_of_object hkind]
    exact indexLaw ctx (innerAt ctx levels) source t tag true

/-- With the flag packed into it, the wire number 3 is slot 1 of a table of one, so `value` refuses
it; behind a type tag the number 1 is slot 0. -/
theorem references_obey_index_law_of_packed :
    let format : WireFormat := {}
    let ctx : Context 0 := ⟨⟨format, true, true, false, false, false, false, false, false⟩, {},
      .empty, #[Tag.object], [], 1⟩
    let start (bytes : Bytes) : State 0 :=
      ⟨.ofBytes format "root" bytes, #v[], ⟨none, none, none⟩, #[]⟩
    value ctx 0 .own Tag.object (start [3, 0, 0, 0]) =
      .error (.invalidObjectIndex 1 1)
        ((start [3, 0, 0, 0]).setReader .own ⟨⟨0, 4, []⟩, format, "root"⟩) ∧
    value ctx 0 .own Tag.any (start [1, 0, 0, 0, 1, 0, 0, 0]) =
      .ok (.ref 0)
        ⟨⟨⟨0, 8, []⟩, format, "root"⟩, #v[], ⟨none, none, none⟩, #[.tag "root" Tag.object]⟩ := by
  intro format ctx start
  have hdeclared := (references_obey_index_law ctx 0 .own (start [3, 0, 0, 0])).1 Tag.object
    (by decide)
  have hany := (references_obey_index_law ctx 0 .own (start [1, 0, 0, 0, 1, 0, 0, 0])).2 Tag.any
    Tag.object _ (by decide) rfl (by decide)
  exact ⟨(hdeclared.packed (.inl rfl) rfl rfl rfl).outside 2 _ rfl (by decide) (by decide),
    (hany.plain (.inl rfl) (.inr rfl)).slot 1 _ rfl (by decide) (by decide)⟩

end

end BinaryAst.Decode
