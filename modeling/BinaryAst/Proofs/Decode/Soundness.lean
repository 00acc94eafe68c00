import BinaryAst.Proofs.Decode.Grammar
/-!
# BinaryAst.Proofs.Decode.Soundness

Whatever has an encoding conforms.

The grammar gives a value no log unless the value conforms to its tag, so a decoder that
recognises the grammar gives conforming values only. The proof is by recursion on the
derivation, with one case for each rule.

A value behind a tag of its own is never inline, as its reference is a plain index; that
is carried along beside conformance (`EncodesAs.conforms`).
-/

namespace BinaryAst

namespace Decode

variable {site : Site}

/-! ### References -/

/-- The tag that `TypeTag` tells is in the tag table. -/
theorem Site.TypeTag.mem {source : Lane} {tag : String} {log : Log}
    (h : site.TypeTag source tag log) : tag ∈ site.tags := by
  cases h with
  | intro _ htag => exact List.mem_of_getElem? htag

/-- A `PlainReference` never stands for an inline object. -/
theorem Site.PlainReference.ne_inline {source : Lane} {reference : Reference} {log : Log}
    (h : site.PlainReference source reference log) (name : String) :
    reference ≠ .inline name := by
  cases h with
  | @intro index => cases index <;> simp [Reference.ofIndex]

/-- An inline reference of `EncodesReference` names a tag of the tag table, and it stands where the
configuration allows for inline objects. -/
theorem Site.EncodesReference.inline {source : Lane} {viaAny : Bool} {name : String} {log : Log}
    (h : site.EncodesReference source viaAny (.inline name) log) :
    viaAny = false ∧ site.configuration.conditionalInlining = true ∧ name ∈ site.tags := by
  unfold Site.EncodesReference at h
  split at h
  case isTrue => exact absurd rfl (h.ne_inline name)
  case isFalse hany =>
    have hinlining : site.configuration.referenceEncoding ≠ .plain →
        site.configuration.conditionalInlining = true := by
      intro hne
      cases hoff : site.configuration.conditionalInlining with
      | true => rfl
      | false => exact absurd (by simp [Configuration.referenceEncoding, hoff]) hne
    refine ⟨by simpa using hany, ?_⟩
    split at h
    case h_1 => exact absurd rfl (h.ne_inline name)
    case h_2 hencoding =>
      refine ⟨hinlining (by simp [hencoding]), ?_⟩
      cases h with
      | plain hplain => exact absurd rfl (hplain.ne_inline name)
      | inline _ _ htag => exact htag.mem
    case h_3 dedicated hencoding =>
      refine ⟨hinlining (by simp [hencoding]), ?_⟩
      cases h with
      | inline _ _ htag => exact List.mem_of_getElem? htag

/-! ### Scalars -/

/-- A scalar of `SpellsScalar` conforms to any tag of its kind, and is not inline. -/
theorem Site.SpellsScalar.conforms {tag : String} {kind : Tag.Kind} {value : Value} {bytes : Bytes}
    (h : site.SpellsScalar kind value bytes) (hkind : Tag.kind tag = kind) :
    Conforms site.toSetting tag value ∧ ∀ object, value ≠ .inline object := by
  cases h with
  | symbol h =>
      cases h with
      | @interned _ index hinterned =>
          cases index with
          | none => exact ⟨.nullSymbol hkind, by simp⟩
          | some index => exact ⟨.internedSymbol hkind hinterned, by simp⟩
      | @text _ text hplain =>
          cases text with
          | none => exact ⟨.nullSymbol hkind, by simp⟩
          | some text => exact ⟨.symbol hkind hplain, by simp⟩
  | @string _ text =>
      cases text with
      | none => exact ⟨.nullString hkind, by simp⟩
      | some text => exact ⟨.string hkind, by simp⟩
  | boolean => exact ⟨.boolean hkind, by simp⟩
  | integer => exact ⟨.integer hkind, by simp⟩
  | double => exact ⟨.double hkind, by simp⟩

/-- There is no scalar of the kind `any`. -/
theorem Site.SpellsScalar.kind_ne_any {kind : Tag.Kind} {value : Value} {bytes : Bytes}
    (h : site.SpellsScalar kind value bytes) : kind ≠ .any := by
  cases h <;> decide

/-- The tag of a value's own is never `any` again. -/
theorem EncodesAs.kind_ne_any {viaAny : Bool} {source : Lane} {tag : String} {value : Value}
    {log : Log} (h : EncodesAs site viaAny source tag value log) : Tag.kind tag ≠ .any := by
  cases h with
  | scalar h => exact h.kind_ne_any
  | emptyArray h => simp [h]
  | array h => simp [h]
  | null h => simp [h.1]
  | ref h => simp [h.1]
  | inline h => simp [h.1]

/-! ### Values -/

mutual

/-- What is encoded in the place of a tag `Conforms` to the tag. By recursion on the derivation of
`Encodes`, with the theorems behind it for its parts. -/
theorem Encodes.conforms : ∀ {source : Lane} {tag : String} {value : Value} {log : Log},
    Encodes site source tag value log → Conforms site.toSetting tag value
  | _, _, _, _, .any hkind htag hvalue => by
      obtain ⟨hconforms, hinline⟩ := EncodesAs.conforms hvalue
      exact .any hkind htag.mem hvalue.kind_ne_any hconforms (hinline rfl)
  | _, _, _, _, .declared _ hvalue => (EncodesAs.conforms hvalue).1

/-- What is encoded as a tag `Conforms` to the tag, and is not inline behind a tag of its own. -/
theorem EncodesAs.conforms : ∀ {viaAny : Bool} {source : Lane} {tag : String} {value : Value}
    {log : Log}, EncodesAs site viaAny source tag value log →
      Conforms site.toSetting tag value ∧ (viaAny = true → ∀ object, value ≠ .inline object)
  | _, _, _, _, _, .scalar hscalar => by
      obtain ⟨hconforms, hinline⟩ := hscalar.conforms rfl
      exact ⟨hconforms, fun _ => hinline⟩
  | _, _, _, _, _, .emptyArray hkind _ => ⟨.emptyArray hkind, by simp⟩
  | _, _, _, _, _, .array hkind _ _ htag hitems =>
      ⟨.array hkind htag.mem (EncodesItems.conforms hitems), by simp⟩
  | _, _, _, _, _, .null hknown _ => ⟨.nullReference hknown, by simp⟩
  | _, _, _, _, _, .ref hknown _ hslot => ⟨.ref hknown hslot, by simp⟩
  | _, _, _, _, _, .inline hknown hreference hshape _ hfields => by
      obtain ⟨hany, hinlining, hmem⟩ := hreference.inline
      obtain ⟨hnames, hvalues⟩ := EncodesFields.conforms hfields
      have hname := Schema.name_of_shape? hshape
      refine ⟨.inline hknown hinlining ?_ ?_ hnames hvalues, fun h => by simp [hany] at h⟩
      · rw [hname]
        exact hshape
      · rw [hname]
        exact hmem

/-- Every item conforms to the tag of the items. -/
theorem EncodesItems.conforms : ∀ {source : Lane} {tag : String} {items : List Value} {log : Log},
    EncodesItems site source tag items log → ∀ item ∈ items, Conforms site.toSetting tag item
  | _, _, _, _, .nil => by simp
  | _, _, _, _, .cons hitem hitems =>
      List.forall_mem_cons.mpr ⟨Encodes.conforms hitem, EncodesItems.conforms hitems⟩

/-- The fields of `EncodesFields` are those that are declared, and each conforms to the tag of its
declaration. -/
theorem EncodesFields.conforms : ∀ {active : Lane} {pinned : Bool} {shape : String}
    {decls : List FieldDecl} {fields : List (Field Value)} {log : Log},
    EncodesFields site active pinned shape decls fields log →
      fields.map (·.name) = decls.map (·.name) ∧
        ∀ pair ∈ decls.zip fields,
          Conforms site.toSetting (site.schema.fieldTag pair.1) pair.2.value
  | _, _, _, _, _, _, .nil => by simp
  | _, _, _, _, _, _, .cons _ hvalue hfields => by
      obtain ⟨hnames, hvalues⟩ := EncodesFields.conforms hfields
      refine ⟨by simp [hnames], ?_⟩
      rw [List.zip_cons_cons]
      exact List.forall_mem_cons.mpr ⟨Encodes.conforms hvalue, hvalues⟩

end

/-! ### Sections -/

/-- An object of `EncodesObject` conforms to its own shape, which is registered. -/
theorem EncodesObject.objectConforms {object : ObjectValue} {log : Log}
    (h : EncodesObject site object log) : ObjectConforms site.toSetting object := by
  cases h with
  | @intro tag shape _ _ _ htag hshape hfields =>
      obtain ⟨hnames, hvalues⟩ := hfields.conforms
      have hname := Schema.name_of_shape? hshape
      refine ⟨shape, ?_, ?_, hnames, hvalues⟩
      · rw [hname]
        exact hshape
      · rw [hname]
        exact htag.mem

theorem EncodesSlots.objectConforms {slot : Nat} {objects : List ObjectValue} {log : Log}
    (h : EncodesSlots site slot objects log) :
    ∀ object ∈ objects, ObjectConforms site.toSetting object := by
  induction h with
  | nil => simp
  | cons hobject _ ih => exact List.forall_mem_cons.mpr ⟨hobject.objectConforms, ih⟩

/-- An object table has as many objects as the site has slots, and each of them is `ObjectConforms`.
-/
theorem EncodesTable.objectConforms {objects : List ObjectValue} {log : Log}
    (h : EncodesTable site objects log) :
    objects.length = site.slots ∧ ∀ object ∈ objects, ObjectConforms site.toSetting object := by
  cases h with
  | intro _ hlength hslots => exact ⟨hlength, hslots.objectConforms⟩

/-- A root of `EncodesRoot` conforms to a tag of its own, and is not null. -/
theorem EncodesRoot.conforms {value : Value} {log : Log} (h : EncodesRoot site value log) :
    Conforms site.toSetting Tag.any value ∧ value.isNull = false := by
  cases h with
  | intro hvalue hnull => exact ⟨hvalue.conforms, hnull⟩

end Decode

/-- Every object within one that is `ObjectConforms` is so, too. -/
theorem ObjectConforms.within {setting : Setting} {object inner : ObjectValue}
    (h : ObjectConforms setting object)
    (hmem : inner ∈ Value.inlineObjectsOfFields object.fields) : ObjectConforms setting inner := by
  obtain ⟨shape, _, _, hnames, hvalues⟩ := h
  obtain ⟨field, hfield, hinner⟩ := Value.mem_inlineObjectsOfFields.mp hmem
  obtain ⟨decl, hdecl⟩ := exists_mem_zip_of_mem hnames hfield
  exact (hvalues _ hdecl).objectConforms _ hinner

end BinaryAst
