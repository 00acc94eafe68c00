import BinaryAst.Proofs.Decode.Objects
/-!
# BinaryAst.Proofs.Decode.Decoders

The decoders of values, and of the two sections, recognise their part of the grammar.

The recursion on the levels is in `recognises_value` alone; everything before it is one
step.
-/

namespace BinaryAst.Decode

variable {n : Nat}

section

variable (ctx : Context n) (describe : Lane → String)

/-! ### Values -/

theorem recognises_symbolValue (source : Source n) :
    Recognises (ctx.site describe) (symbolValue ctx source) fun value log =>
      ∃ bytes, (ctx.site describe).SpellsSymbol value bytes ∧ log = [.take source.lane bytes] := by
  unfold symbolValue
  cases h : ctx.configuration.internedSymbols with
  | true =>
      rw [if_pos rfl]
      refine ((Recognises.fromSource Read.exact_index source).map
        (·.elim Value.null Value.internedSymbol)).congr fun value log => ?_
      constructor
      · intro hgiven
        rcases hgiven with ⟨index, ⟨bytes, hspell, rfl⟩, rfl⟩
        exact ⟨bytes, .interned h hspell, rfl⟩
      · intro hgiven
        rcases hgiven with ⟨bytes, hspell, rfl⟩
        cases hspell with
        | interned _ hspell => exact ⟨_, ⟨bytes, hspell, rfl⟩, rfl⟩
        | text hplain => exact absurd (h.symm.trans hplain) (by decide)
  | false =>
      rw [if_neg (by decide)]
      refine ((Recognises.fromSource Read.exact_string source).map
        (·.elim Value.null Value.symbol)).congr fun value log => ?_
      constructor
      · intro hgiven
        rcases hgiven with ⟨text, ⟨bytes, hspell, rfl⟩, rfl⟩
        exact ⟨bytes, .text h hspell, rfl⟩
      · intro hgiven
        rcases hgiven with ⟨bytes, hspell, rfl⟩
        cases hspell with
        | text _ hspell => exact ⟨_, ⟨bytes, hspell, rfl⟩, rfl⟩
        | interned hinterned => exact absurd (h.symm.trans hinterned) (by decide)

/-- `EncodesAs` for a scalar is the bytes that spell it (`SpellsScalar`) and nothing else. -/
theorem encodesAs_scalar_iff {site : Site} {viaAny : Bool} {source : Lane} {tag : String}
    {kind : Tag.Kind} {value : Value} {log : Log} {levels length : Nat}
    (hkind : Tag.kind tag = kind)
    (harray : kind ≠ .array) (hobject : kind ≠ .object) :
    EncodesAs site viaAny source tag value log ∧ value.Within levels length ↔
      ∃ bytes, site.SpellsScalar kind value bytes ∧ log = [.take source bytes] := by
  constructor
  · intro h
    rcases h with ⟨h, -⟩
    cases h with
    | scalar hscalar => exact ⟨_, hkind ▸ hscalar, rfl⟩
    | emptyArray h => exact absurd (hkind.symm.trans h) harray
    | array h => exact absurd (hkind.symm.trans h) harray
    | null h => exact absurd (hkind.symm.trans h.1) hobject
    | ref h => exact absurd (hkind.symm.trans h.1) hobject
    | inline h => exact absurd (hkind.symm.trans h.1) hobject
  · intro hgiven
    rcases hgiven with ⟨bytes, hscalar, rfl⟩
    refine ⟨.scalar (hkind.symm ▸ hscalar), ?_⟩
    cases hscalar with
    | symbol h =>
        cases h with
        | @interned _ index => cases index <;> simp [Value.Within, Value.depth, Value.longest]
        | @text _ text => cases text <;> simp [Value.Within, Value.depth, Value.longest]
    | @string _ text => cases text <;> simp [Value.Within, Value.depth, Value.longest]
    | boolean | integer | double => simp [Value.Within, Value.depth, Value.longest]

/-- A scalar that is one read of the source: where its bytes are what the read `Spells`, the step
recognises them. -/
theorem recognises_scalar {α : Type} {read : Read α} (hread : read.Exact) (toValue : α → Value)
    {kind : Tag.Kind} (source : Source n)
    (hspell : ∀ value bytes, (ctx.site describe).SpellsScalar kind value bytes ↔
      ∃ v, Read.Spells (ctx.site describe).format read bytes v ∧ toValue v = value) :
    Recognises (ctx.site describe) (toValue <$> Step.fromSource source read) fun value log =>
      ∃ bytes, (ctx.site describe).SpellsScalar kind value bytes ∧
        log = [.take source.lane bytes] := by
  refine ((Recognises.fromSource hread source).map toValue).congr fun value log => ?_
  simp only [hspell]
  constructor
  · intro h
    rcases h with ⟨v, ⟨bytes, hv, rfl⟩, rfl⟩
    exact ⟨bytes, ⟨v, hv, rfl⟩, rfl⟩
  · intro h
    rcases h with ⟨bytes, ⟨v, hv, rfl⟩, rfl⟩
    exact ⟨v, ⟨bytes, hv, rfl⟩, rfl⟩

theorem recognises_taggedValue (levels : Nat)
    (hinner : InwardRecognises ctx describe levels) (source : Source n) (tag : String)
    (viaAny : Bool) :
    Recognises (ctx.site describe) (taggedValue ctx (innerAt ctx levels) source tag viaAny)
      fun value log => EncodesAs (ctx.site describe) viaAny source.lane tag value log ∧
        value.Within levels ctx.limits.maxArrayLength := by
  unfold taggedValue
  cases hkind : Tag.kind tag with
  | any =>
      -- a tag of its own that is `any` again is an error, and no rule encodes it
      refine (Recognises.throw _).congr fun value log => ?_
      rw [encodesAs_scalar_iff hkind (by decide) (by decide)]
      refine ⟨False.elim, ?_⟩
      intro h
      rcases h with ⟨bytes, h, -⟩
      cases h
  | symbol =>
      refine (recognises_symbolValue ctx describe source).congr fun value log => ?_
      rw [encodesAs_scalar_iff hkind (by decide) (by decide)]
      constructor
      · intro h
        rcases h with ⟨bytes, h, rfl⟩
        exact ⟨bytes, .symbol h, rfl⟩
      · intro h
        rcases h with ⟨bytes, ⟨h⟩, rfl⟩
        exact ⟨bytes, h, rfl⟩
  | string =>
      refine (recognises_scalar ctx describe Read.exact_string _ source fun value bytes => ?_).congr
        fun value log => (encodesAs_scalar_iff hkind (by decide) (by decide)).symm
      exact ⟨fun | .string h => ⟨_, h, rfl⟩, fun ⟨_, h, heq⟩ => heq ▸ .string h⟩
  | boolean =>
      refine (recognises_scalar ctx describe Read.exact_byte _ source fun value bytes => ?_).congr
        fun value log => (encodesAs_scalar_iff hkind (by decide) (by decide)).symm
      exact ⟨fun | .boolean h => ⟨_, h, rfl⟩, fun ⟨_, h, heq⟩ => heq ▸ .boolean h⟩
  | integer =>
      refine (recognises_scalar ctx describe Read.exact_int32 _ source fun value bytes => ?_).congr
        fun value log => (encodesAs_scalar_iff hkind (by decide) (by decide)).symm
      exact ⟨fun | .integer h => ⟨_, h, rfl⟩, fun ⟨_, h, heq⟩ => heq ▸ .integer h⟩
  | double =>
      refine (recognises_scalar ctx describe Read.exact_binary64 _ source
        fun value bytes => ?_).congr
        fun value log => (encodesAs_scalar_iff hkind (by decide) (by decide)).symm
      exact ⟨fun | .double h => ⟨_, h, rfl⟩, fun ⟨_, h, heq⟩ => heq ▸ .double h⟩
  | array => exact recognises_array ctx describe levels hinner source viaAny hkind
  | object => exact recognises_objectValue ctx describe levels hinner source viaAny hkind

theorem recognises_valueWithin (levels : Nat)
    (hinner : InwardRecognises ctx describe levels) :
    InnerRecognises (ctx.site describe) levels ctx.limits.maxArrayLength
      (valueWithin ctx (innerAt ctx levels)) := by
  intro source tag
  -- An `any` brings its tag with it; another tag was declared. Each rule of the grammar is one of
  -- the two ways.
  refine (Recognises.ite
    (fun _ => (recognises_typeTag ctx describe source).bind fun inner =>
      recognises_taggedValue ctx describe levels hinner source inner true)
    (fun _ => recognises_taggedValue ctx describe levels hinner source tag false)).congr
      fun value log => ?_
  split
  case isTrue hany =>
    constructor
    · intro h
      rcases h with ⟨inner, log, more, htag, ⟨hvalue, hwithin⟩, rfl⟩
      exact ⟨.any hany htag hvalue, hwithin⟩
    · intro h
      rcases h with ⟨h, hwithin⟩
      cases h with
      | any _ htag hvalue => exact ⟨_, _, _, htag, ⟨hvalue, hwithin⟩, rfl⟩
      | declared hne => exact absurd hany hne
  case isFalse hne =>
    constructor
    · intro h
      rcases h with ⟨h, hwithin⟩
      exact ⟨.declared hne h, hwithin⟩
    · intro h
      rcases h with ⟨h, hwithin⟩
      cases h with
      | any hany => exact absurd hany hne
      | declared _ hvalue => exact ⟨hvalue, hwithin⟩

/-- With `levels` levels left, exactly the values that nest no deeper are decoded. -/
theorem recognises_value (levels : Nat) :
    InnerRecognises (ctx.site describe) levels ctx.limits.maxArrayLength (value ctx levels) := by
  induction levels with
  | zero => exact recognises_valueWithin ctx describe 0 fun inner h => by omega
  | succ levels ih =>
      refine recognises_valueWithin ctx describe (levels + 1) fun inner h => ?_
      obtain rfl : levels = inner := by omega
      exact ih

/-! ### Sections -/

theorem recognises_slot (slot : Nat) :
    Recognises (ctx.site describe)
      (do
        let object ← tableObject ctx (innerAt ctx ctx.limits.maxDepth) .own
        Step.tell (.slot slot object.shape)
        pure object : Step n ObjectValue)
      fun object log => ∃ l, EncodesObject (ctx.site describe) object l ∧
        object.Within ctx.limits.maxDepth ctx.limits.maxArrayLength ∧
          log = l ++ [.tell (.slot slot object.shape)] := by
  refine ((recognises_tableObject ctx describe _ fun inner _ =>
    recognises_value ctx describe inner).bind fun object =>
      (Recognises.tell (.slot slot object.shape)).bind fun _ => Recognises.pure object).congr
        fun object log => ?_
  constructor
  · intro h
    rcases h with ⟨_, l, _, ⟨h, hwithin⟩, ⟨_, _, _, rfl, ⟨rfl, rfl⟩, rfl⟩, rfl⟩
    exact ⟨l, h, hwithin, rfl⟩
  · intro h
    rcases h with ⟨l, h, hwithin, rfl⟩
    exact ⟨object, l, _, ⟨h, hwithin⟩, ⟨(), _, [], rfl, ⟨rfl, rfl⟩, rfl⟩, rfl⟩

theorem repeated_slots_iff {site : Site} {levels length slot : Nat} {objects : List ObjectValue}
    {log : Log} :
    Recognises.Repeated (fun slot object log => ∃ l, EncodesObject site object l ∧
        object.Within levels length ∧ log = l ++ [.tell (.slot slot object.shape)])
        slot objects log ↔
      EncodesSlots site slot objects log ∧ ∀ object ∈ objects, object.Within levels length := by
  constructor
  · intro h
    induction h with
    | nil => exact ⟨.nil, by simp⟩
    | cons hobject _ ih =>
        obtain ⟨l, hencodes, hwithin, rfl⟩ := hobject
        rw [List.append_assoc, List.singleton_append]
        exact ⟨.cons hencodes ih.1, List.forall_mem_cons.mpr ⟨hwithin, ih.2⟩⟩
  · intro h
    rcases h with ⟨h, hwithin⟩
    induction h with
    | nil => exact .nil
    | @cons slot object objects log more hobject _ ih =>
        obtain ⟨hin, hrest⟩ := List.forall_mem_cons.mp hwithin
        rw [List.append_cons]
        exact .cons ⟨log, hobject, hin, rfl⟩ (ih hrest)

/-- `objectTable` decodes exactly the tables of the expected length whose objects keep `Within` the
limits. -/
theorem recognises_objectTable :
    Recognises (ctx.site describe) (objectTable ctx) fun objects log =>
      EncodesTable (ctx.site describe) objects log ∧
        ∀ object ∈ objects, object.Within ctx.limits.maxDepth ctx.limits.maxArrayLength := by
  refine ((Recognises.fromSource Read.exact_uint32 .own).bind fun count =>
    Recognises.ite (fun _ => Recognises.collectFrom (recognises_slot ctx describe) count 0)
      fun _ => Recognises.throw _).congr fun objects log => ?_
  constructor
  · intro h
    rcases h with ⟨count, _, more, ⟨bytes, hspell, rfl⟩, hmore, rfl⟩
    split at hmore
    case isTrue hcount =>
      obtain ⟨rfl, hrep⟩ := hmore
      obtain ⟨hslots, hwithin⟩ := repeated_slots_iff.mp hrep
      exact ⟨.intro hspell hcount hslots, hwithin⟩
    case isFalse => cases hmore
  · intro h
    rcases h with ⟨⟨hspell, hcount, hslots⟩, hwithin⟩
    refine ⟨objects.length, _, _, ⟨_, hspell, rfl⟩, ?_, rfl⟩
    rw [if_pos (show objects.length = ctx.objectCount from hcount)]
    exact ⟨rfl, repeated_slots_iff.mpr ⟨hslots, hwithin⟩⟩

/-- `root` decodes exactly the values that have a tag of their own, are not null and keep `Within`
the limits. -/
theorem recognises_root :
    Recognises (ctx.site describe) (root ctx) fun value log =>
      EncodesRoot (ctx.site describe) value log ∧
        value.Within ctx.limits.maxDepth ctx.limits.maxArrayLength := by
  refine ((recognises_value ctx describe ctx.limits.maxDepth .own Tag.any).bind fun value =>
    Recognises.ite (fun _ => Recognises.throw _) fun _ => Recognises.pure value).congr
      fun value log => ?_
  constructor
  · intro h
    rcases h with ⟨_, log, more, ⟨h, hwithin⟩, hmore, rfl⟩
    split at hmore
    case isTrue => cases hmore
    case isFalse hnull =>
      obtain ⟨rfl, rfl⟩ := hmore
      rw [List.append_nil]
      exact ⟨.intro h (by simpa using hnull), hwithin⟩
  · intro h
    rcases h with ⟨⟨h, hnull⟩, hwithin⟩
    refine ⟨value, log, [], ⟨h, hwithin⟩, ?_, (List.append_nil _).symm⟩
    rw [if_neg (by simp [hnull])]
    exact ⟨rfl, rfl⟩

end

end BinaryAst.Decode
