import BinaryAst.Proofs.Decode.Recognition
import BinaryAst.Proofs.Wire.Primitives
/-!
# BinaryAst.Proofs.Decode.References

The decoders of type tags and of object references recognise their part of the grammar.

The statements go through the decoders as the text of `BinaryAst.Decode.Object` does. A
reference is read in one of three ways, each with a lemma of its own, and
`recognises_reference` picks the one that the configuration calls for.
-/

namespace BinaryAst.Decode

variable {n : Nat}

/-- What the encoding of values is relative to, for a decoder whose streams have these
descriptions. -/
def Context.site (ctx : Context n) (describe : Lane → String) : Site where
  configuration := ctx.configuration
  schema := ctx.schema
  tags := ctx.tags.toList
  slots := ctx.objectCount
  route tag := (ctx.routes.lookup tag).map Fin.val
  describe := describe

section

variable (ctx : Context n) (describe : Lane → String)

/-! ### Tags -/

theorem tagAt_eq_ok_iff {tags : Array String} {index : Option Nat} {tag : String} :
    tagAt tags index = .ok tag ↔ ∃ i, index = some i ∧ tags.toList[i]? = some tag := by
  unfold tagAt
  cases index with
  | none => simp
  | some i =>
      simp only [Option.bind_some, Option.some.injEq, exists_eq_left', Array.getElem?_toList]
      cases tags[i]? with
      | none => simp
      | some found => simp

theorem recognises_lookUpTag (index : Option Nat) :
    Recognises (ctx.site describe) (lookUpTag ctx index : Step n String) fun tag log =>
      (∃ i, index = some i ∧ (ctx.site describe).tags[i]? = some tag) ∧ log = [] := by
  cases h : tagAt ctx.tags index with
  | ok found =>
      rw [show lookUpTag ctx index = (pure found : Step n String) by rw [lookUpTag, h]]
      refine (Recognises.pure found).congr fun tag log => ?_
      have heq : (∃ i, index = some i ∧ (ctx.site describe).tags[i]? = some tag) ↔ found = tag := by
        rw [show (ctx.site describe).tags = ctx.tags.toList from rfl, ← tagAt_eq_ok_iff, h]
        simp
      rw [heq]
  | error e =>
      rw [show lookUpTag ctx index = (throw e : Step n String) by rw [lookUpTag, h]]
      refine (Recognises.throw e).congr fun tag log => ?_
      rw [show (ctx.site describe).tags = ctx.tags.toList from rfl, ← tagAt_eq_ok_iff, h]
      simp

theorem recognises_typeTag (source : Source n) :
    Recognises (ctx.site describe) (typeTag ctx source)
      ((ctx.site describe).TypeTag source.lane) := by
  -- The index is read with the name of its stream, which the event needs.
  have hindex : Recognises (ctx.site describe)
      (Step.fromTypeTags source do return (← Read.index, (← get).description))
      fun v log => ∃ bytes, ((ctx.site describe).SpellsIndex bytes v.1 ∧
        (ctx.site describe).describe ((ctx.site describe).typeTagLane source.lane) = v.2) ∧
          log = [.take ((ctx.site describe).typeTagLane source.lane) bytes] :=
    Recognises.fromTypeTags_of source fun r hr hdesc v r' => by
      obtain ⟨index, stream⟩ := v
      rw [bind_eq_ok_iff]
      simp only [get_bind_eq, pure_eq_ok_iff, Prod.mk.injEq]
      constructor
      · intro h
        rcases h with ⟨v, s, hv, ⟨rfl, rfl⟩, rfl⟩
        obtain ⟨bytes, hspell, hp, rfl⟩ := (Recognises.exact_iff Read.exact_index hr v _).mp hv
        exact ⟨bytes, ⟨hspell, hdesc.symm⟩, hp, rfl⟩
      · intro h
        rcases h with ⟨bytes, ⟨hspell, rfl⟩, hp, rfl⟩
        exact ⟨index, _, (Recognises.exact_iff Read.exact_index hr index _).mpr
          ⟨bytes, hspell, hp, rfl⟩, ⟨rfl, hdesc⟩, rfl⟩
  refine (hindex.bind fun v => (recognises_lookUpTag ctx describe v.1).bind fun tag =>
    (Recognises.tell (.tag v.2 tag)).bind fun _ => Recognises.pure tag).congr fun tag log => ?_
  constructor
  · intro h
    rcases h with ⟨⟨_, stream⟩, _, _, ⟨bytes, ⟨hspell, rfl⟩, rfl⟩, ⟨found, _, _, ⟨⟨i, rfl, htag⟩,
      rfl⟩, ⟨_, _, _, rfl, ⟨rfl, rfl⟩, rfl⟩, rfl⟩, rfl⟩
    exact .intro hspell htag
  · intro h
    rcases h with ⟨hspell, htag⟩
    exact ⟨(_, _), _, _, ⟨_, ⟨hspell, rfl⟩, rfl⟩, ⟨_, [], _, ⟨⟨_, rfl, htag⟩, rfl⟩,
      ⟨(), _, [], rfl, ⟨rfl, rfl⟩, rfl⟩, rfl⟩, rfl⟩

/-! ### Object references -/

theorem recognises_plainReference (source : Source n) :
    Recognises (ctx.site describe) (plainReference source)
      ((ctx.site describe).PlainReference source.lane) := by
  refine ((Recognises.fromSource Read.exact_index source).map Reference.ofIndex).congr
    fun reference log => ?_
  constructor
  · intro h
    rcases h with ⟨index, ⟨bytes, hspell, rfl⟩, rfl⟩
    exact .intro hspell
  · intro h
    rcases h with ⟨hspell⟩
    exact ⟨_, ⟨_, hspell, rfl⟩, rfl⟩

/-- The reference that a packed index stands for. -/
inductive Unpacks (site : Site) : Option Nat → Reference → Prop
  | null : Unpacks site none .null
  | inline {packed shape} : packed % 2 = 1 → site.tags[packed / 2]? = some shape →
      Unpacks site (some packed) (.inline shape)
  | slot {packed} : packed % 2 ≠ 1 → Unpacks site (some packed) (.slot (packed / 2))

/-- Decodes the reference that a packed index stands for. -/
def unpack : Option Nat → Step n Reference
  | none => pure .null
  | some packed =>
    if packed % 2 = 1 then .inline <$> lookUpTag ctx (some (packed / 2))
    else pure (.slot (packed / 2))

theorem packedReference_eq (source : Source n) :
    packedReference ctx source = Step.fromPackedIndices source Read.index >>= unpack ctx := rfl

theorem recognises_unpack (packed : Option Nat) :
    Recognises (ctx.site describe) (unpack ctx packed : Step n Reference) fun reference log =>
      log = [] ∧ Unpacks (ctx.site describe) packed reference := by
  cases packed with
  | none =>
      refine (Recognises.pure Reference.null).congr fun reference log => ?_
      constructor
      · intro h
        obtain ⟨rfl, rfl⟩ := h
        exact ⟨rfl, .null⟩
      · intro h
        obtain ⟨rfl, ⟨⟩⟩ := h
        exact ⟨rfl, rfl⟩
  | some packed =>
      -- The low bit of the number is the flag, the rest the index.
      refine (Recognises.ite
        (fun _ => (recognises_lookUpTag ctx describe (some (packed / 2))).map Reference.inline)
        (fun _ => Recognises.pure (Reference.slot (packed / 2)))).congr fun reference log => ?_
      constructor
      · intro h
        split at h
        case isTrue hodd =>
          obtain ⟨shape, ⟨⟨i, hi, hshape⟩, rfl⟩, rfl⟩ := h
          exact ⟨rfl, .inline hodd (Option.some.inj hi ▸ hshape)⟩
        case isFalse heven =>
          obtain ⟨rfl, rfl⟩ := h
          exact ⟨rfl, .slot heven⟩
      · intro h
        obtain ⟨rfl, hunpacks⟩ := h
        cases hunpacks with
        | inline hodd hshape =>
            rw [if_pos hodd]
            exact ⟨_, ⟨⟨_, rfl, hshape⟩, rfl⟩, rfl⟩
        | slot heven =>
            rw [if_neg heven]
            exact ⟨rfl, rfl⟩

theorem recognises_packedReference (source : Source n) :
    Recognises (ctx.site describe) (packedReference ctx source)
      ((ctx.site describe).PackedReference source.lane) := by
  rw [packedReference_eq]
  refine ((Recognises.fromPackedIndices Read.exact_index source).bind
    (recognises_unpack ctx describe)).congr fun reference log => ?_
  constructor
  · intro h
    obtain ⟨_, _, _, ⟨bytes, hspell, rfl⟩, ⟨rfl, hunpacks⟩, rfl⟩ := h
    cases hunpacks with
    | null => exact .null hspell
    | inline hodd hshape => exact .inline hspell hodd hshape
    | slot heven => exact .slot hspell heven
  · intro h
    cases h with
    | null hspell => exact ⟨none, _, [], ⟨_, hspell, rfl⟩, ⟨rfl, .null⟩, rfl⟩
    | inline hspell hodd hshape =>
        exact ⟨some _, _, [], ⟨_, hspell, rfl⟩, ⟨rfl, .inline hodd hshape⟩, rfl⟩
    | slot hspell heven => exact ⟨some _, _, [], ⟨_, hspell, rfl⟩, ⟨rfl, .slot heven⟩, rfl⟩

theorem recognises_flaggedReference (source : Source n) :
    Recognises (ctx.site describe) (flaggedReference ctx source)
      ((ctx.site describe).FlaggedReference source.lane) := by
  refine ((Recognises.fromInlining Read.exact_byte source).bind fun flag =>
    Recognises.ite (fun _ => Recognises.pure Reference.null) fun _ =>
      Recognises.ite (fun _ => recognises_plainReference ctx describe source) fun _ =>
        (recognises_typeTag ctx describe source).map Reference.inline).congr fun reference log => ?_
  constructor
  · intro h
    rcases h with ⟨flag, _, more, ⟨bytes, hspell, rfl⟩, hmore, rfl⟩
    obtain rfl := Read.spells_byte_iff.mp hspell
    split at hmore
    case isTrue hnull =>
      obtain ⟨rfl, rfl⟩ := hmore
      subst hnull
      exact .null
    case isFalse hnull =>
      split at hmore
      case isTrue hzero =>
        subst hzero
        exact .plain hmore
      case isFalse hzero =>
        obtain ⟨shape, htag, rfl⟩ := hmore
        exact .inline hnull hzero htag
  · intro h
    cases h with
    | null => exact ⟨nullMarker, _, [], ⟨_, Read.spells_byte_iff.mpr rfl, rfl⟩, by simp, rfl⟩
    | plain hplain =>
        refine ⟨0, _, _, ⟨_, Read.spells_byte_iff.mpr rfl, rfl⟩, ?_, rfl⟩
        simpa [show (0 : UInt8) ≠ nullMarker by decide] using hplain
    | inline hnull hzero htag =>
        refine ⟨_, _, _, ⟨_, Read.spells_byte_iff.mpr rfl, rfl⟩, ?_, rfl⟩
        rw [if_neg hnull, if_neg hzero]
        exact ⟨_, htag, rfl⟩

theorem recognises_reference (source : Source n) (viaAny : Bool) :
    Recognises (ctx.site describe) (reference ctx source viaAny)
      ((ctx.site describe).EncodesReference source.lane viaAny) := by
  unfold reference
  cases viaAny with
  | true => exact recognises_plainReference ctx describe source
  | false =>
      have hencoding : (ctx.site describe).configuration.referenceEncoding =
        ctx.configuration.referenceEncoding := rfl
      rw [if_neg (by simp)]
      cases h : ctx.configuration.referenceEncoding with
      | plain =>
          refine (recognises_plainReference ctx describe source).congr fun reference log => ?_
          simp [Site.EncodesReference, hencoding, h]
      | flagged =>
          refine (recognises_flaggedReference ctx describe source).congr fun reference log => ?_
          simp [Site.EncodesReference, hencoding, h]
      | packed dedicated =>
          refine (recognises_packedReference ctx describe source).congr fun reference log => ?_
          simp [Site.EncodesReference, hencoding, h]

end

end BinaryAst.Decode
