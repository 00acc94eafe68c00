import BinaryAst.Proofs.Decode.Pieces
/-!
# BinaryAst.Proofs.Decode.Accounts

What the side streams carry.

What a log takes from a side stream is compared with the events that it tells. Each side
stream has its account: type tags with the events of tags (`Log.CarriesTags`), flags and
packed indices with those of inline objects (`Log.CarriesFlags`, `Log.CarriesIndices`). An
account holds of every piece, and it follows logs that are joined, so it holds of all logs of
the grammar.
-/

namespace BinaryAst

/-! ### Which references a configuration has -/

namespace Configuration

variable {c : Configuration}

/-- Without `conditionalInlining`, references are plain, whatever the other switches say. -/
theorem referenceEncoding_eq_plain (h : c.conditionalInlining = false) :
    c.referenceEncoding = .plain := by
  simp [referenceEncoding, h]

/-- Where flags have a stream of their own, `referenceEncoding` is `flagged`: packed ones have none.
-/
theorem referenceEncoding_eq_flagged (h : c.separatesInliningFlags = true) :
    c.referenceEncoding = .flagged := by
  obtain ⟨hinlining, hpacked⟩ : c.conditionalInlining = true ∧ c.packedInliningFlags = false := by
    simpa [separatesInliningFlags] using h
  simp [referenceEncoding, hinlining, hpacked]

/-- With inline objects and packed flags, `referenceEncoding` is `packed`. -/
theorem referenceEncoding_eq_packed (hinlining : c.conditionalInlining = true)
    (hpacked : c.packedInliningFlags = true) :
    c.referenceEncoding = .packed c.packedIndexStream := by
  simp [referenceEncoding, hinlining, hpacked]

end Configuration

/-! ### Indices in a row -/

/-- Some indices, one after another. -/
def Read.indices : (count : Nat) → Read (List (Option Nat))
  | 0 => pure []
  | count + 1 => do
    let index ← Read.index
    let rest ← indices count
    pure (index :: rest)

namespace Decode

variable {format : WireFormat}

/-- The bytes spell these indices, one after another, as `Read.indices` reads them. -/
inductive SpellsRow (format : WireFormat) : List (Option Nat) → Bytes → Prop
  | nil : SpellsRow format [] []
  | cons {index bytes indices more} : Read.Spells format Read.index bytes index →
      SpellsRow format indices more → SpellsRow format (index :: indices) (bytes ++ more)

namespace SpellsRow

theorem single {index : Option Nat} {bytes : Bytes}
    (h : Read.Spells format Read.index bytes index) : SpellsRow format [index] bytes := by
  simpa using cons h nil

/-- The indices that `SpellsRow` spells go on where others end. -/
theorem append {indices later : List (Option Nat)} {bytes more : Bytes}
    (h : SpellsRow format indices bytes) (hlater : SpellsRow format later more) :
    SpellsRow format (indices ++ later) (bytes ++ more) := by
  induction h with
  | nil => exact hlater
  | cons hindex _ ih =>
      rw [List.append_assoc]
      exact .cons hindex ih

/-- A row of indices is spelled for `Read.indices`, in one read. -/
theorem spells {indices : List (Option Nat)} {bytes : Bytes} (h : SpellsRow format indices bytes) :
    Read.Spells format (Read.indices indices.length) bytes indices := by
  induction h with
  | nil => exact .pure []
  | @cons index _ indices more hindex _ ih =>
      have hrest : Read.Spells format (Read.indices indices.length >>= fun rest =>
          pure (index :: rest)) (more ++ []) (index :: indices) := ih.bind (.pure _)
      rw [List.append_nil] at hrest
      exact hindex.bind (f := fun index => Read.indices indices.length >>= fun rest =>
        pure (index :: rest)) hrest

end SpellsRow

variable {site : Site}

/-! ### Type tags -/

/-- The log takes from the stream of type tags the indices of the type tags that it tells, and
tells them of that stream. -/
def Log.CarriesTags (format : WireFormat) (tags : List String) (stream : String) (log : Log) :
    Prop :=
  ∃ (indices : List Nat) (names : List String),
    SpellsRow format (indices.map some) (log.taken .typeTags) ∧
      indices.map (tags[·]?) = names.map some ∧
      log.told.filterMap Event.tag? = names.map fun name => (stream, name)

namespace Log.CarriesTags

variable {format : WireFormat} {tags : List String} {stream : String} {log more : Log}

/-- A log that neither reads the stream of type tags nor tells of a tag `CarriesTags`, none of them.
-/
theorem quiet (htaken : log.taken .typeTags = []) (htold : log.told.filterMap Event.tag? = []) :
    log.CarriesTags format tags stream :=
  ⟨[], [], htaken ▸ .nil, rfl, htold⟩

/-- `CarriesTags` is kept where logs are joined: accounts add up. -/
theorem append (h : log.CarriesTags format tags stream)
    (hmore : more.CarriesTags format tags stream) :
    (log ++ more).CarriesTags format tags stream := by
  obtain ⟨indices, names, hspells, hnames, htold⟩ := h
  obtain ⟨later, others, hspells', hnames', htold'⟩ := hmore
  refine ⟨indices ++ later, names ++ others, ?_, ?_, ?_⟩
  · rw [List.map_append, Log.taken_append]
    exact hspells.append hspells'
  · rw [List.map_append, List.map_append, hnames, hnames']
  · rw [Log.told_append, List.filterMap_append, List.map_append, htold, htold']

end Log.CarriesTags

section

variable (hstream : site.configuration.typeTagStream = true)
include hstream

/-- The log of a `TypeTag` takes its index from the stream of type tags, and tells the tag of that
stream. -/
theorem Site.TypeTag.carriesTags {source : Lane} {tag : String} {log : Log}
    (h : site.TypeTag source tag log) :
    log.CarriesTags site.format site.tags (site.describe .typeTags) := by
  have hlane : site.typeTagLane source = .typeTags := if_pos hstream
  cases h with
  | @intro index bytes tag hindex htag =>
      refine ⟨[index], [tag], ?_, ?_, ?_⟩
      · simpa [Log.taken, hlane] using SpellsRow.single hindex
      · simp [htag]
      · simp [Log.told, Event.tag?, Site.tagEvent, hlane]

/-- `EncodesReference` has a type tag in it where it is flagged and to an inline object, and none
elsewhere. -/
theorem Site.EncodesReference.carriesTags {source : Lane} {viaAny : Bool} {reference : Reference}
    {log : Log} (hsource : source.HoldsValues)
    (h : site.EncodesReference source viaAny reference log) :
    log.CarriesTags site.format site.tags (site.describe .typeTags) := by
  have hplain : ∀ {reference log}, site.PlainReference source reference log →
      Log.CarriesTags site.format site.tags (site.describe .typeTags) log := fun h =>
    .quiet (h.taken_eq_nil hsource.ne_typeTags) (by cases h; rfl)
  have hflag : ∀ flag, Log.CarriesTags site.format site.tags (site.describe .typeTags)
      [.take (site.inliningLane source) flag] := fun flag =>
    .quiet (Log.taken_take_of_ne (Routing.inliningLane_ne hsource.ne_typeTags (by simp)) _) rfl
  have hpacked : ∀ bytes, Log.CarriesTags site.format site.tags (site.describe .typeTags)
      [.take (site.packedLane source) bytes] := fun bytes =>
    .quiet (Log.taken_take_of_ne (Routing.packedLane_ne hsource.ne_typeTags (by simp)) _) rfl
  rcases h.cases with h | ⟨-, h⟩ | ⟨-, h⟩
  · exact hplain h
  · cases h with
    | null => exact hflag _
    | plain hindex => exact (hflag _).append (hplain hindex)
    | inline _ _ htag => exact (hflag _).append (htag.carriesTags hstream)
  · cases h with
    | null | inline | slot => exact hpacked _

/-- A `Piece` carries its type tags in the stream of type tags, where there is one. -/
theorem Site.Piece.carriesTags {piece : Log} (h : site.Piece piece) :
    piece.CarriesTags site.format site.tags (site.describe .typeTags) := by
  cases h with
  | typeTag _ htag => exact htag.carriesTags hstream
  | reference active hsource hreference _ =>
      exact (hreference.carriesTags hstream hsource).append
        (.quiet (site.taken_announced ..) (site.tags_announced ..))
  | bytes hsource => exact .quiet (Log.taken_take_of_ne hsource.ne_typeTags _) rfl
  | field | slot => exact .quiet rfl rfl

/-- By `Pieces.closed`: every log of the grammar carries its type tags. -/
theorem Site.Pieces.carriesTags {log : Log} (h : site.Pieces log) :
    log.CarriesTags site.format site.tags (site.describe .typeTags) :=
  h.closed (.quiet rfl rfl) .append (·.carriesTags hstream)

end

/-! ### Flags -/

/-- The byte is the flag of an inline object: it is neither that of a plain index nor that of
no object. -/
def isInlineFlag (byte : UInt8) : Bool := byte ≠ 0 && byte ≠ 0xFF

/-- The log takes as many flags of inline objects from the stream of flags as it tells of
inline objects. -/
def Log.CarriesFlags (log : Log) : Prop :=
  (log.taken .inlining).countP isInlineFlag = (log.told.filterMap Event.inlineShape?).length

namespace Log.CarriesFlags

variable {log more : Log}

theorem quiet (htaken : log.taken .inlining = [])
    (htold : log.told.filterMap Event.inlineShape? = []) : log.CarriesFlags := by
  rw [CarriesFlags, htaken, htold]
  rfl

theorem append (h : log.CarriesFlags) (hmore : more.CarriesFlags) : (log ++ more).CarriesFlags := by
  rw [CarriesFlags, Log.taken_append, Log.told_append, List.countP_append, List.filterMap_append,
    List.length_append, h, hmore]

end Log.CarriesFlags

section

variable (hflags : site.configuration.separatesInliningFlags = true)
include hflags

/-- `EncodesReference` takes the flag of an inline object (`isInlineFlag`) exactly when one is in
its place. -/
theorem Site.EncodesReference.countP_flags {source : Lane} {viaAny : Bool} {reference : Reference}
    {log : Log} (hsource : source.HoldsValues)
    (h : site.EncodesReference source viaAny reference log) :
    (log.taken .inlining).countP isInlineFlag = reference.inlineShape?.toList.length := by
  have hlane : site.inliningLane source = .inlining := if_pos hflags
  have hplain : ∀ {reference log}, site.PlainReference source reference log →
      (log.taken .inlining).countP isInlineFlag = reference.inlineShape?.toList.length := by
    intro reference log h
    rw [h.taken_eq_nil hsource.ne_inlining, h.inlineShape?_eq_none]
    rfl
  rcases h.cases with h | ⟨-, h⟩ | ⟨⟨dedicated, hencoding⟩, -⟩
  · exact hplain h
  · cases h with
    | null => simp [Log.taken, hlane, isInlineFlag, nullMarker, Reference.inlineShape?]
    | plain hindex => simpa [Log.taken, hlane, isInlineFlag] using hplain hindex
    | @inline flag _ log hnull hzero htag =>
        have hrest : log.taken .inlining = [] :=
          htag.taken_eq_nil (Routing.typeTagLane_ne hsource.ne_inlining (by simp))
        have hflag : isInlineFlag flag = true := by
          simpa [isInlineFlag, hzero, nullMarker] using hnull
        simp [Log.taken, hlane, hrest, hflag, Reference.inlineShape?]
  · rw [Configuration.referenceEncoding_eq_flagged hflags] at hencoding
    cases hencoding

/-- A `Piece` carries the flags of inline objects in the stream of flags, where there is one. -/
theorem Site.Piece.carriesFlags {piece : Log} (h : site.Piece piece) : piece.CarriesFlags := by
  cases h with
  | typeTag hsource htag =>
      exact .quiet (htag.taken_eq_nil (Routing.typeTagLane_ne hsource.ne_inlining (by simp)))
        (inlineShapes_of_visits htag.narrates.visits_eq)
  | reference active hsource hreference _ =>
      rw [Log.CarriesFlags, Log.taken_append, site.taken_announced, List.append_nil,
        Log.told_append, List.filterMap_append, site.inlineShapes_announced,
        inlineShapes_of_visits hreference.narrates.visits_eq]
      exact hreference.countP_flags hflags hsource
  | bytes hsource => exact .quiet (Log.taken_take_of_ne hsource.ne_inlining _) rfl
  | field | slot => exact .quiet rfl rfl

/-- By `Pieces.closed`: every log of the grammar carries its flags. -/
theorem Site.Pieces.carriesFlags {log : Log} (h : site.Pieces log) : log.CarriesFlags :=
  h.closed (.quiet rfl rfl) .append (·.carriesFlags hflags)

end

/-! ### Packed indices -/

/-- The tags of the inline objects that packed indices stand for. -/
def unpackedTags (packed : List (Option Nat)) : List Nat :=
  (packed.filterMap id |>.filter (· % 2 = 1)).map (· / 2)

/-- The slots that packed indices stand for. -/
def unpackedSlots (packed : List (Option Nat)) : List Nat :=
  (packed.filterMap id |>.filter (· % 2 = 0)).map (· / 2)

/-- The log takes from the stream of packed indices the tags of the inline objects that it
tells, and else slots of the object table. -/
def Log.CarriesIndices (format : WireFormat) (tags : List String) (slots : Nat) (log : Log) :
    Prop :=
  ∃ packed, SpellsRow format packed (log.taken .packedIndices) ∧
    (unpackedTags packed).map (tags[·]?) = (log.told.filterMap Event.inlineShape?).map some ∧
    ∀ slot ∈ unpackedSlots packed, slot < slots

namespace Log.CarriesIndices

variable {format : WireFormat} {tags : List String} {slots : Nat} {log more : Log}

theorem quiet (htaken : log.taken .packedIndices = [])
    (htold : log.told.filterMap Event.inlineShape? = []) : log.CarriesIndices format tags slots :=
  ⟨[], htaken ▸ .nil, by rw [htold]; rfl, by simp [unpackedSlots]⟩

theorem append (h : log.CarriesIndices format tags slots)
    (hmore : more.CarriesIndices format tags slots) :
    (log ++ more).CarriesIndices format tags slots := by
  obtain ⟨packed, hspells, htags, hslots⟩ := h
  obtain ⟨later, hspells', htags', hslots'⟩ := hmore
  refine ⟨packed ++ later, ?_, ?_, ?_⟩
  · rw [Log.taken_append]
    exact hspells.append hspells'
  · simp only [unpackedTags, List.filterMap_append, List.filter_append, List.map_append,
      Log.told_append] at htags htags' ⊢
    rw [htags, htags']
  · simp only [unpackedSlots, List.filterMap_append, List.filter_append, List.map_append]
      at hslots hslots' ⊢
    exact List.forall_mem_append.mpr ⟨hslots, hslots'⟩

end Log.CarriesIndices

section

variable (hinlining : site.configuration.conditionalInlining = true)
  (hpacked : site.configuration.packedInliningFlags = true)
  (hstream : site.configuration.packedIndexStream = true)
include hinlining hpacked hstream

/-- A packed index stands for the tag of the inline object that is in the place of the reference
(`unpackedTags`), or for a slot (`unpackedSlots`). -/
theorem Site.EncodesReference.exists_packed {source : Lane} {viaAny : Bool} {reference : Reference}
    {log : Log} (hsource : source.HoldsValues)
    (h : site.EncodesReference source viaAny reference log) :
    ∃ packed, SpellsRow site.format packed (log.taken .packedIndices) ∧
      (unpackedTags packed).map (site.tags[·]?) = reference.inlineShape?.toList.map some ∧
      ∀ slot ∈ unpackedSlots packed, reference = .slot slot := by
  have hlane : site.packedLane source = .packedIndices :=
    if_pos (by simp [Configuration.separatesPackedIndices, hpacked, hstream])
  -- Behind `any` a reference is a plain index, which takes nothing from the packed ones.
  rcases h.cases with h | ⟨hencoding, -⟩ | ⟨-, h⟩
  · refine ⟨[], ?_, ?_, by simp [unpackedSlots]⟩
    · rw [h.taken_eq_nil hsource.ne_packedIndices]
      exact .nil
    · rw [h.inlineShape?_eq_none]
      rfl
  · rw [Configuration.referenceEncoding_eq_packed hinlining hpacked] at hencoding
    cases hencoding
  · cases h with
    | null hindex =>
        refine ⟨[none], ?_, rfl, by simp [unpackedSlots]⟩
        simpa [Log.taken, hlane] using SpellsRow.single hindex
    | @inline index _ _ hindex hodd hshape =>
        refine ⟨[some index], ?_, ?_, ?_⟩
        · simpa [Log.taken, hlane] using SpellsRow.single hindex
        · simp [unpackedTags, hodd, hshape, Reference.inlineShape?]
        · simp [unpackedSlots, hodd]
    | @slot index _ hindex heven =>
        refine ⟨[some index], ?_, ?_, ?_⟩
        · simpa [Log.taken, hlane] using SpellsRow.single hindex
        · simp [unpackedTags, heven, Reference.inlineShape?]
        · simp [unpackedSlots]

/-- A `Piece` carries the tags of inline objects in the stream of packed indices, where there is
one. -/
theorem Site.Piece.carriesIndices {piece : Log} (h : site.Piece piece) :
    piece.CarriesIndices site.format site.tags site.slots := by
  cases h with
  | typeTag hsource htag =>
      exact .quiet (htag.taken_eq_nil (Routing.typeTagLane_ne hsource.ne_packedIndices (by simp)))
        (inlineShapes_of_visits htag.narrates.visits_eq)
  | reference active hsource hreference hslot =>
      obtain ⟨packed, hspells, htags, hslots⟩ :=
        hreference.exists_packed hinlining hpacked hstream hsource
      refine ⟨packed, ?_, ?_, fun slot hmem => hslot slot (hslots slot hmem)⟩
      · rwa [Log.taken_append, site.taken_announced, List.append_nil]
      · rwa [Log.told_append, List.filterMap_append, site.inlineShapes_announced,
          inlineShapes_of_visits hreference.narrates.visits_eq]
  | bytes hsource => exact .quiet (Log.taken_take_of_ne hsource.ne_packedIndices _) rfl
  | field | slot => exact .quiet rfl rfl

theorem Site.Pieces.carriesIndices {log : Log} (h : site.Pieces log) :
    log.CarriesIndices site.format site.tags site.slots :=
  h.closed (.quiet rfl rfl) .append (·.carriesIndices hinlining hpacked hstream)

end

section

variable (hinlining : site.configuration.conditionalInlining = false)
include hinlining

/-- Without inline objects, a `Piece` takes nothing from the stream of packed indices. -/
theorem Site.Piece.taken_packedIndices {piece : Log} (h : site.Piece piece) :
    piece.taken .packedIndices = [] := by
  have hencoding := Configuration.referenceEncoding_eq_plain hinlining
  cases h with
  | typeTag hsource htag =>
      exact htag.taken_eq_nil (Routing.typeTagLane_ne hsource.ne_packedIndices (by simp))
  | reference active hsource hreference _ =>
      rw [Log.taken_append, site.taken_announced, List.append_nil]
      rcases hreference.cases with h | ⟨h, -⟩ | ⟨⟨_, h⟩, -⟩
      · exact h.taken_eq_nil hsource.ne_packedIndices
      · cases hencoding.symm.trans h
      · cases hencoding.symm.trans h
  | bytes hsource => exact Log.taken_take_of_ne hsource.ne_packedIndices _
  | field | slot => rfl

theorem Site.Pieces.taken_packedIndices {log : Log} (h : site.Pieces log) :
    log.taken .packedIndices = [] :=
  h.closed (P := fun log => log.taken .packedIndices = []) rfl
    (fun hlog hmore => by rw [Log.taken_append, hlog, hmore, List.nil_append])
    (·.taken_packedIndices hinlining)

end

end Decode

end BinaryAst
