import BinaryAst.Proofs.Encode.Encoder
/-!
# BinaryAst.Proofs.Encode.Grammatical

What is encoded is in the grammar.

For every draft that suits its tag there is a log of the grammar that takes, act by act,
what the encoder puts, so the encoder and the decoder agree on the order in each stream.
The log tells events in between, of which an encoder knows nothing (`Log.silent`).

The proof is by induction on how the draft suits its tag.
-/

namespace BinaryAst.Decode

/-- The log without its events. -/
def Log.silent : Log → Log
  | [] => []
  | .take lane bytes :: log => .take lane bytes :: silent log
  | .tell _ :: log => silent log

namespace Log

@[simp] theorem silent_append (log more : Log) :
    silent (log ++ more) = silent log ++ silent more := by
  induction log with
  | nil => rfl
  | cons act log ih => cases act <;> simp [silent, ih]

@[simp] theorem taken_silent (lane : Lane) (log : Log) :
    taken lane (silent log) = taken lane log := by
  induction log with
  | nil => rfl
  | cons act log ih => cases act <;> simp [silent, taken, ih]

end Log

namespace Put

variable {format : WireFormat}

@[simp] theorem log_append (puts more : List Put) :
    log format (puts ++ more) = log format puts ++ log format more := List.map_append

theorem fit_append_iff {puts more : List Put} :
    Fit format (puts ++ more) ↔ Fit format puts ∧ Fit format more := List.forall_mem_append

theorem fit_cons_iff {put : Put} {puts : List Put} :
    Fit format (put :: puts) ↔ put.step.Fits format ∧ Fit format puts := List.forall_mem_cons

/-- The bytes that `Put.log` takes from a stream are those of the steps that were put there. -/
theorem taken_log (lane : Lane) (puts : List Put) :
    (log format puts).taken lane = WriteStep.bytesAll format (stepsOn lane puts) := by
  induction puts with
  | nil => rfl
  | cons put puts ih =>
      have hcons : log format (put :: puts) =
          .take put.lane (put.step.bytes format) :: log format puts := rfl
      by_cases h : put.lane = lane
      · simp [hcons, Log.taken, stepsOn, h, WriteStep.bytesAll] at ih ⊢
        exact ih
      · simp [hcons, Log.taken, stepsOn, h] at ih ⊢
        exact ih

end Put

/-- The tags in the tag table have their value streams, where values are kept by tag. -/
def Routing.RoutesTags (routing : Routing) : Prop :=
  routing.configuration.valueStreamPerType = true →
    ∀ tag ∈ routing.tags, (routing.route tag).isSome = true

namespace Site

variable {site : Site} {source : Lane} {viaAny : Bool}

/-! ### Tags and references -/

theorem tagIndex_spec {tag : String} (h : tag ∈ site.tags) :
    site.tags[site.tagIndex tag]? = some tag := by
  have hlt : site.tags.idxOf tag < site.tags.length := List.idxOf_lt_length_iff.mpr h
  rw [Routing.tagIndex, List.getElem?_eq_getElem hlt, List.getElem_idxOf hlt]

/-- What `putTag` puts is a `Site.TypeTag`, with the event of the tag found beside it. -/
theorem exists_typeTag {tag : String} (h : tag ∈ site.tags)
    (hfit : Put.Fit site.format (site.putTag source tag)) :
    ∃ log, site.TypeTag source tag log ∧
      log.silent = Put.log site.format (site.putTag source tag) :=
  ⟨_, .intro (Write.spells_index (hfit _ List.mem_cons_self)) (tagIndex_spec h), rfl⟩

/-- What `putPlain` puts is a `Site.PlainReference`. -/
theorem exists_plainReference {reference : Reference} (h : ∀ shape, reference ≠ .inline shape)
    (hfit : Put.Fit site.format (Routing.putPlain source reference)) :
    ∃ log, site.PlainReference source reference log ∧
      log.silent = Put.log site.format (Routing.putPlain source reference) := by
  cases reference with
  | null => exact ⟨_, .intro (Write.spells_index (hfit _ List.mem_cons_self)), rfl⟩
  | slot slot => exact ⟨_, .intro (Write.spells_index (hfit _ List.mem_cons_self)), rfl⟩
  | inline shape => exact absurd rfl (h shape)

/-- What `putFlagged` puts is a `Site.FlaggedReference`. -/
theorem exists_flaggedReference {reference : Reference}
    (h : ∀ shape, reference = .inline shape → shape ∈ site.tags)
    (hfit : Put.Fit site.format (site.putFlagged source reference)) :
    ∃ log, site.FlaggedReference source reference log ∧
      log.silent = Put.log site.format (site.putFlagged source reference) := by
  cases reference with
  | null => exact ⟨_, .null, rfl⟩
  | slot slot =>
      rw [Routing.putFlagged, Put.fit_cons_iff] at hfit
      have hplain : ∀ shape, Reference.slot slot ≠ .inline shape := by simp
      obtain ⟨log, hlog, hsilent⟩ := exists_plainReference hplain hfit.2
      exact ⟨_, .plain hlog, congrArg _ hsilent⟩
  | inline shape =>
      rw [Routing.putFlagged, Put.fit_cons_iff] at hfit
      obtain ⟨log, hlog, hsilent⟩ := exists_typeTag (h shape rfl) hfit.2
      exact ⟨_, .inline (by decide) (by decide) hlog, congrArg _ hsilent⟩

/-- What `putPacked` puts is a `Site.PackedReference`: the low bit is the flag, and the others are
what was packed. -/
theorem exists_packedReference {reference : Reference}
    (h : ∀ shape, reference = .inline shape → shape ∈ site.tags)
    (hfit : Put.Fit site.format (site.putPacked source reference)) :
    ∃ log, site.PackedReference source reference log ∧
      log.silent = Put.log site.format (site.putPacked source reference) := by
  cases reference with
  | null => exact ⟨_, .null (Write.spells_index (hfit _ List.mem_cons_self)), rfl⟩
  | slot slot =>
      -- the flag is clear, so halving gives the slot back
      have hslot : 2 * slot / 2 = slot := by omega
      have hlog : site.PackedReference source (.slot (2 * slot / 2)) _ :=
        .slot (Write.spells_index (hfit _ List.mem_cons_self)) (by omega)
      rw [hslot] at hlog
      exact ⟨_, hlog, rfl⟩
  | inline shape =>
      have hindex : (2 * site.tagIndex shape + 1) / 2 = site.tagIndex shape := by omega
      refine ⟨_, .inline (Write.spells_index (hfit _ List.mem_cons_self)) (by omega) ?_, rfl⟩
      rw [hindex]
      exact tagIndex_spec (h shape rfl)

/-- What `putReference` puts is a reference of `EncodesReference`, whatever the configuration. An
inline one must be allowed for where it stands. -/
theorem exists_reference {reference : Reference}
    (h : ∀ shape, reference = .inline shape →
      viaAny = false ∧ site.configuration.conditionalInlining = true ∧ shape ∈ site.tags)
    (hfit : Put.Fit site.format (site.putReference source viaAny reference)) :
    ∃ log, site.EncodesReference source viaAny reference log ∧
      log.silent = Put.log site.format (site.putReference source viaAny reference) := by
  have htags : ∀ shape, reference = .inline shape → shape ∈ site.tags :=
    fun shape hshape => (h shape hshape).2.2
  unfold EncodesReference
  unfold Routing.putReference at hfit ⊢
  cases viaAny with
  | true =>
      refine exists_plainReference (fun shape hshape => ?_) hfit
      have := (h shape hshape).1
      contradiction
  | false =>
      cases hencoding : site.configuration.referenceEncoding with
      | plain =>
          simp only [hencoding] at hfit ⊢
          refine exists_plainReference (fun shape hshape => ?_) hfit
          -- plain references are for configurations without inline objects
          have hinlining := (h shape hshape).2.1
          simp only [Configuration.referenceEncoding, hinlining] at hencoding
          split at hencoding
          · contradiction
          · split at hencoding <;> contradiction
      | flagged =>
          simp only [hencoding] at hfit ⊢
          exact exists_flaggedReference htags hfit
      | packed dedicated =>
          simp only [hencoding] at hfit ⊢
          exact exists_packedReference htags hfit

end Site

/-! ### Values -/

section values

variable {site : Site} {source : Lane} {viaAny : Bool}

/-- A scalar that is put is read back: its bytes are what `SpellsScalar` spells. -/
theorem exists_scalar {tag : String} {value : Value} {step : WriteStep}
    (h : site.SpellsScalar (Tag.kind tag) value (step.bytes site.format)) :
    ∃ log, EncodesAs site viaAny source tag value log ∧
      log.silent = Put.log site.format [⟨source, step⟩] :=
  ⟨_, .scalar h, rfl⟩

/-- A `string` that is put is read back, null or not. -/
theorem exists_string {tag : String} (hkind : Tag.kind tag = .string) (text : Option String)
    (hfit : Put.Fit site.format [⟨source, .string text⟩]) :
    ∃ log, EncodesAs site viaAny source tag (text.elim .null .string) log ∧
      log.silent = Put.log site.format [⟨source, .string text⟩] :=
  exists_scalar (hkind ▸ .string (Write.spells_string (hfit _ List.mem_cons_self)))

/-- A symbol that is put as a text is read back as a `symbol`, null or not. -/
theorem exists_symbol {tag : String} (hkind : Tag.kind tag = .symbol)
    (hplain : site.configuration.internedSymbols = false) (text : Option String)
    (hfit : Put.Fit site.format [⟨source, .string text⟩]) :
    ∃ log, EncodesAs site viaAny source tag (text.elim .null .symbol) log ∧
      log.silent = Put.log site.format [⟨source, .string text⟩] :=
  exists_scalar (hkind ▸ .symbol (.text hplain (Write.spells_string (hfit _ List.mem_cons_self))))

/-- A symbol that is put as an index is read back as an `internedSymbol`, null or not. -/
theorem exists_internedSymbol {tag : String} (hkind : Tag.kind tag = .symbol)
    (hinterned : site.configuration.internedSymbols = true) (index : Option Nat)
    (hfit : Put.Fit site.format [⟨source, .index index⟩]) :
    ∃ log, EncodesAs site viaAny source tag (index.elim .null .internedSymbol) log ∧
      log.silent = Put.log site.format [⟨source, .index index⟩] :=
  exists_scalar
    (hkind ▸ .symbol (.interned hinterned (Write.spells_index (hfit _ List.mem_cons_self))))

/-- What `putNull` puts encodes a null under each tag that has one. -/
theorem exists_null {tag : String} (hkind : Tag.kind tag ≠ .any)
    (h : Conforms site.toSetting tag .null)
    (hfit : Put.Fit site.format (site.putNull source viaAny tag)) :
    ∃ log, EncodesAs site viaAny source tag .null log ∧
      log.silent = Put.log site.format (site.putNull source viaAny tag) := by
  unfold Routing.putNull at hfit ⊢
  cases h with
  | nullString hstring =>
      simp only [hstring] at hfit ⊢
      exact exists_string hstring none hfit
  | nullSymbol hsymbol =>
      simp only [hsymbol] at hfit ⊢
      cases hinterned : site.configuration.internedSymbols with
      | true =>
          simp only [hinterned] at hfit ⊢
          exact exists_internedSymbol hsymbol hinterned none hfit
      | false =>
          simp only [hinterned] at hfit ⊢
          exact exists_symbol hsymbol hinterned none hfit
  | nullReference hknown =>
      simp only [hknown.1] at hfit ⊢
      obtain ⟨log, hlog, hsilent⟩ := Site.exists_reference (by simp) hfit
      exact ⟨log, .null hknown hlog, hsilent⟩
  | any hany => exact absurd hany hkind

/-- What `putAtom` puts encodes a value that holds no other, if that suits its tag. -/
theorem exists_atom {tag : String} {a : Atom} (hkind : Tag.kind tag ≠ .any)
    (h : Conforms site.toSetting tag a.value)
    (hfit : Put.Fit site.format (site.putAtom source viaAny tag a)) :
    ∃ log, EncodesAs site viaAny source tag a.value log ∧
      log.silent = Put.log site.format (site.putAtom source viaAny tag a) := by
  cases a with
  -- A null conforms to more than one tag, so it has cases of its own.
  | null => exact exists_null hkind h hfit
  | bool value =>
      cases h with
      | boolean hboolean =>
          have hvalue : Value.bool value = .bool ((if value then (1 : UInt8) else 0) ≠ 0) := by
            cases value <;> rfl
          rw [Atom.value, hvalue]
          exact exists_scalar (hboolean ▸ .boolean (Write.spells_byte _))
      | any hany => exact absurd hany hkind
  | integer value =>
      cases h with
      | integer hinteger => exact exists_scalar (hinteger ▸ .integer (Write.spells_int32 value))
      | any hany => exact absurd hany hkind
  | double value =>
      cases h with
      | double hdouble => exact exists_scalar (hdouble ▸ .double (Write.spells_binary64 value))
      | any hany => exact absurd hany hkind
  | string text =>
      cases h with
      | string hstring => exact exists_string hstring (some text) hfit
      | any hany => exact absurd hany hkind
  | symbol text =>
      cases h with
      | symbol hsymbol hplain => exact exists_symbol hsymbol hplain (some text) hfit
      | any hany => exact absurd hany hkind
  | internedSymbol index =>
      cases h with
      | internedSymbol hsymbol hinterned =>
          exact exists_internedSymbol hsymbol hinterned (some index) hfit
      | any hany => exact absurd hany hkind
  | ref slot =>
      cases h with
      | ref hknown hslot =>
          obtain ⟨log, hlog, hsilent⟩ := Site.exists_reference (by simp) hfit
          exact ⟨log, .ref hknown hlog hslot, hsilent⟩
      | any hany => exact absurd hany hkind

/-- A value in the place of a tag, or behind a tag of its own. -/
def EncodesVia (site : Site) (viaAny : Bool) (source : Lane) (tag : String) (value : Value)
    (log : Log) : Prop :=
  match viaAny with
  | true => EncodesAs site true source tag value log
  | false => Encodes site source tag value log

theorem EncodesVia.of_as {tag : String} {value : Value} {log : Log}
    (hkind : Tag.kind tag ≠ .any) (h : EncodesAs site viaAny source tag value log) :
    EncodesVia site viaAny source tag value log := by
  cases viaAny with
  | true => exact h
  | false => exact .declared hkind h

/-- What `putItems` puts is read back when each of the items is. -/
theorem exists_items {tag : String} {items : List Draft}
    (h : ∀ item ∈ items, ∀ source, Put.Fit site.format (site.putValue source false tag item) →
      ∃ log, Encodes site source tag item.value log ∧
        log.silent = Put.log site.format (site.putValue source false tag item))
    (hfit : Put.Fit site.format (site.putItems source tag items)) :
    ∃ log, EncodesItems site source tag (Draft.values items) log ∧
      log.silent = Put.log site.format (site.putItems source tag items) := by
  induction items with
  | nil => exact ⟨[], .nil, rfl⟩
  | cons item items ih =>
      rw [List.forall_mem_cons] at h
      rw [Routing.putItems, Put.fit_append_iff] at hfit
      obtain ⟨log, hlog, hsilent⟩ := h.1 source hfit.1
      obtain ⟨more, hmore, hmoreSilent⟩ := ih h.2 hfit.2
      refine ⟨log ++ more, .cons hlog hmore, ?_⟩
      rw [Routing.putItems, Log.silent_append, Put.log_append, hsilent, hmoreSilent]

/-- `fieldLane` finds a stream when the tag of the field is in the tag table, or when it needs none.
-/
theorem fieldLane_isSome (hroutes : site.RoutesTags) (active : Lane) {pinned : Bool}
    {decl : FieldDecl} {decls : List FieldDecl} (hlists : site.Lists pinned (decl :: decls)) :
    ∃ source, site.fieldLane active pinned (site.schema.fieldTag decl) = some source := by
  unfold Routing.fieldLane
  split
  · exact ⟨active, rfl⟩
  case isFalse hpinned =>
  split
  case isTrue hstreams =>
    have htag := hlists hstreams decl List.mem_cons_self
      fun hpin => by simpa [hpin] using hpinned
    obtain ⟨i, hi⟩ := Option.isSome_iff_exists.mp (hroutes hstreams _ htag)
    exact ⟨.values i, by rw [Routing.valueLane, hi, Option.map_some]⟩
  case isFalse => exact ⟨active, rfl⟩

/-- `inlineLane` finds a stream when the shape is in the tag table. -/
theorem inlineLane_isSome (hroutes : site.RoutesTags) (source : Lane) {shape : String}
    (h : shape ∈ site.tags) :
    ∃ active, site.inlineLane source shape = some active := by
  unfold Routing.inlineLane
  split
  case isTrue hstreams =>
    have hper : site.configuration.valueStreamPerType = true := by
      simp only [Configuration.separatesInlineObjects, Bool.and_eq_true] at hstreams
      exact hstreams.1
    obtain ⟨i, hi⟩ := Option.isSome_iff_exists.mp (hroutes hper shape h)
    exact ⟨.values i, by rw [Routing.valueLane, hi, Option.map_some]⟩
  case isFalse => exact ⟨source, rfl⟩

/-- What `putFields` puts is read back when the value of each field is. -/
theorem exists_fields (hroutes : site.RoutesTags) {active : Lane} {pinned : Bool} {shape : String}
    {decls : List FieldDecl} {fields : List (Field Draft)}
    (hlists : site.Lists pinned decls)
    (hnames : fields.map (·.name) = decls.map (·.name))
    (h : ∀ pair ∈ decls.zip fields, ∀ source,
      Put.Fit site.format (site.putValue source false (site.schema.fieldTag pair.1) pair.2.value) →
        ∃ log, Encodes site source (site.schema.fieldTag pair.1) pair.2.value.value log ∧
          log.silent = Put.log site.format
            (site.putValue source false (site.schema.fieldTag pair.1) pair.2.value))
    (hfit : Put.Fit site.format (site.putFields active pinned decls fields)) :
    ∃ log, EncodesFields site active pinned shape decls (Draft.fieldValues fields) log ∧
      log.silent = Put.log site.format (site.putFields active pinned decls fields) := by
  induction decls generalizing fields with
  | nil =>
      obtain rfl := List.map_eq_nil_iff.mp hnames
      exact ⟨[], .nil, rfl⟩
  | cons decl decls ih =>
      obtain ⟨⟨name, draft⟩, fields, rfl, hname, hrest⟩ := List.map_eq_cons_iff.mp hnames
      obtain rfl : name = decl.name := hname
      rw [List.zip_cons_cons, List.forall_mem_cons] at h
      obtain ⟨source, hsource⟩ := fieldLane_isSome hroutes active hlists
      rw [Routing.putFields, hsource, Option.getD_some, Put.fit_append_iff] at hfit
      obtain ⟨log, hlog, hsilent⟩ := h.1 source hfit.1
      obtain ⟨more, hmore, hmoreSilent⟩ := ih
        (fun hstreams decl hdecl => hlists hstreams decl (List.mem_cons_of_mem _ hdecl)) hrest h.2
        hfit.2
      refine ⟨_, .cons hsource hlog hmore, ?_⟩
      rw [Routing.putFields, hsource, Option.getD_some, Put.log_append, Log.silent,
        Log.silent_append, hsilent, hmoreSilent]

/-- What `putValue` puts for a draft that suits its tag is a log of `EncodesVia`, events added. By
recursion on how the draft suits, with one case for each rule. -/
theorem exists_value (hroutes : site.RoutesTags) {tag : String} {draft : Draft}
    (h : draft.Suits site.toSetting viaAny tag) :
    ∀ source, Put.Fit site.format (site.putValue source viaAny tag draft) →
      ∃ log, EncodesVia site viaAny source tag draft.value log ∧
        log.silent = Put.log site.format (site.putValue source viaAny tag draft) := by
  induction h with
  | atom hkind hconforms =>
      intro source hfit
      obtain ⟨log, hlog, hsilent⟩ := exists_atom hkind hconforms hfit
      exact ⟨log, .of_as hkind hlog, hsilent⟩
  | @array viaAny tag inner items hkind hinner _ ih =>
      intro source hfit
      have hany : Tag.kind tag ≠ .any := by simp [hkind]
      rw [Routing.putValue, Put.fit_cons_iff] at hfit
      obtain ⟨hcount, hfit⟩ := hfit
      -- an empty array is its length alone, with no tag behind it
      cases items with
      | nil =>
          refine ⟨_, .of_as hany (.emptyArray hkind (Write.spells_varUInt32 hcount)), ?_⟩
          rfl
      | cons item items =>
          rw [if_neg (by simp), Put.fit_append_iff] at hfit
          obtain ⟨tagLog, htag, htagSilent⟩ := Site.exists_typeTag (hinner (by simp)) hfit.1
          obtain ⟨log, hlog, hsilent⟩ := exists_items ih hfit.2
          have hbytes : Read.Spells site.format Read.varUInt32
              (Write.varUInt32 site.format (item :: items).length)
                (Draft.values (item :: items)).length := by
            rw [Draft.values_eq_map, List.length_map]
            exact Write.spells_varUInt32 hcount
          refine ⟨_, .of_as hany (.array hkind (by simp [Draft.values]) hbytes htag hlog), ?_⟩
          rw [Routing.putValue, if_neg (by simp), Log.silent, Log.silent_append, htagSilent,
            hsilent, ← Put.log_append]
          rfl
  | announced hkind hinner _ ih =>
      intro source hfit
      rw [Routing.putValue, Put.fit_append_iff] at hfit
      obtain ⟨tagLog, htag, htagSilent⟩ := Site.exists_typeTag hinner hfit.1
      obtain ⟨log, hlog, hsilent⟩ := ih source hfit.2
      refine ⟨tagLog ++ log, .any hkind htag hlog, ?_⟩
      rw [Routing.putValue, Log.silent_append, Put.log_append, htagSilent, hsilent]
  | @inline tag shape object hknown hinlining hshape hmem hlists hnames _ ih =>
      intro source hfit
      obtain ⟨name, fields⟩ := object
      obtain rfl : shape.name = name := Schema.name_of_shape? hshape
      -- behind the reference, the fields may be in the stream of the shape
      obtain ⟨active, hactive⟩ := inlineLane_isSome hroutes source hmem
      have hdecls : site.declsOf shape.name = shape.fields := by
        rw [Routing.declsOf, hshape]
        rfl
      rw [Routing.putValue, hactive, Option.getD_some, hdecls, Put.fit_append_iff] at hfit
      obtain ⟨log, hlog, hsilent⟩ := Site.exists_reference
        (by rintro _ ⟨⟩; exact ⟨rfl, hinlining, hmem⟩) hfit.1
      obtain ⟨more, hmore, hmoreSilent⟩ := exists_fields hroutes hlists hnames ih hfit.2
      refine ⟨_, .of_as (by simp [hknown.1]) (.inline hknown hlog hshape hactive hmore), ?_⟩
      rw [Routing.putValue, hactive, Option.getD_some, hdecls, Log.silent_append, Put.log_append,
        Log.silent, hsilent, hmoreSilent]

end values

/-! ### Sections -/

section sections

variable {site : Site}

/-- What `putObject` puts is a log of `EncodesObject`. -/
theorem exists_object (hroutes : site.RoutesTags) {object : Object Draft}
    (h : Draft.ObjectSuits site.toSetting object)
    (hfit : Put.Fit site.format (site.putObject object)) :
    ∃ log, EncodesObject site (Draft.object object) log ∧
      log.silent = Put.log site.format (site.putObject object) := by
  obtain ⟨name, fields⟩ := object
  obtain ⟨shape, hshape, hmem, hlists, hnames, hvalues⟩ := h
  obtain rfl : shape.name = name := Schema.name_of_shape? hshape
  have hdecls : site.declsOf shape.name = shape.fields := by
    rw [Routing.declsOf, hshape]
    rfl
  rw [Routing.putObject, hdecls, Put.fit_append_iff] at hfit
  obtain ⟨log, hlog, hsilent⟩ := Site.exists_typeTag hmem hfit.1
  obtain ⟨more, hmore, hmoreSilent⟩ := exists_fields hroutes hlists hnames
    (fun pair hpair => exists_value hroutes (hvalues pair hpair)) hfit.2
  refine ⟨log ++ more, .intro hlog hshape hmore, ?_⟩
  rw [Routing.putObject, hdecls, Log.silent_append, Put.log_append, hsilent, hmoreSilent]

/-- The objects from a slot on are read back as `EncodesSlots` when they are put (`putObject`). -/
theorem exists_slots (hroutes : site.RoutesTags) {objects : List (Object Draft)}
    (h : ∀ object ∈ objects, Draft.ObjectSuits site.toSetting object)
    (hfit : Put.Fit site.format (objects.flatMap site.putObject)) (slot : Nat) :
    ∃ log, EncodesSlots site slot (objects.map Draft.object) log ∧
      log.silent = Put.log site.format (objects.flatMap site.putObject) := by
  induction objects generalizing slot with
  | nil => exact ⟨[], .nil, rfl⟩
  | cons object objects ih =>
      rw [List.forall_mem_cons] at h
      rw [List.flatMap_cons, Put.fit_append_iff] at hfit
      obtain ⟨log, hlog, hsilent⟩ := exists_object hroutes h.1 hfit.1
      obtain ⟨more, hmore, hmoreSilent⟩ := ih h.2 hfit.2 (slot + 1)
      refine ⟨_, .cons hlog hmore, ?_⟩
      rw [List.flatMap_cons, Log.silent_append, Put.log_append, Log.silent, hsilent, hmoreSilent]

/-- What `putTable` puts is a log of `EncodesTable`, with as many slots as there are objects. -/
theorem exists_table (hroutes : site.RoutesTags) {objects : List (Object Draft)}
    (hslots : objects.length = site.slots)
    (h : ∀ object ∈ objects, Draft.ObjectSuits site.toSetting object)
    (hfit : Put.Fit site.format (site.putTable objects)) :
    ∃ log, EncodesTable site (objects.map Draft.object) log ∧
      log.silent = Put.log site.format (site.putTable objects) := by
  rw [Routing.putTable, Put.fit_cons_iff] at hfit
  obtain ⟨log, hlog, hsilent⟩ := exists_slots hroutes h hfit.2 0
  have hcount : Read.Spells site.format Read.uint32 (Write.uint32 objects.length)
      (objects.map Draft.object).length := by
    rw [List.length_map]
    exact Write.spells_uint32 hfit.1
  exact ⟨_, .intro hcount (by rwa [List.length_map]) hlog, congrArg _ hsilent⟩

/-- What `putRoot` puts is a log of `EncodesRoot`, if the root is not null. -/
theorem exists_root (hroutes : site.RoutesTags) {root : Draft}
    (h : root.Suits site.toSetting false Tag.any) (hnull : root.value.isNull = false)
    (hfit : Put.Fit site.format (site.putRoot root)) :
    ∃ log, EncodesRoot site root.value log ∧
      log.silent = Put.log site.format (site.putRoot root) := by
  obtain ⟨log, hlog, hsilent⟩ := exists_value hroutes h .own hfit
  exact ⟨log, .intro hlog hnull, hsilent⟩

end sections

end BinaryAst.Decode
