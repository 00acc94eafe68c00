import BinaryAst.Proofs.Decode.Objects
import BinaryAst.Proofs.Wire.Faults
/-!
# BinaryAst.Proofs.Decode.Faults

Which errors end the decoding of a section, and what has been told by then.

In a section the readers are those of opened streams, and reading does not change whose they
are. So no step opens a stream, what it tells is told of streams that are open, and it fails for
what a value can fail for; if the failure is told of a stream, that is an open one, too. What
can be said of the events so far, and stays true with every such event, is a `Ledger`: that
whatever is told of a stream is told behind its opening (`Attested`), for one.

The statements follow the text of the decoders; the recursion is on the levels that are left.
-/

namespace BinaryAst

namespace Event

/-- The description of the stream that the event opens. -/
def opened? : Event → Option String
  | .stream description _ _ => some description
  | .tag _ _ | .field _ _ _ _ | .inline _ _ | .slot _ _ => none

/-- The description of the stream that the event tells a read of. -/
def source? : Event → Option String
  | .tag source _ | .field _ _ source _ | .inline _ source => some source
  | .stream _ _ _ | .slot _ _ => none

end Event

/-- Whatever is read is read from a stream that was opened before: `Event.source?` of an event is
`Event.opened?` of one in front of it. -/
def Sourced (events : List Event) : Prop :=
  ∀ front event back, events = front ++ event :: back → ∀ source, event.source? = some source →
    source ∈ front.filterMap Event.opened?

theorem Sourced.nil : Sourced [] := fun front _ _ h => by
  cases front <;> cases h

/-- An event of `events ++ [last]` is `last`, or it stands in `events` already, behind the same
events. -/
theorem eq_or_mem_of_append_singleton {events front back : List Event} {last event : Event}
    (h : events ++ [last] = front ++ event :: back) :
    (events = front ∧ last = event) ∨ ∃ more, events = front ++ event :: more := by
  rcases List.eq_nil_or_concat back with rfl | ⟨more, final, rfl⟩
  · obtain ⟨rfl, hlast⟩ := List.append_inj' h rfl
    exact .inl ⟨rfl, List.singleton_inj.mp hlast⟩
  · have hfront : events ++ [last] = (front ++ event :: more) ++ [final] := by
      rw [h]
      simp
    exact .inr ⟨more, (List.append_inj' hfront rfl).1⟩

/-- `Sourced` is kept by an event that reads from a stream opened so far, or from none. -/
theorem Sourced.concat {events : List Event} {event : Event} (h : Sourced events)
    (hevent : ∀ source, event.source? = some source → source ∈ events.filterMap Event.opened?) :
    Sourced (events ++ [event]) := by
  intro front other back heq source hsource
  rcases eq_or_mem_of_append_singleton heq with ⟨rfl, rfl⟩ | ⟨more, rfl⟩
  · exact hevent source hsource
  · exact h front other more rfl source hsource

/-- The streams of `names` have been opened, and so was every stream before it was read from
(`Sourced`). -/
structure Attested (names : List String) (events : List Event) : Prop where
  sourced : Sourced events
  opened : ∀ name ∈ names, name ∈ events.filterMap Event.opened?

namespace Attested

variable {names : List String} {events : List Event}

/-- What is read from a stream of `names` leaves the events `Attested`. -/
theorem concat (h : Attested names events) {event : Event}
    (hevent : ∀ source, event.source? = some source → source ∈ names) :
    Attested names (events ++ [event]) := by
  refine ⟨h.sourced.concat fun source hsource => h.opened source (hevent source hsource),
    fun name hname => ?_⟩
  rw [List.filterMap_append]
  exact List.mem_append_left _ (h.opened name hname)

/-- `Attested` names stay so, with the name of a stream that is opened among them. -/
theorem concat_stream (h : Attested names events) (description : String) (offset length : Nat) :
    Attested (description :: names) (events ++ [.stream description offset length]) := by
  refine ⟨h.sourced.concat nofun, List.forall_mem_cons.mpr ⟨?_, fun name hname => ?_⟩⟩
  · simp [Event.opened?]
  · rw [List.filterMap_append]
    exact List.mem_append_left _ (h.opened name hname)

theorem mono {fewer : List String} (h : Attested names events) (hsub : fewer ⊆ names) :
    Attested fewer events := ⟨h.sourced, fun name hname => h.opened name (hsub hname)⟩

end Attested

/-- A property of events that is kept while streams of `names` are read and none is opened. The
decoders of a section are judged by it once, for any such property. -/
structure Ledger (names : List String) where
  /-- What holds of the events. -/
  Holds : List Event → Prop
  concat : ∀ {events : List Event} {event : Event}, Holds events → event.opened? = none →
    (∀ source, event.source? = some source → source ∈ names) → Holds (events ++ [event])

/-- The ledger of `Attested` events. -/
def Ledger.attested (names : List String) : Ledger names where
  Holds := Attested names
  concat h _ hevent := h.concat hevent

namespace Decode

open DecodeError (EndsValueIn EndsSectionIn)

variable {n : Nat} {α β : Type}

/-- The ledger holds of the events, and every reader of the state is one of a stream of `names`. -/
structure State.Heeds {names : List String} (ledger : Ledger names) (s : State n) : Prop where
  events : ledger.Holds s.events.toList
  readers : ∀ lane r, s.lane? lane = some r → r.description ∈ names

/-- The step runs `read` on the reader of one stream and puts it back; the other streams and the
events stay as they are. -/
def Serves (read : Read α) (step : Step n α) : Prop :=
  ∀ s : State n, ∃ (lane : Lane) (r : Reader) (putBack : Reader → State n),
    s.lane? lane = some r ∧ step s = State.serve r putBack read ∧
      ∀ r', (putBack r').events = s.events ∧
        ∀ other, (putBack r').lane? other = if lane = other then some r' else s.lane? other

namespace Serves

variable {read : Read α}

theorem fromSource (source : Source n) : Serves read (Step.fromSource source read) := fun s =>
  ⟨source.lane, s.reader source, s.setReader source, s.lane?_source source, rfl,
    fun r' => ⟨by cases source <;> rfl, fun other => s.lane?_setReader source r' other⟩⟩

theorem fromInlining (source : Source n) : Serves read (Step.fromInlining source read) := by
  intro s
  unfold Step.fromInlining
  split
  case h_1 r hr =>
    exact ⟨.inlining, r, _, hr, rfl, fun r' => ⟨rfl, fun other => by cases other <;> rfl⟩⟩
  case h_2 => exact fromSource source s

theorem fromTypeTags (source : Source n) : Serves read (Step.fromTypeTags source read) := by
  intro s
  unfold Step.fromTypeTags
  split
  case h_1 r hr =>
    exact ⟨.typeTags, r, _, hr, rfl, fun r' => ⟨rfl, fun other => by cases other <;> rfl⟩⟩
  case h_2 => exact fromSource source s

theorem fromPackedIndices (source : Source n) :
    Serves read (Step.fromPackedIndices source read) := by
  intro s
  unfold Step.fromPackedIndices
  split
  case h_1 r hr =>
    exact ⟨.packedIndices, r, _, hr, rfl, fun r' => ⟨rfl, fun other => by cases other <;> rfl⟩⟩
  case h_2 => exact fromSource source s

end Serves

/-- The judgement on a step of a section: from a state that heeds the ledger, it leads to such a
state with a value of `post`, or it fails with an error of `fault`. The ledger holds of the events
that are told up to a failure, too. -/
def Behaves {names : List String} (ledger : Ledger names) (fault : DecodeError → Prop)
    (step : Step n α) (post : α → Prop) : Prop :=
  Triple (State.Heeds ledger) step (fun v t => t.Heeds ledger ∧ post v)
    fun e t => ledger.Holds t.events.toList ∧ fault e

namespace Behaves

variable {names : List String} {ledger : Ledger names} {fault : DecodeError → Prop}

/-- Nothing happens, and the value is to meet `post`. -/
theorem pure {v : α} {post : α → Prop} (h : post v) :
    Behaves ledger fault (Pure.pure v : Step n α) post := Triple.pure fun _ hs => ⟨hs, h⟩

/-- A step that only throws is to throw an error of `fault`. -/
theorem throw {e : DecodeError} {post : α → Prop} (h : fault e) :
    Behaves ledger fault (throw e : Step n α) post :=
  Triple.throw fun _ hs => ⟨hs.events, h⟩

/-- `Behaves` is closed under `>>=`: the second step may rely on what the first one says of its
value. -/
theorem bind {x : Step n α} {f : α → Step n β} {mid : α → Prop} {post : β → Prop}
    (hx : Behaves ledger fault x mid) (hf : ∀ v, mid v → Behaves ledger fault (f v) post) :
    Behaves ledger fault (x >>= f) post :=
  Triple.bind hx fun v s hs => hf v hs.2 s hs.1

theorem map {x : Step n α} {g : α → β} {post : β → Prop}
    (hx : Behaves ledger fault x fun v => post (g v)) : Behaves ledger fault (g <$> x) post :=
  Triple.map hx

theorem mono {x : Step n α} {post post' : α → Prop} {fault' : DecodeError → Prop}
    (hx : Behaves ledger fault x post) (hpost : ∀ v, post v → post' v)
    (hfault : ∀ e, fault e → fault' e) : Behaves ledger fault' x post' :=
  Triple.mono hx (fun _ hs => hs) (fun v _ h => ⟨h.1, hpost v h.2⟩)
    fun e _ h => ⟨h.1, hfault e h.2⟩

theorem ite {p : Prop} [Decidable p] {x y : Step n α} {post : α → Prop}
    (hx : p → Behaves ledger fault x post) (hy : ¬p → Behaves ledger fault y post) :
    Behaves ledger fault (if p then x else y) post := Triple.ite hx hy

/-- A `Behaves` judgement as a `Triple`, with what it says of the value left out. -/
theorem triple {x : Step n α} {post : α → Prop} (h : Behaves ledger fault x post) :
    Triple (State.Heeds ledger) x (fun _ => State.Heeds ledger)
      fun e t => ledger.Holds t.events.toList ∧ fault e :=
  Triple.mono h (fun _ hs => hs) (fun _ _ hs => hs.1) fun _ _ he => he

/-- A `Triple` whose conditions are those of a ledger is a `Behaves` judgement that says nothing of
the value. -/
theorem of_triple {x : Step n α} (h : Triple (State.Heeds ledger) x
    (fun _ => State.Heeds ledger) fun e t => ledger.Holds t.events.toList ∧ fault e) :
    Behaves ledger fault x fun _ => True :=
  Triple.mono h (fun _ hs => hs) (fun _ _ hs => ⟨hs, trivial⟩) fun _ _ he => he

/-- `collectFrom` behaves if the step does at each position. -/
theorem collectFrom {step : Nat → Step n α}
    (h : ∀ position, Behaves ledger fault (step position) fun _ => True) (left position : Nat) :
    Behaves ledger fault (Decode.collectFrom step left position []) fun _ => True :=
  .of_triple (.collectFrom (fun position => (h position).triple) left position)

theorem mapM {γ : Type} {step : γ → Step n α} {cs : List γ}
    (h : ∀ c, Behaves ledger fault (step c) fun _ => True) :
    Behaves ledger fault (cs.mapM step) fun _ => True :=
  .of_triple (.mapM fun c _ => (h c).triple)

/-! ### Reads, descriptions and events -/

section

variable {read : Read α} {post : α → Prop}
  (hread : Triple (·.description ∈ names) read (fun v r => r.description ∈ names ∧ post v)
    fun e _ => fault e)
include hread

/-- A step that `Serves` a read behaves as far as the read itself does: if it keeps the description
of its reader and fails with an error of `fault` only. The other streams stay as they are. -/
theorem of_serves {step : Step n α} (h : Serves read step) : Behaves ledger fault step post := by
  intro s hs
  obtain ⟨lane, r, putBack, hr, hstep, hput⟩ := h s
  rw [hstep]
  unfold State.serve
  split
  case h_1 v r' hrun =>
    obtain ⟨hdescription, hv⟩ := hread.ok (hs.readers lane r hr) hrun
    obtain ⟨hevents, hothers⟩ := hput r'
    refine ⟨⟨hevents.symm ▸ hs.events, fun other r'' hother => ?_⟩, hv⟩
    rw [hothers] at hother
    split at hother
    · exact Option.some.inj hother ▸ hdescription
    · exact hs.readers other r'' hother
  case h_2 e r' hrun =>
    exact ⟨(hput r').1.symm ▸ hs.events, hread.error (hs.readers lane r hr) hrun⟩

theorem fromSource (source : Source n) :
    Behaves ledger fault (Step.fromSource source read) post := of_serves hread (.fromSource source)

theorem fromInlining (source : Source n) :
    Behaves ledger fault (Step.fromInlining source read) post :=
  of_serves hread (.fromInlining source)

theorem fromTypeTags (source : Source n) :
    Behaves ledger fault (Step.fromTypeTags source read) post :=
  of_serves hread (.fromTypeTags source)

theorem fromPackedIndices (source : Source n) :
    Behaves ledger fault (Step.fromPackedIndices source read) post :=
  of_serves hread (.fromPackedIndices source)

end

/-- The description that a step is given is one of `names`. -/
theorem description (source : Source n) :
    Behaves ledger fault (Step.description source) (· ∈ names) := fun s hs =>
  ⟨hs, hs.readers _ _ (s.lane?_source source)⟩

/-- An event may be told if it opens no stream and reads from none but those of `names`. -/
theorem tell {event : Event} (hopened : event.opened? = none)
    (h : ∀ source, event.source? = some source → source ∈ names) :
    Behaves ledger fault (Step.tell event : Step n Unit) fun _ => True := by
  intro s hs
  refine ⟨⟨?_, fun lane r hr => hs.readers lane r ?_⟩, trivial⟩
  · rw [Array.toList_push]
    exact ledger.concat hs.events hopened h
  · cases lane <;> exact hr

/-- `inField` wraps an error of a value into a field, and it stays an error of a value: it ends for
the same cause. -/
theorem inField {x : Step n α} {post : α → Prop}
    (hx : Behaves ledger (EndsValueIn names) x post) (shape field : String) :
    Behaves ledger (EndsValueIn names) (Decode.inField shape field x) post := by
  intro s hs
  unfold Decode.inField
  split
  case h_1 v t hrun => exact hx.ok hs hrun
  case h_2 e t hrun =>
    obtain ⟨hholds, hfault⟩ := hx.error hs hrun
    exact ⟨hholds, hfault.endsValue, hfault.stream⟩

end Behaves

/-! ### Tags and references -/

section

variable {names : List String} {ledger : Ledger names} (ctx : Context n)

/-- A read that reports what it fails for with its own stream (`Read.Accurate`) meets the conditions
of `Behaves.of_serves` for the errors of a value, for any names. -/
theorem behaves_primitive {read : Read α}
    (hread : ∀ r, read.Accurate (Report True r.offset) r) :
    Triple (·.description ∈ names) read (fun _ r => r.description ∈ names ∧ True)
      fun e _ => EndsValueIn names e := by
  intro r hr
  cases hrun : read r with
  | ok v r' => exact ⟨((hread r).ok hrun).description_eq ▸ hr, trivial⟩
  | error e r' =>
      obtain ⟨honward, hreport⟩ := (hread r).error hrun
      exact hreport.endsValueIn (honward.description_eq ▸ hr)

/-- `lookUpTag` reads nothing. An index that has no tag is an error of a value. -/
theorem behaves_lookUpTag (index : Option Nat) :
    Behaves ledger (EndsValueIn names) (lookUpTag ctx index : Step n String) fun _ => True := by
  unfold lookUpTag tagAt
  cases index.bind (ctx.tags[·]?) with
  | none => exact .throw ⟨trivial, nofun⟩
  | some tag => exact .pure trivial

/-- A type tag is told of the stream it was read from, be it `source` or the stream of type tags;
either is a stream of `names`. -/
theorem behaves_typeTag (source : Source n) :
    Behaves ledger (EndsValueIn names) (typeTag ctx source) fun _ => True := by
  have hread : Triple (·.description ∈ names)
      (do return (← Read.index, (← get).description) : Read (Option Nat × String))
      (fun v r => r.description ∈ names ∧ v.2 ∈ names) fun e _ => EndsValueIn names e :=
    (behaves_primitive Read.accurate_index).bind fun _ => .get_bind fun _ =>
      .pure fun _ hr => ⟨hr.1.1, hr.2 ▸ hr.1.1⟩
  refine (Behaves.fromTypeTags hread source).bind fun found hfound =>
    (behaves_lookUpTag ctx found.1).bind fun tag _ =>
      (Behaves.tell rfl fun stream hstream => ?_).bind fun _ _ => .pure trivial
  exact Option.some.inj hstream ▸ hfound

theorem behaves_plainReference (source : Source n) :
    Behaves ledger (EndsValueIn names) (plainReference source) fun _ => True :=
  .map (.fromSource (behaves_primitive Read.accurate_index) source)

/-- A packed reference: an index from `source` or the stream of packed indices, then a look-up in
the tag table. -/
theorem behaves_packedReference (source : Source n) :
    Behaves ledger (EndsValueIn names) (packedReference ctx source) fun _ => True := by
  refine (Behaves.fromPackedIndices (behaves_primitive Read.accurate_index) source).bind
    fun packed _ => ?_
  cases packed with
  | none => exact .pure trivial
  | some packed => exact .ite (fun _ => .map (behaves_lookUpTag ctx _)) fun _ => .pure trivial

/-- A flagged reference: a flag byte, then an index or a type tag, each from a stream of `names`. -/
theorem behaves_flaggedReference (source : Source n) :
    Behaves ledger (EndsValueIn names) (flaggedReference ctx source) fun _ => True :=
  (Behaves.fromInlining (behaves_primitive Read.whole_byte.reports) source).bind fun _ _ =>
    .ite (fun _ => .pure trivial) fun _ =>
      .ite (fun _ => behaves_plainReference source) fun _ => .map (behaves_typeTag ctx source)

/-- However references are encoded, `reference` reads from streams of `names` and fails with an
error of a value. -/
theorem behaves_reference (source : Source n) (viaAny : Bool) :
    Behaves ledger (EndsValueIn names) (reference ctx source viaAny) fun _ => True := by
  refine .ite (fun _ => behaves_plainReference source) fun _ => ?_
  cases ctx.configuration.referenceEncoding with
  | plain => exact behaves_plainReference source
  | flagged => exact behaves_flaggedReference ctx source
  | packed => exact behaves_packedReference ctx source

/-! ### Values -/

/-- Where `inner` has a decoder for what nests, it behaves from any source and for any tag. -/
def InnerBehaves {names : List String} (ledger : Ledger names) (inner : Inner n) : Prop :=
  ∀ decode, inner = some decode → ∀ source tag,
    Behaves ledger (EndsValueIn names) (decode source tag) fun _ => True

theorem innerBehaves_none : InnerBehaves ledger (none : Inner n) := by
  intro decode h
  cases h

/-- `descend` gives a decoder that behaves, or fails because no level is left. -/
theorem behaves_descend {inner : Inner n} (hinner : InnerBehaves ledger inner) :
    Behaves ledger (EndsValueIn names) (descend ctx inner) fun decode => ∀ source tag,
      Behaves ledger (EndsValueIn names) (decode source tag) fun _ => True := by
  cases inner with
  | none => exact .throw ⟨trivial, nofun⟩
  | some decode => exact .pure (hinner decode rfl)

theorem behaves_array {inner : Inner n} (hinner : InnerBehaves ledger inner) (source : Source n) :
    Behaves ledger (EndsValueIn names) (array ctx inner source) fun _ => True :=
  (Behaves.fromSource (behaves_primitive Read.accurate_varUInt32) source).bind fun _ _ =>
    .ite (fun _ => .throw ⟨trivial, nofun⟩) fun _ => .ite (fun _ => .pure trivial) fun _ =>
      (behaves_typeTag ctx source).bind fun tag _ =>
        (behaves_descend ctx hinner).bind fun _ hitem =>
          .map (.collectFrom (fun _ => hitem source tag) _ _)

/-- `valueSource` looks a route up and reads nothing. Where there is none, that is an error of a
value. -/
theorem behaves_valueSource (tag : String) :
    Behaves ledger (EndsValueIn names) (valueSource ctx tag) fun _ => True := by
  unfold valueSource
  cases ctx.routes.lookup tag with
  | none => exact .throw ⟨trivial, nofun⟩
  | some i => exact .pure trivial

theorem behaves_fieldSource (active : Source n) (pinned : Bool) (tag : String) :
    Behaves ledger (EndsValueIn names) (fieldSource ctx active pinned tag) fun _ => True :=
  .ite (fun _ => .pure trivial) fun _ =>
    .ite (fun _ => behaves_valueSource ctx tag) fun _ => .pure trivial

/-- The value of a field is told of the stream that `fieldSource` chooses, and read from there. -/
theorem behaves_fieldValue {inner : Source n → String → Step n Value}
    (hinner : ∀ source tag, Behaves ledger (EndsValueIn names) (inner source tag) fun _ => True)
    (active : Source n) (pinned : Bool) (shape : Shape) (field : FieldDecl) :
    Behaves ledger (EndsValueIn names) (fieldValue ctx inner active pinned shape field)
      fun _ => True := by
  refine (behaves_fieldSource ctx active pinned _).bind fun source _ =>
    (Behaves.description source).bind fun stream hstream =>
      (Behaves.tell rfl fun other hother => ?_).bind fun _ _ => hinner source _
  exact Option.some.inj hother ▸ hstream

/-- `fields` behaves if the decoder of each field does. -/
theorem behaves_fields {inner : Source n → String → Step n Value}
    (hinner : ∀ source tag, Behaves ledger (EndsValueIn names) (inner source tag) fun _ => True)
    (active : Source n) (pinned : Bool) (shape : Shape) :
    Behaves ledger (EndsValueIn names) (fields ctx inner active pinned shape) fun _ => True :=
  (Behaves.mapM fun field => .inField
    ((behaves_fieldValue ctx hinner active pinned shape field).bind fun _ _ => .pure trivial)
      shape.name field.name).bind fun _ _ => .pure trivial

theorem behaves_inlineSource (source : Source n) (tag : String) :
    Behaves ledger (EndsValueIn names) (inlineSource ctx source tag) fun _ => True :=
  .ite (fun _ => behaves_valueSource ctx tag) fun _ => .pure trivial

theorem behaves_lookUpShape (tag : String) :
    Behaves ledger (EndsValueIn names) (lookUpShape ctx tag : Step n Shape) fun _ => True := by
  unfold lookUpShape
  cases ctx.schema.shape? tag with
  | none => exact .throw ⟨trivial, nofun⟩
  | some shape => exact .pure trivial

/-- An inline object is told of the stream that `inlineSource` chooses, and its fields are decoded
one level further in. -/
theorem behaves_inlineObject {inner : Inner n} (hinner : InnerBehaves ledger inner)
    (source : Source n) (tag : String) :
    Behaves ledger (EndsValueIn names) (inlineObject ctx inner source tag) fun _ => True := by
  rw [inlineObject_eq]
  refine (behaves_lookUpShape ctx tag).bind fun shape _ =>
    (behaves_inlineSource ctx source tag).bind fun active _ =>
      (Behaves.description active).bind fun stream hstream =>
        (Behaves.tell rfl fun other hother => ?_).bind fun _ _ =>
          (behaves_descend ctx hinner).bind fun _ hfield => behaves_fields ctx hfield active _ shape
  exact Option.some.inj hother ▸ hstream

/-- `objectValue` behaves: it is a reference, then an inline object or an entry of the object table.
-/
theorem behaves_objectValue {inner : Inner n} (hinner : InnerBehaves ledger inner)
    (source : Source n) (tag : String) (viaAny : Bool) :
    Behaves ledger (EndsValueIn names) (objectValue ctx inner source tag viaAny)
      fun _ => True := by
  refine .ite (fun _ => .throw ⟨trivial, nofun⟩) fun _ =>
    (behaves_reference ctx source viaAny).bind fun reference _ => ?_
  cases reference with
  | null => exact .pure trivial
  | inline shape => exact .map (behaves_inlineObject ctx hinner source shape)
  | slot index => exact .ite (fun _ => .pure trivial) fun _ => .throw ⟨trivial, nofun⟩

/-- By the kind of its tag: `taggedValue` reads a scalar, an array or an object, or refuses an `any`
inside an `any`. -/
theorem behaves_taggedValue {inner : Inner n} (hinner : InnerBehaves ledger inner)
    (source : Source n) (tag : String) (viaAny : Bool) :
    Behaves ledger (EndsValueIn names) (taggedValue ctx inner source tag viaAny)
      fun _ => True := by
  unfold taggedValue
  cases Tag.kind tag with
  | any => exact .throw ⟨trivial, nofun⟩
  | symbol =>
      exact .ite (fun _ => .map (.fromSource (behaves_primitive Read.accurate_index) source))
        fun _ => .map (.fromSource (behaves_primitive Read.accurate_string) source)
  | string => exact .map (.fromSource (behaves_primitive Read.accurate_string) source)
  | boolean => exact .map (.fromSource (behaves_primitive Read.whole_byte.reports) source)
  | integer => exact .map (.fromSource (behaves_primitive Read.whole_int32.reports) source)
  | double => exact .map (.fromSource (behaves_primitive Read.whole_binary64.reports) source)
  | array => exact behaves_array ctx hinner source
  | object => exact behaves_objectValue ctx hinner source tag viaAny

theorem behaves_valueWithin {inner : Inner n} (hinner : InnerBehaves ledger inner)
    (source : Source n) (tag : String) :
    Behaves ledger (EndsValueIn names) (valueWithin ctx inner source tag) fun _ => True :=
  .ite (fun _ => (behaves_typeTag ctx source).bind fun own _ =>
    behaves_taggedValue ctx hinner source own true) fun _ =>
      behaves_taggedValue ctx hinner source tag false

/-- However many levels are left, `value` reads from streams of `names` and fails with an error of
`EndsValueIn`. The induction is on the levels; a level more is `behaves_valueWithin`. -/
theorem behaves_value (levels : Nat) (source : Source n) (tag : String) :
    Behaves ledger (EndsValueIn names) (value ctx levels source tag) fun _ => True := by
  induction levels generalizing source tag with
  | zero => exact behaves_valueWithin ctx innerBehaves_none source tag
  | succ levels ih =>
      refine behaves_valueWithin ctx (fun decode hdecode => ?_) source tag
      exact Option.some.inj hdecode ▸ ih

theorem innerBehaves_innerAt (levels : Nat) : InnerBehaves ledger (innerAt ctx levels) := by
  cases levels with
  | zero => exact innerBehaves_none
  | succ levels =>
      intro decode hdecode
      exact Option.some.inj hdecode ▸ behaves_value ctx levels

/-! ### Sections -/

/-- `tableObject` behaves: its type tag, its shape, then its fields one level further in. -/
theorem behaves_tableObject (source : Source n) (levels : Nat) :
    Behaves ledger (EndsValueIn names) (tableObject ctx (innerAt ctx levels) source)
      fun _ => True :=
  (behaves_typeTag ctx source).bind fun tag _ => (behaves_lookUpShape ctx tag).bind fun shape _ =>
    (behaves_descend ctx (innerBehaves_innerAt ctx levels)).bind fun _ hfield =>
      behaves_fields ctx hfield source false shape

/-- `objectTable` behaves, with one error more than its objects have: a count other than that of the
header. -/
theorem behaves_objectTable :
    Behaves ledger (EndsSectionIn names) (objectTable ctx) fun _ => True := by
  have hvalue : ∀ {α : Type} {x : Step n α}, Behaves ledger (EndsValueIn names) x (fun _ => True) →
      Behaves ledger (EndsSectionIn names) x fun _ => True := fun h =>
    h.mono (fun _ hv => hv) fun _ => .inl
  refine (hvalue (.fromSource (behaves_primitive Read.whole_uint32.reports) .own)).bind
    fun count _ => .ite (fun _ => .collectFrom (fun slot => ?_) _ _) fun _ => .throw (.inr trivial)
  exact (hvalue (behaves_tableObject ctx .own _)).bind fun _ _ =>
    (Behaves.tell rfl (by simp [Event.source?])).bind fun _ _ => .pure trivial

/-- `root` behaves, with one error more than a value has: that it is null. -/
theorem behaves_root : Behaves ledger (EndsSectionIn names) (root ctx) fun _ => True := by
  refine ((behaves_value ctx ctx.limits.maxDepth .own Tag.any).mono (fun _ hv => hv)
    fun _ => .inl).bind fun root _ => ?_
  exact .ite (fun _ => .throw (.inr trivial)) fun _ => .pure trivial

end

end Decode

end BinaryAst
