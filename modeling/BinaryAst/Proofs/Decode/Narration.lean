import BinaryAst.Proofs.Decode.Grammar
import BinaryAst.Proofs.Visits
/-!
# BinaryAst.Proofs.Decode.Narration

What a log of the grammar tells is the visit of what it encodes (`Encodes.narrates`).

A log `Narrates` a visit when the events that it tells, less the type tags, are that visit, and
none of them is about anything but values. Reads tell nothing, so narration follows a log that
is cut in two, and the rules of the grammar one by one.
-/

namespace BinaryAst.Decode

variable {site : Site}

/-- The log tells the visit, and tells of values only. -/
structure Log.Narrates (log : Log) (visits : List Visit) : Prop where
  visits_eq : log.told.filterMap Event.visit? = visits
  inner : ∀ event ∈ log.told, event.IsInner

namespace Log.Narrates

variable {log more : Log} {visits later : List Visit}

theorem nil : Narrates [] [] := ⟨rfl, by simp⟩

theorem append (hlog : log.Narrates visits) (hmore : more.Narrates later) :
    Narrates (log ++ more) (visits ++ later) := by
  refine ⟨?_, ?_⟩
  · rw [told_append, List.filterMap_append, hlog.visits_eq, hmore.visits_eq]
  · rw [told_append]
    exact List.forall_mem_append.mpr ⟨hlog.inner, hmore.inner⟩

/-- A log `Narrates` the same visits with a read in front: a read tells nothing. -/
theorem take (lane : Lane) (bytes : Bytes) (h : log.Narrates visits) :
    Narrates (.take lane bytes :: log) visits := ⟨h.visits_eq, h.inner⟩

theorem tell {event : Event} {visit : Visit} (hevent : event.visit? = some visit)
    (hinner : event.IsInner) (h : log.Narrates visits) :
    Narrates (.tell event :: log) (visit :: visits) :=
  ⟨by rw [told, List.filterMap_cons_some hevent, h.visits_eq],
    List.forall_mem_cons.mpr ⟨hinner, h.inner⟩⟩

/-- A type tag is no part of what a log `Narrates`. -/
theorem tellTag (stream tag : String) (h : log.Narrates visits) :
    Narrates (.tell (.tag stream tag) :: log) visits :=
  ⟨h.visits_eq, List.forall_mem_cons.mpr ⟨trivial, h.inner⟩⟩

end Log.Narrates

/-! ### Tags, references and scalars -/

theorem Site.TypeTag.narrates {source : Lane} {tag : String} {log : Log}
    (h : site.TypeTag source tag log) : log.Narrates [] := by
  cases h with
  | intro => exact (Log.Narrates.nil.tellTag _ _).take _ _

theorem Site.PlainReference.narrates {source : Lane} {reference : Reference} {log : Log}
    (h : site.PlainReference source reference log) : log.Narrates [] := by
  cases h with
  | intro => exact Log.Narrates.nil.take _ _

theorem Site.EncodesReference.narrates {source : Lane} {viaAny : Bool} {reference : Reference}
    {log : Log} (h : site.EncodesReference source viaAny reference log) : log.Narrates [] := by
  unfold Site.EncodesReference at h
  split at h
  case isTrue => exact h.narrates
  case isFalse =>
    split at h
    case h_1 => exact h.narrates
    case h_2 =>
      cases h with
      | null => exact Log.Narrates.nil.take _ _
      | plain hplain => exact hplain.narrates.take _ _
      | inline _ _ htag => exact htag.narrates.take _ _
    case h_3 =>
      cases h with
      | null | inline | slot => exact Log.Narrates.nil.take _ _

/-- There is nothing to visit in a value that `SpellsScalar` spells. -/
theorem Site.SpellsScalar.visits_eq_nil {kind : Tag.Kind} {value : Value} {bytes : Bytes}
    (h : site.SpellsScalar kind value bytes) : value.visits = [] := by
  cases h with
  | symbol h =>
      cases h with
      | @interned _ index => cases index <;> rfl
      | @text _ text => cases text <;> rfl
  | @string _ text => cases text <;> rfl
  | boolean | integer | double => rfl

/-! ### Values

By recursion on the derivation, with one case for each rule. -/

mutual

/-- The log of a value `Narrates` its `visits`. -/
theorem Encodes.narrates : ∀ {source : Lane} {tag : String} {value : Value} {log : Log},
    Encodes site source tag value log → log.Narrates value.visits
  | _, _, _, _, .any _ htag hvalue => htag.narrates.append (EncodesAs.narrates hvalue)
  | _, _, _, _, .declared _ hvalue => EncodesAs.narrates hvalue

theorem EncodesAs.narrates : ∀ {viaAny : Bool} {source : Lane} {tag : String} {value : Value}
    {log : Log}, EncodesAs site viaAny source tag value log → log.Narrates value.visits
  | _, _, _, _, _, .scalar hscalar => by
      rw [hscalar.visits_eq_nil]
      exact Log.Narrates.nil.take _ _
  | _, _, _, _, _, .emptyArray _ _ => Log.Narrates.nil.take _ _
  | _, _, _, _, _, .array _ _ _ htag hitems =>
      (htag.narrates.append (EncodesItems.narrates hitems)).take _ _
  | _, _, _, _, _, .null _ hreference => hreference.narrates
  | _, _, _, _, _, .ref _ hreference _ => hreference.narrates
  | _, _, _, _, _, .inline _ hreference hshape _ hfields => by
      refine hreference.narrates.append (.tell ?_ trivial (EncodesFields.narrates hfields))
      -- the event names the tag of the object, and a shape has the name it is found by
      rw [Schema.name_of_shape? hshape]
      rfl

/-- The log of the items of an array `Narrates` the visits of each, in order. -/
theorem EncodesItems.narrates : ∀ {source : Lane} {tag : String} {items : List Value} {log : Log},
    EncodesItems site source tag items log → log.Narrates (Value.visitsOfItems items)
  | _, _, _, _, .nil => .nil
  | _, _, _, _, .cons hitem hitems =>
      (Encodes.narrates hitem).append (EncodesItems.narrates hitems)

/-- The log of the fields of an object `Narrates` each field, then the visits of its value. -/
theorem EncodesFields.narrates : ∀ {active : Lane} {pinned : Bool} {shape : String}
    {decls : List FieldDecl} {fields : List (Field Value)} {log : Log},
    EncodesFields site active pinned shape decls fields log →
      log.Narrates (Value.visitsOfFields shape fields)
  | _, _, _, _, _, _, .nil => .nil
  | _, _, _, _, _, _, .cons _ hvalue hfields =>
      ((Encodes.narrates hvalue).append (EncodesFields.narrates hfields)).tell rfl trivial

end

/-! ### Sections -/

theorem EncodesObject.narrates {object : ObjectValue} {log : Log}
    (h : EncodesObject site object log) : log.Narrates object.visits := by
  cases h with
  | intro htag _ hfields => exact htag.narrates.append hfields.narrates

/-- The events `told` in the log of some slots are the `visitsOfSlots`: those of each object, then
its slot. -/
theorem EncodesSlots.visits_told {slot : Nat} {objects : List ObjectValue} {log : Log}
    (h : EncodesSlots site slot objects log) :
    log.told.filterMap Event.visit? = visitsOfSlots slot objects := by
  induction h with
  | nil => rfl
  | cons hobject _ ih =>
      rw [Log.told_append, List.filterMap_append, hobject.narrates.visits_eq, visitsOfSlots, ← ih]
      rfl

theorem EncodesSlots.stream?_told {slot : Nat} {objects : List ObjectValue} {log : Log}
    (h : EncodesSlots site slot objects log) : ∀ event ∈ log.told, event.stream? = none := by
  induction h with
  | nil => simp
  | cons hobject _ ih =>
      rw [Log.told_append]
      exact List.forall_mem_append.mpr ⟨fun event hmem =>
        (hobject.narrates.inner event hmem).stream?_eq_none, List.forall_mem_cons.mpr ⟨rfl, ih⟩⟩

theorem EncodesTable.visits_told {objects : List ObjectValue} {log : Log}
    (h : EncodesTable site objects log) :
    log.told.filterMap Event.visit? = visitsOfSlots 0 objects := by
  cases h with
  | intro _ _ hslots => exact hslots.visits_told

theorem EncodesTable.stream?_told {objects : List ObjectValue} {log : Log}
    (h : EncodesTable site objects log) : ∀ event ∈ log.told, event.stream? = none := by
  cases h with
  | intro _ _ hslots => exact hslots.stream?_told

theorem EncodesRoot.narrates {value : Value} {log : Log} (h : EncodesRoot site value log) :
    log.Narrates value.visits := by
  cases h with
  | intro hvalue => exact hvalue.narrates

end BinaryAst.Decode
