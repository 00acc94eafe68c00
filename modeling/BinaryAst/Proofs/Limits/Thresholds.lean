import BinaryAst.Proofs.Container.Assembly
import BinaryAst.Proofs.Limits.Decoders
/-!
# BinaryAst.Proofs.Limits.Thresholds

Limits are thresholds: a container that is accepted under some limits is accepted under
exactly those that its module keeps to, and is the same module under all of them.

That nothing else changes is read off the layout. What becomes of the container under limits
that the module breaks comes from a run beside it: one under the same limits widened as far
as the module needs (`Limits.widen`). That run succeeds, so the other is stopped, and only
for a limit that had to be widened. Leftover bytes are looked for last, in a module that is
complete.
-/

namespace BinaryAst

open Decode

/-! ### What a module needs -/

namespace Module

/-- The largest depth among the objects of the object table and the root. -/
def depth (m : Module) : Nat := Value.depthOfItems (m.root :: m.objects.map .inline)

/-- Length of the longest array in the objects of the object table and the root. -/
def longest (m : Module) : Nat := Value.longestOfItems (m.root :: m.objects.map .inline)

/-- The first stream that was not read to its end. -/
def leftover? (m : Module) : Option StreamUse := m.streams.find? (0 < ·.leftover)

theorem leftover?_eq_none {m : Module} :
    m.leftover? = none ↔ ∀ stream ∈ m.streams, stream.leftover = 0 := by
  simp [leftover?]

end Module

theorem Value.itemsWithin_iff {levels length : Nat} {items : List Value} :
    ItemsWithin levels length items ↔ ∀ item ∈ items, item.Within levels length := by
  induction items with
  | nil => exact ⟨fun _ => by simp, fun _ => itemsWithin_nil⟩
  | cons item items ih => rw [itemsWithin_cons, ih, List.forall_mem_cons]

namespace Limits

variable {limits : Limits} {m : Module}

/-- The module is no larger than the three sizes that are limited. -/
structure Encloses (limits : Limits) (m : Module) : Prop where
  depth : m.depth ≤ limits.maxDepth
  longest : m.longest ≤ limits.maxArrayLength
  objects : m.objects.length ≤ limits.maxObjects

/-- The module keeps to the limits, and to the end of every stream where that is asked for. -/
structure Allows (limits : Limits) (m : Module) : Prop extends limits.Encloses m where
  streams : limits.strict = true → ∀ stream ∈ m.streams, stream.leftover = 0

/-- The cause of a failure under limits that a module breaks: a limit that it exceeds, or else
the first stream with bytes left over. -/
inductive Breaks (limits : Limits) (m : Module) : DecodeError → Prop
  | depth : limits.maxDepth < m.depth → Breaks limits m (.depthExceeded limits.maxDepth)
  | length {count} : limits.maxArrayLength < m.longest →
      Breaks limits m (.arrayTooLarge count limits.maxArrayLength)
  | objects {count} : limits.maxObjects < m.objects.length →
      Breaks limits m (.tooManyObjects count limits.maxObjects)
  | trailing {stream} : limits.Encloses m → limits.strict = true → m.leftover? = some stream →
      Breaks limits m (.trailingBytes stream.description stream.leftover)

theorem admits_iff_allows (hcount : m.objects.length = m.header.objectCount) :
    limits.Admits m ↔ limits.Allows m := by
  have hsizes : m.depth ≤ limits.maxDepth ∧ m.longest ≤ limits.maxArrayLength ↔
      m.root.Within limits.maxDepth limits.maxArrayLength ∧
        ∀ object ∈ m.objects, object.Within limits.maxDepth limits.maxArrayLength := by
    refine Value.itemsWithin_iff.trans ?_
    rw [List.forall_mem_cons, List.forall_mem_map]
    rfl
  constructor
  · intro h
    obtain ⟨hdepth, hlongest⟩ := hsizes.mpr ⟨h.root, h.objects⟩
    exact ⟨⟨hdepth, hlongest, hcount ▸ h.objectCount⟩, h.streams⟩
  · intro h
    obtain ⟨hroot, hobjects⟩ := hsizes.mp ⟨h.depth, h.longest⟩
    exact ⟨hcount ▸ h.objects, hobjects, hroot, h.streams⟩

/-! ### Tighter limits -/

/-- The limits without the check for leftover bytes. -/
def lenient (limits : Limits) : Limits := { limits with strict := false }

/-- The limits, widened as far as a module needs. -/
def widen (limits : Limits) (m : Module) : Limits where
  maxDepth := max limits.maxDepth m.depth
  maxArrayLength := max limits.maxArrayLength m.longest
  maxObjects := max limits.maxObjects m.objects.length
  strict := false

theorem allows_widen : (limits.widen m).Allows m :=
  ⟨⟨Nat.le_max_right _ _, Nat.le_max_right _ _, Nat.le_max_right _ _⟩, nofun⟩

/-- No limit is wider than the other's, and both treat leftover bytes alike. -/
structure Under (limits wide : Limits) : Prop where
  depth : limits.maxDepth ≤ wide.maxDepth
  length : limits.maxArrayLength ≤ wide.maxArrayLength
  objects : limits.maxObjects ≤ wide.maxObjects
  strict : limits.strict = wide.strict

/-- A failure for a limit that is lower than the other's. -/
inductive Stops (limits wide : Limits) : DecodeError → Prop
  | depth : limits.maxDepth < wide.maxDepth → Stops limits wide (.depthExceeded limits.maxDepth)
  | length {count} : limits.maxArrayLength < wide.maxArrayLength →
      Stops limits wide (.arrayTooLarge count limits.maxArrayLength)
  | objects {count} : limits.maxObjects < wide.maxObjects →
      Stops limits wide (.tooManyObjects count limits.maxObjects)

theorem under_widen : limits.lenient.Under (limits.widen m) :=
  ⟨Nat.le_max_left _ _, Nat.le_max_left _ _, Nat.le_max_left _ _, rfl⟩

/-- What stops the lenient run but not the one under `widen` is a limit that the module `Breaks`. -/
theorem breaks_of_stops_widen {e : DecodeError} (h : limits.lenient.Stops (limits.widen m) e) :
    limits.Breaks m e := by
  cases h with
  | depth hlt => exact .depth ((lt_max_iff.mp hlt).resolve_left (Nat.lt_irrefl _))
  | length hlt => exact .length ((lt_max_iff.mp hlt).resolve_left (Nat.lt_irrefl _))
  | objects hlt => exact .objects ((lt_max_iff.mp hlt).resolve_left (Nat.lt_irrefl _))

end Limits

namespace Decode

open Assemble

variable {n : Nat} {α : Type} {stops : DecodeError → Prop} {c : Configuration} {schema : Schema}
  {limits wide : Limits}

/-! ### The container -/

/-- Where nothing can be stopped, steps related by `Curbs` are the same. -/
theorem Curbs.eq {σ : Type} {x y : EStateM DecodeError σ α}
    (h : Curbs (fun _ => False) (fun _ => True) x y) : x = y := by
  funext s
  rcases h s trivial with heq | ⟨_, _, _, hstop⟩
  · exact heq
  · exact hstop.elim

theorem Curbs.readSection {site : Site} {x y : Step n α}
    (h : Curbs stops (State.Keeps site none) x y) (own : Reader) (values : Vector Reader n)
    (side : SideStreams) : Curbs stops (fun _ => True)
      (Decode.readSection x own values side) (Decode.readSection y own values side) := by
  refine Curbs.map _ fun s _ => ?_
  unfold decodeSection
  rcases h { own, values, side, events := s.events } nofun with heq | ⟨e, t, he, hstop⟩
  · rw [heq]
    exact .inl rfl
  · rw [he]
    exact .inr ⟨e, _, rfl, hstop⟩

/-- Limits `Under` others make a `Tighter` run from the start: both decoders have as many levels as
their limits allow for. -/
theorem tighter_of_under (h : limits.Under wide) :
    Tighter (limits.Stops wide) limits wide none limits.maxDepth wide.maxDepth :=
  ⟨h.depth, id, fun hlt _ => .depth hlt, h.length, fun hlt _ => .length hlt⟩

theorem curbs_sections (h : limits.Under wide) (header : Header)
    (tags : List String × Reader) (side : SideStreams) (values : Array (String × Reader)) :
    Curbs (limits.Stops wide) (fun _ => True)
      (sections c schema limits header tags side values)
      (sections c schema wide header tags side values) := by
  have hfinish : ∀ m, finish limits m = finish wide m := fun m => by
    rw [finish, finish, h.strict]
  refine (Curbs.refl _).bind fun objectsReader => ?_
  refine ((curbs_objectTable (contextOf c schema limits header tags.1 values) (fun _ => "")
    (tighter_of_under h)).readSection _ _ _).bind fun objects => ?_
  refine (Curbs.refl _).bind fun rootReader => ?_
  refine ((curbs_root (contextOf c schema limits header tags.1 values) (fun _ => "")
    (tighter_of_under h)).readSection _ _ _).bind fun root => ?_
  rw [hfinish]
  exact .refl _

theorem curbs_moduleOf (h : limits.Under wide) :
    Curbs (limits.Stops wide) (fun _ => True) (moduleOf c schema limits)
      (moduleOf c schema wide) := by
  rw [moduleOf_eq, moduleOf_eq]
  refine (Curbs.refl _).bind fun header => (Curbs.refl _).bind fun tags =>
    (Curbs.refl _).bind fun shared => ?_
  by_cases hmany : limits.maxObjects < header.objectCount
  · rw [if_pos hmany]
    rcases Nat.lt_or_eq_of_le h.objects with hlt | heq
    · exact .throw (.objects hlt)
    · rw [← heq, if_pos hmany]
      exact .refl _
  · rw [if_neg hmany, if_neg fun hlt => hmany (Nat.lt_of_le_of_lt h.objects hlt)]
    exact curbs_sections h header tags shared.1 shared.2

/-- `moduleOf` looks for leftover bytes (`finish`) in a module that is complete, so it is the
lenient run with that check behind it. -/
theorem moduleOf_eq_lenient (c : Configuration) (schema : Schema) (limits : Limits) :
    moduleOf c schema limits = moduleOf c schema limits.lenient >>= finish limits := by
  have htight : Tighter (fun _ => False) limits limits.lenient none limits.maxDepth
      limits.maxDepth := ⟨Nat.le_refl _, fun _ => rfl, fun hlt => absurd hlt (Nat.lt_irrefl _),
    Nat.le_refl _, fun hlt => absurd hlt (Nat.lt_irrefl _)⟩
  have hsections : ∀ header tags side values, sections c schema limits header tags side values =
      sections c schema limits.lenient header tags side values >>= finish limits := by
    intro header tags side values
    have hobjects := fun own shared => (Curbs.readSection (curbs_objectTable
      (contextOf c schema limits header tags.1 values) (fun _ => "") htight) own (readersOf values)
        shared).eq
    have hroot := fun own vs shared => (Curbs.readSection (curbs_root
      (contextOf c schema limits header tags.1 values) (fun _ => "") htight) own vs shared).eq
    have hdone : ∀ m, finish limits.lenient m = pure m := fun m => rfl
    simp only [sections, hobjects, hroot, hdone, bind_assoc, pure_bind]
    rfl
  rw [moduleOf_eq, moduleOf_eq, bind_assoc]
  refine congrArg _ (funext fun header => ?_)
  unfold body
  rw [bind_assoc]
  refine congrArg _ (funext fun tags => ?_)
  rw [bind_assoc]
  refine congrArg _ (funext fun shared => ?_)
  rw [show limits.lenient.maxObjects = limits.maxObjects from rfl]
  split
  case isTrue => rfl
  case isFalse => exact hsections _ _ _ _

theorem finish_of_some {m : Module} {stream : StreamUse} (hstrict : limits.strict = true)
    (h : m.leftover? = some stream) :
    finish limits m = throw (.trailingBytes stream.description stream.leftover) := by
  have hsome : m.streams.find? (0 < ·.leftover) = some stream := h
  rw [finish, if_pos hstrict, checkLeftovers, hsome]
  rfl

end Decode

open Decode Assemble

namespace Module

variable {bytes : Bytes} {c : Configuration} {schema : Schema} {limits other : Limits} {m : Module}
  {events : List Event}

theorem decode_of_allows (h : decode bytes c schema limits = ⟨.ok m, events⟩)
    (hallows : other.Allows m) : decode bytes c schema other = ⟨.ok m, events⟩ := by
  obtain ⟨l, hfits, hdescribes, hbytes, -⟩ := decode_eq_ok_iff.mp h
  exact decode_eq_ok_iff.mpr ⟨l, hfits, hdescribes, hbytes,
    (Limits.admits_iff_allows hdescribes.objectCount).mpr hallows⟩

theorem allows_of_decode (h : decode bytes c schema limits = ⟨.ok m, events⟩) :
    limits.Allows m := by
  obtain ⟨l, -, hdescribes, -, hadmits⟩ := decode_eq_ok_iff.mp h
  exact (Limits.admits_iff_allows hdescribes.objectCount).mp hadmits

/-- Beside the run under wider limits, one under limits that the module `Breaks` is stopped by one
of them, or goes on to the check for leftover bytes. -/
theorem exists_breaks_of_not_allows (h : decode bytes c schema limits = ⟨.ok m, events⟩)
    (hallows : ¬other.Allows m) :
    ∃ e t, moduleOf c schema other (.start c bytes) = .error e t ∧ other.Breaks m e.cause := by
  obtain ⟨t, hwide, -⟩ := decode_eq_ok_iff_moduleOf.mp (decode_of_allows h Limits.allows_widen)
  have hcurbs : Curbs (other.lenient.Stops (other.widen m)) (fun _ => True)
      (moduleOf c schema other.lenient) (moduleOf c schema (other.widen m)) :=
    curbs_moduleOf Limits.under_widen
  rw [moduleOf_eq_lenient]
  rcases hcurbs (.start c bytes) trivial with heq | ⟨e, t, he, hstop⟩
  · have hlenient := heq.trans hwide
    have hsizes := allows_of_decode (decode_eq_ok_iff_moduleOf.mpr ⟨t, hlenient, rfl⟩)
    have hencloses : other.Encloses m := ⟨hsizes.depth, hsizes.longest, hsizes.objects⟩
    -- no size is exceeded, so the limits are strict and bytes are left over
    have hstrict : other.strict = true := by
      by_contra hstrict
      exact hallows ⟨hencloses, fun h => absurd h hstrict⟩
    cases hleft : m.leftover? with
    | none => exact absurd ⟨hencloses, fun _ => leftover?_eq_none.mp hleft⟩ hallows
    | some stream =>
        have hfinish := congrFun (finish_of_some hstrict hleft) t
        exact ⟨_, t, (bind_of_ok hlenient).trans hfinish, .trailing hencloses hstrict hleft⟩
  · exact ⟨e, t, bind_of_error he, Limits.breaks_of_stops_widen hstop⟩

/-- Limits are exact thresholds, and never change what is decoded. A container that `decode` accepts
under some limits is accepted under all that its module keeps to (`Allows`), as the same module with
the same events. Under any other limits it fails, and for a limit that the module `Breaks`: for
leftover bytes only where nothing is too large, and then at the first stream that has some. -/
theorem decode_under_limits (h : decode bytes c schema limits = ⟨.ok m, events⟩)
    (other : Limits) :
    (other.Allows m → decode bytes c schema other = ⟨.ok m, events⟩) ∧
      (¬other.Allows m → ∃ e, (decode bytes c schema other).result = .error e ∧
        other.Breaks m e.cause) := by
  refine ⟨decode_of_allows h, fun hallows => ?_⟩
  obtain ⟨e, t, he, hbreaks⟩ := exists_breaks_of_not_allows h hallows
  exact ⟨e, congrArg Decoding.result (decode_of_error he), hbreaks⟩

/-- The tree in `treeContainer` is three levels deep, with one item in its longest array and one
object: it is accepted with just that much, and not with a level less. -/
theorem decode_under_limits_treeContainer :
    decode treeContainer treeConfiguration treeSchema {} = ⟨.ok treeModule, treeEvents⟩ ∧
      decode treeContainer treeConfiguration treeSchema ⟨3, 1, 1, true⟩ =
        ⟨.ok treeModule, treeEvents⟩ ∧
      ∃ e, (decode treeContainer treeConfiguration treeSchema ⟨2, 1, 1, true⟩).result = .error e ∧
        Limits.Breaks ⟨2, 1, 1, true⟩ treeModule e.cause :=
  ⟨decode_treeContainer,
    (decode_under_limits decode_treeContainer _).1
      ⟨⟨by decide, by decide, by decide⟩, fun _ => by decide⟩,
    (decode_under_limits decode_treeContainer _).2 fun h => absurd h.depth (by decide)⟩

end Module

end BinaryAst
