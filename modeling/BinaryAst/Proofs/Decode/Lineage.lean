import BinaryAst.Proofs.Decode.Course
/-!
# BinaryAst.Proofs.Decode.Lineage

What is known of the objects and fields around a place where a decoder stands.

Each invariant is by induction on how a run comes to stand there (`Reaches`), with one case for
each rule: a level is used up for each object and array around, each field around is one that
can hold what it was left for, and each of them has been told. What an object is decoded from
was settled when it was entered, and told right before its first field was due.
-/

namespace BinaryAst.Decode

variable {n : Nat}

/-- How a section may be entered: with a value, or with an object of the table. -/
inductive Opens (ctx : Context n) : Standing n → State n → Prop
  | value {levels source tag s} : levels ≤ ctx.limits.maxDepth →
      Opens ctx (.value levels source tag) s
  | fields {levels shape s} : levels < ctx.limits.maxDepth →
      ctx.schema.shape? shape.name = some shape →
        Opens ctx (.fields levels ⟨shape, none, .own, s.events.toList⟩ shape.fields) s

/-- How many more objects and arrays may be around what is decoded next. -/
def Standing.room : Standing n → Nat
  | .value levels _ _ | .tagged levels _ _ _ => levels
  | .fields levels _ _ => levels + 1

/-- The object whose fields are decoded next. -/
def Standing.host? : Standing n → Option (Host n)
  | .fields _ host _ => some host
  | .value _ _ _ | .tagged _ _ _ _ => none

/-- The field is declared, and its values are encoded with this tag. -/
def Picks (schema : Schema) (place : String × String) (tag : String) : Prop :=
  ∃ shape field, schema.shape? place.1 = some shape ∧ field ∈ shape.fields ∧
    field.name = place.2 ∧ schema.fieldTag field = tag

/-- There may be an object in place of a value of this tag, or in it. -/
def MayNest (tag : String) : Prop :=
  Tag.kind tag = .any ∨ Tag.kind tag = .array ∨ Tag.kind tag = .object

/-- The field is declared, and there may be an object in it. -/
def Nests (schema : Schema) (place : String × String) : Prop :=
  ∃ tag, Picks schema place tag ∧ MayNest tag

/-- The fields around a value of this tag: each of them nests what is in it, but what is in the
last one may be just the value. -/
inductive Around (schema : Schema) (tag : String) : List (String × String) → Prop
  | nested {path} : (∀ place ∈ path, Nests schema place) → Around schema tag path
  | last {path place} : (∀ place ∈ path, Nests schema place) → Picks schema place tag →
      Around schema tag (path ++ [place])

namespace Around

variable {schema : Schema} {tag : String} {path : List (String × String)}

theorem nests (h : Around schema tag path) (hnest : MayNest tag) :
    ∀ place ∈ path, Nests schema place := by
  cases h with
  | nested h => exact h
  | last h hlast =>
      simp only [List.mem_append, List.mem_singleton]
      rintro place (hplace | rfl)
      · exact h place hplace
      · exact ⟨tag, hlast, hnest⟩

theorem nests_dropLast (h : Around schema tag path) :
    ∀ place ∈ path.dropLast, Nests schema place := by
  cases h with
  | nested h => exact fun place hplace => h place (path.dropLast_subset hplace)
  | last h _ =>
      rw [List.dropLast_concat]
      exact h

theorem picks (h : Around schema tag path) : ∀ place ∈ path, ∃ own, Picks schema place own := by
  cases h with
  | nested h =>
      intro place hplace
      obtain ⟨own, hpicks, -⟩ := h place hplace
      exact ⟨own, hpicks⟩
  | last h hlast =>
      simp only [List.mem_append, List.mem_singleton]
      rintro place (hplace | rfl)
      · obtain ⟨own, hpicks, -⟩ := h place hplace
        exact ⟨own, hpicks⟩
      · exact ⟨tag, hlast⟩

end Around

/-! ### Levels, and what may nest -/

section

variable {ctx : Context n} {enters : Standing n → State n → Prop} {path : List (String × String)}
  {standing : Standing n} {s : State n}

/-- Each field around takes up a level, so the path and the `room` left keep to `maxDepth`. -/
theorem Reaches.length_add_room_le (hopens : ∀ standing s, enters standing s → Opens ctx standing s)
    (h : Reaches ctx enters path standing s) :
    path.length + standing.room ≤ ctx.limits.maxDepth := by
  induction h with
  | enter henters =>
      cases hopens _ _ henters with
      | value hle => simpa [Standing.room] using hle
      | fields hlt => simpa [Standing.room] using Nat.succ_le_of_lt hlt
  | field _ _ ih =>
      simp only [Standing.room, List.length_append, List.length_singleton] at ih ⊢
      omega
  | declared _ _ ih => exact ih
  | any _ _ _ ih => exact ih
  | inline _ _ _ _ _ _ ih => exact ih
  | nextField _ _ ih => exact ih
  | item _ _ _ _ _ _ _ ih =>
      simp only [Standing.room] at ih ⊢
      omega

/-- What the fields around a standing have to be. -/
def Standing.Nested (ctx : Context n) (path : List (String × String)) : Standing n → Prop
  | .value _ _ tag | .tagged _ _ tag _ => Around ctx.schema tag path
  | .fields _ host left => (∀ place ∈ path, Nests ctx.schema place) ∧
      ctx.schema.shape? host.shape.name = some host.shape ∧ left ⊆ host.shape.fields

theorem Reaches.nested (hopens : ∀ standing s, enters standing s → Opens ctx standing s)
    (h : Reaches ctx enters path standing s) : standing.Nested ctx path := by
  induction h with
  | enter henters =>
      cases hopens _ _ henters with
      | value => exact .nested (by simp)
      | fields _ hshape => exact ⟨by simp, hshape, List.Subset.refl _⟩
  | declared _ _ ih => exact ih
  | any _ hkind _ ih => exact .nested (ih.nests (.inl hkind))
  | item _ hkind _ _ _ _ _ ih => exact .nested (ih.nests (.inr (.inl hkind)))
  | inline _ hkind _ _ hshape _ ih =>
      have hname := Schema.name_of_shape? hshape
      exact ⟨ih.nests (.inr (.inr hkind)), hname ▸ hshape, List.Subset.refl _⟩
  | field _ _ ih =>
      obtain ⟨hpath, hshape, hleft⟩ := ih
      exact .last hpath ⟨_, _, hshape, hleft List.mem_cons_self, rfl, rfl⟩
  | nextField _ _ ih =>
      obtain ⟨hpath, hshape, hleft⟩ := ih
      exact ⟨hpath, hshape, List.Subset.trans (List.subset_cons_self _ _) hleft⟩

/-- `reference` finds an inline object only where objects may be inline. -/
theorem conditionalInlining_of_inline {source : Source n} {viaAny : Bool} {name : String}
    {t : State n} (h : reference ctx source viaAny s = .ok (.inline name) t) :
    ctx.configuration.conditionalInlining = true := by
  cases hinlining : ctx.configuration.conditionalInlining with
  | true => rfl
  | false =>
      have hplain : reference ctx source viaAny = plainReference source := by
        simp [reference, Configuration.referenceEncoding, hinlining]
      rw [hplain] at h
      obtain ⟨index, -, hindex⟩ := map_eq_ok_iff.mp h
      cases index <;> cases hindex

/-- Where no object is inline there are no fields in a field, so the path has one at most. -/
theorem Reaches.length_le_one (hoff : ctx.configuration.conditionalInlining = false)
    (h : Reaches ctx enters path standing s) :
    path.length ≤ 1 ∧ (standing.host?.isSome → path = []) := by
  induction h with
  | enter => exact ⟨Nat.zero_le _, fun _ => rfl⟩
  | declared _ _ ih => exact ⟨ih.1, nofun⟩
  | any _ _ _ ih => exact ⟨ih.1, nofun⟩
  | item _ _ _ _ _ _ _ ih => exact ⟨ih.1, nofun⟩
  | inline _ _ _ hreference =>
      rw [conditionalInlining_of_inline hreference] at hoff
      cases hoff
  | field _ _ ih =>
      rw [ih.2 rfl]
      exact ⟨Nat.le_refl _, nofun⟩
  | nextField _ _ ih => exact ih

end

/-! ### What has been told -/

section

variable {ctx : Context n} {enters : Standing n → State n → Prop} {path : List (String × String)}
  {standing : Standing n} {s t u : State n}

/-- The items before the next one of an array lead `Onward` to it. -/
theorem Reaches.onward_items {levels : Nat} {source : Source n} {tag : String} {viaAny : Bool}
    {count position : Nat} {itemTag : String} {items : List Value} {v : State n}
    (h : Reaches ctx enters path (.tagged (levels + 1) source tag viaAny) s)
    (hkind : Tag.kind tag = .array) (hcount : Step.fromSource source Read.varUInt32 s = .ok count t)
    (hmax : count ≤ ctx.limits.maxArrayLength) (hlt : position < count)
    (htag : typeTag ctx source t = .ok itemTag u)
    (hitems : collect position (fun _ => value ctx levels source itemTag) u = .ok items v) :
    s.Onward (FieldTold ctx enters) v := by
  have hstart : s.Onward (FieldTold ctx enters) t :=
    (Quiet.fromSource Read.faults_varUInt32 source).onward hcount
  have hmore : Tracked ctx enters path u
      (collect position (fun _ => value ctx levels source itemTag) u) :=
    .collect fun before hbefore items w hitems _ =>
      (Reaches.item h hkind hcount hmax (Nat.lt_trans hbefore hlt) htag hitems).tracked_value
  exact (hstart.trans ((quiet_typeTag ctx source).onward htag)).trans (hmore.onward hitems)

/-- What is known of the events, wherever a run comes to stand. -/
structure History (ctx : Context n) (enters : Standing n → State n → Prop)
    (path : List (String × String)) (standing : Standing n) (s : State n) : Prop where
  /-- The run has gone on from where it entered. -/
  entered : ∃ first start, enters first start ∧ start.Onward (FieldTold ctx enters) s
  /-- The fields around have been told, from the outermost in. -/
  around : path.Sublist (s.events.toList.filterMap Event.field?)
  /-- So has what had been told when the object was entered. -/
  before : ∀ host, standing.host? = some host → host.before <+: s.events.toList

namespace History

variable {next : Standing n}

theorem onward (h : History ctx enters path standing s) (hmore : s.Onward (FieldTold ctx enters) t)
    (hhost : ∀ host, next.host? = some host →
      standing.host? = some host ∨ host.before <+: t.events.toList) :
    History ctx enters path next t := by
  obtain ⟨⟨first, start, hfirst, hstart⟩, haround, hbefore⟩ := h
  refine ⟨⟨first, start, hfirst, hstart.trans hmore⟩,
    haround.trans (hmore.told.isPrefix.sublist.filterMap _), fun host hnext => ?_⟩
  rcases hhost host hnext with h | h
  · exact (hbefore host h).trans hmore.told.isPrefix
  · exact h

end History

theorem Reaches.history (hopens : ∀ standing s, enters standing s → Opens ctx standing s)
    (h : Reaches ctx enters path standing s) : History ctx enters path standing s := by
  induction h with
  | @enter standing s henters =>
      refine ⟨⟨standing, s, henters, .refl s⟩, List.nil_sublist _, fun host hhost => ?_⟩
      cases hopens _ _ henters with
      | value => cases hhost
      | fields =>
          cases hhost
          exact List.prefix_rfl
  | declared _ _ ih => exact ih.onward (.refl _) nofun
  | any _ _ htag ih => exact ih.onward ((quiet_typeTag ctx _).onward htag) nofun
  | item hreaches hkind hcount hmax hlt htag hitems ih =>
      exact ih.onward (hreaches.onward_items hkind hcount hmax hlt htag hitems) nofun
  | inline _ _ _ hreference _ _ ih =>
      refine ih.onward (((quiet_reference ctx _ _).onward hreference).trans
        (State.onward_tell _ (.inl rfl))) fun host hhost => .inr ?_
      cases hhost
      exact State.events_tell _ _ ▸ List.prefix_rfl
  | @field path levels host field left s source hreaches hsource ih =>
      obtain ⟨first, start, hfirst, hstart⟩ := ih.entered
      have hmore := s.onward_tell (.inr (FieldTold.intro hreaches hsource))
      refine ⟨⟨first, start, hfirst, hstart.trans hmore⟩, ?_, nofun⟩
      rw [State.events_tell, List.filterMap_append]
      exact ih.around.append (List.Sublist.refl _)
  | nextField hreaches hvalue ih =>
      exact ih.onward (hreaches.tracked_fieldValue.onward hvalue) fun host hhost => .inl hhost

/-- The fields that are left are the last ones of the object, and before the first of all there
is nothing but what had been told by then. -/
def Standing.InOrder : Standing n → State n → Prop
  | .fields _ host left, s => left <:+ host.shape.fields ∧
      (left = host.shape.fields → s.events.toList = host.before)
  | .value _ _ _, _ | .tagged _ _ _ _, _ => True

theorem Reaches.inOrder (hopens : ∀ standing s, enters standing s → Opens ctx standing s)
    (h : Reaches ctx enters path standing s) : standing.InOrder s := by
  induction h with
  | enter henters =>
      cases hopens _ _ henters with
      | value => trivial
      | fields => exact ⟨List.suffix_rfl, fun _ => rfl⟩
  | inline => exact ⟨List.suffix_rfl, fun _ => State.events_tell _ _⟩
  | nextField _ _ ih =>
      obtain ⟨hsuffix, -⟩ := ih
      refine ⟨(List.suffix_cons _ _).trans hsuffix, fun hall => ?_⟩
      have hle := hsuffix.length_le
      rw [← hall, List.length_cons] at hle
      exact absurd hle (Nat.not_succ_le_self _)
  | declared | any | item | field => trivial

/-! ### What an object is decoded from -/

/-- The object is decoded from where it should be, and if it is inline, that was told. -/
structure Host.Placed (ctx : Context n) (nameOf : Source n → String) (host : Host n) : Prop where
  table : host.reference = none → host.active = .own
  inline : ∀ source, host.reference = some source →
    (if ctx.configuration.separatesInlineObjects then
      ∃ i, ctx.routes.lookup host.shape.name = some i ∧ host.active = .values i
    else host.active = source) ∧
    ∃ front, host.before = front ++ [.inline host.shape.name (nameOf host.active)]

theorem inlineSource_eq_ok {source active : Source n} {name : String}
    (h : inlineSource ctx source name s = .ok active t) :
    if ctx.configuration.separatesInlineObjects then
      ∃ i, ctx.routes.lookup name = some i ∧ active = .values i
    else active = source := by
  unfold inlineSource at h
  split at h
  case isTrue hon =>
    rw [valueSource_eq] at h
    split at h
    case h_1 i hi =>
      cases h
      simpa [hon] using hi
    case h_2 => cases h
  case isFalse hoff => simpa [hoff] using (pure_eq_ok_iff.mp h).1.symm

theorem Reaches.placed {nameOf : Source n → String}
    (hopens : ∀ standing s, enters standing s → Opens ctx standing s)
    (hnames : ∀ standing s, enters standing s → ∀ source,
      (s.reader source).description = nameOf source)
    (h : Reaches ctx enters path standing s) :
    ∀ host, standing.host? = some host → host.Placed ctx nameOf := by
  induction h with
  | enter henters =>
      intro host hhost
      cases hopens _ _ henters with
      | value => cases hhost
      | fields =>
          cases hhost
          exact ⟨fun _ => rfl, nofun⟩
  | declared => nofun
  | any => nofun
  | item => nofun
  | field => nofun
  | nextField _ _ ih => exact ih
  | @inline _ _ source _ _ s name t shape active hreaches _ _ hreference hshape hactive =>
      intro host hhost
      cases hhost
      obtain rfl := Schema.name_of_shape? hshape
      -- Sources keep their names from where the section was entered up to the reference.
      obtain ⟨⟨first, start, hfirst, hstart⟩, -, -⟩ := hreaches.history hopens
      have hdescription := (hstart.trans ((quiet_reference ctx _ _).onward hreference)
        ).description_eq active
      refine ⟨nofun, fun other hother => ⟨?_, t.events.toList, ?_⟩⟩
      · cases hother
        exact inlineSource_eq_ok hactive
      · rw [hdescription, hnames first start hfirst]

theorem Reaches.description_eq {nameOf : Source n → String}
    (hopens : ∀ standing s, enters standing s → Opens ctx standing s)
    (hnames : ∀ standing s, enters standing s → ∀ source,
      (s.reader source).description = nameOf source)
    (h : Reaches ctx enters path standing s) (source : Source n) :
    (s.reader source).description = nameOf source := by
  obtain ⟨⟨first, start, hfirst, hstart⟩, -, -⟩ := h.history hopens
  exact (hstart.description_eq source).trans (hnames first start hfirst source)

end

end BinaryAst.Decode
