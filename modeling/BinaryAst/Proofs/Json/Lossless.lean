import Mathlib.Data.List.Perm.Basic
import Mathlib.Data.List.Zip
import BinaryAst.Proofs.Conformance
import BinaryAst.Proofs.Json.Members
/-!
# BinaryAst.Proofs.Json.Lossless

How much of a value its JSON keeps.

Trees are compared as JSON has them: an object is what it has under which key
(`Tree.Agrees`). Values whose JSON agrees are alike: they differ at most in that one has a
string where the other has a symbol of the same text, and in the order of the fields of objects
(`Value.Alike`). That is so for values that JSON has room for (`Value.Plain`): it has no number
that is not finite, and one member for each key.

References, interned symbols and inline objects all become objects. They are told apart by what
stands under the keys that are set aside for them, whatever these keys are: a text for a shape,
a number for the others, whose keys differ.
-/

namespace BinaryAst

open Json (Tree)

/-! ### Trees -/

/-- The trees are the same JSON value, with objects as maps from keys to values. -/
inductive Json.Tree.Agrees : Tree → Tree → Prop
  | null : Agrees .null .null
  | boolean (value : Bool) : Agrees (.boolean value) (.boolean value)
  | integer (value : Int) : Agrees (.integer value) (.integer value)
  | double (value : Binary64) : Agrees (.double value) (.double value)
  | string (text : String) : Agrees (.string text) (.string text)
  | array {items items' : List Tree} (hlength : items.length = items'.length)
      (hitems : ∀ pair ∈ items.zip items', Agrees pair.1 pair.2) :
      Agrees (.array items) (.array items')
  | object {members members' : List (String × Tree)}
      (hkeys : ∀ key, (members.lookup key).isSome = (members'.lookup key).isSome)
      (hvalues : ∀ key tree tree', members.lookup key = some tree →
        members'.lookup key = some tree' → Agrees tree tree') :
      Agrees (.object members) (.object members')

namespace Json.Tree.Agrees

variable {t t' tree : Tree} {key : String}

/-- An array `Agrees` with itself if its items do. -/
theorem of_items {items : List Tree} (h : ∀ item ∈ items, item.Agrees item) :
    (Tree.array items).Agrees (.array items) := by
  refine .array rfl fun pair hpair => ?_
  have hzip : items.zip items = items.map fun item => (item, item) := by
    simpa using List.zip_map' (f := id) (g := id) (l := items)
  rw [hzip] at hpair
  obtain ⟨item, hitem, rfl⟩ := List.mem_map.mp hpair
  exact h item hitem

/-- An object `Agrees` with itself if its members do, also where it has a key twice: the first one
counts on both sides. -/
theorem of_members {members : List (String × Tree)}
    (h : ∀ member ∈ members, member.2.Agrees member.2) :
    (Tree.object members).Agrees (.object members) := by
  refine .object (fun _ => rfl) fun key tree tree' htree htree' => ?_
  obtain rfl : tree = tree' := Option.some.inj (htree.symm.trans htree')
  obtain ⟨front, back, rfl, -⟩ := List.lookup_eq_some_iff.mp htree
  exact h (key, tree) (by simp)

mutual

theorem refl : ∀ t : Tree, t.Agrees t
  | .null => .null
  | .boolean value => .boolean value
  | .integer value => .integer value
  | .double value => .double value
  | .string text => .string text
  | .array items => of_items (reflItems items)
  | .object members => of_members (reflMembers members)

theorem reflItems : ∀ items : List Tree, ∀ item ∈ items, item.Agrees item
  | [] => List.forall_mem_nil _
  | item :: items => List.forall_mem_cons.mpr ⟨refl item, reflItems items⟩

theorem reflMembers : ∀ members : List (String × Tree),
    ∀ member ∈ members, member.2.Agrees member.2
  | [] => List.forall_mem_nil _
  | (_, tree) :: members => List.forall_mem_cons.mpr ⟨refl tree, reflMembers members⟩

end

/-- `Agrees` is symmetric, since it says the same of both trees. -/
theorem symm (h : t.Agrees t') : t'.Agrees t := by
  induction h with
  | null => exact .null
  | boolean value => exact .boolean value
  | integer value => exact .integer value
  | double value => exact .double value
  | string text => exact .string text
  | array hlength _ ih =>
      refine .array hlength.symm fun pair hpair => ?_
      rw [← List.zip_swap] at hpair
      obtain ⟨swapped, hswapped, rfl⟩ := List.mem_map.mp hpair
      exact ih swapped hswapped
  | object hkeys _ ih =>
      exact .object (fun key => (hkeys key).symm) fun key tree tree' h h' => ih key tree' tree h' h

/-- What `member?` finds in one of two trees that agree has its like under the same key in the
other. -/
theorem exists_member (h : t.Agrees t') (key : String) (hmember : t.member? key = some tree) :
    ∃ tree', t'.member? key = some tree' ∧ tree.Agrees tree' := by
  cases h with
  | object hkeys hvalues =>
      have hsome := hkeys key
      rw [show List.lookup key _ = some tree from hmember, Option.isSome_some] at hsome
      obtain ⟨tree', htree'⟩ := Option.isSome_iff_exists.mp hsome.symm
      exact ⟨tree', htree', hvalues key tree tree' hmember htree'⟩
  | _ => cases hmember

/-- Numbers agree (`Agrees`) only if they are the same. -/
theorem integer_inj {m n : Int} (h : (Tree.integer m).Agrees (.integer n)) : m = n := by
  cases h
  rfl

theorem string_inj {text text' : String} (h : (Tree.string text).Agrees (.string text')) :
    text = text' := by
  cases h
  rfl

end Json.Tree.Agrees

/-! ### Values -/

namespace Value

mutual

/-- The values that JSON has room for: all numbers are finite, and each object has its names once,
the key of the shape not among them. -/
def Plain (shapeKey : String) : Value → Prop
  | double value => value.isFinite = true
  | array items => AllPlain shapeKey items
  | inline ⟨_, fields⟩ =>
    (fields.map (·.name)).Nodup ∧ shapeKey ∉ fields.map (·.name) ∧ FieldsPlain shapeKey fields
  | _ => True

/-- All items are plain. -/
def AllPlain (shapeKey : String) : List Value → Prop
  | [] => True
  | item :: items => item.Plain shapeKey ∧ AllPlain shapeKey items

/-- The values of all fields are plain. -/
def FieldsPlain (shapeKey : String) : List (Field Value) → Prop
  | [] => True
  | ⟨_, value⟩ :: fields => value.Plain shapeKey ∧ FieldsPlain shapeKey fields

end

/-- The values are equal up to the order of fields, and with no difference between a string and
a symbol that is spelled out. -/
inductive Alike : Value → Value → Prop
  | null : Alike .null .null
  | bool (value : Bool) : Alike (.bool value) (.bool value)
  | integer (value : Int32) : Alike (.integer value) (.integer value)
  | double (value : Binary64) : Alike (.double value) (.double value)
  | text {v w : Value} {text : String} (hv : v.text? = some text) (hw : w.text? = some text) :
      Alike v w
  | internedSymbol (index : Nat) : Alike (.internedSymbol index) (.internedSymbol index)
  | ref (slot : Nat) : Alike (.ref slot) (.ref slot)
  | array {items items' : List Value} (hlength : items.length = items'.length)
      (hitems : ∀ pair ∈ items.zip items', Alike pair.1 pair.2) :
      Alike (.array items) (.array items')
  /-- The fields of one object, in some order, are those of the other. -/
  | inline {shape : String} {fields ordered fields' : List (Field Value)}
      (horder : ordered.Perm fields) (hnames : ordered.map (·.name) = fields'.map (·.name))
      (hfields : ∀ pair ∈ ordered.zip fields', Alike pair.1.value pair.2.value) :
      Alike (.inline ⟨shape, fields⟩) (.inline ⟨shape, fields'⟩)

variable {shapeKey : String} {v w : Value}

theorem allPlain_iff {items : List Value} :
    AllPlain shapeKey items ↔ ∀ item ∈ items, item.Plain shapeKey := by
  induction items with
  | nil => simp [AllPlain]
  | cons item items ih => simp [AllPlain, ih]

theorem fieldsPlain_iff {fields : List (Field Value)} :
    FieldsPlain shapeKey fields ↔ ∀ field ∈ fields, field.value.Plain shapeKey := by
  induction fields with
  | nil => simp [FieldsPlain]
  | cons field fields ih => simp [FieldsPlain, ih]

theorem itemsToJson_eq_map (shapeKey : String) (items : List Value) :
    itemsToJson shapeKey items = items.map (·.toJson shapeKey) := by
  induction items with
  | nil => rfl
  | cons item items ih => rw [itemsToJson, ih, List.map_cons]

/-- What holds of a value if it holds of its parts: the induction over values, with a case for
arrays, one for objects and one for all values that have no parts. -/
structure Closed (motive : Value → Prop) : Prop where
  array : ∀ items, (∀ item ∈ items, motive item) → motive (.array items)
  inline : ∀ shape fields, (∀ field ∈ fields, motive field.value) →
    motive (.inline ⟨shape, fields⟩)
  /-- Any other value has no parts. -/
  atom : ∀ v, v.items? = none → (∀ object, v ≠ .inline object) → motive v

mutual

theorem Closed.value {motive : Value → Prop} (h : Closed motive) : ∀ v, motive v
  | .array items => h.array items (h.items items)
  | .inline ⟨shape, fields⟩ => h.inline shape fields (h.fields fields)
  | .null | .bool _ | .integer _ | .double _ | .string _ | .symbol _ | .internedSymbol _
  | .ref _ => h.atom _ rfl nofun

theorem Closed.items {motive : Value → Prop} (h : Closed motive) :
    ∀ items : List Value, ∀ item ∈ items, motive item
  | [] => List.forall_mem_nil _
  | item :: items => List.forall_mem_cons.mpr ⟨h.value item, h.items items⟩

theorem Closed.fields {motive : Value → Prop} (h : Closed motive) :
    ∀ fields : List (Field Value), ∀ field ∈ fields, motive field.value
  | [] => List.forall_mem_nil _
  | ⟨_, value⟩ :: fields => List.forall_mem_cons.mpr ⟨h.value value, h.fields fields⟩

end

/-! ### Forms of JSON -/

/-- The mark of a value that is known by a number. -/
def mark? : Value → Option (String × Nat)
  | ref slot => some (refKey, slot)
  | internedSymbol index => some (symbolKey, index)
  | _ => none

/-- What the JSON of a plain value looks like. -/
inductive Form (shapeKey : String) : Value → Tree → Prop
  | null : Form shapeKey .null .null
  | bool (value : Bool) : Form shapeKey (.bool value) (.boolean value)
  | integer (value : Int32) : Form shapeKey (.integer value) (.integer value.toInt)
  | double (value : Binary64) : Form shapeKey (.double value) (.double value)
  | text {v : Value} {text : String} (h : v.text? = some text) : Form shapeKey v (.string text)
  | marked {v : Value} {key : String} {number : Nat} (h : v.mark? = some (key, number)) :
      Form shapeKey v (.object [(key, .integer number)])
  | array (items : List Value) :
      Form shapeKey (.array items) (.array (items.map (·.toJson shapeKey)))
  | inline {object : ObjectValue} {members : List (String × Tree)}
      (h : object.toJson shapeKey = .object members) :
      Form shapeKey (.inline object) (.object members)

/-- The JSON of a plain value has a `Form`. What is not plain need not: a number that is not finite
becomes null. -/
theorem Plain.form (hv : v.Plain shapeKey) : Form shapeKey v (v.toJson shapeKey) := by
  cases v with
  | null => exact .null
  | bool value => exact .bool value
  | integer value => exact .integer value
  | double value =>
      rw [Plain] at hv
      rw [toJson, if_pos hv]
      exact .double value
  | string text | symbol text => exact .text rfl
  | internedSymbol index => exact .marked rfl
  | ref slot => exact .marked rfl
  | array items =>
      rw [toJson, itemsToJson_eq_map]
      exact .array items
  | inline object => exact .inline rfl

/-- `mark?` says which kind of value it is of, and which one: values of one mark are `Alike`. -/
theorem alike_of_mark? {mark : String × Nat} (hv : v.mark? = some mark)
    (hw : w.mark? = some mark) : v.Alike w := by
  have hne : refKey ≠ symbolKey := by decide
  cases v with
  | ref slot =>
      cases hv
      cases w with
      | ref slot' => cases hw; exact .ref _
      | internedSymbol index => exact absurd (congrArg Prod.fst (Option.some.inj hw)) hne.symm
      | _ => cases hw
  | internedSymbol index =>
      cases hv
      cases w with
      | ref slot => exact absurd (congrArg Prod.fst (Option.some.inj hw)) hne
      | internedSymbol index' => cases hw; exact .internedSymbol _
      | _ => cases hw
  | _ => cases hv

/-- Objects with one member each, as a mark is written, agree only if the marks are the same: the
key of one is a key of the other. -/
theorem marks_eq {key key' : String} {number number' : Nat}
    (h : (Tree.object [(key, .integer number)]).Agrees (.object [(key', .integer number')])) :
    (key, number) = (key', number') := by
  obtain ⟨tree, htree, hagree⟩ := h.exists_member key
    (by rw [Tree.member?, Tree.lookup_cons, if_pos rfl])
  rw [Tree.member?, Tree.lookup_cons] at htree
  split at htree
  case isTrue hkey =>
    cases htree
    rw [hkey, Int.ofNat.inj hagree.integer_inj]
  case isFalse => cases htree

/-- The JSON of an object has a text under `shapeKey`, and that of a mark has a number under its
only key. So they never agree, not even where the two keys are the same. -/
theorem not_agrees_of_mark {object : ObjectValue} {key : String} {number : Nat} :
    ¬(Tree.object [(key, .integer number)]).Agrees (object.toJson shapeKey) := by
  intro h
  obtain ⟨tree, htree, hagree⟩ := h.symm.exists_member shapeKey
    (by rw [Object.member?_toJson, if_pos rfl])
  rw [Tree.member?, Tree.lookup_cons] at htree
  split at htree
  case isTrue =>
    cases htree
    cases hagree
  case isFalse => cases htree

/-! ### From JSON back -/

/-- Two values whose forms agree are `Alike`, if the first has no parts. The forms of one
constructor have to be compared, and those of different ones disagree. -/
theorem Form.alike {t t' : Tree} (hv : Form shapeKey v t) (hw : Form shapeKey w t')
    (harray : v.items? = none) (hinline : ∀ object, v ≠ .inline object) (h : t.Agrees t') :
    v.Alike w := by
  cases hv with
  | null => cases hw with
    | null => exact .null
    | _ => cases h
  | bool value => cases hw with
    | bool value' => cases h; exact .bool value
    | _ => cases h
  | integer value => cases hw with
    | integer value' =>
        obtain rfl := Int32.toInt_inj.mp h.integer_inj
        exact .integer value
    | _ => cases h
  | double value => cases hw with
    | double value' => cases h; exact .double value
    | _ => cases h
  | text htext => cases hw with
    | text htext' => cases h; exact .text htext htext'
    | _ => cases h
  | marked hmark => cases hw with
    | marked hmark' =>
        rw [← marks_eq h] at hmark'
        exact alike_of_mark? hmark hmark'
    | inline hobject =>
        -- Under the shape key an object has a text, and a mark a number or nothing.
        rw [← hobject] at h
        exact absurd h not_agrees_of_mark
    | _ => cases h
  | array items => cases harray
  | inline => exact absurd rfl (hinline _)

/-- The step for arrays: `toJson` of an array agrees with that of arrays only, item by item. -/
theorem alike_of_agrees_array {items : List Value} (hv : ∀ item ∈ items, item.Plain shapeKey)
    (ih : ∀ item ∈ items, ∀ w : Value, item.Plain shapeKey → w.Plain shapeKey →
      (item.toJson shapeKey).Agrees (w.toJson shapeKey) → item.Alike w)
    (hw : w.Plain shapeKey)
    (h : ((array items).toJson shapeKey).Agrees (w.toJson shapeKey)) : (array items).Alike w := by
  have hform := hw.form
  rw [toJson, itemsToJson_eq_map] at h
  generalize w.toJson shapeKey = t at h hform
  cases hform with
  | array items' =>
      rw [Plain, allPlain_iff] at hw
      cases h with
      | array hlength hitems =>
          refine .array (by simpa using hlength) fun pair hpair => ?_
          obtain ⟨hitem, hitem'⟩ := List.of_mem_zip hpair
          refine ih pair.1 hitem pair.2 (hv pair.1 hitem) (hw pair.2 hitem') ?_
          refine hitems (pair.1.toJson shapeKey, pair.2.toJson shapeKey) ?_
          rw [List.zip_map]
          exact List.mem_map_of_mem hpair
  | _ => cases h

end Value

namespace Object

variable {shapeKey : String} {object object' : ObjectValue}

/-- Where `toJson` of two objects agrees, a field's name in one is a field's name in the other, the
shape key apart. -/
theorem mem_names_of_agrees (h : (object.toJson shapeKey).Agrees (object'.toJson shapeKey))
    (hkey : shapeKey ∉ object.fields.map (·.name)) {name : String}
    (hname : name ∈ object.fields.map (·.name)) : name ∈ object'.fields.map (·.name) := by
  have hne : name ≠ shapeKey := fun heq => hkey (heq ▸ hname)
  obtain ⟨value, hvalue⟩ := Option.isSome_iff_exists.mp (isSome_lastField?_iff.mpr hname)
  obtain ⟨tree, htree, -⟩ := h.exists_member name
    (by rw [member?_toJson, if_neg hne, hvalue, Option.map_some])
  rw [member?_toJson, if_neg hne] at htree
  obtain ⟨value', hvalue', -⟩ := Option.map_eq_some_iff.mp htree
  exact isSome_lastField?_iff.mp (Option.isSome_iff_exists.mpr ⟨value', hvalue'⟩)

/-- Objects whose `toJson` agrees have the same names in some order, if each name occurs once. -/
theorem names_perm_of_agrees (h : (object.toJson shapeKey).Agrees (object'.toJson shapeKey))
    (hnodup : (object.fields.map (·.name)).Nodup) (hnodup' : (object'.fields.map (·.name)).Nodup)
    (hkey : shapeKey ∉ object.fields.map (·.name))
    (hkey' : shapeKey ∉ object'.fields.map (·.name)) :
    (object.fields.map (·.name)).Perm (object'.fields.map (·.name)) :=
  (List.perm_ext_iff_of_nodup hnodup hnodup').mpr fun _ =>
    ⟨mem_names_of_agrees h hkey, mem_names_of_agrees h.symm hkey'⟩

/-- Objects whose JSON agrees have the same shape: it is what stands under `shapeKey`, whatever the
fields are. -/
theorem shape_eq_of_agrees (h : (object.toJson shapeKey).Agrees (object'.toJson shapeKey)) :
    object.shape = object'.shape := by
  obtain ⟨tree, htree, hagree⟩ := h.exists_member shapeKey
    (by rw [member?_toJson, if_pos rfl])
  rw [member?_toJson, if_pos rfl] at htree
  cases htree
  exact hagree.string_inj

/-- Fields of one name have values whose `toJson` agrees. -/
theorem values_agree (h : (object.toJson shapeKey).Agrees (object'.toJson shapeKey))
    (hnodup : (object.fields.map (·.name)).Nodup) (hnodup' : (object'.fields.map (·.name)).Nodup)
    (hkey : shapeKey ∉ object.fields.map (·.name)) {field field' : Field Value}
    (hfield : field ∈ object.fields) (hfield' : field' ∈ object'.fields)
    (hname : field.name = field'.name) :
    (field.value.toJson shapeKey).Agrees (field'.value.toJson shapeKey) := by
  have hne : field.name ≠ shapeKey := fun heq => hkey (heq ▸ List.mem_map_of_mem hfield)
  obtain ⟨tree, htree, hagree⟩ := h.exists_member field.name
    (by rw [member?_toJson, if_neg hne, lastField?_of_mem hnodup hfield, Option.map_some])
  rw [member?_toJson, if_neg hne, hname, lastField?_of_mem hnodup' hfield'] at htree
  cases htree
  exact hagree

end Object

/-- Fields whose names are those of others in another order can be put into the order of the
others. -/
theorem exists_ordered {fields fields' : List (Field Value)}
    (h : (fields.map (·.name)).Perm (fields'.map (·.name))) :
    ∃ ordered : List (Field Value), ordered.Perm fields ∧
      ordered.map (·.name) = fields'.map (·.name) := by
  have hnames : List.Forall₂ (fun name (field : Field Value) => name = field.name)
      (fields.map (·.name)) fields :=
    List.forall₂_map_left_iff.mpr (List.forall₂_same.mpr fun _ _ => rfl)
  obtain ⟨ordered, hordered, hperm⟩ := List.perm_comp_forall₂ h.symm hnames
  have heq := List.forall₂_map_right_iff.mpr hordered
  rw [List.forall₂_eq_eq_eq] at heq
  exact ⟨ordered, hperm, heq.symm⟩

/-- Fields at the same place of two lists with the same names have the same name. -/
theorem name_eq_of_mem_zip {fields fields' : List (Field Value)}
    (h : fields.map (·.name) = fields'.map (·.name)) {field field' : Field Value}
    (hpair : (field, field') ∈ fields.zip fields') : field.name = field'.name := by
  have hnames : List.Forall₂ (· = ·) (fields.map (·.name)) (fields'.map (·.name)) := by
    rw [List.forall₂_eq_eq_eq, h]
  rw [List.forall₂_map_left_iff, List.forall₂_map_right_iff] at hnames
  exact (List.forall₂_iff_zip.mp hnames).2 hpair

namespace Value

variable {shapeKey : String} {v w : Value}

/-- Only an `inline` object has the JSON of an object with a shape. -/
theorem exists_inline_of_agrees {object : ObjectValue} (hw : w.Plain shapeKey)
    (h : (object.toJson shapeKey).Agrees (w.toJson shapeKey)) :
    ∃ object', w = .inline object' := by
  have hform := hw.form
  obtain ⟨members, hmembers⟩ : ∃ members, object.toJson shapeKey = .object members := ⟨_, rfl⟩
  generalize w.toJson shapeKey = t at h hform
  cases hform with
  | inline => exact ⟨_, rfl⟩
  | marked => exact absurd h.symm not_agrees_of_mark
  | _ =>
      rw [hmembers] at h
      cases h

/-- The step for objects: the fields are put into the order of the others (`exists_ordered`), where
those of one name stand side by side. -/
theorem alike_of_agrees_inline {shape : String} {fields : List (Field Value)}
    (hv : (inline ⟨shape, fields⟩).Plain shapeKey)
    (ih : ∀ field ∈ fields, ∀ w : Value, field.value.Plain shapeKey → w.Plain shapeKey →
      (field.value.toJson shapeKey).Agrees (w.toJson shapeKey) → field.value.Alike w)
    (hw : w.Plain shapeKey)
    (h : ((inline ⟨shape, fields⟩).toJson shapeKey).Agrees (w.toJson shapeKey)) :
    (inline ⟨shape, fields⟩).Alike w := by
  have hobjects : (Object.toJson shapeKey ⟨shape, fields⟩).Agrees (w.toJson shapeKey) := h
  obtain ⟨⟨shape', fields'⟩, rfl⟩ := exists_inline_of_agrees hw hobjects
  obtain ⟨hnodup, hkey, hfields⟩ := hv
  obtain ⟨hnodup', hkey', hfields'⟩ := hw
  obtain rfl : shape = shape' := Object.shape_eq_of_agrees hobjects
  obtain ⟨ordered, horder, hnames⟩ := exists_ordered
    (Object.names_perm_of_agrees hobjects hnodup hnodup' hkey hkey')
  refine .inline horder hnames fun pair hpair => ?_
  obtain ⟨field, field'⟩ := pair
  obtain ⟨hfield, hfield'⟩ := List.of_mem_zip hpair
  have hmem : field ∈ fields := horder.mem_iff.mp hfield
  refine ih field hmem field'.value (fieldsPlain_iff.mp hfields field hmem)
    (fieldsPlain_iff.mp hfields' field' hfield') ?_
  exact Object.values_agree hobjects hnodup hnodup' hkey hmem hfield'
    (name_eq_of_mem_zip hnames hpair)

/-- Plain values whose JSON agrees are `Alike`, by induction on the first one (`Closed.value`). -/
theorem alike_of_agrees (v : Value) : ∀ w : Value, v.Plain shapeKey → w.Plain shapeKey →
    (v.toJson shapeKey).Agrees (w.toJson shapeKey) → v.Alike w := by
  refine Closed.value (motive := fun v => ∀ w : Value, v.Plain shapeKey → w.Plain shapeKey →
    (v.toJson shapeKey).Agrees (w.toJson shapeKey) → v.Alike w) ⟨?array, ?inline, ?atom⟩ v
  case array =>
    intro items ih w hv hw h
    exact alike_of_agrees_array (allPlain_iff.mp hv) ih hw h
  case inline =>
    intro shape fields ih w hv hw h
    exact alike_of_agrees_inline hv ih hw h
  case atom =>
    intro v harray hinline w hv hw h
    exact hv.form.alike hw.form harray hinline h

/-! ### From values to JSON -/

/-- Values with a `text?`, strings and symbols that are spelled out, become the same JSON. -/
theorem toJson_of_text? {text : String} (h : v.text? = some text) :
    v.toJson shapeKey = .string text := by
  cases v with
  | string | symbol => cases h; rfl
  | _ => cases h

/-- `toJson` of two objects agrees if their shapes are the same, their names are the same, and it
agrees for fields of one name. -/
theorem agrees_inline {object object' : ObjectValue} (hshape : object.shape = object'.shape)
    (hnames : (object.fields.map (·.name)).Perm (object'.fields.map (·.name)))
    (hfields : ∀ field ∈ object.fields, ∀ field' ∈ object'.fields, field.name = field'.name →
      (field.value.toJson shapeKey).Agrees (field'.value.toJson shapeKey)) :
    (object.toJson shapeKey).Agrees (object'.toJson shapeKey) := by
  have hmember (key : String) := Object.member?_toJson object shapeKey key
  have hmember' (key : String) := Object.member?_toJson object' shapeKey key
  obtain ⟨members, hmembers⟩ : ∃ members, object.toJson shapeKey = .object members := ⟨_, rfl⟩
  obtain ⟨members', hmembers'⟩ : ∃ members, object'.toJson shapeKey = .object members := ⟨_, rfl⟩
  simp only [hmembers, hmembers', Tree.member?] at hmember hmember' ⊢
  refine .object (fun key => ?_) fun key tree tree' htree htree' => ?_
  · rw [hmember, hmember']
    split
    case isTrue => rfl
    case isFalse =>
      rw [Option.isSome_map, Option.isSome_map, Bool.eq_iff_iff, Object.isSome_lastField?_iff,
        Object.isSome_lastField?_iff, hnames.mem_iff]
  · rw [hmember] at htree
    rw [hmember'] at htree'
    -- Under the shape key there is the shape, whatever the fields are; elsewhere the last field.
    by_cases hkey : key = shapeKey
    · rw [if_pos hkey] at htree htree'
      cases htree
      cases htree'
      rw [hshape]
      exact .refl _
    · rw [if_neg hkey] at htree htree'
      obtain ⟨value, hvalue, rfl⟩ := Option.map_eq_some_iff.mp htree
      obtain ⟨value', hvalue', rfl⟩ := Option.map_eq_some_iff.mp htree'
      obtain ⟨field, hfield, hname, rfl⟩ := Object.exists_of_lastField? hvalue
      obtain ⟨field', hfield', hname', rfl⟩ := Object.exists_of_lastField? hvalue'
      exact hfields field hfield field' hfield' (hname.trans hname'.symm)

/-- Plain values that are `Alike` have JSON that agrees, by induction on how they are. -/
theorem agrees_of_alike (h : v.Alike w) : v.Plain shapeKey → w.Plain shapeKey →
    (v.toJson shapeKey).Agrees (w.toJson shapeKey) := by
  induction h with
  | text hv hw =>
      intro _ _
      rw [toJson_of_text? hv, toJson_of_text? hw]
      exact .string _
  | @array items items' hlength _ ih =>
      intro hv hw
      rw [Plain, allPlain_iff] at hv hw
      rw [toJson, toJson, itemsToJson_eq_map, itemsToJson_eq_map]
      refine .array (by simpa using hlength) fun pair hpair => ?_
      rw [List.zip_map] at hpair
      obtain ⟨⟨item, item'⟩, hmem, rfl⟩ := List.mem_map.mp hpair
      obtain ⟨hitem, hitem'⟩ := List.of_mem_zip hmem
      exact ih (item, item') hmem (hv item hitem) (hw item' hitem')
  | @inline shape fields ordered fields' horder hnames _ ih =>
      intro hv hw
      refine agrees_inline rfl (hnames ▸ (horder.map _).symm)
        fun field hfield field' hfield' hname => ?_
      obtain ⟨partner, hpair⟩ := exists_mem_zip_of_mem hnames.symm hfield'
      have hpartner : partner ∈ fields := horder.mem_iff.mp (List.of_mem_zip hpair).1
      obtain rfl : partner = field := List.inj_on_of_nodup_map hv.1 hpartner hfield
        ((name_eq_of_mem_zip hnames hpair).trans hname.symm)
      exact ih (partner, field') hpair (fieldsPlain_iff.mp hv.2.2 partner hfield)
        (fieldsPlain_iff.mp hw.2.2 field' hfield')
  | _ => exact fun _ _ => .refl _

/-- Among `Plain` values `toJson` agrees for those that are `Alike` and for no others; and of no
values at all does it agree for a reference and an interned symbol, or for one of these and an
inline object. -/
theorem toJson_lossless (shapeKey : String) :
    (∀ v w : Value, v.Plain shapeKey → w.Plain shapeKey →
      ((v.toJson shapeKey).Agrees (w.toJson shapeKey) ↔ v.Alike w)) ∧
    ∀ (slot index : Nat) (object : ObjectValue),
      ¬((ref slot).toJson shapeKey).Agrees ((internedSymbol index).toJson shapeKey) ∧
      ¬((ref slot).toJson shapeKey).Agrees ((inline object).toJson shapeKey) ∧
      ¬((internedSymbol index).toJson shapeKey).Agrees ((inline object).toJson shapeKey) := by
  refine ⟨fun v w hv hw => ⟨alike_of_agrees v w hv hw, fun h => agrees_of_alike h hv hw⟩,
    fun slot index object => ⟨fun h => ?_, not_agrees_of_mark, not_agrees_of_mark⟩⟩
  have hne : refKey ≠ symbolKey := by decide
  exact hne (congrArg Prod.fst (marks_eq h))

/-- An object with a field that is named like the mark of a reference. -/
def marked : Value :=
  .inline ⟨"Node", [⟨"$ref", .ref 1⟩, ⟨"label", .string "oak"⟩]⟩

/-- The object, with its fields in another order and a symbol for the string. -/
def reordered : Value :=
  .inline ⟨"Node", [⟨"label", .symbol "oak"⟩, ⟨"$ref", .ref 1⟩]⟩

/-- `marked` has a field that is named like the mark of a reference, and is plain with another key
for its shape. With the mark itself for that key, its JSON still differs from that of a reference.
-/
theorem toJson_lossless_of_marked : marked.Alike reordered ∧
    ¬((ref 1).toJson "$ref").Agrees (marked.toJson "$ref") := by
  have hplain : marked.Plain "type" := by simp [marked, Plain, FieldsPlain]
  have hplain' : reordered.Plain "type" := by simp [reordered, Plain, FieldsPlain]
  have hagree : (marked.toJson "type").Agrees (reordered.toJson "type") := by
    have hsame : marked.toJson "type" = reordered.toJson "type" := by rfl
    rw [hsame]
    exact .refl _
  exact ⟨((toJson_lossless "type").1 marked reordered hplain hplain').mp hagree,
    ((toJson_lossless "$ref").2 1 0 _).2.1⟩

end Value

end BinaryAst
