import Mathlib.Data.Nat.Notation
import Mathlib.Data.List.Basic

/-!
# JSON trees

A JSON value as a tree, with the fields of an object in order. A walk over a tree may stop at a
node and may leave out the fields of one key: `Walk.Holds` says that something is true at every
node that such a walk reaches. `Json.Removes key v w` says that `w` is `v` without some of its
fields of that key, anywhere, and otherwise the same.
-/

namespace BreadboardTui

open List

/-- A JSON value. Numbers are exact. -/
inductive Json where
  | null
  | bool (value : Bool)
  | number (value : Rat)
  | string (value : String)
  | array (items : List Json)
  | object (fields : List (String × Json))

namespace Json

theorem induct {P : Json → Prop} (null : P .null) (bool : ∀ value, P (.bool value))
    (number : ∀ value, P (.number value)) (string : ∀ value, P (.string value))
    (array : ∀ items : List Json, (∀ item ∈ items, P item) → P (.array items))
    (object : ∀ fields : List (String × Json), (∀ field ∈ fields, P field.2) →
      P (.object fields)) (v : Json) : P v := by
  have hrec := @Json.rec P (fun items => ∀ item ∈ items, P item)
    (fun fields => ∀ field ∈ fields, P field.2) (fun field => P field.2)
  refine hrec null bool number string array object ?_ ?_ ?_ ?_ ?_ v
  · exact fun item hitem => absurd hitem not_mem_nil
  · exact fun head tail hhead htail item hitem =>
      (mem_cons.mp hitem).elim (fun h => h ▸ hhead) (htail item)
  · exact fun field hfield => absurd hfield not_mem_nil
  · exact fun head tail hhead htail field hfield =>
      (mem_cons.mp hfield).elim (fun h => h ▸ hhead) (htail field)
  · exact fun _ _ h => h

/-! ### Fields -/

/-- The first field of the key gets the value. -/
def setField (key : String) (value : Json) : List (String × Json) → List (String × Json)
  | [] => []
  | (k, v) :: fields =>
    if k = key then (k, value) :: fields else (k, v) :: setField key value fields

variable {key : String} {value : Json} {fields : List (String × Json)}

theorem lookup_setField_of_ne {k : String} (h : k ≠ key) :
    (setField key value fields).lookup k = fields.lookup k := by
  induction fields with
  | nil => rfl
  | cons field fields ih =>
    obtain ⟨k', v⟩ := field
    by_cases hk : k' = key
    · have hne : (k == k') = false := by simp [hk, h]
      rw [setField, if_pos hk, lookup_cons, lookup_cons, hne]
    · rw [setField, if_neg hk, lookup_cons, lookup_cons, ih]

theorem lookup_setField_self {old : Json} (h : fields.lookup key = some old) :
    (setField key value fields).lookup key = some value := by
  induction fields with
  | nil => cases h
  | cons field fields ih =>
    obtain ⟨k, v⟩ := field
    by_cases hk : k = key
    · rw [setField, if_pos hk, hk, lookup_cons_self]
    have hne : (key == k) = false := by simp [Ne.symm hk]
    rw [lookup_cons, hne] at h
    rw [setField, if_neg hk, lookup_cons, hne]
    exact ih h

theorem setField_setField {value' : Json} (h : fields.lookup key = some value) :
    setField key value (setField key value' fields) = fields := by
  induction fields with
  | nil => rfl
  | cons field fields ih =>
    obtain ⟨k, v⟩ := field
    by_cases hk : k = key
    · rw [hk, lookup_cons_self] at h
      rw [setField, if_pos hk, setField, if_pos hk, Option.some.inj h]
    have hne : (key == k) = false := by simp [Ne.symm hk]
    rw [lookup_cons, hne] at h
    rw [setField, if_neg hk, setField, if_neg hk, ih h]

theorem mem_of_lookup (h : fields.lookup key = some value) : (key, value) ∈ fields := by
  induction fields with
  | nil => cases h
  | cons field fields ih =>
    obtain ⟨k, v⟩ := field
    by_cases hk : key = k
    · rw [hk, lookup_cons_self] at h
      rw [hk, Option.some.inj h]
      exact mem_cons_self
    have hne : (key == k) = false := by simp [hk]
    rw [lookup_cons, hne] at h
    exact mem_cons_of_mem _ (ih h)

theorem mem_setField {field : String × Json} (h : field ∈ setField key value fields) :
    field ∈ fields ∨ field = (key, value) := by
  induction fields with
  | nil => cases h
  | cons head fields ih =>
    obtain ⟨k, v⟩ := head
    by_cases hk : k = key
    · rw [setField, if_pos hk] at h
      rcases mem_cons.mp h with rfl | hmem
      · exact Or.inr (by rw [hk])
      · exact Or.inl (mem_cons_of_mem _ hmem)
    rw [setField, if_neg hk] at h
    rcases mem_cons.mp h with rfl | hmem
    · exact Or.inl mem_cons_self
    · exact (ih hmem).imp_left (mem_cons_of_mem _)

/-- Looking a field up after all fields but those of another key have been rewritten. -/
theorem lookup_filter_map {skip : String} (h : key ≠ skip) (out : String → Json → Json) :
    ((fields.filter (·.1 ≠ skip)).map fun field => (field.1, out field.1 field.2)).lookup key =
      (fields.lookup key).map (out key) := by
  induction fields with
  | nil => rfl
  | cons field fields ih =>
    obtain ⟨k, v⟩ := field
    by_cases hk : key = k
    · rw [filter_cons_of_pos (by simp [← hk, h]), map_cons, hk, lookup_cons_self,
        lookup_cons_self, Option.map_some]
    have hne : (key == k) = false := by simp [hk]
    rw [lookup_cons (a := key), hne, ← ih]
    by_cases hskip : k = skip
    · rw [filter_cons_of_neg (by simp [hskip])]
    · rw [filter_cons_of_pos (by simp [hskip]), map_cons, lookup_cons, hne]

/-- Looking a field up after all fields of another key have got a value. -/
theorem lookup_map_update {name : String} (h : key ≠ name) :
    (fields.map fun field => (field.1, if field.1 = name then value else field.2)).lookup key =
      fields.lookup key := by
  induction fields with
  | nil => rfl
  | cons field fields ih =>
    obtain ⟨k, v⟩ := field
    by_cases hk : key = k
    · rw [map_cons, if_neg (hk ▸ h), hk, lookup_cons_self, lookup_cons_self]
    have hne : (key == k) = false := by simp [hk]
    rw [map_cons, lookup_cons, hne, ih, lookup_cons, hne]

/-! ### Strings in a tree -/

mutual

/-- Some string of the tree satisfies the test. -/
def hasString (p : String → Bool) : Json → Bool
  | .string value => p value
  | .array items => itemsHaveString p items
  | .object fields => fieldsHaveString p fields
  | .null | .bool _ | .number _ => false

def itemsHaveString (p : String → Bool) : List Json → Bool
  | [] => false
  | item :: items => hasString p item || itemsHaveString p items

def fieldsHaveString (p : String → Bool) : List (String × Json) → Bool
  | [] => false
  | (_, value) :: fields => hasString p value || fieldsHaveString p fields

end

attribute [local simp] hasString itemsHaveString fieldsHaveString

variable {p : String → Bool} {items : List Json}

theorem itemsHaveString_eq_false :
    itemsHaveString p items = false ↔ ∀ item ∈ items, hasString p item = false := by
  induction items with
  | nil => simp [itemsHaveString]
  | cons item items ih => simp [itemsHaveString, ih]

theorem fieldsHaveString_eq_false :
    fieldsHaveString p fields = false ↔ ∀ field ∈ fields, hasString p field.2 = false := by
  induction fields with
  | nil => simp [fieldsHaveString]
  | cons field fields ih =>
    obtain ⟨k, v⟩ := field
    simp [fieldsHaveString, ih]

/-! ### Removed fields -/

mutual

/-- The second tree is the first one without some of its fields of the key. -/
def Removes (key : String) : Json → Json → Prop
  | .array items, w => ∃ items', w = .array items' ∧ ItemsRemove key items items'
  | .object fields, w => ∃ fields', w = .object fields' ∧ FieldsRemove key fields fields'
  | .null, w => w = .null
  | .bool value, w => w = .bool value
  | .number value, w => w = .number value
  | .string value, w => w = .string value

def ItemsRemove (key : String) : List Json → List Json → Prop
  | [], ws => ws = []
  | item :: items, ws =>
    ∃ item' items', ws = item' :: items' ∧ Removes key item item' ∧ ItemsRemove key items items'

def FieldsRemove (key : String) : List (String × Json) → List (String × Json) → Prop
  | [], ws => ws = []
  | (k, v) :: fields, ws =>
    (k = key ∧ FieldsRemove key fields ws) ∨
      ∃ v' fields', ws = (k, v') :: fields' ∧ Removes key v v' ∧ FieldsRemove key fields fields'

end

attribute [local simp] Removes ItemsRemove FieldsRemove

/-- Items that are rewritten one by one. -/
theorem itemsRemove_map_iff {out : Json → Json} :
    ItemsRemove key items (items.map out) ↔ ∀ item ∈ items, Removes key item (out item) := by
  induction items with
  | nil => simp [ItemsRemove]
  | cons item items ih => simp [ItemsRemove, ih]

/-- Fields of which those of the key are dropped and the others are rewritten one by one. -/
theorem fieldsRemove_map_iff (out : String → Json → Json) : FieldsRemove key fields
        ((fields.filter (·.1 ≠ key)).map fun field => (field.1, out field.1 field.2)) ↔
      ∀ field ∈ fields, field.1 ≠ key → Removes key field.2 (out field.1 field.2) := by
  induction fields with
  | nil => simp [FieldsRemove]
  | cons field fields ih =>
    obtain ⟨k, v⟩ := field
    by_cases hk : k = key
    · rw [filter_cons_of_neg (by simp [hk]), FieldsRemove]
      constructor
      · rintro (⟨-, hrest⟩ | ⟨v', fields', heq, -, -⟩)
        · intro field hfield hne
          rcases mem_cons.mp hfield with rfl | hmem
          · exact absurd hk hne
          · exact ih.mp hrest field hmem hne
        · -- no field of the key is left that could have been kept
          have hmem : (k, v') ∈ (fields.filter (·.1 ≠ key)).map fun field =>
              (field.1, out field.1 field.2) := heq ▸ mem_cons_self
          obtain ⟨field, hfield, hpair⟩ := mem_map.mp hmem
          have hne : field.1 ≠ key := by simpa using (mem_filter.mp hfield).2
          exact absurd ((congrArg Prod.fst hpair).trans hk) hne
      intro h
      exact Or.inl ⟨hk, ih.mpr fun field hfield => h field (mem_cons_of_mem _ hfield)⟩
    rw [filter_cons_of_pos (by simp [hk]), map_cons, FieldsRemove]
    constructor
    · rintro (⟨heq, -⟩ | ⟨v', fields', heq, hv, hrest⟩)
      · exact absurd heq hk
      · obtain ⟨hpair, htail⟩ := List.cons.inj heq
        have hout : out k v = v' := congrArg Prod.snd hpair
        intro field hfield hne
        rcases mem_cons.mp hfield with rfl | hmem
        · exact hout ▸ hv
        · exact ih.mp (htail ▸ hrest) field hmem hne
    intro h
    refine Or.inr ⟨out k v, _, rfl, h (k, v) mem_cons_self hk, ih.mpr ?_⟩
    exact fun field hfield => h field (mem_cons_of_mem _ hfield)

theorem removes_array_iff {items' : List Json} :
    Removes key (.array items) (.array items') ↔ ItemsRemove key items items' := by
  simp [Removes]

theorem removes_object_iff {fields' : List (String × Json)} :
    Removes key (.object fields) (.object fields') ↔ FieldsRemove key fields fields' := by
  simp [Removes]

theorem removes_string_iff {text : String} {w : Json} :
    Removes key (.string text) w ↔ w = .string text := by rw [Removes]

theorem removes_number_iff {v : Json} {n : Rat} : Removes key v (.number n) ↔ v = .number n := by
  cases v with
  | number =>
    rw [Removes]
    exact eq_comm
  | null | bool | string | array | object => simp [Removes]

theorem itemsRemove_refl (h : ∀ item ∈ items, Removes key item item) :
    ItemsRemove key items items := by
  have hmap := itemsRemove_map_iff.mpr (show ∀ item ∈ items, Removes key item (id item) from h)
  rwa [map_id] at hmap

theorem fieldsRemove_refl (h : ∀ field ∈ fields, Removes key field.2 field.2) :
    FieldsRemove key fields fields := by
  induction fields with
  | nil => rfl
  | cons field fields ih =>
    obtain ⟨k, v⟩ := field
    refine Or.inr ⟨v, fields, rfl, h (k, v) mem_cons_self, ih ?_⟩
    exact fun field hfield => h field (mem_cons_of_mem _ hfield)

theorem removes_refl (key : String) (v : Json) : Removes key v v := by
  induction v using Json.induct with
  | null | bool | number | string => rw [Removes]
  | array items ih => exact ⟨items, rfl, itemsRemove_refl ih⟩
  | object fields ih => exact ⟨fields, rfl, fieldsRemove_refl ih⟩

theorem hasString_of_removes {v w : Json} (h : Removes key v w) (hv : hasString p v = false) :
    hasString p w = false := by
  induction v using Json.induct generalizing w with
  | null | bool | number | string =>
    rw [Removes] at h
    rw [h]
    exact hv
  | array items ih =>
    obtain ⟨items', rfl, hitems⟩ := h
    rw [hasString] at hv ⊢
    induction items generalizing items' with
    | nil =>
      rw [ItemsRemove] at hitems
      rw [hitems]
      rfl
    | cons item items ihs =>
      obtain ⟨item', rest, rfl, hitem, hrest⟩ := hitems
      obtain ⟨hhead, htail⟩ : hasString p item = false ∧ itemsHaveString p items = false := by
        simpa [itemsHaveString] using hv
      rw [itemsHaveString, ih item mem_cons_self hitem hhead, Bool.false_or]
      exact ihs (fun i hi _ => ih i (mem_cons_of_mem _ hi)) htail rest hrest
  | object fields ih =>
    obtain ⟨fields', rfl, hfields⟩ := h
    rw [hasString] at hv ⊢
    induction fields generalizing fields' with
    | nil =>
      rw [FieldsRemove] at hfields
      rw [hfields]
      rfl
    | cons field fields ihs =>
      obtain ⟨k, v⟩ := field
      obtain ⟨hhead, htail⟩ : hasString p v = false ∧ fieldsHaveString p fields = false := by
        simpa [fieldsHaveString] using hv
      have hrec := ihs (fun i hi _ => ih i (mem_cons_of_mem _ hi)) htail
      rcases hfields with ⟨-, hrest⟩ | ⟨v', rest, rfl, hvalue, hrest⟩
      · exact hrec fields' hrest
      rw [fieldsHaveString, ih (k, v) mem_cons_self hvalue hhead, Bool.false_or]
      exact hrec rest hrest

end Json

/-! ### Walks -/

/-- Where a walk meets a node: under which key, and whether as the value of a field. The items of
an array are under the key of the array. -/
structure Site where
  key : Option String
  inField : Bool

/-- A walk stops at some nodes and leaves out the fields of one key. -/
structure Walk where
  stops : Option String → Json → Bool
  skip : String

namespace Walk

mutual

/-- `Q` holds at every node that the walk reaches. -/
def Holds (walk : Walk) (Q : Site → Json → Prop) (site : Site) : Json → Prop
  | .array items =>
    Q site (.array items) ∧
      (walk.stops site.key (.array items) = false → HoldsItems walk Q site.key items)
  | .object fields =>
    Q site (.object fields) ∧
      (walk.stops site.key (.object fields) = false → HoldsFields walk Q fields)
  | .null => Q site .null
  | .bool value => Q site (.bool value)
  | .number value => Q site (.number value)
  | .string value => Q site (.string value)

def HoldsItems (walk : Walk) (Q : Site → Json → Prop) (key : Option String) : List Json → Prop
  | [] => True
  | item :: items => Holds walk Q ⟨key, false⟩ item ∧ HoldsItems walk Q key items

def HoldsFields (walk : Walk) (Q : Site → Json → Prop) : List (String × Json) → Prop
  | [] => True
  | (k, v) :: fields =>
    (k ≠ walk.skip → Holds walk Q ⟨some k, true⟩ v) ∧ HoldsFields walk Q fields

end

attribute [local simp] Holds HoldsItems HoldsFields

variable {walk : Walk} {Q : Site → Json → Prop}

theorem holdsItems_iff {key : Option String} {items : List Json} :
    HoldsItems walk Q key items ↔ ∀ item ∈ items, Holds walk Q ⟨key, false⟩ item := by
  induction items with
  | nil => simp [HoldsItems]
  | cons item items ih => simp [HoldsItems, ih]

theorem holdsFields_iff {fields : List (String × Json)} : HoldsFields walk Q fields ↔
      ∀ field ∈ fields, field.1 ≠ walk.skip → Holds walk Q ⟨some field.1, true⟩ field.2 := by
  induction fields with
  | nil => simp [HoldsFields]
  | cons field fields ih =>
    obtain ⟨k, v⟩ := field
    simp [HoldsFields, ih]

theorem Holds.mono {Q' : Site → Json → Prop} (hQ : ∀ site v, Q site v → Q' site v) {site : Site}
    {v : Json} (h : Holds walk Q site v) : Holds walk Q' site v := by
  induction v using Json.induct generalizing site with
  | null | bool | number | string => exact hQ _ _ h
  | array items ih =>
    rw [Holds, holdsItems_iff] at h ⊢
    exact ⟨hQ _ _ h.1, fun hstops item hmem => ih item hmem (h.2 hstops item hmem)⟩
  | object fields ih =>
    rw [Holds, holdsFields_iff] at h ⊢
    exact ⟨hQ _ _ h.1, fun hstops field hmem hkey => ih field hmem (h.2 hstops field hmem hkey)⟩

end Walk

end BreadboardTui
