import BreadboardTui.Glyphs.Text
import BreadboardTui.Js.Collections
import Mathlib.Data.Rat.Defs

/-!
# Glyphs in a value

The arguments of a tool call are a JSON-like value. The codec rewrites its strings and the keys of
its records, and keeps an array or a record in which nothing has changed as it is.

A record is rebuilt by assignments to an empty one. An own key `__proto__` is not assigned as a key:
the assignment sets the prototype of the new record, or does nothing.
-/

namespace BreadboardTui.Glyphs

open List

open Hashline (Units units)

/-! ### Values -/

/-- What `Object.getPrototypeOf` says of a record: `Object.prototype`, `null` or another one. -/
inductive Prototype where
  | object
  | null
  | other
  deriving DecidableEq, Repr

/-- A JSON-like value. A record lists its own keys in the order in which they are enumerated. -/
inductive JsonLike where
  | null
  | bool (value : Bool)
  | number (value : ℚ)
  | string (text : Units)
  | array (items : List JsonLike)
  | record (proto : Prototype) (fields : List (Units × JsonLike))

abbrev Fields : Type := List (Units × JsonLike)

def Fields.keys (fields : Fields) : List Units := fields.map Prod.fst

namespace JsonLike

theorem induct {P : JsonLike → Prop} (null : P .null) (bool : ∀ value, P (.bool value))
    (number : ∀ value, P (.number value)) (string : ∀ text, P (.string text))
    (array : ∀ items : List JsonLike, (∀ item ∈ items, P item) → P (.array items))
    (record : ∀ proto (fields : Fields), (∀ field ∈ fields, P field.2) → P (.record proto fields))
    (v : JsonLike) : P v := by
  have hrec := @JsonLike.rec P (fun items => ∀ item ∈ items, P item)
    (fun fields => ∀ field ∈ fields, P field.2) (fun field => P field.2)
  refine hrec null bool number string array record ?_ ?_ ?_ ?_ ?_ v
  · exact fun item hitem => absurd hitem not_mem_nil
  · exact fun head tail hhead htail item hitem =>
      (mem_cons.mp hitem).elim (fun h => h ▸ hhead) (htail item)
  · exact fun field hfield => absurd hfield not_mem_nil
  · exact fun head tail hhead htail field hfield =>
      (mem_cons.mp hfield).elim (fun h => h ▸ hhead) (htail field)
  · exact fun _ _ h => h

/-! ### All strings and all records of a value -/

mutual

/-- All strings and keys of a value. -/
def AllStrings (p : Units → Prop) : JsonLike → Prop
  | .string text => p text
  | .array items => ItemStrings p items
  | .record _ fields => FieldStrings p fields
  | .null | .bool _ | .number _ => True

def ItemStrings (p : Units → Prop) : List JsonLike → Prop
  | [] => True
  | item :: items => AllStrings p item ∧ ItemStrings p items

def FieldStrings (p : Units → Prop) : List (Units × JsonLike) → Prop
  | [] => True
  | (key, value) :: fields => (p key ∧ AllStrings p value) ∧ FieldStrings p fields

end

mutual

/-- All records of a value. -/
def AllRecords (p : Prototype → Fields → Prop) : JsonLike → Prop
  | .array items => ItemRecords p items
  | .record proto fields => p proto fields ∧ FieldRecords p fields
  | .null | .bool _ | .number _ | .string _ => True

def ItemRecords (p : Prototype → Fields → Prop) : List JsonLike → Prop
  | [] => True
  | item :: items => AllRecords p item ∧ ItemRecords p items

def FieldRecords (p : Prototype → Fields → Prop) : List (Units × JsonLike) → Prop
  | [] => True
  | (_, value) :: fields => AllRecords p value ∧ FieldRecords p fields

end

attribute [local simp] AllStrings ItemStrings FieldStrings AllRecords ItemRecords FieldRecords

variable {items : List JsonLike}

theorem allStrings_array {p : Units → Prop} :
    AllStrings p (.array items) ↔ ∀ item ∈ items, AllStrings p item := by
  rw [AllStrings]
  induction items with
  | nil => simp
  | cons item items ih => simp [ih]

variable {proto : Prototype} {fields : Fields}

theorem allStrings_record {p : Units → Prop} : AllStrings p (.record proto fields) ↔
      ∀ field ∈ fields, p field.1 ∧ AllStrings p field.2 := by
  rw [AllStrings]
  induction fields with
  | nil => simp
  | cons field fields ih => simp [ih]

variable {p : Prototype → Fields → Prop}

theorem allRecords_array : AllRecords p (.array items) ↔ ∀ item ∈ items, AllRecords p item := by
  rw [AllRecords]
  induction items with
  | nil => simp
  | cons item items ih => simp [ih]

theorem allRecords_record : AllRecords p (.record proto fields) ↔
      p proto fields ∧ ∀ field ∈ fields, AllRecords p field.2 := by
  have hfields : FieldRecords p fields ↔ ∀ field ∈ fields, AllRecords p field.2 := by
    induction fields with
    | nil => simp
    | cons field fields ih => simp [ih]
  rw [AllRecords, hfields]

theorem AllStrings.imp {p q : Units → Prop} (h : ∀ text, p text → q text) {v : JsonLike}
    (hv : AllStrings p v) : AllStrings q v := by
  induction v using JsonLike.induct with
  | null | bool | number => trivial
  | string text => exact h text hv
  | array items ih =>
    rw [allStrings_array] at hv ⊢
    exact fun item hitem => ih item hitem (hv item hitem)
  | record proto fields ih =>
    rw [allStrings_record] at hv ⊢
    exact fun field hfield => ⟨h _ (hv field hfield).1, ih field hfield (hv field hfield).2⟩

/-! ### Transforming a value -/

/-- The key that is not assigned as one. -/
def protoKey : Units := units "__proto__"

/-- A record that is being built. -/
structure JsObject where
  proto : Prototype := .object
  fields : Fields := []

/-- The prototype behind the setter `__proto__`, which ignores what is no object. -/
def setPrototype (proto : Prototype) : JsonLike → Prototype
  | .null => .null
  | .array _ | .record _ _ => .other
  | .bool _ | .number _ | .string _ => proto

/-- `output[key] = value` -/
def JsObject.assign (out : JsObject) (key : Units) (value : JsonLike) : JsObject :=
  -- the setter is inherited, unless the prototype has been set to `null`
  if key = protoKey ∧ out.proto ≠ .null then
    { out with proto := setPrototype out.proto value }
  else { out with fields := JsMap.set key value out.fields }

/-- The keys before the first one that changes are copied. -/
def JsObject.copy (fields : Fields) : JsObject :=
  fields.foldl (fun out field => out.assign field.1 field.2) {}

mutual

/-- `transformValue`: nothing where the result is `===` to the value. -/
def transformValue (transform : Units → Units) : JsonLike → Option JsonLike
  | .string text => if transform text = text then none else some (.string (transform text))
  | .array items => (transformItems transform items).map .array
  | .record proto fields =>
    -- `isPlainRecord`
    if proto = .other then none
    else (transformRecord transform fields [] none).map fun out => .record out.proto out.fields
  | .null | .bool _ | .number _ => none

/-- The loop over an array: nothing as long as no item has changed. -/
def transformItems (transform : Units → Units) : List JsonLike → Option (List JsonLike)
  | [] => none
  | item :: items =>
    match transformValue transform item, transformItems transform items with
    | none, none => none
    | none, some rest => some (item :: rest)
    | some new, rest => some (new :: rest.getD items)

/-- The loop of `transformRecord` over the keys that are left, with those that have been `seen` and
the `output`. -/
def transformRecord (transform : Units → Units) :
    List (Units × JsonLike) → Fields → Option JsObject → Option JsObject
  | [], _, output => output
  | (key, value) :: fields, seen, output =>
    let new := transformValue transform value
    let output :=
      if output.isNone ∧ (transform key ≠ key ∨ new.isSome) then some (JsObject.copy seen)
      else output
    transformRecord transform fields (seen ++ [(key, value)])
      (output.map fun out => out.assign (transform key) (new.getD value))

end

attribute [local simp] transformValue transformItems transformRecord

/-- What `transformValue` returns. -/
def transformed (transform : Units → Units) (v : JsonLike) : JsonLike :=
  (transformValue transform v).getD v

/-- A field with its key and its value transformed. -/
def newField (transform : Units → Units) (field : Units × JsonLike) : Units × JsonLike :=
  (transform field.1, transformed transform field.2)

/-- Every string and every key rewritten, and nothing else. -/
def mapStrings (f : Units → Units) : JsonLike → JsonLike
  | .string text => .string (f text)
  | .array items => .array (items.attach.map fun item => mapStrings f item.1)
  | .record proto fields =>
    .record proto (fields.attach.map fun field => (f field.1.1, mapStrings f field.1.2))
  | .null => .null
  | .bool value => .bool value
  | .number value => .number value
decreasing_by
  · have := sizeOf_lt_of_mem item.2
    simp only [array.sizeOf_spec]
    omega
  · have := sizeOf_lt_of_mem field.2
    obtain ⟨⟨key, value⟩, hmem⟩ := field
    simp only [record.sizeOf_spec, Prod.mk.sizeOf_spec] at this ⊢
    omega

/-! ### Loops that change nothing, and loops that change something -/

variable {transform : Units → Units}

theorem transformItems_eq_none : transformItems transform items = none ↔
      ∀ item ∈ items, transformValue transform item = none := by
  induction items with
  | nil => simp
  | cons item items ih =>
    rw [transformItems, forall_mem_cons, ← ih]
    cases transformValue transform item with
    | none => cases transformItems transform items <;> simp
    | some => simp

theorem transformItems_getD (items : List JsonLike) :
    (transformItems transform items).getD items = items.map (transformed transform) := by
  induction items with
  | nil => rfl
  | cons item items ih =>
    rw [transformItems, map_cons, ← ih, transformed]
    cases transformValue transform item with
    | none => cases transformItems transform items <;> rfl
    | some => rfl

theorem transformed_array (items : List JsonLike) :
    transformed transform (.array items) = .array (items.map (transformed transform)) := by
  rw [← transformItems_getD, transformed, transformValue]
  cases transformItems transform items <;> rfl

/-- Nothing in a field changes. -/
def Unchanged (transform : Units → Units) (field : Units × JsonLike) : Prop :=
  transform field.1 = field.1 ∧ transformValue transform field.2 = none

theorem newField_of_unchanged {field : Units × JsonLike} (h : Unchanged transform field) :
    newField transform field = field := by
  rw [newField, h.1, transformed, h.2]
  rfl

theorem transformRecord_unchanged
    (h : ∀ field ∈ fields, Unchanged transform field) (seen : Fields) :
    transformRecord transform fields seen none = none := by
  induction fields generalizing seen with
  | nil => rfl
  | cons field fields ih =>
    obtain ⟨hkey, hvalue⟩ := h field mem_cons_self
    have hnot : ¬ (transform field.1 ≠ field.1 ∨
        (transformValue transform field.2).isSome = true) := by
      simp [hkey, hvalue]
    rw [transformRecord, if_neg fun hc => hnot hc.2]
    exact ih (fun other hother => h other (mem_cons_of_mem _ hother)) _

/-- Once there is an output, every field is assigned to it. -/
theorem transformRecord_some (fields seen : Fields) (out : JsObject) :
    transformRecord transform fields seen (some out) =
      some ((fields.map (newField transform)).foldl (fun out field =>
        out.assign field.1 field.2) out) := by
  induction fields generalizing seen out with
  | nil => rfl
  | cons field fields ih =>
    rw [transformRecord, if_neg (by simp), Option.map_some, ih]
    rfl

/-- The copied fields and those after them are the new fields in their order. -/
theorem transformRecord_changed (h : ¬ ∀ field ∈ fields, Unchanged transform field) {seen : Fields}
    (hseen : ∀ field ∈ seen, Unchanged transform field) :
    transformRecord transform fields seen none =
      some (JsObject.copy ((seen ++ fields).map (newField transform))) := by
  have hcopy : ∀ {part : Fields}, (∀ field ∈ part, Unchanged transform field) →
      part.map (newField transform) = part := by
    intro part hpart
    rw [map_congr_left (g := id), map_id]
    exact fun field hfield => newField_of_unchanged (hpart field hfield)
  induction fields generalizing seen with
  | nil => exact absurd (fun field hfield => absurd hfield not_mem_nil) h
  | cons field fields ih =>
    rw [transformRecord]
    by_cases hfield : Unchanged transform field
    · obtain ⟨hkey, hvalue⟩ := hfield
      have hnot : ¬ (transform field.1 ≠ field.1 ∨
          (transformValue transform field.2).isSome = true) := by
        simp [hkey, hvalue]
      have hrest : ¬ ∀ other ∈ fields, Unchanged transform other := fun hall =>
        h (forall_mem_cons.mpr ⟨⟨hkey, hvalue⟩, hall⟩)
      have hseen' : ∀ other ∈ seen ++ [field], Unchanged transform other := by
        intro other hother
        rcases mem_append.mp hother with hother | hother
        · exact hseen other hother
        · exact mem_singleton.mp hother ▸ ⟨hkey, hvalue⟩
      rw [if_neg fun hc => hnot hc.2, Option.map_none, ih hrest hseen', append_assoc]
      rfl
    -- the first field that changes: what was seen is copied, and the field is assigned
    have hchanged : transform field.1 ≠ field.1 ∨
        (transformValue transform field.2).isSome = true := by
      by_contra hno
      rw [not_or, not_ne_iff, Option.not_isSome_iff_eq_none] at hno
      exact hfield hno
    rw [if_pos ⟨rfl, hchanged⟩, Option.map_some, transformRecord_some, JsObject.copy,
      JsObject.copy, map_append, hcopy hseen, List.foldl_append, map_cons,
      foldl_cons]
    rfl

/-! ### Assignments -/

variable {out : JsObject}

/-- Distinct keys other than `__proto__` are assigned in their order. -/
theorem foldl_assign (hproto : protoKey ∉ fields.keys)
    (hnodup : (out.fields ++ fields).keys.Nodup) :
    fields.foldl (fun out field => out.assign field.1 field.2) out =
      { out with fields := out.fields ++ fields } := by
  induction fields generalizing out with
  | nil => simp
  | cons field fields ih =>
    rw [Fields.keys, map_cons, mem_cons, not_or] at hproto
    have hnew : field.1 ∉ out.fields.map Prod.fst := by
      intro hmem
      rw [Fields.keys, map_append, map_cons] at hnodup
      exact disjoint_of_nodup_append hnodup hmem mem_cons_self
    have hassign : out.assign field.1 field.2 = { out with fields := out.fields ++ [field] } := by
      rw [JsObject.assign, if_neg fun hc => hproto.1 hc.1.symm, JsMap.set_of_notMem hnew]
    rw [foldl_cons, hassign, ih hproto.2]
    · simp
    · simpa using hnodup

theorem copy_eq (hproto : protoKey ∉ fields.keys) (hnodup : fields.keys.Nodup) :
    JsObject.copy fields = { fields := fields } := by
  rw [JsObject.copy, foldl_assign hproto (by simpa using hnodup)]
  rfl

variable {key : Units} {value : JsonLike}

theorem mem_keys_set {k : Units} {m : Fields}
    (h : key ∈ Fields.keys (JsMap.set k value m)) : key = k ∨ key ∈ Fields.keys m := by
  obtain ⟨entry, hentry, rfl⟩ := mem_map.mp h
  rcases JsMap.mem_set hentry with rfl | hmem
  · exact .inl rfl
  · exact .inr (mem_map.mpr ⟨entry, hmem, rfl⟩)

theorem mem_keys_assign {k : Units}
    (h : key ∈ (out.assign k value).fields.keys) : key = k ∨ key ∈ out.fields.keys := by
  rw [JsObject.assign] at h
  split at h
  · exact .inr h
  · exact mem_keys_set h

theorem mem_keys_foldl
    (h : key ∈ (fields.foldl (fun out field => out.assign field.1 field.2) out).fields.keys) :
    key ∈ out.fields.keys ∨ key ∈ fields.keys := by
  induction fields generalizing out with
  | nil => exact .inl h
  | cons field fields ih =>
    rcases ih h with h | h
    · rcases mem_keys_assign h with rfl | h
      · exact .inr mem_cons_self
      · exact .inl h
    · exact .inr (mem_cons_of_mem _ h)

/-- An own key `__proto__` is lost. -/
theorem protoKey_notMem_foldl (hnodup : fields.keys.Nodup)
    (hout : protoKey ∉ out.fields.keys) (hproto : out.proto = .null → protoKey ∉ fields.keys) :
    protoKey ∉
      (fields.foldl (fun out field => out.assign field.1 field.2) out).fields.keys := by
  induction fields generalizing out with
  | nil => exact hout
  | cons field fields ih =>
    obtain ⟨hfirst, hnodup⟩ := nodup_cons.mp hnodup
    rw [foldl_cons]
    by_cases hkey : field.1 = protoKey
    · have hnull : out.proto ≠ .null := fun h => hproto h (hkey ▸ mem_cons_self)
      have hfields : (out.assign field.1 field.2).fields = out.fields := by
        rw [JsObject.assign, if_pos ⟨hkey, hnull⟩]
      exact ih hnodup (hfields ▸ hout) fun _ => hkey ▸ hfirst
    have hassign : out.assign field.1 field.2 =
        { out with fields := JsMap.set field.1 field.2 out.fields } := by
      rw [JsObject.assign, if_neg fun hc => hkey hc.1]
    rw [hassign]
    refine ih hnodup (fun hmem => ?_) fun hnull hmem => ?_
    · rcases mem_keys_set hmem with h | h
      · exact hkey h.symm
      · exact hout h
    · exact hproto hnull (mem_cons_of_mem _ hmem)

theorem protoKey_notMem_copy (fields : Fields) (hnodup : fields.keys.Nodup) :
    protoKey ∉ (JsObject.copy fields).fields.keys :=
  protoKey_notMem_foldl hnodup not_mem_nil fun h => by cases h

/-! ### What the result is -/

/-- A record of the two kinds that `isPlainRecord` accepts. -/
theorem transformValue_record (hproto : proto ≠ .other) (fields : Fields) :
    transformValue transform (.record proto fields) =
      (transformRecord transform fields [] none).map fun out => .record out.proto out.fields := by
  rw [transformValue, if_neg hproto]

theorem transformValue_record_eq_none (hproto : proto ≠ .other)
    : transformValue transform (.record proto fields) = none ↔
      ∀ field ∈ fields, Unchanged transform field := by
  rw [transformValue_record hproto, Option.map_eq_none_iff]
  constructor
  · intro h
    by_contra hchanged
    rw [transformRecord_changed hchanged fun field hfield => absurd hfield not_mem_nil] at h
    cases h
  · exact fun h => transformRecord_unchanged h []

theorem transformed_record_of_changed (hproto : proto ≠ .other)
    (h : ¬ ∀ field ∈ fields, Unchanged transform field) :
    transformed transform (.record proto fields) =
      .record (JsObject.copy (fields.map (newField transform))).proto
        (JsObject.copy (fields.map (newField transform))).fields := by
  rw [transformed, transformValue_record hproto,
    transformRecord_changed h fun field hfield => absurd hfield not_mem_nil]
  rfl

theorem transformed_of_none {v : JsonLike} (h : transformValue transform v = none) :
    transformed transform v = v := by
  rw [transformed, h]
  rfl

/-- All records are made by literals or by parsing. -/
def AllPlain (v : JsonLike) : Prop := AllRecords (fun proto _ => proto = .object) v

/-- The same value is returned exactly if no string and no key changes. -/
theorem transformValue_eq_none {v : JsonLike} (hplain : AllPlain v) :
    transformValue transform v = none ↔ AllStrings (fun text => transform text = text) v := by
  induction v using JsonLike.induct with
  | null | bool | number => simp
  | string => simp
  | array items ih =>
    rw [AllPlain, allRecords_array] at hplain
    rw [allStrings_array, transformValue, Option.map_eq_none_iff, transformItems_eq_none]
    exact forall₂_congr fun item hitem => ih item hitem (hplain item hitem)
  | record proto fields ih =>
    obtain ⟨rfl, hfields⟩ := allRecords_record.mp hplain
    rw [allStrings_record, transformValue_record_eq_none (by decide)]
    exact forall₂_congr fun field hfield =>
      and_congr_right fun _ => ih field hfield (hfields field hfield)

theorem mapStrings_array (f : Units → Units) (items : List JsonLike) :
    mapStrings f (.array items) = .array (items.map (mapStrings f)) := by
  rw [mapStrings, attach_map_val (f := mapStrings f)]

theorem mapStrings_record (f : Units → Units) (proto : Prototype) (fields : Fields) :
    mapStrings f (.record proto fields) =
      .record proto (fields.map fun field => (f field.1, mapStrings f field.2)) := by
  rw [mapStrings,
    attach_map_val (f := fun field : Units × JsonLike => (f field.1, mapStrings f field.2))]

variable {f : Units → Units}

theorem mapStrings_eq_self {v : JsonLike}
    (h : AllStrings (fun text => f text = text) v) : mapStrings f v = v := by
  induction v using JsonLike.induct with
  | null | bool | number => rw [mapStrings]
  | string =>
    rw [AllStrings] at h
    rw [mapStrings, h]
  | array items ih =>
    rw [allStrings_array] at h
    rw [mapStrings_array, map_congr_left (g := id), map_id]
    exact fun item hitem => ih item hitem (h item hitem)
  | record proto fields ih =>
    rw [allStrings_record] at h
    rw [mapStrings_record, map_congr_left (g := id), map_id]
    intro field hfield
    rw [(h field hfield).1, ih field hfield (h field hfield).2]
    rfl

/-- A record is rebuilt with all its keys, or not at all. -/
def KeepsKeys (f : Units → Units) (v : JsonLike) : Prop :=
  AllRecords (fun proto fields =>
    AllStrings (fun text => f text = text) (.record proto fields) ∨
      (protoKey ∉ fields.keys.map f ∧ (fields.keys.map f).Nodup)) v

/-- Distinct new keys without `__proto__`: every field is there again. -/
theorem transformed_record_of_keys (hproto : protoKey ∉ fields.keys.map transform)
    (hnodup : (fields.keys.map transform).Nodup) : transformed transform (.record .object fields) =
      .record .object (fields.map (newField transform)) := by
  have hnames : Fields.keys (fields.map (newField transform)) = fields.keys.map transform := by
    simp [Fields.keys, newField]
  by_cases hsame : ∀ field ∈ fields, Unchanged transform field
  · have hmap : fields.map (newField transform) = fields := by
      rw [map_congr_left (g := id), map_id]
      exact fun field hfield => newField_of_unchanged (hsame field hfield)
    rw [transformed_of_none ((transformValue_record_eq_none (by decide)).mpr hsame), hmap]
  rw [transformed_record_of_changed (by decide) hsame, copy_eq (by rwa [hnames])
    (by rwa [hnames])]

/-- Where no key is lost, every string and every key is rewritten and nothing else. -/
theorem transformed_eq_mapStrings {v : JsonLike} (hplain : AllPlain v)
    (hkeys : KeepsKeys transform v) : transformed transform v = mapStrings transform v := by
  induction v using JsonLike.induct with
  | null | bool | number => rw [mapStrings, transformed, transformValue, Option.getD_none]
  | string =>
    rw [transformed, transformValue, mapStrings]
    split
    · next h => rw [h, Option.getD_none]
    · rfl
  | array items ih =>
    rw [AllPlain, allRecords_array] at hplain
    rw [KeepsKeys, allRecords_array] at hkeys
    rw [transformed_array, mapStrings_array]
    exact congrArg _ (map_congr_left fun item hitem =>
      ih item hitem (hplain item hitem) (hkeys item hitem))
  | record proto fields ih =>
    obtain ⟨rfl, hfields⟩ := allRecords_record.mp hplain
    obtain ⟨hkept | ⟨hproto, hnodup⟩, hkeys⟩ := allRecords_record.mp hkeys
    · rw [transformed_of_none ((transformValue_eq_none hplain).mpr hkept), mapStrings_eq_self hkept]
    rw [transformed_record_of_keys hproto hnodup, mapStrings_record]
    refine congrArg _ (map_congr_left fun field hfield => ?_)
    rw [newField, ih field hfield (hfields field hfield) (hkeys field hfield)]

/-! ### Strings and records behind a rewriting -/

theorem allStrings_mapStrings {p : Units → Prop} {v : JsonLike} :
    AllStrings p (mapStrings f v) ↔ AllStrings (fun text => p (f text)) v := by
  induction v using JsonLike.induct with
  | null | bool | number => rw [mapStrings, AllStrings, AllStrings]
  | string => rw [mapStrings, AllStrings, AllStrings]
  | array items ih =>
    rw [mapStrings_array, allStrings_array, allStrings_array, forall_mem_map]
    exact forall₂_congr ih
  | record proto fields ih =>
    rw [mapStrings_record, allStrings_record, allStrings_record, forall_mem_map]
    exact forall₂_congr fun field hfield => and_congr_right fun _ => ih field hfield

theorem allRecords_mapStrings {v : JsonLike} : AllRecords p (mapStrings f v) ↔
      AllRecords (fun proto fields =>
        p proto (fields.map fun field => (f field.1, mapStrings f field.2))) v := by
  induction v using JsonLike.induct with
  | null | bool | number => rw [mapStrings, AllRecords, AllRecords]
  | string => rw [mapStrings, AllRecords, AllRecords]
  | array items ih =>
    rw [mapStrings_array, allRecords_array, allRecords_array, forall_mem_map]
    exact forall₂_congr ih
  | record proto fields ih =>
    rw [mapStrings_record, allRecords_record, allRecords_record, forall_mem_map]
    exact and_congr_right fun _ => forall₂_congr ih

theorem mapStrings_mapStrings (f g : Units → Units) (v : JsonLike) :
    mapStrings g (mapStrings f v) = mapStrings (fun text => g (f text)) v := by
  induction v using JsonLike.induct with
  | null | bool | number => simp [mapStrings]
  | string => simp [mapStrings]
  | array items ih =>
    rw [mapStrings_array, mapStrings_array, mapStrings_array, map_map]
    exact congrArg _ (map_congr_left ih)
  | record proto fields ih =>
    rw [mapStrings_record, mapStrings_record, mapStrings_record, map_map]
    refine congrArg _ (map_congr_left fun field hfield => ?_)
    rw [Function.comp_apply, ih field hfield]

theorem AllRecords.imp₂ {p q r : Prototype → Fields → Prop}
    (h : ∀ proto fields, p proto fields → q proto fields → r proto fields) {v : JsonLike}
    (hp : AllRecords p v) (hq : AllRecords q v) : AllRecords r v := by
  induction v using JsonLike.induct with
  | null | bool | number | string => trivial
  | array items ih =>
    rw [allRecords_array] at hp hq ⊢
    exact fun item hitem => ih item hitem (hp item hitem) (hq item hitem)
  | record proto fields ih =>
    rw [allRecords_record] at hp hq ⊢
    exact ⟨h proto fields hp.1 hq.1, fun field hfield =>
      ih field hfield (hp.2 field hfield) (hq.2 field hfield)⟩

/-- What holds of all strings of a value holds of those of each record in it. -/
theorem allRecords_of_allStrings {p : Units → Prop} {v : JsonLike} (h : AllStrings p v) :
    AllRecords (fun proto fields => AllStrings p (.record proto fields)) v := by
  induction v using JsonLike.induct with
  | null | bool | number | string => trivial
  | array items ih =>
    rw [allStrings_array] at h
    exact allRecords_array.mpr fun item hitem => ih item hitem (h item hitem)
  | record proto fields ih =>
    exact allRecords_record.mpr ⟨h, fun field hfield =>
      ih field hfield (allStrings_record.mp h field hfield).2⟩

theorem AllStrings.and {p q : Units → Prop} {v : JsonLike} (hp : AllStrings p v)
    (hq : AllStrings q v) : AllStrings (fun text => p text ∧ q text) v := by
  induction v using JsonLike.induct with
  | null | bool | number => trivial
  | string => exact ⟨hp, hq⟩
  | array items ih =>
    rw [allStrings_array] at hp hq ⊢
    exact fun item hitem => ih item hitem (hp item hitem) (hq item hitem)
  | record proto fields ih =>
    rw [allStrings_record] at hp hq ⊢
    exact fun field hfield => ⟨⟨(hp field hfield).1, (hq field hfield).1⟩,
      ih field hfield (hp field hfield).2 (hq field hfield).2⟩

/-! ### Transparency -/

/-- The values that are passed through the codec. -/
structure IsJsonLike (v : JsonLike) : Prop where
  strings : AllStrings IsString v
  plain : AllPlain v
  distinct : AllRecords (fun _ fields => fields.keys.Nodup) v

/-- Encoding and decoding, as the code around the codec relies on it. -/
structure Transparent (v : JsonLike) : Prop where
  decoded : transformed decodeGlyphText (transformed encodeGlyphText v) = v
  noPrivateUse : AllStrings (fun text => hasPrivateUse text = false) (transformed encodeGlyphText v)
  distinctKeys : AllRecords (fun _ fields => (fields.keys.map encodeGlyphText).Nodup) v
  unchanged : AllStrings IsPlain v → transformValue encodeGlyphText v = none

/-- A record with an own key `__proto__` holds nothing to encode. -/
def ProtoKeysPlain (v : JsonLike) : Prop :=
  AllRecords (fun proto fields =>
    protoKey ∈ fields.keys → AllStrings IsPlain (.record proto fields)) v

theorem isString_protoKey : IsString protoKey := by
  have hall : protoKey.all (fun unit => decide (unit < 0x10000)) = true := by decide
  exact fun unit hunit => of_decide_eq_true (all_eq_true.mp hall unit hunit)

theorem encode_protoKey : encodeGlyphText protoKey = protoKey := by
  rw [encode_eq_self_iff]
  exact ⟨by decide, by decide⟩

variable {v : JsonLike}

theorem keys_isString (h : AllStrings IsString (.record proto fields)) (hkey : key ∈ fields.keys) :
    IsString key := by
  obtain ⟨field, hfield, rfl⟩ := mem_map.mp hkey
  exact (allStrings_record.mp h field hfield).1

theorem nodup_encode (h : AllStrings IsString (.record proto fields)) (hnodup : fields.keys.Nodup) :
    (fields.keys.map encodeGlyphText).Nodup := by
  refine List.Nodup.map_on (fun key hkey other hother heq => ?_) hnodup
  exact encode_injective (keys_isString h hkey) (keys_isString h hother) heq

theorem protoKey_notMem_encode
    (h : AllStrings IsString (.record proto fields)) (hproto : protoKey ∉ fields.keys) :
    protoKey ∉ fields.keys.map encodeGlyphText := by
  intro hmem
  obtain ⟨key, hkey, heq⟩ := mem_map.mp hmem
  rw [← encode_protoKey] at heq
  exact hproto (encode_injective (keys_isString h hkey) isString_protoKey heq ▸ hkey)

theorem decode_encode_keys (h : AllStrings IsString (.record proto fields)) :
    (fields.keys.map encodeGlyphText).map decodeGlyphText = fields.keys := by
  rw [map_map, map_congr_left (g := id), map_id]
  exact fun key hkey => decode_encode (keys_isString h hkey)

theorem IsJsonLike.distinctKeys (h : IsJsonLike v) :
    AllRecords (fun _ fields => (fields.keys.map encodeGlyphText).Nodup) v :=
  AllRecords.imp₂ (fun _ _ => nodup_encode) (allRecords_of_allStrings h.strings) h.distinct

theorem IsJsonLike.unchanged (h : IsJsonLike v) (hplain : AllStrings IsPlain v) :
    transformValue encodeGlyphText v = none :=
  (transformValue_eq_none h.plain).mpr (hplain.imp fun _ => encode_eq_self_iff.mpr)

theorem keepsKeys_encode (h : IsJsonLike v) (hsafe : ProtoKeysPlain v) :
    KeepsKeys encodeGlyphText v := by
  have hrecords := AllRecords.imp₂ (fun _ _ hs hn => And.intro hs hn)
    (allRecords_of_allStrings h.strings) h.distinct
  refine AllRecords.imp₂ (fun proto fields hrecord hproto => ?_) hrecords hsafe
  by_cases hmem : protoKey ∈ fields.keys
  · exact .inl ((hproto hmem).imp fun _ => encode_eq_self_iff.mpr)
  · exact .inr ⟨protoKey_notMem_encode hrecord.1 hmem, nodup_encode hrecord.1 hrecord.2⟩

theorem keepsKeys_decode (h : IsJsonLike v) (hsafe : ProtoKeysPlain v) :
    KeepsKeys decodeGlyphText (mapStrings encodeGlyphText v) := by
  have hrecords := AllRecords.imp₂ (fun _ _ hs hn => And.intro hs hn)
    (allRecords_of_allStrings h.strings) h.distinct
  refine allRecords_mapStrings.mpr
    (AllRecords.imp₂ (fun proto fields hrecord hproto => ?_) hrecords hsafe)
  have hnames : Fields.keys (fields.map fun field =>
      (encodeGlyphText field.1, mapStrings encodeGlyphText field.2)) =
        fields.keys.map encodeGlyphText := by
    simp [Fields.keys]
  by_cases hmem : protoKey ∈ fields.keys
  · left
    rw [← mapStrings_record, allStrings_mapStrings]
    refine (hrecord.1.and (hproto hmem)).imp fun text htext => ?_
    rw [decode_encode htext.1, encode_eq_self_iff.mpr htext.2]
  right
  rw [hnames, decode_encode_keys hrecord.1]
  exact ⟨hmem, hrecord.2⟩

theorem transparent_of_protoKeysPlain (h : IsJsonLike v) (hsafe : ProtoKeysPlain v) :
    Transparent v := by
  have hencoded := transformed_eq_mapStrings h.plain (keepsKeys_encode h hsafe)
  refine ⟨?_, ?_, h.distinctKeys, h.unchanged⟩
  · have hplain : AllPlain (mapStrings encodeGlyphText v) := allRecords_mapStrings.mpr h.plain
    rw [hencoded, transformed_eq_mapStrings hplain (keepsKeys_decode h hsafe),
      mapStrings_mapStrings]
    exact mapStrings_eq_self (h.strings.imp fun _ => decode_encode)
  rw [hencoded, allStrings_mapStrings]
  exact h.strings.imp fun text _ => privateUse_encode text

/-! The other direction: a lost key does not come back. -/

theorem mem_keys_transformed {proto' : Prototype} {fields' : Fields}
    (h : transformed transform (.record proto fields) = .record proto' fields')
    (hkey : key ∈ fields'.keys) : key ∈ fields.keys ∨ key ∈ fields.keys.map transform := by
  by_cases hproto : proto = .other
  · rw [transformed, transformValue, if_pos hproto, Option.getD_none] at h
    cases h
    exact .inl hkey
  by_cases hsame : ∀ field ∈ fields, Unchanged transform field
  · rw [transformed_of_none ((transformValue_record_eq_none hproto).mpr hsame)] at h
    cases h
    exact .inl hkey
  rw [transformed_record_of_changed hproto hsame] at h
  cases h
  rcases mem_keys_foldl hkey with hmem | hmem
  · cases hmem
  right
  have hnames : Fields.keys (fields.map (newField transform)) = fields.keys.map transform := by
    simp [Fields.keys, newField]
  rwa [hnames] at hmem

/-- A record with an own key `__proto__` in which something is encoded does not come back. -/
theorem protoKey_notMem_of_decoded (h : IsJsonLike (.record .object fields))
    (hchanged : ¬ ∀ field ∈ fields, Unchanged encodeGlyphText field)
    (hdecoded : transformed decodeGlyphText (transformed encodeGlyphText (.record .object fields)) =
      .record .object fields) : protoKey ∉ fields.keys := by
  intro hmem
  have hnodup := nodup_encode h.strings (allRecords_record.mp h.distinct).1
  have hnames : Fields.keys (fields.map (newField encodeGlyphText)) =
      fields.keys.map encodeGlyphText := by
    simp [Fields.keys, newField]
  have hlost := protoKey_notMem_copy (fields.map (newField encodeGlyphText)) (by rwa [hnames])
  rw [transformed_record_of_changed (by decide) hchanged] at hdecoded
  rcases mem_keys_transformed hdecoded hmem with hkey | hkey
  · exact hlost hkey
  obtain ⟨key, hkey, heq⟩ := mem_map.mp hkey
  rcases mem_keys_foldl hkey with hempty | hnew
  · cases hempty
  -- the key would be `__proto__` already
  rw [hnames] at hnew
  obtain ⟨old, hold, rfl⟩ := mem_map.mp hnew
  rw [decode_encode (keys_isString h.strings hold)] at heq
  rw [heq, encode_protoKey] at hkey
  exact hlost hkey

theorem IsJsonLike.item (h : IsJsonLike (.array items)) {item : JsonLike}
    (hitem : item ∈ items) : IsJsonLike item :=
  ⟨allStrings_array.mp h.strings item hitem, allRecords_array.mp h.plain item hitem,
    allRecords_array.mp h.distinct item hitem⟩

theorem IsJsonLike.field
    (h : IsJsonLike (.record proto fields)) {field : Units × JsonLike} (hfield : field ∈ fields) :
    IsJsonLike field.2 :=
  ⟨(allStrings_record.mp h.strings field hfield).2, (allRecords_record.mp h.plain).2 field hfield,
    (allRecords_record.mp h.distinct).2 field hfield⟩

theorem protoKeysPlain_of_decoded (h : IsJsonLike v)
    (hdecoded : transformed decodeGlyphText (transformed encodeGlyphText v) = v) :
    ProtoKeysPlain v := by
  induction v using JsonLike.induct with
  | null | bool | number | string => trivial
  | array items ih =>
    rw [transformed_array, transformed_array, map_map, array.injEq] at hdecoded
    refine allRecords_array.mpr fun item hitem => ih item hitem (h.item hitem) ?_
    have hsame : items.map (transformed decodeGlyphText ∘ transformed encodeGlyphText) =
        items.map id := by rw [hdecoded, map_id]
    exact map_inj_left.mp hsame item hitem
  | record proto fields ih =>
    obtain ⟨rfl, -⟩ := allRecords_record.mp h.plain
    by_cases hsame : ∀ field ∈ fields, Unchanged encodeGlyphText field
    · have hplain := (transformValue_eq_none h.plain).mp
        ((transformValue_record_eq_none (by decide)).mpr hsame)
      have hrecords := allRecords_of_allStrings (hplain.imp fun _ => encode_eq_self_iff.mp)
      rw [ProtoKeysPlain]
      refine AllRecords.imp₂ (fun proto fields hrecord _ _ => ?_) hrecords h.distinct
      exact hrecord
    have hproto := protoKey_notMem_of_decoded h hsame hdecoded
    refine allRecords_record.mpr ⟨fun hmem => absurd hmem hproto, fun field hfield => ?_⟩
    refine ih field hfield (h.field hfield) ?_
    -- without the key both passes go over the fields one by one
    have hnames : Fields.keys (fields.map (newField encodeGlyphText)) =
        fields.keys.map encodeGlyphText := by
      simp [Fields.keys, newField]
    have hkeys := decode_encode_keys h.strings
    have hnodup := (allRecords_record.mp h.distinct).1
    rw [transformed_record_of_keys (protoKey_notMem_encode h.strings hproto)
        (nodup_encode h.strings hnodup),
      transformed_record_of_keys (by rwa [hnames, hkeys]) (by rwa [hnames, hkeys]),
      map_map, record.injEq] at hdecoded
    have hsame' : fields.map (newField decodeGlyphText ∘ newField encodeGlyphText) =
        fields.map id := by rw [hdecoded.2, map_id]
    exact congrArg Prod.snd (map_inj_left.mp hsame' field hfield)

/-- The codec is transparent for a value exactly if no record with an own key `__proto__` holds
something that is encoded. -/
theorem glyphs_transparent (h : IsJsonLike v) : Transparent v ↔ ProtoKeysPlain v :=
  ⟨fun htransparent => protoKeysPlain_of_decoded h htransparent.decoded,
    transparent_of_protoKeysPlain h⟩

/-- `{"a": "⟦E⟧\uE000"}` -/
def escapedArguments : JsonLike :=
  .record .object [(units "a", .string (glyphEscape ++ [0xE000]))]

/-- `{"__proto__": {}, "a": "\uE000"}`, as `JSON.parse` makes it. -/
def protoArguments : JsonLike :=
  .record .object [(protoKey, .record .object []), (units "a", .string [0xE000])]

theorem isJsonLike_escapedArguments : IsJsonLike escapedArguments := by
  refine ⟨?_, ?_, ?_⟩
  · simp [escapedArguments, IsString, glyphEscape, glyphOpen, glyphClose, units]
  · simp [escapedArguments, AllPlain]
  · simp [escapedArguments, Fields.keys]

theorem isJsonLike_protoArguments : IsJsonLike protoArguments := by
  have hkeys : protoKey ≠ units "a" := by decide
  refine ⟨?_, ?_, ?_⟩
  · refine allStrings_record.mpr (forall_mem_cons.mpr ⟨⟨isString_protoKey, ?_⟩, ?_⟩)
    · simp
    · simp [IsString, units]
  · simp [protoArguments, AllPlain]
  · simp [protoArguments, Fields.keys, hkeys]

theorem glyphs_transparent_escaped : Transparent escapedArguments := by
  refine (glyphs_transparent isJsonLike_escapedArguments).mpr ?_
  have hkeys : protoKey ≠ units "a" := by decide
  simp [ProtoKeysPlain, escapedArguments, Fields.keys, hkeys]

theorem not_transparent_proto : IsJsonLike protoArguments ∧ ¬ Transparent protoArguments := by
  refine ⟨isJsonLike_protoArguments, fun h => ?_⟩
  have hplain := protoKeysPlain_of_decoded isJsonLike_protoArguments h.decoded
  have hrecord := (allRecords_record.mp hplain).1 mem_cons_self
  have hstring := (allStrings_record.mp hrecord (units "a", .string [0xE000]) (by simp)).2
  rw [AllStrings] at hstring
  exact absurd hstring.1 (by decide)

end JsonLike

end BreadboardTui.Glyphs
