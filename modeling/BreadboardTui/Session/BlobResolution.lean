import BreadboardTui.Session.Persistence
import Mathlib.Data.List.Forall2

/-!
# What comes back of a persisted entry

Reading back undoes the externalization node by node. Where a string moves to the store without
being a field's value, where a text is cut, and where an object that is changed at all carries a
line count that is not its content's, the entry that comes back is another one. `restores_iff`
says that these are all the places: `Intact` at every node the walk reaches.
-/

namespace BreadboardTui

open List Bool

namespace Persistence

open Json (setField Removes)

/-! ### The walk of the persistence -/

/-- The walk descends into arrays and into objects that are neither moved nor kept verbatim. -/
def persistWalk : Walk where
  stops key v :=
    match v with
    | .object fields => (externalizedField key fields).isSome || isVerbatim fields
    | _ => false
  skip := "jsonlEvents"

/-- Base64 data that moves to the store is what its bytes are encoded to. -/
def Canonical (R : Host) (site : Site) : Json → Prop
  | .object fields => ∀ name data, externalizedField site.key fields = some (name, data) →
      R.toBase64 (R.fromBase64 data) = data
  | _ => True

/-- The store has what moves to it. -/
def Stored (R : Host) (store : BlobStore) (site : Site) : Json → Prop
  | .object fields => ∀ name data, externalizedField site.key fields = some (name, data) →
      store (R.sha256 (R.fromBase64 data)) = some (R.fromBase64 data)
  | .string value => movesToStore site.key value = true →
      store (R.sha256 value.toUTF8) = some value.toUTF8
  | _ => True

/-- Nothing is done at the node. -/
def Unaltered (site : Site) : Json → Prop
  | .string value => movesToStore site.key value = false ∧ isOversized site.key value = false
  | .object fields => externalizedField site.key fields = none ∧
      (isVerbatim fields = false → ∀ field ∈ fields, field.1 ≠ "jsonlEvents")
  | _ => True

/-- Nothing moves to the store at the node. -/
def NothingMoved (site : Site) : Json → Prop
  | .string value => movesToStore site.key value = false
  | .object fields => externalizedField site.key fields = none
  | _ => True

/-- No text that is neither moved nor kept verbatim is oversized. -/
def ShortText (site : Site) : Json → Prop
  | .string value => isOversized site.key value = false
  | _ => True

/-- A text that moves to the store is the value of a field, and no other text is cut. An object in
which anything is altered has the line count of its content, if it has both. -/
def Intact (site : Site) : Json → Prop
  | .string value => (movesToStore site.key value = true → site.inField = true) ∧
      (movesToStore site.key value = false → isOversized site.key value = false)
  | .object fields => persistWalk.stops site.key (.object fields) = false →
      ¬ persistWalk.Holds Unaltered site (.object fields) →
        ∀ count, lineCountFor fields = some count →
          ∀ field ∈ fields, field.1 = "lineCount" → field.2 = .number count
  | _ => True

variable {R : Host} {store : BlobStore} {key : Option String} {fields : List (String × Json)}

/-! ### References -/

variable (buffer : ByteArray)

theorem isBlobRef_refOf : isBlobRef (refOf R buffer) = true := by
  rw [isBlobRef, refOf, String.toList_append, isPrefixOf_iff_prefix]
  exact prefix_append _ _

theorem parseBlobRef_refOf : parseBlobRef (refOf R buffer) = some (R.sha256 buffer) := by
  rw [parseBlobRef, if_pos (isBlobRef_refOf buffer), refOf, String.toList_append,
    drop_left, String.ofList_toList]
  simp [R.isBlobHash_sha256]

variable {data : String}

theorem resolveImageData_externalized (hraw : isBlobRef data = false)
    (hcanonical : R.toBase64 (R.fromBase64 data) = data)
    (hstored : store (R.sha256 (R.fromBase64 data)) = some (R.fromBase64 data)) :
    resolveImageData R store (externalizeImageDataSync R data) = data := by
  rw [externalizeImageDataSync, hraw, if_neg Bool.false_ne_true, resolveImageData,
    parseBlobRef_refOf, Option.bind_some, hstored]
  exact hcanonical

variable {value : String}

theorem resolveImageDataUrl_externalized (hraw : isBlobRef value = false)
    (hstored : store (R.sha256 value.toUTF8) = some value.toUTF8) :
    resolveImageDataUrl R store (externalizeImageDataUrlSync R value) = value := by
  rw [externalizeImageDataUrlSync, hraw, if_neg Bool.false_ne_true, resolveImageDataUrl,
    parseBlobRef_refOf, Option.bind_some, hstored]
  exact decodeUtf8_toUTF8 R value

/-! ### Cut text -/

theorem unitsOf_le_two (c : Char) : unitsOf c ≤ 2 := by
  rw [unitsOf]
  split <;> decide

theorem unitLength_takeUnits_le (n : ℕ) (cs : List Char) : unitLength (takeUnits n cs) ≤ n := by
  induction cs generalizing n with
  | nil => exact Nat.zero_le n
  | cons c cs ih =>
    rw [takeUnits]
    by_cases hc : unitsOf c ≤ n
    · have hrest := ih (n - unitsOf c)
      rw [if_pos hc, unitLength, map_cons, sum_cons]
      rw [unitLength] at hrest
      omega
    rw [if_neg hc]
    exact Nat.zero_le n

/-- The cut is far behind a short prefix. -/
theorem isPrefixOf_takeUnits {pre cs rest : List Char} {n : ℕ} (hn : 2 * pre.length ≤ n)
    (hlong : n < unitLength cs) :
    pre.isPrefixOf (takeUnits n cs ++ rest) = pre.isPrefixOf cs := by
  induction pre generalizing cs n with
  | nil => rfl
  | cons a pre ih =>
    cases cs with
    | nil => exact absurd hlong (Nat.not_lt_zero n)
    | cons c =>
      rw [length_cons] at hn
      have htwo := unitsOf_le_two c
      rw [unitLength, map_cons, sum_cons] at hlong
      rw [takeUnits, if_pos (by omega), cons_append, List.isPrefixOf, List.isPrefixOf,
        ih (by omega) (by rw [unitLength]; omega)]

/-- The text that takes the place of an oversized one. -/
def cutText (value : String) : String :=
  truncateString value (maxPersistChars - unitLength truncationNotice.toList) ++ truncationNotice

theorem unitLength_truncationNotice : unitLength truncationNotice.toList = 47 := by decide

theorem toList_cutText (h : maxPersistChars < unitLength value.toList) : (cutText value).toList =
      takeUnits (maxPersistChars - 47) value.toList ++ truncationNotice.toList := by
  have hlong : ¬ unitLength value.toList ≤ maxPersistChars - 47 := by omega
  rw [cutText, String.toList_append, unitLength_truncationNotice, truncateString, if_neg hlong,
    String.toList_ofList]

theorem cutText_ne (h : maxPersistChars < unitLength value.toList) : cutText value ≠ value := by
  intro heq
  have hlist := congrArg (fun text : String => unitLength text.toList) heq
  simp only [toList_cutText h] at hlist
  have hle := unitLength_takeUnits_le (maxPersistChars - 47) value.toList
  have hnotice := unitLength_truncationNotice
  simp only [unitLength, map_append, sum_append] at hlist hle hnotice h
  rw [maxPersistChars] at hle h hlist
  omega

theorem isBlobRef_cutText (h : maxPersistChars < unitLength value.toList) :
    isBlobRef (cutText value) = isBlobRef value := by
  rw [isBlobRef, toList_cutText h, isBlobRef]
  exact isPrefixOf_takeUnits (by decide) (by omega)

theorem isOversized_length (h : isOversized key value = true) :
    maxPersistChars < unitLength value.toList := by
  rw [isOversized, and_eq_true, decide_eq_true_eq] at h
  exact h.1

theorem truncateText_cases (R : Host) (key : Option String) (value : String) :
    (movesToStore key value = true ∧
      truncateText R key value = (.string (externalizeImageDataUrlSync R value), true)) ∨
    (movesToStore key value = false ∧ isOversized key value = true ∧
      truncateText R key value = (.string (cutText value), true)) ∨
    (movesToStore key value = false ∧ isOversized key value = false ∧
      truncateText R key value = (.string value, false)) := by
  rw [truncateText]
  by_cases hmoves : movesToStore key value = true
  · exact Or.inl ⟨hmoves, if_pos hmoves⟩
  rw [if_neg hmoves]
  by_cases hover : isOversized key value = true
  · exact Or.inr (Or.inl ⟨by simpa using hmoves, hover, if_pos hover⟩)
  · exact Or.inr (Or.inr ⟨by simpa using hmoves, by simpa using hover, if_neg hover⟩)

/-! ### The walks, node by node -/

variable (items : List Json)

theorem truncateItems_eq : truncateItems R key items =
      (items.map fun item => (truncateForPersistence R key item).1,
        items.any fun item => (truncateForPersistence R key item).2) := by
  induction items with
  | nil => rfl
  | cons item items ih => rw [truncateItems, ih, map_cons, any_cons]

theorem truncateFields_fst (fields : List (String × Json)) :
    (truncateFields R fields).1 = (fields.filter (·.1 ≠ "jsonlEvents")).map fun field =>
      (field.1, (truncateForPersistence R (some field.1) field.2).1) := by
  induction fields with
  | nil => rfl
  | cons field fields ih =>
    obtain ⟨k, v⟩ := field
    rw [truncateFields]
    by_cases hk : k = "jsonlEvents"
    · rw [if_pos hk, filter_cons_of_neg (by simp [hk]), ← ih]
    · rw [if_neg hk, filter_cons_of_pos (by simp [hk]), map_cons, ← ih]

theorem truncateFields_snd (fields : List (String × Json)) :
    (truncateFields R fields).2 = false ↔ ∀ field ∈ fields, field.1 ≠ "jsonlEvents" ∧
      (truncateForPersistence R (some field.1) field.2).2 = false := by
  induction fields with
  | nil => simp [truncateFields]
  | cons field fields ih =>
    obtain ⟨k, v⟩ := field
    rw [truncateFields]
    by_cases hk : k = "jsonlEvents"
    · simp [hk]
    · simp [hk, ih]

/-- What the resolution makes of a node at a place. -/
def resolveAt (R : Host) (store : BlobStore) (isCall : Bool) (site : Site) : Json → Json
  | .string value =>
    if site.inField then .string (resolveText R store isCall (site.key.getD "") value)
    else .string value
  | v => resolvePersistedBlobRefs R store site.key v

variable (isCall : Bool)

theorem resolveAt_top (v : Json) :
    resolvePersistedBlobRefs R store key v = resolveAt R store isCall ⟨key, false⟩ v := by
  cases v with
  | string => rw [resolvePersistedBlobRefs, resolveAt, if_neg Bool.false_ne_true]
  | null | bool | number | array | object => rfl

theorem resolveItems_eq :
    resolveItems R store key items = items.map (resolveAt R store isCall ⟨key, false⟩) := by
  induction items with
  | nil => rfl
  | cons item items ih => rw [resolveItems, ih, map_cons, resolveAt_top isCall]

theorem resolveFields_eq (fields : List (String × Json)) (isCall : Bool) :
    resolveFields R store isCall fields = fields.map fun field =>
      (field.1, resolveAt R store isCall ⟨some field.1, true⟩ field.2) := by
  induction fields with
  | nil => rfl
  | cons field fields ih =>
    obtain ⟨k, v⟩ := field
    cases v with
    | string => rw [resolveFields, ih]; rfl
    | null | bool | number | array | object => rw [resolveFields, ih]; rfl; simp

theorem resolveText_of_raw (k : String)
    (h : isBlobRef value = false) : resolveText R store isCall k value = value := by
  simp [resolveText, h]

variable {k : String}

theorem stringField_eq_some :
    stringField fields k = some value ↔ fields.lookup k = some (.string value) := by
  rw [stringField]
  split
  · next h => simp [h]
  · next h => simpa using h value

theorem isBlobRef_stringField (hraw : containsBlobRef (.object fields) = false)
    (h : stringField fields k = some value) : isBlobRef value = false :=
  Json.fieldsHaveString_eq_false.mp hraw _ (Json.mem_of_lookup (stringField_eq_some.mp h))

theorem resolvedField_of_raw
    (hraw : ∀ value, stringField fields "data" = some value → isBlobRef value = false) :
    resolvedField key fields = none := by
  rw [resolvedField]
  split
  · cases hdata : stringField fields "data" with
    | none => rfl
    | some value => simp [hraw value hdata]
  · rfl

theorem map_eq_self {α : Type} {f : α → α} {l : List α} (h : ∀ a ∈ l, f a = a) : l.map f = l := by
  rw [map_congr_left (g := id) h, map_id]

variable {v : Json}

theorem resolveAt_of_raw (hraw : containsBlobRef v = false) (isCall : Bool)
    (site : Site) : resolveAt R store isCall site v = v := by
  induction v using Json.induct generalizing isCall site with
  | null | bool | number => rfl
  | string =>
    rw [resolveAt, resolveText_of_raw isCall _ hraw]
    exact ite_self _
  | array items ih =>
    have hitems := Json.itemsHaveString_eq_false.mp hraw
    rw [resolveAt, resolvePersistedBlobRefs, resolveItems_eq items isCall]
    · exact congrArg Json.array
        (map_eq_self fun item hitem => ih item hitem (hitems item hitem) _ _)
    · simp
  | object fields ih =>
    have hfields := Json.fieldsHaveString_eq_false.mp hraw
    have hdata : resolvedField site.key fields = none :=
      resolvedField_of_raw fun value hvalue => isBlobRef_stringField hraw hvalue
    rw [resolveAt, resolvePersistedBlobRefs, hdata, resolveFields_eq]
    · refine congrArg Json.object (map_eq_self fun field hfield => ?_)
      rw [ih field hfield (hfields field hfield)]
    · simp

/-! ### What is altered -/

theorem not_stops_iff : persistWalk.stops key (.object fields) = false ↔
    externalizedField key fields = none ∧ isVerbatim fields = false := by
  simp [persistWalk]

theorem truncate_array : (truncateForPersistence R key (.array items)).2 =
      items.any fun item => (truncateForPersistence R key item).2 := by
  rw [truncateForPersistence_array, truncateItems_eq]
  split
  · next h => exact h.symm
  · next h => simpa using h

variable {name : String}

theorem truncate_of_moved (h : externalizedField key fields = some (name, data)) :
    truncateForPersistence R key (.object fields) =
      (.object (setField name (.string (externalizeImageDataSync R data)) fields), true) := by
  rw [truncateForPersistence_object, h]

theorem truncate_of_verbatim (h : externalizedField key fields = none)
    (hverbatim : isVerbatim fields = true) :
    truncateForPersistence R key (.object fields) = (.object fields, false) := by
  rw [truncateForPersistence_object, h]
  exact if_pos hverbatim

theorem truncate_of_walked (h : persistWalk.stops key (.object fields) = false) :
    truncateForPersistence R key (.object fields) =
      if (truncateFields R fields).2 then (.object (updateLineCount (truncateFields R fields).1), true)
      else (.object fields, false) := by
  obtain ⟨hmoved, hverbatim⟩ := not_stops_iff.mp h
  rw [truncateForPersistence_object, hmoved]
  exact if_neg (by simp [hverbatim])

/-- A value that is not altered is returned as it is. -/
theorem truncate_eq_self (h : (truncateForPersistence R key v).2 = false) :
    (truncateForPersistence R key v).1 = v := by
  cases v with
  | null | bool | number => rfl
  | string value =>
    rw [truncateForPersistence_string] at h ⊢
    rcases truncateText_cases R key value with ⟨-, heq⟩ | ⟨-, -, heq⟩ | ⟨-, -, heq⟩
    · rw [heq] at h
      cases h
    · rw [heq] at h
      cases h
    · rw [heq]
  | array =>
    rw [truncateForPersistence_array] at h ⊢
    split at h
    · cases h
    · next hsame => rw [if_neg hsame]
  | object fields =>
    cases hmoved : externalizedField key fields with
    | some =>
      rw [truncate_of_moved hmoved] at h
      cases h
    | none =>
      by_cases hverbatim : isVerbatim fields = true
      · rw [truncate_of_verbatim hmoved hverbatim]
      have hwalked : persistWalk.stops key (.object fields) = false :=
        not_stops_iff.mpr ⟨hmoved, by simpa using hverbatim⟩
      rw [truncate_of_walked hwalked] at h ⊢
      split at h
      · cases h
      · next hsame => rw [if_neg hsame]

/-- The flag of the persistence: something is altered where the walk comes. -/
theorem truncate_snd_iff (v : Json) (site : Site) :
    (truncateForPersistence R site.key v).2 = false ↔ persistWalk.Holds Unaltered site v := by
  induction v using Json.induct generalizing site with
  | null | bool | number => exact iff_of_true rfl trivial
  | string value =>
    rw [truncateForPersistence_string, Walk.Holds, Unaltered]
    rcases truncateText_cases R site.key value with ⟨hm, heq⟩ | ⟨hm, ho, heq⟩ | ⟨hm, ho, heq⟩
    · simp [heq, hm]
    · simp [heq, ho]
    · simp [heq, hm, ho]
  | array items ih =>
    rw [truncate_array, Walk.Holds, Walk.holdsItems_iff, any_eq_false]
    constructor
    · intro h
      refine ⟨trivial, fun _ item hitem => (ih item hitem ⟨site.key, false⟩).mp ?_⟩
      simpa using h item hitem
    rintro ⟨-, h⟩ item hitem
    have hitem' := (ih item hitem ⟨site.key, false⟩).mpr (h rfl item hitem)
    simpa using hitem'
  | object fields ih =>
    rw [Walk.Holds, Walk.holdsFields_iff, Unaltered]
    cases hmoved : externalizedField site.key fields with
    | some =>
      rw [truncate_of_moved hmoved]
      simp
    | none =>
      by_cases hverbatim : isVerbatim fields = true
      · rw [truncate_of_verbatim hmoved hverbatim]
        simp [hverbatim, persistWalk]
      have hwalked : persistWalk.stops site.key (.object fields) = false :=
        not_stops_iff.mpr ⟨hmoved, by simpa using hverbatim⟩
      have hflag : (truncateForPersistence R site.key (.object fields)).2 =
          (truncateFields R fields).2 := by
        rw [truncate_of_walked hwalked]
        split
        · next h => exact h.symm
        · next h => simpa using h
      rw [hflag, truncateFields_snd]
      constructor
      · intro h
        refine ⟨⟨rfl, fun _ field hfield => (h field hfield).1⟩, fun _ field hfield _ => ?_⟩
        exact (ih field hfield ⟨some field.1, true⟩).mp (h field hfield).2
      rintro ⟨⟨-, hevents⟩, hrest⟩ field hfield
      have hkey := hevents (by simpa using hverbatim) field hfield
      exact ⟨hkey, (ih field hfield ⟨some field.1, true⟩).mpr
        (hrest hwalked field hfield hkey)⟩

/-! ### One node -/

variable {site : Site}

theorem text_comes_back
    (hraw : isBlobRef value = false) (hstored : Stored R store site (.string value)) :
    resolveAt R store isCall site (truncateText R site.key value).1 = .string value ↔
      Intact site (.string value) := by
  rw [Intact]
  rcases truncateText_cases R site.key value with ⟨hm, heq⟩ | ⟨hm, ho, heq⟩ | ⟨hm, ho, heq⟩
  · have hkey : site.key = some "image_url" := by
      rw [movesToStore, and_eq_true, beq_iff_eq] at hm
      exact hm.1
    have href : isBlobRef (externalizeImageDataUrlSync R value) = true := by
      rw [externalizeImageDataUrlSync, hraw, if_neg Bool.false_ne_true]
      exact isBlobRef_refOf _
    rw [heq, resolveAt]
    by_cases hfield : site.inField = true
    · have hback : resolveText R store isCall (site.key.getD "")
          (externalizeImageDataUrlSync R value) = value := by
        rw [hkey, Option.getD_some, resolveText, href,
          resolveImageDataUrl_externalized hraw (hstored hm)]
        simp
      rw [if_pos hfield, hback]
      exact iff_of_true rfl ⟨fun _ => hfield, fun h => absurd (hm.symm.trans h) (by decide)⟩
    have hne : externalizeImageDataUrlSync R value ≠ value := by
      intro hsame
      rw [hsame, hraw] at href
      cases href
    rw [if_neg hfield]
    exact iff_of_false (fun h => hne (Json.string.inj h)) fun h => hfield (h.1 hm)
  · have hlong := isOversized_length ho
    have hcut : isBlobRef (cutText value) = false := by rw [isBlobRef_cutText hlong, hraw]
    rw [heq, resolveAt, resolveText_of_raw isCall _ hcut]
    simp [cutText_ne hlong, hm, ho]
  rw [heq, resolveAt, resolveText_of_raw isCall _ hraw]
  simp [hm, ho]

theorem largeField_eq_some (h : largeField fields k = some data) :
    fields.lookup k = some (.string data) ∧ isBlobRef data = false := by
  obtain ⟨hfield, hlarge⟩ := Option.filter_eq_some_iff.mp h
  rw [and_eq_true, not_eq_true'] at hlarge
  exact ⟨stringField_eq_some.mp hfield, hlarge.1⟩

theorem externalizedField_cases (h : externalizedField key fields = some (name, data)) :
    (name = "result" ∧ stringField fields "type" = some "image_generation_call" ∧
      largeField fields "result" = some data) ∨
    (name = "data" ∧ isImageDataPayload fields = true ∧ holdsImages fields key = true ∧
      largeField fields "data" = some data) := by
  rw [externalizedField] at h
  split at h
  · next result hresult =>
    obtain ⟨rfl, rfl⟩ : "result" = name ∧ result = data := by simpa using h
    split at hresult
    · next htype => exact Or.inl ⟨rfl, by simpa using htype, hresult⟩
    · cases hresult
  split at h
  · next himage =>
    obtain ⟨hpayload, hkey⟩ : isImageDataPayload fields = true ∧
        holdsImages fields key = true := by simpa using himage
    obtain ⟨large, hlarge, hpair⟩ := Option.map_eq_some_iff.mp h
    obtain ⟨rfl, rfl⟩ : "data" = name ∧ large = data := by simpa using hpair
    exact Or.inr ⟨rfl, hpayload, hkey, hlarge⟩
  · cases h

theorem stringField_setField_of_ne {value : Json} (h : k ≠ name) :
    stringField (setField name value fields) k = stringField fields k := by
  rw [stringField, Json.lookup_setField_of_ne h, stringField]

variable {ref : String}

/-- The result of a generated image is resolved where it was put. -/
theorem resolveFields_setField (hraw : ∀ field ∈ fields, containsBlobRef field.2 = false)
    (hold : fields.lookup "result" = some (.string data))
    (hback : resolveText R store true "result" ref = data) :
    resolveFields R store true (setField "result" (.string ref) fields) = fields := by
  induction fields with
  | nil => cases hold
  | cons field fields ih =>
    obtain ⟨k, v⟩ := field
    have htail : resolveFields R store true fields = fields := by
      rw [resolveFields_eq]
      refine map_eq_self fun field hfield => ?_
      rw [resolveAt_of_raw (hraw field (mem_cons_of_mem _ hfield))]
    by_cases hk : k = "result"
    · rw [hk, lookup_cons_self] at hold
      rw [setField, if_pos hk, resolveFields, hk, hback, htail, Option.some.inj hold]
    have hne : ("result" == k) = false := by simp [Ne.symm hk]
    rw [lookup_cons, hne] at hold
    have hrest := ih (fun field hfield => hraw field (mem_cons_of_mem _ hfield)) hold
    rw [setField, if_neg hk, resolveFields_eq, map_cons, ← resolveFields_eq, hrest,
      resolveAt_of_raw (hraw (k, v) mem_cons_self)]

theorem moved_comes_back (hraw : containsBlobRef (.object fields) = false)
    (hmoved : externalizedField site.key fields = some (name, data))
    (hcanonical : Canonical R site (.object fields))
    (hstored : Stored R store site (.object fields)) :
    resolveAt R store isCall site (truncateForPersistence R site.key (.object fields)).1 =
      .object fields := by
  have hback : ∀ raw : isBlobRef data = false,
      resolveImageData R store (externalizeImageDataSync R data) = data := fun raw =>
    resolveImageData_externalized raw (hcanonical name data hmoved) (hstored name data hmoved)
  have href : isBlobRef data = false → isBlobRef (externalizeImageDataSync R data) = true := by
    intro raw
    rw [externalizeImageDataSync, raw, if_neg Bool.false_ne_true]
    exact isBlobRef_refOf _
  rw [truncate_of_moved hmoved, resolveAt, resolvePersistedBlobRefs]
  · rcases externalizedField_cases hmoved with ⟨rfl, htype, hlarge⟩ | ⟨rfl, hpayload, hkey, hlarge⟩
    · obtain ⟨hold, raw⟩ := largeField_eq_some hlarge
      have hnone : resolvedField site.key
          (setField "result" (.string (externalizeImageDataSync R data)) fields) = none := by
        refine resolvedField_of_raw fun value hvalue => ?_
        rw [stringField_setField_of_ne (by decide)] at hvalue
        exact isBlobRef_stringField hraw hvalue
      have htext : resolveText R store true "result" (externalizeImageDataSync R data) = data := by
        rw [resolveText, href raw, hback raw]
        rfl
      rw [hnone, stringField_setField_of_ne (by decide), htype]
      exact congrArg Json.object
        (resolveFields_setField (Json.fieldsHaveString_eq_false.mp hraw) hold htext)
    · obtain ⟨hold, raw⟩ := largeField_eq_some hlarge
      have hdata : stringField (setField "data" (.string (externalizeImageDataSync R data)) fields)
          "data" = some (externalizeImageDataSync R data) :=
        stringField_eq_some.mpr (Json.lookup_setField_self hold)
      have hsame : stringField fields "data" = some data := stringField_eq_some.mpr hold
      have hsome : resolvedField site.key
          (setField "data" (.string (externalizeImageDataSync R data)) fields) =
            some (externalizeImageDataSync R data) := by
        rw [isImageDataPayload, isImageBlock, isImageMimeType, hsame] at hpayload
        rw [holdsImages, isImageBlock, hsame] at hkey
        rw [resolvedField, isImageDataPayload, holdsImages, isImageBlock, isImageMimeType, hdata,
          stringField_setField_of_ne (by decide), stringField_setField_of_ne (by decide)]
        rw [Option.isSome_some] at hpayload hkey ⊢
        rw [hpayload, hkey, Bool.and_self, if_pos rfl, Option.filter_some, if_pos (href raw)]
      simp only [hsome, hback raw]
      exact congrArg Json.object (Json.setField_setField hold)
  · simp

/-! ### Objects that are walked -/

theorem truncate_array_fst : (truncateForPersistence R key (.array items)).1 =
      .array (items.map fun item => (truncateForPersistence R key item).1) := by
  rw [truncateForPersistence_array, truncateItems_eq]
  split
  · rfl
  next h =>
  refine congrArg Json.array (map_eq_self fun item hitem => ?_).symm
  have hsame : (truncateForPersistence R key item).2 = false := by
    simpa using (any_eq_false.mp (by simpa using h)) item hitem
  exact truncate_eq_self hsame

theorem truncate_object_fst (key : Option String) (fields : List (String × Json)) :
    ∃ fields', (truncateForPersistence R key (.object fields)).1 = .object fields' := by
  rw [truncateForPersistence_object]
  split
  · exact ⟨_, rfl⟩
  split
  · exact ⟨_, rfl⟩
  split
  · exact ⟨_, rfl⟩
  · exact ⟨_, rfl⟩

theorem lookup_truncateFields (h : k ≠ "jsonlEvents") : (truncateFields R fields).1.lookup k =
      (fields.lookup k).map fun v => (truncateForPersistence R (some k) v).1 := by
  rw [truncateFields_fst]
  exact Json.lookup_filter_map h fun k v => (truncateForPersistence R (some k) v).1

/-- The line count is computed from the content, as long as that is not cut. -/
theorem lineCountFor_truncateFields
    (hcontent : ∀ content, fields.lookup "content" = some (.string content) →
      (truncateText R (some "content") content).1 = .string content) :
    lineCountFor (truncateFields R fields).1 = lineCountFor fields := by
  rw [lineCountFor, lineCountFor, lookup_truncateFields (by decide),
    lookup_truncateFields (by decide)]
  cases hlookup : fields.lookup "content" with
  | none => rfl
  | some content =>
    cases content with
    | null | bool | number => rfl
    | array => rw [Option.map_some, truncate_array_fst]
    | object inner =>
      obtain ⟨inner', hinner⟩ := truncate_object_fst (R := R) (some "content") inner
      rw [Option.map_some, hinner]
    | string content =>
      rw [Option.map_some, truncateForPersistence_string, hcontent content hlookup]
      cases fields.lookup "lineCount" with
      | none => rfl
      | some count =>
        cases count with
        | null | bool | number => rfl
        | string value =>
          rw [Option.map_some, truncateForPersistence_string]
          rcases truncateText_cases R (some "lineCount") value with ⟨-, h⟩ | ⟨-, -, h⟩ | ⟨-, -, h⟩
          · rw [h]
          · rw [h]
          · rw [h]
        | array => rw [Option.map_some, truncate_array_fst]
        | object inner =>
          obtain ⟨inner', hinner⟩ := truncate_object_fst (R := R) (some "lineCount") inner
          rw [Option.map_some, hinner]

theorem lookup_updateLineCount (h : k ≠ "lineCount") :
    (updateLineCount fields).lookup k = fields.lookup k := by
  rw [updateLineCount]
  split
  · exact Json.lookup_map_update h
  · rfl

variable {text : String}

/-- A string that is persisted is one that was given, or a reference, or cut. -/
theorem truncate_eq_string (h : (truncateForPersistence R key v).1 = .string text) :
    ∃ value, v = .string value ∧ (truncateText R key value).1 = .string text := by
  cases v with
  | null | bool | number => cases h
  | string value => exact ⟨value, rfl, h⟩
  | array =>
    rw [truncate_array_fst] at h
    cases h
  | object inner =>
    obtain ⟨inner', hinner⟩ := truncate_object_fst (R := R) key inner
    rw [hinner] at h
    cases h

/-- Only under `image_url` a text becomes a reference. -/
theorem isBlobRef_truncateText (hkey : key ≠ some "image_url")
    (hraw : isBlobRef value = false) (h : (truncateText R key value).1 = .string text) :
    isBlobRef text = false := by
  rcases truncateText_cases R key value with ⟨hm, -⟩ | ⟨-, ho, heq⟩ | ⟨-, -, heq⟩
  · rw [movesToStore, and_eq_true, beq_iff_eq] at hm
    exact absurd hm.1 hkey
  · rw [heq] at h
    rw [← Json.string.inj h, isBlobRef_cutText (isOversized_length ho), hraw]
  rw [heq] at h
  rw [← Json.string.inj h, hraw]

theorem resolvedField_walked (hraw : containsBlobRef (.object fields) = false) :
    resolvedField key (updateLineCount (truncateFields R fields).1) = none := by
  refine resolvedField_of_raw fun text htext => ?_
  rw [stringField_eq_some, lookup_updateLineCount (by decide), lookup_truncateFields (by decide),
    Option.map_eq_some_iff] at htext
  obtain ⟨v, hv, htext⟩ := htext
  obtain ⟨value, rfl, hvalue⟩ := truncate_eq_string htext
  exact isBlobRef_truncateText (by decide)
    (isBlobRef_stringField hraw (stringField_eq_some.mpr hv)) hvalue

/-- What becomes of the field of an object that is walked and changed. -/
def walkedField (R : Host) (store : BlobStore) (isCall : Bool) (count : Option ℕ) (k : String)
    (v : Json) : Json :=
  match count with
  | some count =>
    if k = "lineCount" then .number count
    else resolveAt R store isCall ⟨some k, true⟩ (truncateForPersistence R (some k) v).1
  | none => resolveAt R store isCall ⟨some k, true⟩ (truncateForPersistence R (some k) v).1

theorem resolveFields_updateLineCount :
    resolveFields R store isCall (updateLineCount (truncateFields R fields).1) =
      (fields.filter (·.1 ≠ "jsonlEvents")).map fun field =>
        (field.1, walkedField R store isCall (lineCountFor (truncateFields R fields).1)
          field.1 field.2) := by
  rw [resolveFields_eq, updateLineCount]
  cases lineCountFor (truncateFields R fields).1 with
  | none =>
    simp only [truncateFields_fst, map_map]
    rfl
  | some =>
    simp only [truncateFields_fst, map_map]
    refine map_congr_left fun field _ => ?_
    by_cases hk : field.1 = "lineCount"
    · simp [walkedField, hk, resolveAt, resolvePersistedBlobRefs]
    · simp [walkedField, hk]

/-- The fields of an object that is walked and changed come back exactly if each of them does,
and the line count is that of the content. -/
theorem walked_comes_back (hfield : ∀ field ∈ fields, field.1 ≠ "jsonlEvents" →
      (Removes "jsonlEvents" field.2 (resolveAt R store isCall ⟨some field.1, true⟩
        (truncateForPersistence R (some field.1) field.2).1) ↔
      persistWalk.Holds Intact ⟨some field.1, true⟩ field.2)) :
    Json.FieldsRemove "jsonlEvents" fields
        (resolveFields R store isCall (updateLineCount (truncateFields R fields).1)) ↔
      (∀ count, lineCountFor fields = some count →
        ∀ field ∈ fields, field.1 = "lineCount" → field.2 = .number count) ∧
      persistWalk.HoldsFields Intact fields := by
  rw [resolveFields_updateLineCount, Json.fieldsRemove_map_iff, Walk.holdsFields_iff]
  -- on either side the content is not cut
  by_cases hcontent : ∀ content, fields.lookup "content" = some (.string content) →
      (truncateText R (some "content") content).1 = .string content
  · rw [lineCountFor_truncateFields hcontent]
    cases hcount : lineCountFor fields with
    | none =>
      constructor
      · intro h
        refine ⟨fun count hsome => absurd hsome (by simp), fun field hmem hkey => ?_⟩
        exact (hfield field hmem hkey).mp (h field hmem hkey)
      · exact fun h field hmem hkey => (hfield field hmem hkey).mpr (h.2 field hmem hkey)
    | some count =>
      constructor
      · intro h
        have hcounts : ∀ field ∈ fields, field.1 = "lineCount" → field.2 = .number count := by
          intro field hmem hkey
          have hremoves := h field hmem (by rw [hkey]; decide)
          rw [walkedField, if_pos hkey] at hremoves
          exact Json.removes_number_iff.mp hremoves
        refine ⟨fun count' heq field hmem hkey => ?_, fun field hmem hkey => ?_⟩
        · cases heq
          exact hcounts field hmem hkey
        by_cases hline : field.1 = "lineCount"
        · rw [hcounts field hmem hline]
          exact trivial
        have hremoves := h field hmem hkey
        rw [walkedField, if_neg hline] at hremoves
        exact (hfield field hmem hkey).mp hremoves
      rintro ⟨hcounts, hrest⟩ field hmem hkey
      by_cases hline : field.1 = "lineCount"
      · rw [walkedField, if_pos hline, hcounts count rfl field hmem hline]
        exact Json.removes_refl _ _
      rw [walkedField, if_neg hline]
      exact (hfield field hmem hkey).mpr (hrest field hmem hkey)
  have hcut : ¬ ∀ field ∈ fields, field.1 = "content" →
      persistWalk.Holds Intact ⟨some field.1, true⟩ field.2 := by
    intro hall
    refine hcontent fun content hlookup => ?_
    have hintact : Intact ⟨some "content", true⟩ (.string content) :=
      hall ("content", .string content) (Json.mem_of_lookup hlookup) rfl
    rcases truncateText_cases R (some "content") content with ⟨hm, -⟩ | ⟨hm, ho, -⟩ | ⟨-, -, heq⟩
    · cases hm
    · exact absurd (ho.symm.trans (hintact.2 hm)) (by decide)
    · rw [heq]
  refine iff_of_false (fun h => hcut ?_) (fun h => hcut ?_)
  · intro field hmem hkey
    have hevents : field.1 ≠ "jsonlEvents" := by rw [hkey]; decide
    have hline : field.1 ≠ "lineCount" := by rw [hkey]; decide
    have hremoves := h field hmem hevents
    refine (hfield field hmem hevents).mp ?_
    cases hcount : lineCountFor (truncateFields R fields).1 with
    | none => rwa [hcount, walkedField] at hremoves
    | some => rwa [hcount, walkedField, if_neg hline] at hremoves
  · exact fun field hmem hkey => h.2 field hmem (by rw [hkey]; decide)

/-- **One entry's tree.** It comes back exactly if it is intact wherever the walk comes. -/
theorem comes_back_iff (v : Json) (isCall : Bool) (site : Site) (hraw : containsBlobRef v = false)
    (hcanonical : persistWalk.Holds (Canonical R) site v)
    (hstored : persistWalk.Holds (Stored R store) site v) :
    Removes "jsonlEvents" v (resolveAt R store isCall site
      (truncateForPersistence R site.key v).1) ↔ persistWalk.Holds Intact site v := by
  induction v using Json.induct generalizing isCall site with
  | null | bool | number => exact iff_of_true (Json.removes_refl _ _) trivial
  | string =>
    rw [Json.removes_string_iff, truncateForPersistence_string]
    exact text_comes_back isCall hraw hstored
  | array items ih =>
    have hitems := Json.itemsHaveString_eq_false.mp hraw
    rw [Walk.Holds, Walk.holdsItems_iff] at hcanonical hstored ⊢
    rw [truncate_array_fst, resolveAt, resolvePersistedBlobRefs, resolveItems_eq _ isCall,
      map_map, Json.removes_array_iff, Json.itemsRemove_map_iff]
    · constructor
      · intro h
        refine ⟨trivial, fun _ item hmem => ?_⟩
        exact (ih item hmem isCall ⟨site.key, false⟩ (hitems item hmem)
          (hcanonical.2 rfl item hmem) (hstored.2 rfl item hmem)).mp (h item hmem)
      · rintro ⟨-, h⟩ item hmem
        exact (ih item hmem isCall ⟨site.key, false⟩ (hitems item hmem)
          (hcanonical.2 rfl item hmem) (hstored.2 rfl item hmem)).mpr (h rfl item hmem)
    · simp
  | object fields ih =>
    have hfields := Json.fieldsHaveString_eq_false.mp hraw
    cases hstops : persistWalk.stops site.key (.object fields) with
    | true =>
      have hintact : persistWalk.Holds Intact site (.object fields) :=
        ⟨fun h => absurd (hstops.symm.trans h) (by decide),
          fun h => absurd (hstops.symm.trans h) (by decide)⟩
      refine iff_of_true ?_ hintact
      cases hmoved : externalizedField site.key fields with
      | some =>
        rw [moved_comes_back isCall hraw hmoved hcanonical.1 hstored.1]
        exact Json.removes_refl _ _
      | none =>
        have hverbatim : isVerbatim fields = true := by
          simpa [persistWalk, hmoved] using hstops
        rw [truncate_of_verbatim hmoved hverbatim, resolveAt_of_raw hraw]
        exact Json.removes_refl _ _
    | false =>
      have hih : ∀ isCall, ∀ field ∈ fields, field.1 ≠ "jsonlEvents" →
          (Removes "jsonlEvents" field.2 (resolveAt R store isCall ⟨some field.1, true⟩
            (truncateForPersistence R (some field.1) field.2).1) ↔
          persistWalk.Holds Intact ⟨some field.1, true⟩ field.2) := by
        intro isCall field hmem hkey
        exact ih field hmem isCall ⟨some field.1, true⟩ (hfields field hmem)
          (Walk.holdsFields_iff.mp (hcanonical.2 hstops) field hmem hkey)
          (Walk.holdsFields_iff.mp (hstored.2 hstops) field hmem hkey)
      have hflag := truncate_snd_iff (R := R) (.object fields) site
      rw [truncate_of_walked hstops] at hflag ⊢
      cases hchanged : (truncateFields R fields).2 with
      | false =>
        rw [hchanged, if_neg Bool.false_ne_true] at hflag
        rw [if_neg Bool.false_ne_true, resolveAt_of_raw hraw]
        refine iff_of_true (Json.removes_refl _ _) ⟨fun _ h => absurd (hflag.mp rfl) h, fun _ => ?_⟩
        rw [Walk.holdsFields_iff]
        intro field hmem hkey
        refine (hih isCall field hmem hkey).mp ?_
        rw [truncate_eq_self ((truncateFields_snd fields).mp hchanged field hmem).2,
          resolveAt_of_raw (hfields field hmem)]
        exact Json.removes_refl _ _
      | true =>
        rw [hchanged, if_pos rfl] at hflag
        rw [if_pos rfl]
        have haltered : ¬ persistWalk.Holds Unaltered site (.object fields) := by
          intro h
          have hfalse : true = false := hflag.mpr h
          cases hfalse
        rw [resolveAt, resolvePersistedBlobRefs, resolvedField_walked hraw]
        · rw [Json.removes_object_iff, walked_comes_back _ (hih _), Walk.Holds]
          constructor
          · exact fun h => ⟨fun _ _ => h.1, fun _ => h.2⟩
          · exact fun h => ⟨h.1 hstops haltered, h.2 hstops⟩
        · simp

/-! ### Headers -/

theorem containsBlobRef_updateLineCount (h : containsBlobRef (.object fields) = false) :
    containsBlobRef (.object (updateLineCount fields)) = false := by
  rw [updateLineCount]
  split
  · refine Json.fieldsHaveString_eq_false.mpr fun field hfield => ?_
    obtain ⟨old, hold, rfl⟩ := mem_map.mp hfield
    split
    · rfl
    · exact Json.fieldsHaveString_eq_false.mp h old hold
  · exact h

/-- Where nothing moves to the store no reference comes about. -/
theorem containsBlobRef_truncate (hraw : containsBlobRef v = false)
    (h : persistWalk.Holds NothingMoved site v) :
    containsBlobRef (truncateForPersistence R site.key v).1 = false := by
  induction v using Json.induct generalizing site with
  | null | bool | number => rfl
  | string value =>
    rw [truncateForPersistence_string]
    rcases truncateText_cases R site.key value with ⟨hm, -⟩ | ⟨-, ho, heq⟩ | ⟨-, -, heq⟩
    · exact absurd (hm.symm.trans h) (by decide)
    · rw [heq]
      exact (isBlobRef_cutText (isOversized_length ho)).trans hraw
    rw [heq]
    exact hraw
  | array items ih =>
    have hitems := Json.itemsHaveString_eq_false.mp hraw
    rw [Walk.Holds, Walk.holdsItems_iff] at h
    rw [truncate_array_fst]
    refine Json.itemsHaveString_eq_false.mpr fun item hitem => ?_
    obtain ⟨old, hold, rfl⟩ := mem_map.mp hitem
    have hclean := ih old hold (hitems old hold) (h.2 rfl old hold)
    exact hclean
  | object fields ih =>
    have hfields := Json.fieldsHaveString_eq_false.mp hraw
    rw [Walk.Holds, Walk.holdsFields_iff] at h
    cases hstops : persistWalk.stops site.key (.object fields) with
    | true =>
      have hverbatim : isVerbatim fields = true := by
        simpa [persistWalk, show externalizedField site.key fields = none from h.1] using hstops
      rw [truncate_of_verbatim h.1 hverbatim]
      exact hraw
    | false =>
      rw [truncate_of_walked hstops]
      split
      · refine containsBlobRef_updateLineCount (Json.fieldsHaveString_eq_false.mpr ?_)
        rw [truncateFields_fst]
        intro field hfield
        obtain ⟨old, hold, rfl⟩ := mem_map.mp hfield
        obtain ⟨hmem, hkeep⟩ := mem_filter.mp hold
        have hkey : old.1 ≠ "jsonlEvents" := by simpa using hkeep
        exact ih old hmem (hfields old hmem) (h.2 hstops old hmem hkey)
      · exact hraw

theorem containsBlobRef_setField {old : Json}
    (hold : fields.lookup name = some old) (href : isBlobRef ref = true) :
    containsBlobRef (.object (setField name (.string ref) fields)) = true := by
  by_contra hnot
  have hclean : containsBlobRef (.object (setField name (.string ref) fields)) = false := by
    simpa using hnot
  have hmem : (name, Json.string ref) ∈ setField name (.string ref) fields :=
    Json.mem_of_lookup (Json.lookup_setField_self hold)
  exact absurd (Json.fieldsHaveString_eq_false.mp hclean _ hmem) (by simp [Json.hasString, href])

/-- If what is persisted is the entry but for removed fields, nothing has moved to the store. -/
theorem nothingMoved_of_removes (site : Site) (hraw : containsBlobRef v = false)
    (h : Removes "jsonlEvents" v (truncateForPersistence R site.key v).1) :
    persistWalk.Holds NothingMoved site v := by
  induction v using Json.induct generalizing site with
  | null | bool | number => exact trivial
  | string value =>
    rw [truncateForPersistence_string, Json.removes_string_iff] at h
    rcases truncateText_cases R site.key value with ⟨-, heq⟩ | ⟨hm, -⟩ | ⟨hm, -⟩
    · rw [heq, externalizeImageDataUrlSync, show isBlobRef value = false from hraw,
        if_neg Bool.false_ne_true] at h
      have href := isBlobRef_refOf (R := R) value.toUTF8
      rw [Json.string.inj h] at href
      exact absurd (href.symm.trans hraw) (by decide)
    · exact hm
    · exact hm
  | array items ih =>
    have hitems := Json.itemsHaveString_eq_false.mp hraw
    rw [truncate_array_fst, Json.removes_array_iff, Json.itemsRemove_map_iff] at h
    rw [Walk.Holds, Walk.holdsItems_iff]
    exact ⟨trivial, fun _ item hmem =>
      ih item hmem ⟨site.key, false⟩ (hitems item hmem) (h item hmem)⟩
  | object fields ih =>
    have hfields := Json.fieldsHaveString_eq_false.mp hraw
    cases hmoved : externalizedField site.key fields with
    | some moved =>
      obtain ⟨name, data⟩ := moved
      have hold : fields.lookup name = some (.string data) ∧ isBlobRef data = false := by
        rcases externalizedField_cases hmoved with ⟨rfl, -, hlarge⟩ | ⟨rfl, -, -, hlarge⟩
        · exact largeField_eq_some hlarge
        · exact largeField_eq_some hlarge
      rw [truncate_of_moved hmoved, externalizeImageDataSync, hold.2,
        if_neg Bool.false_ne_true] at h
      have hclean := Json.hasString_of_removes h hraw
      exact absurd (hclean.symm.trans (containsBlobRef_setField hold.1 (isBlobRef_refOf _)))
        (by decide)
    | none =>
      rw [Walk.Holds, Walk.holdsFields_iff]
      refine ⟨hmoved, fun hstops field hmem hkey => ?_⟩
      rw [truncate_of_walked hstops] at h
      cases hchanged : (truncateFields R fields).2 with
      | false =>
        have hsame := ((truncateFields_snd fields).mp hchanged field hmem).2
        refine ((truncate_snd_iff field.2 ⟨some field.1, true⟩).mp hsame).mono ?_
        intro site v hunaltered
        cases v with
        | string | object => exact hunaltered.1
        | null | bool | number | array => exact trivial
      | true =>
        rw [hchanged, if_pos rfl, Json.removes_object_iff, updateLineCount] at h
        refine ih field hmem ⟨some field.1, true⟩ (hfields field hmem) ?_
        cases hcount : lineCountFor (truncateFields R fields).1 with
        | none =>
          simp only [hcount] at h
          rw [truncateFields_fst] at h
          exact (Json.fieldsRemove_map_iff fun k v =>
            (truncateForPersistence R (some k) v).1).mp h field hmem hkey
        | some count =>
          simp only [hcount] at h
          rw [truncateFields_fst, map_map] at h
          have hout := (Json.fieldsRemove_map_iff fun k v =>
            if k = "lineCount" then Json.number count
            else (truncateForPersistence R (some k) v).1).mp h field hmem hkey
          by_cases hline : field.1 = "lineCount"
          · rw [if_pos hline, Json.removes_number_iff] at hout
            rw [hout]
            exact Json.removes_refl _ _
          · rwa [if_neg hline] at hout

theorem cutText_ne_session (h : maxPersistChars < unitLength value.toList) :
    cutText value ≠ "session" := by
  intro heq
  have hlist := congrArg (fun text : String => unitLength text.toList) heq
  simp only [toList_cutText h] at hlist
  have hnotice := unitLength_truncationNotice
  have hseven : unitLength "session".toList = 7 := by decide
  simp only [unitLength, map_append, sum_append] at hlist hnotice hseven
  omega

/-- The type of an entry is persisted as it is, as far as headers are told by it. -/
theorem isSession_truncate (fields : List (String × Json)) :
    field "type" (truncateForPersistence R none (.object fields)).1 = some (.string "session") ↔
      fields.lookup "type" = some (.string "session") := by
  cases hmoved : externalizedField none fields with
  | some moved =>
    obtain ⟨name, data⟩ := moved
    rcases externalizedField_cases hmoved with ⟨rfl, -, -⟩ | ⟨rfl, -, -, -⟩
    · rw [truncate_of_moved hmoved, field, Json.lookup_setField_of_ne (by decide)]
    · rw [truncate_of_moved hmoved, field, Json.lookup_setField_of_ne (by decide)]
  | none =>
    by_cases hverbatim : isVerbatim fields = true
    · rw [truncate_of_verbatim hmoved hverbatim, field]
    rw [truncate_of_walked (not_stops_iff.mpr ⟨hmoved, by simpa using hverbatim⟩)]
    split
    · rw [field, lookup_updateLineCount (by decide), lookup_truncateFields (by decide)]
      constructor
      · intro h
        obtain ⟨v, hv, htext⟩ := Option.map_eq_some_iff.mp h
        obtain ⟨value, rfl, hvalue⟩ := truncate_eq_string htext
        rcases truncateText_cases R (some "type") value with ⟨hm, -⟩ | ⟨-, ho, heq⟩ | ⟨-, -, heq⟩
        · cases hm
        · rw [heq] at hvalue
          exact absurd (Json.string.inj hvalue) (cutText_ne_session (isOversized_length ho))
        rw [heq] at hvalue
        rw [hv]
        exact congrArg some hvalue
      intro h
      rw [h, Option.map_some, truncateForPersistence_string]
      rfl
    · rw [field]

/-! ### Dropped signatures -/

/-- The payload has the reasoning item of the signature: one with the same encrypted content, or,
where it has none, with the same id. -/
def CoveredBy (R : Host) (items : List Json) (signature : String) : Prop :=
  ∃ parsed reasoning, R.parseJson signature = some parsed ∧
    readReasoningItem parsed = some reasoning ∧
    ((∃ content, reasoning.encryptedContent = some content ∧ ∃ item ∈ items, ∃ other,
        readReasoningItem item = some other ∧ other.encryptedContent = some content) ∨
      (reasoning.encryptedContent = none ∧ ∃ id, reasoning.id = some id ∧ ∃ item ∈ items, ∃ other,
        readReasoningItem item = some other ∧ other.id = some id))

/-- The second entry is the first one without some signatures of thinking blocks of its message,
each of which the provider payload of the message covers. -/
def DropsCovered (R : Host) (entry stripped : List (String × Json)) : Prop :=
  stripped = entry ∨
    ∃ message payload items content content', entry.lookup "message" = some (.object message) ∧
      message.lookup "providerPayload" = some payload ∧ field "items" payload = some (.array items) ∧
      message.lookup "content" = some (.array content) ∧
      stripped = setField "message" (.object (setField "content" (.array content') message)) entry ∧
      List.Forall₂ (fun block block' => block' = block ∨ ∃ signature,
        thinkingSignature block = some signature ∧ CoveredBy R items signature ∧
          block' = dropSignature block) content content'

theorem coveredBy_of_signatureCovered {items : List Json} {signature : String}
    (h : signatureCoveredByPayload R signature
      ((items.filterMap readReasoningItem).filterMap (·.encryptedContent))
      ((items.filterMap readReasoningItem).filterMap (·.id)) = true) :
    CoveredBy R items signature := by
  rw [signatureCoveredByPayload] at h
  split at h
  · next reasoning hread =>
    obtain ⟨parsed, hparsed, hreading⟩ := Option.bind_eq_some_iff.mp hread
    refine ⟨parsed, reasoning, hparsed, hreading, ?_⟩
    cases hcontent : reasoning.encryptedContent with
    | some content =>
      rw [hcontent] at h
      obtain ⟨other, hother, hsame⟩ := mem_filterMap.mp (contains_iff_mem.mp h)
      obtain ⟨item, hitem, hitemread⟩ := mem_filterMap.mp hother
      exact Or.inl ⟨content, rfl, item, hitem, other, hitemread, hsame⟩
    | none =>
      cases hid : reasoning.id with
      | some id =>
        rw [hcontent, hid] at h
        obtain ⟨other, hother, hsame⟩ := mem_filterMap.mp (contains_iff_mem.mp h)
        obtain ⟨item, hitem, hitemread⟩ := mem_filterMap.mp hother
        exact Or.inr ⟨rfl, id, rfl, item, hitem, other, hitemread, hsame⟩
      | none =>
        rw [hcontent, hid] at h
        cases h
  · cases h

theorem dropsCovered_strip {entry stripped : List (String × Json)}
    (h : stripReplayedReasoningSignatures R entry = some stripped) :
    DropsCovered R entry stripped := by
  rw [stripReplayedReasoningSignatures] at h
  split at h
  · exact Or.inl (Option.some.inj h).symm
  split at h
  · next message hmessage =>
    split at h
    · exact Or.inl (Option.some.inj h).symm
    dsimp only at h
    split at h
    · next items _ hitems =>
      split at h
      · next content hcontent =>
        split at h
        · exact Or.inl (Option.some.inj h).symm
        obtain ⟨payload, hpayload, hitems⟩ := Option.bind_eq_some_iff.mp hitems
        refine Or.inr ⟨message, payload, items, content, _, hmessage, hpayload, hitems,
          hcontent, (Option.some.inj h).symm, ?_⟩
        rw [forall₂_map_right_iff, forall₂_same]
        intro block _
        cases hsignature : thinkingSignature block with
        | none => exact Or.inl rfl
        | some signature =>
          dsimp only
          split
          · next hcovered =>
            exact Or.inr ⟨signature, rfl, coveredBy_of_signatureCovered hcovered, rfl⟩
          · exact Or.inl rfl
      · cases h
    · exact Or.inl (Option.some.inj h).symm
  · cases h
  · cases h
  · exact Or.inl (Option.some.inj h).symm

theorem containsBlobRef_set {value : Json}
    (hraw : containsBlobRef (.object fields) = false) (hvalue : containsBlobRef value = false) :
    containsBlobRef (.object (setField name value fields)) = false := by
  refine Json.fieldsHaveString_eq_false.mpr fun field hfield => ?_
  rcases Json.mem_setField hfield with hmem | rfl
  · exact Json.fieldsHaveString_eq_false.mp hraw field hmem
  · exact hvalue

theorem containsBlobRef_dropSignature {block : Json} (hraw : containsBlobRef block = false) :
    containsBlobRef (dropSignature block) = false := by
  cases block with
  | object =>
    refine Json.fieldsHaveString_eq_false.mpr fun field hfield => ?_
    exact Json.fieldsHaveString_eq_false.mp hraw field (mem_of_mem_filter hfield)
  | null | bool | number | string | array => exact hraw

/-- Dropping signatures brings no reference in. -/
theorem containsBlobRef_dropsCovered {entry stripped : List (String × Json)}
    (h : DropsCovered R entry stripped) (hraw : containsBlobRef (.object entry) = false) :
    containsBlobRef (.object stripped) = false := by
  rcases h with rfl | ⟨message, payload, items, content, content', hmessage, -, -, hcontent, rfl, hall⟩
  · exact hraw
  have hmessageRaw : containsBlobRef (.object message) = false :=
    Json.fieldsHaveString_eq_false.mp hraw _ (Json.mem_of_lookup hmessage)
  have hcontentRaw : containsBlobRef (.array content) = false :=
    Json.fieldsHaveString_eq_false.mp hmessageRaw _ (Json.mem_of_lookup hcontent)
  refine containsBlobRef_set hraw (containsBlobRef_set hmessageRaw ?_)
  refine Json.itemsHaveString_eq_false.mpr fun block' hblock' => ?_
  obtain ⟨i, hi, rfl⟩ := getElem_of_mem hblock'
  have hi' : i < content.length := by rw [hall.length_eq]; exact hi
  have hblockRaw := Json.itemsHaveString_eq_false.mp hcontentRaw _ (getElem_mem hi')
  rcases hall.get hi' hi with hsame | ⟨signature, -, -, hdrop⟩
  · rw [get_eq_getElem, get_eq_getElem] at hsame
    rw [hsame]
    exact hblockRaw
  rw [get_eq_getElem, get_eq_getElem] at hdrop
  rw [hdrop]
  exact containsBlobRef_dropSignature hblockRaw

/-! ### Whole entries -/

/-- What comes back of a persisted entry is the entry without some `jsonlEvents` fields and
without some signatures that the payload covers. -/
def Restores (R : Host) (store : BlobStore) (entry stripped : List (String × Json)) : Prop :=
  DropsCovered R entry stripped ∧
    Removes "jsonlEvents" (.object stripped)
      (resolveBlobRefsInEntry R store (truncateForPersistence R none (.object stripped)).1)

/-- The condition on an entry: it is intact wherever the walk comes, and from the header of a
session nothing moves to the store. -/
def EntryIntact (stripped : List (String × Json)) : Prop :=
  persistWalk.Holds Intact ⟨none, false⟩ (.object stripped) ∧
    (stripped.lookup "type" = some (.string "session") →
      persistWalk.Holds NothingMoved ⟨none, false⟩ (.object stripped))

theorem resolveBlobRefsInEntry_eq (h : field "type" v ≠ some (.string "session")) :
    resolveBlobRefsInEntry R store v = resolveAt R store false ⟨none, false⟩ v := by
  have hresolve : resolvePersistedBlobRefs R store none v =
      resolveAt R store false ⟨none, false⟩ v := resolveAt_top false v
  rw [resolveBlobRefsInEntry]
  split
  · next hsession => exact absurd hsession h
  split
  · exact hresolve
  · next hnone => exact (resolveAt_of_raw (by simpa using hnone) _ _).symm

/-- An entry without references comes back but for what persisting says it leaves out exactly if
it is intact. -/
theorem restores_iff {entry stripped : List (String × Json)}
    (hstrip : stripReplayedReasoningSignatures R entry = some stripped)
    (hraw : containsBlobRef (.object entry) = false)
    (hcanonical : persistWalk.Holds (Canonical R) ⟨none, false⟩ (.object stripped))
    (hstored : persistWalk.Holds (Stored R store) ⟨none, false⟩ (.object stripped)) :
    Restores R store entry stripped ↔ EntryIntact stripped := by
  have hdrops := dropsCovered_strip hstrip
  have hrawStripped := containsBlobRef_dropsCovered hdrops hraw
  have hback := comes_back_iff (.object stripped) false ⟨none, false⟩ hrawStripped hcanonical hstored
  rw [Restores, and_iff_right hdrops, EntryIntact]
  by_cases hsession : stripped.lookup "type" = some (.string "session")
  · have hheader : resolveBlobRefsInEntry R store
        (truncateForPersistence R none (.object stripped)).1 =
          (truncateForPersistence R none (.object stripped)).1 := by
      simp [resolveBlobRefsInEntry, (isSession_truncate stripped).mpr hsession]
    have hclean : persistWalk.Holds NothingMoved ⟨none, false⟩ (.object stripped) →
        resolveAt R store false ⟨none, false⟩
          (truncateForPersistence R none (.object stripped)).1 =
            (truncateForPersistence R none (.object stripped)).1 := fun h =>
      resolveAt_of_raw (containsBlobRef_truncate hrawStripped h) _ _
    rw [hheader]
    constructor
    · intro h
      have hmoved := nothingMoved_of_removes ⟨none, false⟩ hrawStripped h
      refine ⟨hback.mp ?_, fun _ => hmoved⟩
      rw [hclean hmoved]
      exact h
    rintro ⟨hintact, hmoved⟩
    have hremoves := hback.mpr hintact
    rwa [hclean (hmoved hsession)] at hremoves
  have hother : field "type" (truncateForPersistence R none (.object stripped)).1 ≠
      some (.string "session") := fun h => hsession ((isSession_truncate stripped).mp h)
  rw [resolveBlobRefsInEntry_eq hother, hback]
  exact (and_iff_left fun h => absurd h hsession).symm

section Examples

def pixelUrl : String := "data:image/png;base64,AA=="

def pixelHash : String := "e2c4bf98685a8d0674e42fe055e6768d7da848691d4fa7c9dbd5b0703d9dfaf4"

/-- A host that knows the hash of one blob and has no use for base64. -/
def pixelHost : Host where
  fromBase64 _ := .empty
  toBase64 _ := ""
  sha256 buffer := if buffer = pixelUrl.toUTF8 then pixelHash else String.ofList (.replicate 64 '0')
  isBlobHash_sha256 := by
    intro buffer
    split
    · decide
    rw [isBlobHash, String.toList_ofList]
    decide
  invalidUtf8 _ := ""
  parseJson _ := none

def pixelStore : BlobStore := fun hash => if hash = pixelHash then some pixelUrl.toUTF8 else none

theorem not_oversized (h : unitLength value.toList ≤ 1000) : isOversized key value = false := by
  have hmax : ¬ maxPersistChars < unitLength value.toList := by
    rw [maxPersistChars]
    omega
  rw [isOversized, decide_eq_false hmax, Bool.false_and]

theorem pixelStore_sha256 :
    pixelStore (pixelHost.sha256 pixelUrl.toUTF8) = some pixelUrl.toUTF8 := by
  have hput : pixelHost.sha256 pixelUrl.toUTF8 = pixelHash := by
    rw [pixelHost]
    dsimp only
    rw [if_pos rfl]
  rw [hput, pixelStore, if_pos rfl]

def pictureFields : List (String × Json) :=
  [("image_url", .string pixelUrl), ("jsonlEvents", .array [])]

/-- An entry with a picture in the history of the provider, and events of a subprocess. -/
def pictureEntry : List (String × Json) :=
  [("type", .string "custom"), ("data", .object pictureFields)]

theorem restores_pictureEntry : Restores pixelHost pixelStore pictureEntry pictureEntry := by
  have hstrip : stripReplayedReasoningSignatures pixelHost pictureEntry = some pictureEntry := by
    rw [stripReplayedReasoningSignatures, if_pos (by decide)]
  have houter : externalizedField none pictureEntry = none := by decide
  have hinner : externalizedField (some "data") pictureFields = none := by decide
  have hcustom : movesToStore (some "type") "custom" = false := by decide
  have hmoves : movesToStore (some "image_url") pixelUrl = true := by decide
  have hcounts : lineCountFor pictureEntry = none ∧ lineCountFor pictureFields = none :=
    ⟨by decide, by decide⟩
  have hcanonical : persistWalk.Holds (Canonical pixelHost) ⟨none, false⟩ (.object pictureEntry) :=
    ⟨fun _ _ h => absurd (houter.symm.trans h) (by simp), fun _ => ⟨fun _ => trivial, fun _ =>
      ⟨fun _ _ h => absurd (hinner.symm.trans h) (by simp), fun _ =>
        ⟨fun _ => trivial, fun _ => ⟨trivial, fun _ => trivial⟩, trivial⟩⟩, trivial⟩⟩
  have hstored : persistWalk.Holds (Stored pixelHost pixelStore) ⟨none, false⟩
      (.object pictureEntry) :=
    ⟨fun _ _ h => absurd (houter.symm.trans h) (by simp), fun _ =>
      ⟨fun _ h => absurd (hcustom.symm.trans h) (by decide), fun _ =>
        ⟨fun _ _ h => absurd (hinner.symm.trans h) (by simp), fun _ =>
          ⟨fun _ _ => pixelStore_sha256, fun _ => ⟨trivial, fun _ => trivial⟩, trivial⟩⟩, trivial⟩⟩
  have hintact : persistWalk.Holds Intact ⟨none, false⟩ (.object pictureEntry) :=
    ⟨fun _ _ _ h => absurd (hcounts.1.symm.trans h) (by simp), fun _ =>
      ⟨fun _ => ⟨fun h => absurd (hcustom.symm.trans h) (by decide),
          fun _ => not_oversized (by decide)⟩, fun _ =>
        ⟨fun _ _ _ h => absurd (hcounts.2.symm.trans h) (by simp), fun _ =>
          ⟨fun _ => ⟨fun _ => rfl, fun h => absurd (hmoves.symm.trans h) (by decide)⟩, fun _ =>
            ⟨trivial, fun _ => trivial⟩, trivial⟩⟩, trivial⟩⟩
  have hheader : pictureEntry.lookup "type" ≠ some (.string "session") := by
    simp [pictureEntry]
  exact (restores_iff hstrip (by decide) hcanonical hstored).mpr
    ⟨hintact, fun h => absurd h hheader⟩

/-- The fields of an object whose line count is not that of its content. -/
def countedFields : List (String × Json) :=
  [("content", .string "a"), ("lineCount", .number 3), ("jsonlEvents", .array [])]

def countedEntry : List (String × Json) :=
  [("type", .string "custom"), ("data", .object countedFields)]

theorem resolve_countedEntry : resolveBlobRefsInEntry pixelHost pixelStore
      (truncateForPersistence pixelHost none (.object countedEntry)).1 =
    .object [("type", .string "custom"),
      ("data", .object [("content", .string "a"), ("lineCount", .number 1)])] := by
  rfl

/-- The line count changes with the events, although the content is not cut. -/
theorem not_restores_countedEntry :
    ¬ ∀ (R : Host) (store : BlobStore) (entry stripped : List (String × Json)),
      stripReplayedReasoningSignatures R entry = some stripped →
      containsBlobRef (.object entry) = false →
      persistWalk.Holds (Canonical R) ⟨none, false⟩ (.object stripped) →
      persistWalk.Holds (Stored R store) ⟨none, false⟩ (.object stripped) →
      persistWalk.Holds ShortText ⟨none, false⟩ (.object entry) →
        Restores R store entry stripped := by
  intro hall
  have hstrip : stripReplayedReasoningSignatures pixelHost countedEntry = some countedEntry := by
    rw [stripReplayedReasoningSignatures, if_pos (by decide)]
  have houter : externalizedField none countedEntry = none := by decide
  have hinner : externalizedField (some "data") countedFields = none := by decide
  have hcustom : movesToStore (some "type") "custom" = false := by decide
  have hcontent : movesToStore (some "content") "a" = false := by decide
  have hcanonical : persistWalk.Holds (Canonical pixelHost) ⟨none, false⟩ (.object countedEntry) :=
    ⟨fun _ _ h => absurd (houter.symm.trans h) (by simp), fun _ => ⟨fun _ => trivial, fun _ =>
      ⟨fun _ _ h => absurd (hinner.symm.trans h) (by simp), fun _ =>
        ⟨fun _ => trivial, fun _ => trivial, fun _ => ⟨trivial, fun _ => trivial⟩, trivial⟩⟩,
      trivial⟩⟩
  have hstored : persistWalk.Holds (Stored pixelHost pixelStore) ⟨none, false⟩
      (.object countedEntry) :=
    ⟨fun _ _ h => absurd (houter.symm.trans h) (by simp), fun _ =>
      ⟨fun _ h => absurd (hcustom.symm.trans h) (by decide), fun _ =>
        ⟨fun _ _ h => absurd (hinner.symm.trans h) (by simp), fun _ =>
          ⟨fun _ h => absurd (hcontent.symm.trans h) (by decide), fun _ => trivial,
            fun _ => ⟨trivial, fun _ => trivial⟩, trivial⟩⟩, trivial⟩⟩
  have hshort : persistWalk.Holds ShortText ⟨none, false⟩ (.object countedEntry) :=
    ⟨trivial, fun _ => ⟨fun _ => not_oversized (by decide), fun _ => ⟨trivial, fun _ =>
      ⟨fun _ => not_oversized (by decide), fun _ => trivial,
        fun _ => ⟨trivial, fun _ => trivial⟩, trivial⟩⟩, trivial⟩⟩
  have hrestores := (hall pixelHost pixelStore countedEntry countedEntry hstrip (by decide)
    hcanonical hstored hshort).2
  rw [resolve_countedEntry] at hrestores
  simp [countedEntry, countedFields, Removes, Json.FieldsRemove] at hrestores

end Examples

end Persistence

end BreadboardTui
