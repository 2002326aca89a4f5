import BreadboardTui.Js.Value
import Mathlib.Data.List.Sort
import Mathlib.Data.List.Nodup

/-!
# The durable session binding

A BreadBoard session is tied to an OMP transcript by custom entries that carry a **binding**:
the session identity, the durable cursor and the submissions the bridge owns. This module
embeds the validator, the reader that folds the entries of a branch, and the two writers.

`BreadboardSessionBindingData` carries what the validator established as fields, so a binding
that the validator would refuse cannot be built. The collation behind `localeCompare` belongs
to the JavaScript engine and stays a parameter of the writer that sorts by it.
-/

namespace BreadboardTui

/-- The correlation of one submission with the turn the backend admitted for it. -/
structure E4OwnedSubmission where
  clientMessageId : String
  inputId : String
  turnId : String
  deriving DecidableEq, Repr

/-- A cursor into the canonical event log, as the bridge hands it to the binding writer. -/
structure E4DurableCursor where
  eventId : String
  sequence : JsNumber
  deriving DecidableEq, Repr

/-- The only error the binding functions throw; its code is `unsupported_resume_transition`. -/
structure BreadboardSessionTransitionError where
  message : String
  deriving DecidableEq, Repr

def bindingCustomType : String := "breadboard.session-binding"

def bindingSchemaVersion : String := "breadboard.session-binding.v3"

/-- `isExactSafeString` on a value already known to be a string. -/
def isExactSafeString (value : String) : Bool :=
  0 < value.length && trimChars value.toList == value.toList && !value.toList.any isControl

/-- `isExactSafeString` as the type guard the validator uses: the string, when it is one. -/
def exactSafeString? : JsValue → Option String
  | .string value => if isExactSafeString value then some value else none
  | _ => none

variable {v : JsValue}

theorem exactSafeString?_eq_some {s : String} :
    exactSafeString? v = some s ↔ v = .string s ∧ isExactSafeString s = true := by
  cases v <;> simp only [exactSafeString?, reduceCtorEq, false_and, JsValue.string.injEq]
  constructor
  · intro h
    split at h
    · next hs => cases h; exact ⟨rfl, hs⟩
    · cases h
  rintro ⟨rfl, hs⟩
  rw [if_pos hs]

/-- The cursor stored in a binding: sequence zero has no event. -/
structure BindingCursor where
  eventId : Option String
  sequence : ℕ
  deriving DecidableEq, Repr

/-- What the validator demands of a stored cursor. -/
def BindingCursor.IsValid (cursor : BindingCursor) : Prop :=
  cursor.sequence ≤ maxSafeInteger ∧
    match cursor.eventId with
    | none => cursor.sequence = 0
    | some eventId => 0 < cursor.sequence ∧ isExactSafeString eventId = true

/-- All three identities of a submission are exact safe strings. -/
def E4OwnedSubmission.IsSafe (s : E4OwnedSubmission) : Prop :=
  isExactSafeString s.clientMessageId = true ∧ isExactSafeString s.inputId = true ∧
    isExactSafeString s.turnId = true

/-- The submissions a binding may own: at most ten thousand, all safe, and no identity of
any of the three kinds used twice. -/
structure OwnedSubmissionsValid (owned : List E4OwnedSubmission) : Prop where
  bounded : owned.length ≤ 10000
  safe : ∀ s ∈ owned, s.IsSafe
  clientMessageIds : (owned.map E4OwnedSubmission.clientMessageId).Nodup
  inputIds : (owned.map E4OwnedSubmission.inputId).Nodup
  turnIds : (owned.map E4OwnedSubmission.turnId).Nodup

/-- A binding the validator accepts. -/
structure BreadboardSessionBindingData where
  sessionId : String
  replayConfigurationDigest : String
  cursor : BindingCursor
  ownedSubmissions : List E4OwnedSubmission
  sessionId_safe : isExactSafeString sessionId = true
  digest_safe : isExactSafeString replayConfigurationDigest = true
  cursor_valid : cursor.IsValid
  owned_valid : OwnedSubmissionsValid ownedSubmissions
  deriving DecidableEq

/-! ### The validator -/

/-- `fail` of the validator. -/
def malformedBinding : BreadboardSessionTransitionError :=
  ⟨"BreadBoard session binding is malformed or incompatible with the required schema."⟩

/-- One element of `ownedSubmissions`: an object with exactly the three identities. -/
def parseOwnedSubmission : JsValue → Option E4OwnedSubmission
  | .object fields =>
    if fields.length = 3 then do
      let clientMessageId ← exactSafeString? (getField fields "clientMessageId")
      let inputId ← exactSafeString? (getField fields "inputId")
      let turnId ← exactSafeString? (getField fields "turnId")
      return ⟨clientMessageId, inputId, turnId⟩
    else none
  | _ => none

/-- The loop over `ownedSubmissions`; the three lists are the sets of identities seen so
far. -/
def parseOwnedSubmissions (clientMessageIds inputIds turnIds : List String) :
    List JsValue → Option (List E4OwnedSubmission)
  | [] => some []
  | item :: items => do
    let submission ← parseOwnedSubmission item
    if submission.clientMessageId ∈ clientMessageIds ∨ submission.inputId ∈ inputIds ∨
        submission.turnId ∈ turnIds then none
    else
      let rest ← parseOwnedSubmissions (submission.clientMessageId :: clientMessageIds)
        (submission.inputId :: inputIds) (submission.turnId :: turnIds) items
      return submission :: rest

/-- `cursor.sequence`, when it is a safe non-negative integer. -/
def parseSequence : JsValue → Option ℕ
  | .number n => do
    let sequence ← n.safeInteger?
    if sequence < 0 then none else return sequence.toNat
  | _ => none

/-- The cursor object: exactly two keys, a safe non-negative sequence, and an event exactly
when the sequence is not zero. -/
def parseCursor : JsValue → Option BindingCursor
  | .object fields =>
    if fields.length = 2 then do
      let sequence ← parseSequence (getField fields "sequence")
      if sequence = 0 then
        match getField fields "eventId" with
        | .null => return ⟨none, 0⟩
        | _ => none
      else
        let eventId ← exactSafeString? (getField fields "eventId")
        return ⟨some eventId, sequence⟩
    else none
  | _ => none

theorem parseOwnedSubmission_isSafe {s : E4OwnedSubmission}
    (h : parseOwnedSubmission v = some s) : s.IsSafe := by
  cases v with
  | object =>
    simp only [parseOwnedSubmission, Option.bind_eq_bind, Option.ite_none_right_eq_some,
      Option.bind_eq_some_iff, exactSafeString?_eq_some, Option.pure_def,
      Option.some.injEq] at h
    obtain ⟨-, c, ⟨-, hc⟩, i, ⟨-, hi⟩, t, ⟨-, ht⟩, rfl⟩ := h
    exact ⟨hc, hi, ht⟩
  | _ => simp [parseOwnedSubmission] at h

/-- What the loop has established about the submissions it returns, relative to the
identities seen before it. -/
theorem parseOwnedSubmissions_spec {cs is ts : List String} {items : List JsValue}
    {owned : List E4OwnedSubmission} (h : parseOwnedSubmissions cs is ts items = some owned) :
    owned.length = items.length ∧ (∀ s ∈ owned, s.IsSafe) ∧
      (owned.map E4OwnedSubmission.clientMessageId).Nodup ∧
      (owned.map E4OwnedSubmission.inputId).Nodup ∧
      (owned.map E4OwnedSubmission.turnId).Nodup ∧
      ∀ s ∈ owned, s.clientMessageId ∉ cs ∧ s.inputId ∉ is ∧ s.turnId ∉ ts := by
  induction items generalizing cs is ts owned with
  | nil => cases h; simp
  | cons item items ih =>
    simp only [parseOwnedSubmissions, Option.bind_eq_bind, Option.bind_eq_some_iff,
      Option.ite_none_left_eq_some, not_or, Option.pure_def, Option.some.injEq] at h
    obtain ⟨s, hs, ⟨hc, hi, ht⟩, rest, hrest, rfl⟩ := h
    obtain ⟨hlen, hsafe, hcs, his, hts, hnew⟩ := ih hrest
    simp only [List.mem_cons, not_or] at hnew
    refine ⟨by simp [hlen], ?_, ?_, ?_, ?_, ?_⟩
    · simpa using ⟨parseOwnedSubmission_isSafe hs, hsafe⟩
    · simpa [hcs] using fun x hx => (hnew x hx).1.1
    · simpa [his] using fun x hx => (hnew x hx).2.1.1
    · simpa [hts] using fun x hx => (hnew x hx).2.2.1
    simp only [List.mem_cons, forall_eq_or_imp]
    exact ⟨⟨hc, hi, ht⟩, fun x hx => ⟨(hnew x hx).1.2, (hnew x hx).2.1.2, (hnew x hx).2.2.2⟩⟩

theorem parseSequence_eq_some {sequence : ℕ} (h : parseSequence v = some sequence) :
    sequence ≤ maxSafeInteger := by
  cases v with
  | number =>
    simp only [parseSequence, Option.bind_eq_bind, Option.bind_eq_some_iff,
      Option.ite_none_left_eq_some, Option.pure_def, Option.some.injEq] at h
    obtain ⟨value, hvalue, hnonneg, rfl⟩ := h
    have hle := (JsNumber.safeInteger?_eq_some hvalue).2
    omega
  | _ => simp [parseSequence] at h

theorem parseCursor_isValid {cursor : BindingCursor}
    (h : parseCursor v = some cursor) : cursor.IsValid := by
  cases v with
  | object =>
    simp only [parseCursor, Option.bind_eq_bind, Option.ite_none_right_eq_some,
      Option.bind_eq_some_iff] at h
    obtain ⟨-, sequence, hseq, h⟩ := h
    split at h
    · split at h
      · cases h
        exact ⟨Nat.zero_le _, rfl⟩
      · cases h
    next hne =>
    simp only [Option.bind_eq_some_iff, exactSafeString?_eq_some, Option.pure_def,
      Option.some.injEq] at h
    obtain ⟨eventId, ⟨-, hsafe⟩, rfl⟩ := h
    exact ⟨parseSequence_eq_some hseq, Nat.pos_of_ne_zero hne, hsafe⟩
  | _ => simp [parseCursor] at h

def parseBreadboardSessionBindingData (value : JsValue) :
    Except BreadboardSessionTransitionError BreadboardSessionBindingData :=
  match value with
  | .object data =>
    if data.length = 5 ∧ (getField data "schemaVersion").isString bindingSchemaVersion then
      match hs : exactSafeString? (getField data "sessionId"),
        hd : exactSafeString? (getField data "replayConfigurationDigest"),
        getField data "ownedSubmissions" with
      | some sessionId, some digest, .array items =>
        if hlen : items.length ≤ 10000 then
          match hc : parseCursor (getField data "cursor") with
          | some cursor =>
            match ho : parseOwnedSubmissions [] [] [] items with
            | some owned =>
              .ok {
                sessionId := sessionId
                replayConfigurationDigest := digest
                cursor := cursor
                ownedSubmissions := owned
                sessionId_safe := (exactSafeString?_eq_some.mp hs).2
                digest_safe := (exactSafeString?_eq_some.mp hd).2
                cursor_valid := parseCursor_isValid hc
                owned_valid :=
                  have spec := parseOwnedSubmissions_spec ho
                  ⟨by omega, spec.2.1, spec.2.2.1, spec.2.2.2.1, spec.2.2.2.2.1⟩ }
            | none => .error malformedBinding
          | none => .error malformedBinding
        else .error malformedBinding
      | _, _, _ => .error malformedBinding
    else .error malformedBinding
  | _ => .error malformedBinding

/-- What acceptance means: the validator returns a binding exactly when the object has the
five keys and each of them parses to the field of that name. -/
theorem parseBreadboardSessionBindingData_eq_ok {value : JsValue}
    {binding : BreadboardSessionBindingData} :
    parseBreadboardSessionBindingData value = .ok binding ↔
      ∃ data items, value = .object data ∧ data.length = 5 ∧
        (getField data "schemaVersion").isString bindingSchemaVersion ∧
        exactSafeString? (getField data "sessionId") = some binding.sessionId ∧
        exactSafeString? (getField data "replayConfigurationDigest") =
          some binding.replayConfigurationDigest ∧
        getField data "ownedSubmissions" = .array items ∧ items.length ≤ 10000 ∧
        parseCursor (getField data "cursor") = some binding.cursor ∧
        parseOwnedSubmissions [] [] [] items = some binding.ownedSubmissions := by
  constructor
  · intro h
    cases value with
    | object data =>
      simp only [parseBreadboardSessionBindingData] at h
      split at h
      · next hkeys =>
        split at h
        · next items hs hd hi =>
          split at h
          · next hlen =>
            split at h
            · next hc =>
              split at h
              · next ho =>
                cases h
                exact ⟨data, items, rfl, hkeys.1, hkeys.2, hs, hd, hi, hlen, hc, ho⟩
              · cases h
            · cases h
          · cases h
        · cases h
      · cases h
    | _ => simp [parseBreadboardSessionBindingData] at h
  rintro ⟨data, items, rfl, hlen, hschema, hs, hd, hi, hbound, hc, ho⟩
  simp only [parseBreadboardSessionBindingData]
  rw [if_pos ⟨hlen, hschema⟩]
  split
  · next sessionId digest items' hs' hd' hi' =>
    obtain rfl : items' = items := by simpa [hi] using hi'.symm
    obtain rfl : sessionId = binding.sessionId := by simpa [hs] using hs'.symm
    obtain rfl : digest = binding.replayConfigurationDigest := by simpa [hd] using hd'.symm
    rw [dif_pos hbound]
    split
    · next cursor hc' =>
      obtain rfl : cursor = binding.cursor := by simpa [hc] using hc'.symm
      split
      · next owned ho' =>
        obtain rfl : owned = binding.ownedSubmissions := by simpa [ho] using ho'.symm
        rfl
      · next ho' => simp [ho] at ho'
    · next hc' => simp [hc] at hc'
  · next hno => exact (hno _ _ _ hs hd hi).elim

/-! ### Writing a binding -/

/-- A submission as the object the transcript stores. -/
def submissionObject (s : E4OwnedSubmission) : JsValue :=
  .object [("clientMessageId", .string s.clientMessageId), ("inputId", .string s.inputId),
    ("turnId", .string s.turnId)]

def cursorObject (eventId : JsValue) (sequence : JsNumber) : JsValue :=
  .object [("eventId", eventId), ("sequence", .number sequence)]

/-- The object literal of a binding; the writers spread the current binding into it and
replace the cursor or the owned submissions. -/
def bindingObject (sessionId replayConfigurationDigest : String) (cursor : JsValue)
    (ownedSubmissions : List E4OwnedSubmission) : JsValue :=
  .object [("schemaVersion", .string bindingSchemaVersion), ("sessionId", .string sessionId),
    ("replayConfigurationDigest", .string replayConfigurationDigest), ("cursor", cursor),
    ("ownedSubmissions", .array (ownedSubmissions.map submissionObject))]

/-- The stored cursor of a binding as an object. -/
def BindingCursor.toJs (cursor : BindingCursor) : JsValue :=
  cursorObject (cursor.eventId.elim .null .string) (.integer cursor.sequence)

/-- A binding as the data of a transcript entry. -/
def BreadboardSessionBindingData.toJs (binding : BreadboardSessionBindingData) : JsValue :=
  bindingObject binding.sessionId binding.replayConfigurationDigest binding.cursor.toJs
    binding.ownedSubmissions

/-- `addOwnedSubmission`. The engine's collation `localeCompare` orders the turns. -/
def addOwnedSubmission (localeCompare : String → String → ℤ)
    (current : BreadboardSessionBindingData) (submission : E4OwnedSubmission) :
    Except BreadboardSessionTransitionError BreadboardSessionBindingData :=
  match current.ownedSubmissions.find? (fun item => item.turnId == submission.turnId) with
  | some existing =>
    if existing.clientMessageId ≠ submission.clientMessageId ∨
        existing.inputId ≠ submission.inputId then
      .error ⟨s!"BreadBoard owned submission {submission.turnId} conflicts with the durable binding."⟩
    else .ok current
  | none =>
    parseBreadboardSessionBindingData <|
      bindingObject current.sessionId current.replayConfigurationDigest current.cursor.toJs <|
        (current.ownedSubmissions ++ [submission]).insertionSort
          fun left right => localeCompare left.turnId right.turnId ≤ 0

/-- The guard of `advanceProjectionBinding`: the cursor is a real position that neither rolls
the binding back nor renames its event. -/
def E4DurableCursor.Advances (cursor : E4DurableCursor) (current : BindingCursor) : Prop :=
  isExactSafeString cursor.eventId = true ∧
    ∃ sequence ∈ cursor.sequence.safeInteger?, 0 < sequence ∧ current.sequence ≤ sequence ∧
      (sequence = current.sequence → some cursor.eventId = current.eventId)

instance (cursor : E4DurableCursor) (current : BindingCursor) :
    Decidable (cursor.Advances current) :=
  inferInstanceAs (Decidable (_ ∧ ∃ sequence ∈ cursor.sequence.safeInteger?, _))

def advanceProjectionBinding (current : BreadboardSessionBindingData) (cursor : E4DurableCursor)
    (ownedSubmissions : List E4OwnedSubmission) :
    Except BreadboardSessionTransitionError BreadboardSessionBindingData :=
  if cursor.Advances current.cursor then
    parseBreadboardSessionBindingData <|
      bindingObject current.sessionId current.replayConfigurationDigest
        (cursorObject (.string cursor.eventId) cursor.sequence) ownedSubmissions
  else
    .error ⟨"BreadBoard projection cursor conflicts with or rolls back the durable OMP session binding."⟩

/-! ### Reading a branch -/

/-- What the reader looks at in a transcript entry. -/
structure BreadboardSessionBindingEntry where
  type : String
  customType : Option String
  data : JsValue

/-- `containsOwnedSubmissions`. The map by turn keeps the last submission of a turn. -/
def containsOwnedSubmissions (candidate required : List E4OwnedSubmission) : Bool :=
  required.all fun submission =>
    match candidate.reverse.find? (fun found => found.turnId == submission.turnId) with
    | some found =>
      found.clientMessageId == submission.clientMessageId && found.inputId == submission.inputId
    | none => false

/-- The condition under which the reader refuses `candidate` after `binding`. -/
def BreadboardSessionBindingData.conflicts (binding candidate : BreadboardSessionBindingData) :
    Bool :=
  candidate.sessionId != binding.sessionId ||
    candidate.replayConfigurationDigest != binding.replayConfigurationDigest ||
    decide (candidate.cursor.sequence < binding.cursor.sequence) ||
    (candidate.cursor.sequence == binding.cursor.sequence &&
      (candidate.cursor.eventId != binding.cursor.eventId ||
        !containsOwnedSubmissions candidate.ownedSubmissions binding.ownedSubmissions))

/-- One iteration of the reader's loop. -/
def readBindingEntry (binding : Option BreadboardSessionBindingData)
    (entry : BreadboardSessionBindingEntry) :
    Except BreadboardSessionTransitionError (Option BreadboardSessionBindingData) :=
  if entry.type ≠ "custom" ∨ entry.customType ≠ some bindingCustomType then .ok binding
  else do
    let candidate ← parseBreadboardSessionBindingData entry.data
    if binding.any (·.conflicts candidate) then
      .error ⟨"BreadBoard session binding conflicts with the active transcript or rolls back its durable cursor."⟩
    else return some candidate

/-- `readBreadboardSessionBinding` on the entries of `getBranch()`. -/
def readBreadboardSessionBinding (branch : List BreadboardSessionBindingEntry) :
    Except BreadboardSessionTransitionError (Option BreadboardSessionBindingData) :=
  branch.foldlM readBindingEntry none

/-- The entry `appendCustomEntry` writes for a binding. -/
def bindingEntry (data : JsValue) : BreadboardSessionBindingEntry :=
  ⟨"custom", some bindingCustomType, data⟩

end BreadboardTui
