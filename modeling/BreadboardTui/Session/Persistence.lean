import BreadboardTui.Lib.JsonTree
import Mathlib

/-!
# Persisting an entry and reading it back

Before an entry is written, its duplicate reasoning signatures are dropped, large images move to
the blob store and a reference takes their place, transient fields are stripped and oversized
text is cut (`prepareEntryForPersistence`). After it is read, the references are resolved
(`resolveBlobRefsInEntry`). The two walk the tree on their own, each with its own idea of where a
reference can be.

The written line is parsed to the tree that was written, so that the tree stands for it; a field
set to `undefined` is not written.
-/

namespace BreadboardTui

namespace Persistence

/-! ### The blob store -/

/-- A canonical hash: 64 lower case hex digits. -/
def isBlobHash (hash : String) : Bool :=
  hash.toList.length == 64 && hash.toList.all fun c => c.isDigit || ('a' ≤ c && c ≤ 'f')

/-- What the host provides: base64, SHA-256 as lower case hex, the reading of bytes that are no
UTF-8, and JSON. -/
structure Host where
  fromBase64 : String → ByteArray
  toBase64 : ByteArray → String
  sha256 : ByteArray → String
  isBlobHash_sha256 : ∀ buffer, isBlobHash (sha256 buffer) = true
  invalidUtf8 : ByteArray → String
  parseJson : String → Option Json

def blobPrefix : String := "blob:sha256:"

def isBlobRef (data : String) : Bool := blobPrefix.toList.isPrefixOf data.toList

def parseBlobRef (data : String) : Option String :=
  if isBlobRef data then
    let hash := String.ofList (data.toList.drop blobPrefix.toList.length)
    if isBlobHash hash then some hash else none
  else none

/-- `BlobStore.get`: the bytes under a hash. -/
abbrev BlobStore := String → Option ByteArray

/-- `buffer.toString("utf8")`. -/
def decodeUtf8 (R : Host) (buffer : ByteArray) : String :=
  if h : buffer.IsValidUTF8 then .ofByteArray buffer h else R.invalidUtf8 buffer

theorem decodeUtf8_toUTF8 (R : Host) (text : String) : decodeUtf8 R text.toUTF8 = text := by
  rw [String.toUTF8_eq_toByteArray, decodeUtf8, dif_pos text.isValidUTF8]

/-- `putSync(...).ref`. -/
def refOf (R : Host) (buffer : ByteArray) : String := blobPrefix ++ R.sha256 buffer

def externalizeImageDataSync (R : Host) (base64Data : String) : String :=
  if isBlobRef base64Data then base64Data else refOf R (R.fromBase64 base64Data)

def externalizeImageDataUrlSync (R : Host) (dataUrl : String) : String :=
  if isBlobRef dataUrl then dataUrl else refOf R dataUrl.toUTF8

/-- A missing blob leaves the reference as it is. -/
def resolveImageData (R : Host) (store : BlobStore) (data : String) : String :=
  match (parseBlobRef data).bind store with
  | some buffer => R.toBase64 buffer
  | none => data

def resolveImageDataUrl (R : Host) (store : BlobStore) (data : String) : String :=
  match (parseBlobRef data).bind store with
  | some buffer => decodeUtf8 R buffer
  | none => data

def isImageDataUrl (data : String) : Bool :=
  "data:image/".toList.isPrefixOf data.toList && decide (";base64,".toList <:+: data.toList)

/-! ### What a value is -/

def maxPersistChars : ℕ := 500000

def truncationNotice : String := "\n\n[Session persistence truncated large content]"

def blobExternalizeThreshold : ℕ := 1024

/-- The UTF-16 units of a character. -/
def unitsOf (c : Char) : ℕ := if c.toNat < 0x10000 then 1 else 2

/-- `value.length`. -/
def unitLength (cs : List Char) : ℕ := (cs.map unitsOf).sum

/-- The longest part in front that has at most so many units. A pair of surrogates is not cut. -/
def takeUnits : ℕ → List Char → List Char
  | _, [] => []
  | n, c :: cs => if unitsOf c ≤ n then c :: takeUnits (n - unitsOf c) cs else []

def truncateString (value : String) (maxLength : ℕ) : String :=
  if unitLength value.toList ≤ maxLength then value
  else String.ofList (takeUnits maxLength value.toList)

def stringField (fields : List (String × Json)) (key : String) : Option String :=
  match fields.lookup key with
  | some (.string value) => some value
  | _ => none

/-- The field holds a string that is not empty. -/
def hasNonEmptyString (fields : List (String × Json)) (key : String) : Bool :=
  match stringField fields key with
  | some value => value != ""
  | none => false

def isImageBlock (fields : List (String × Json)) : Bool :=
  stringField fields "type" == some "image" && (stringField fields "data").isSome

/-- The prefix test of `value.toLowerCase()` sees only ASCII letters. -/
def isImageMimeType (fields : List (String × Json)) : Bool :=
  match stringField fields "mimeType" with
  | some value => "image/".toList.isPrefixOf (value.toList.map Char.toLower)
  | none => false

def isImageDataPayload (fields : List (String × Json)) : Bool :=
  (stringField fields "data").isSome && (isImageBlock fields || isImageMimeType fields)

/-- The keys under which an image payload has a blob of its own. -/
def holdsImages (fields : List (String × Json)) (key : Option String) : Bool :=
  (key == some "content" && isImageBlock fields) || key == some "images"

/-- The string in a field, if it is long enough for a blob and no reference. -/
def largeField (fields : List (String × Json)) (key : String) : Option String :=
  (stringField fields key).filter fun data =>
    !isBlobRef data && decide (blobExternalizeThreshold ≤ unitLength data.toList)

/-- The field of an object that moves to the blob store as a whole: the result of a generated
image, or the data of an image payload (`shouldExternalizeImagePayload`). -/
def externalizedField (key : Option String) (fields : List (String × Json)) :
    Option (String × String) :=
  match (if stringField fields "type" == some "image_generation_call" then
      largeField fields "result" else none) with
  | some result => some ("result", result)
  | none =>
    if isImageDataPayload fields && holdsImages fields key then
      (largeField fields "data").map fun data => ("data", data)
    else none

/-- `isAnthropicServerToolHistoryBlock`, on the fields of the block. -/
def isAnthropicServerToolHistoryBlock (block : List (String × Json)) : Bool :=
  let type := stringField block "type"
  if type == some "server_tool_use" then
    let name := stringField block "name"
    (name == some "web_search" || name == some "tool_search_tool_regex" ||
      name == some "tool_search_tool_bm25") && hasNonEmptyString block "id"
  else if type == some "web_search_tool_result" || type == some "tool_search_tool_result" then
    hasNonEmptyString block "tool_use_id" && (block.lookup "content").isSome
  else false

/-- The blocks that persist verbatim: server-tool history, signed and encrypted content. -/
def isVerbatim (fields : List (String × Json)) : Bool :=
  let type := stringField fields "type"
  let serverTool :=
    match type, fields.lookup "block" with
    | some "anthropicServerTool", some (.object block) => isAnthropicServerToolHistoryBlock block
    | _, _ => false
  let signed :=
    (type == some "thinking" && hasNonEmptyString fields "thinkingSignature") ||
    (type == some "text" && hasNonEmptyString fields "textSignature") ||
    (type == some "toolCall" && hasNonEmptyString fields "thoughtSignature")
  let redacted := type == some "redactedThinking" && hasNonEmptyString fields "data"
  let encryptedReasoning := type == some "reasoning" && hasNonEmptyString fields "encrypted_content"
  serverTool || signed || redacted || encryptedReasoning

/-! ### Preparing -/

def isSignatureKey (key : Option String) : Bool :=
  key == some "thinkingSignature" || key == some "thoughtSignature" || key == some "textSignature"

/-- The string is a data URL that moves to the blob store. -/
def movesToStore (key : Option String) (value : String) : Bool :=
  key == some "image_url" && isImageDataUrl value

/-- The string is cut. -/
def isOversized (key : Option String) (value : String) : Bool :=
  decide (maxPersistChars < unitLength value.toList) && !isSignatureKey key

def truncateText (R : Host) (key : Option String) (value : String) : Json × Bool :=
  if movesToStore key value then (.string (externalizeImageDataUrlSync R value), true)
  else if isOversized key value then
    (.string (truncateString value (maxPersistChars - unitLength truncationNotice.toList) ++
      truncationNotice), true)
  else (.string value, false)

/-- `content.split("\n").length`. -/
def lineCountOf (content : String) : ℕ := (content.toList.splitOn '\n').length

/-- The line count that goes with the content of an object, if it has both. -/
def lineCountFor (fields : List (String × Json)) : Option ℕ :=
  match fields.lookup "content", fields.lookup "lineCount" with
  | some (.string content), some (.number _) => some (lineCountOf content)
  | _, _ => none

def updateLineCount (fields : List (String × Json)) : List (String × Json) :=
  match lineCountFor fields with
  | some count => fields.map fun field =>
      (field.1, if field.1 = "lineCount" then .number count else field.2)
  | none => fields

mutual

/-- The value to persist, and whether it is another one than was given. -/
def truncateForPersistence (R : Host) (key : Option String) : Json → Json × Bool
  | .string value => truncateText R key value
  | .array items =>
    let result := truncateItems R key items
    if result.2 then (.array result.1, true) else (.array items, false)
  | .object fields =>
    match externalizedField key fields with
    | some (name, data) =>
      (.object (Json.setField name (.string (externalizeImageDataSync R data)) fields), true)
    | none =>
      if isVerbatim fields then (.object fields, false)
      else
        let entries := truncateFields R fields
        if entries.2 then (.object (updateLineCount entries.1), true) else (.object fields, false)
  | .null => (.null, false)
  | .bool value => (.bool value, false)
  | .number value => (.number value, false)

def truncateItems (R : Host) (key : Option String) : List Json → List Json × Bool
  | [] => ([], false)
  | item :: items =>
    let newItem := truncateForPersistence R key item
    let rest := truncateItems R key items
    (newItem.1 :: rest.1, newItem.2 || rest.2)

/-- The fields to persist. `jsonlEvents` is transient. -/
def truncateFields (R : Host) : List (String × Json) → List (String × Json) × Bool
  | [] => ([], false)
  | (childKey, value) :: fields =>
    let rest := truncateFields R fields
    if childKey = "jsonlEvents" then (rest.1, true)
    else
      let newValue := truncateForPersistence R (some childKey) value
      ((childKey, newValue.1) :: rest.1, newValue.2 || rest.2)

end

section Cases

variable (R : Host) (key : Option String)

theorem truncateForPersistence_string (value : String) :
    truncateForPersistence R key (.string value) = truncateText R key value := rfl

theorem truncateForPersistence_array (items : List Json) :
    truncateForPersistence R key (.array items) =
      if (truncateItems R key items).2 then (.array (truncateItems R key items).1, true)
      else (.array items, false) := rfl

theorem truncateForPersistence_object (fields : List (String × Json)) :
    truncateForPersistence R key (.object fields) =
      match externalizedField key fields with
      | some (name, data) =>
        (.object (Json.setField name (.string (externalizeImageDataSync R data)) fields), true)
      | none =>
        if isVerbatim fields then (.object fields, false)
        else if (truncateFields R fields).2 then
          (.object (updateLineCount (truncateFields R fields).1), true)
        else (.object fields, false) := rfl

end Cases

/-! ### Duplicate reasoning signatures -/

/-- A reasoning item, as far as duplicates are told by it. -/
structure ReasoningItem where
  encryptedContent : Option String
  id : Option String

def nonEmptyString (fields : List (String × Json)) (key : String) : Option String :=
  (stringField fields key).filter (· != "")

def readReasoningItem : Json → Option ReasoningItem
  | .object fields =>
    if stringField fields "type" == some "reasoning" then
      some ⟨nonEmptyString fields "encrypted_content", nonEmptyString fields "id"⟩
    else none
  | _ => none

def signatureCoveredByPayload (R : Host) (signature : String) (encrypted ids : List String) :
    Bool :=
  match (R.parseJson signature).bind readReasoningItem with
  | some reasoning =>
    match reasoning.encryptedContent, reasoning.id with
    | some content, _ => encrypted.contains content
    | none, some id => ids.contains id
    | none, none => false
  | none => false

/-- The signature of a signed thinking block. -/
def thinkingSignature : Json → Option String
  | .object fields =>
    if stringField fields "type" == some "thinking" then
      nonEmptyString fields "thinkingSignature"
    else none
  | _ => none

/-- A block with the field set to `undefined`, which is not written. -/
def dropSignature : Json → Json
  | .object fields => .object (fields.filter (·.1 ≠ "thinkingSignature"))
  | block => block

def field (key : String) : Json → Option Json
  | .object fields => fields.lookup key
  | _ => none

/-- `stripReplayedReasoningSignatures`. A message entry has a message, and an assistant message an
array of blocks, which are objects: without the first two the code throws. -/
def stripReplayedReasoningSignatures (R : Host) (entry : List (String × Json)) :
    Option (List (String × Json)) :=
  if stringField entry "type" ≠ some "message" then some entry
  else
    match entry.lookup "message" with
    | some (.object message) =>
      if stringField message "role" ≠ some "assistant" then some entry
      else
        let payload := message.lookup "providerPayload"
        match payload.bind (field "type"), payload.bind (field "items") with
        | some (.string "openaiResponsesHistory"), some (.array items) =>
          match message.lookup "content" with
          | some (.array content) =>
            let reasoning := items.filterMap readReasoningItem
            let encrypted := reasoning.filterMap (·.encryptedContent)
            let ids := reasoning.filterMap (·.id)
            if content.all (fun block => (thinkingSignature block).isNone) ||
                (encrypted.isEmpty && ids.isEmpty) then some entry
            else
              let slimmed := content.map fun block =>
                match thinkingSignature block with
                | some signature =>
                  if signatureCoveredByPayload R signature encrypted ids then dropSignature block
                  else block
                | none => block
              some (Json.setField "message"
                (.object (Json.setField "content" (.array slimmed) message)) entry)
          | _ => none
        | _, _ => some entry
    | some .null | none => none
    | some _ => some entry

/-- `prepareEntryForPersistence`, for an entry with these fields. -/
def prepareEntryForPersistence (R : Host) (entry : List (String × Json)) : Option Json :=
  (stripReplayedReasoningSignatures R entry).map fun stripped =>
    (truncateForPersistence R none (.object stripped)).1

/-! ### Resolving -/

/-- `shouldResolveImagePayload`: the reference in the data of an image payload. -/
def resolvedField (key : Option String) (fields : List (String × Json)) : Option String :=
  if isImageDataPayload fields && holdsImages fields key then
    (stringField fields "data").filter isBlobRef
  else none

/-- What becomes of a string in a field: the result of a generated image and an image URL are
resolved. -/
def resolveText (R : Host) (store : BlobStore) (isCall : Bool) (key value : String) : String :=
  if isCall && key == "result" && isBlobRef value then resolveImageData R store value
  else if key == "image_url" && isBlobRef value then resolveImageDataUrl R store value
  else value

mutual

def resolvePersistedBlobRefs (R : Host) (store : BlobStore) (key : Option String) : Json → Json
  | .array items => .array (resolveItems R store key items)
  | .object fields =>
    match resolvedField key fields with
    | some data =>
      .object (Json.setField "data" (.string (resolveImageData R store data)) fields)
    | none =>
      .object (resolveFields R store
        (stringField fields "type" == some "image_generation_call") fields)
  | .null => .null
  | .bool value => .bool value
  | .number value => .number value
  | .string value => .string value

def resolveItems (R : Host) (store : BlobStore) (key : Option String) : List Json → List Json
  | [] => []
  | item :: items =>
    resolvePersistedBlobRefs R store key item :: resolveItems R store key items

def resolveFields (R : Host) (store : BlobStore) (isCall : Bool) :
    List (String × Json) → List (String × Json)
  | [] => []
  | (key, .string value) :: fields =>
    (key, .string (resolveText R store isCall key value)) :: resolveFields R store isCall fields
  | (key, value) :: fields =>
    (key, resolvePersistedBlobRefs R store (some key) value) ::
      resolveFields R store isCall fields

end

/-- The precheck, on the whole tree. -/
def containsBlobRef (value : Json) : Bool := value.hasString isBlobRef

/-- `resolveBlobRefsInEntries`, for one entry. The header of a session is left as it is. -/
def resolveBlobRefsInEntry (R : Host) (store : BlobStore) (entry : Json) : Json :=
  match field "type" entry with
  | some (.string "session") => entry
  | _ => if containsBlobRef entry then resolvePersistedBlobRefs R store none entry else entry

end Persistence

end BreadboardTui
