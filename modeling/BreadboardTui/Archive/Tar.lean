import BreadboardTui.Js.Collections
import BreadboardTui.Lib.Utf8
import Mathlib.Tactic

/-!
# Tar archives

An archive is a sequence of records: a header of 512 bytes, and the data of the member, padded to
blocks. A path that fits neither the name field of a header nor a name and a prefix goes into a
PAX record in front. The reader makes an index of the members; a member is read from where its data
start.

* `readTarEntriesFromBuffer`: the reader. What it does with links, and with renaming records of the
  old GNU format, is a parameter.

Bytes from an offset on stand for the offset.
-/

namespace BreadboardTui.Tar

open Utf8

/-- What the writer and the reader throw. -/
inductive ArchiveError where
  | fieldTooLong
  | invalidNumericValue
  | numericDoesNotFit
  | archiveTooLarge
  | invalidMemberPath (rawPath : Text)
  | emptyMemberPath
  | directoryWithData (path : Text)
  | notDirectory (path : Text)
  | duplicatePath (path : Text)
  | tooLargeToRead
  | indexTooLarge (what : String)
  | pathTooLong (field : String)
  | memberTooLarge (path : Text)
  | tooManyEntries
  | corruptHeader
  | invalidMemberSize
  | invalidSize (field : String)
  | invalidPaxRecord
  | dataTruncated
  | multiVolume
  | sparseTruncated
  | memberTruncated (name : Text)
  | missingTerminator
  | unreadable
  | link (path : Text)
  deriving DecidableEq, Repr

/-- The limits that the reader asserts. -/
structure ArchiveLimits where
  maxEntries : ℕ
  maxInMemorySize : ℕ
  maxIndexSize : ℕ
  maxMemberSize : ℕ
  maxPathBytes : ℕ

def blockSize : ℕ := 512

def maxSafeInteger : ℕ := 2 ^ 53 - 1

def maxOctalSize : ℕ := 8 ^ 11 - 1

def zeros (count : ℕ) : Bytes := List.replicate count 0

def paddedSize (size : ℕ) : Except ArchiveError ℕ :=
  let remainder := size % blockSize
  let padded := size + if remainder = 0 then 0 else blockSize - remainder
  if maxSafeInteger < padded then .error .invalidMemberSize else .ok padded

def byteSum (bytes : Bytes) : ℕ := (bytes.map UInt8.toNat).sum

/-! ### Paths -/

/-- The loop of `normalizeArchiveEntryPath`. -/
def normalizeParts : List Text → Option (List Text)
  | [] => some []
  | part :: parts =>
    if part = [] ∨ part = ['.'] then normalizeParts parts
    else if part = ['.', '.'] then none
    else (normalizeParts parts).map (part :: ·)

def joinPath (parts : List Text) : Text := ['/'].intercalate parts

def normalizeArchiveEntryPath (rawPath : Text) : Option Text :=
  match normalizeParts ((rawPath.map fun c => if c = '\\' then '/' else c).splitOn '/') with
  | none | some [] => none
  | some parts => some (joinPath parts)

/-- Whether a path ends with a separator. -/
def isDirectoryName (rawPath : Text) : Bool :=
  rawPath.getLast? = some '/' || rawPath.getLast? = some '\\'

/-! ### Writing -/

def writeField (length : ℕ) (value : Bytes) : Except ArchiveError Bytes :=
  if length < value.length then .error .fieldTooLong
  else .ok (value ++ zeros (length - value.length))

def writeOctal (length value : ℕ) : Except ArchiveError Bytes :=
  let digits := (Nat.toDigits 8 value).map ascii
  if maxSafeInteger < value then .error .invalidNumericValue
  else if length - 1 < digits.length then .error .numericDoesNotFit
  else .ok (List.replicate (length - 1 - digits.length) (ascii '0') ++ digits ++ [0])

/-- The loop of `splitUstarPath`, from an index down. -/
def splitUstarFrom (pathBytes : Bytes) : ℕ → Option (Bytes × Bytes)
  | 0 => none
  | index + 1 =>
    let namePrefix := pathBytes.take (index + 1)
    let name := pathBytes.drop (index + 2)
    if pathBytes[index + 1]? = some (ascii '/') ∧ namePrefix.length ≤ 155 ∧ 0 < name.length ∧
        name.length ≤ 100 then some (name, namePrefix)
    else splitUstarFrom pathBytes index

/-- The name and the prefix of a path, where it fits. -/
def splitUstarPath (pathBytes : Bytes) : Option (Bytes × Bytes) :=
  if pathBytes.length ≤ 100 then some (pathBytes, [])
  else splitUstarFrom pathBytes (pathBytes.length - 1)

/-- The loop of `makePaxRecord`; `none` if it goes on for more rounds. -/
def paxLengthLoop (bodyLength : ℕ) : ℕ → ℕ → Option ℕ
  | 0, _ => none
  | rounds + 1, length =>
    let next := (Nat.toDigits 10 length).length + 1 + bodyLength
    if next = length then some length else paxLengthLoop bodyLength rounds next

/-- The length that counts its own digits. -/
def paxLength (bodyLength : ℕ) : ℕ :=
  (paxLengthLoop bodyLength (bodyLength + 3) (bodyLength + 2)).getD 0

def makePaxRecord (key value : Text) : Bytes :=
  let body := encode (key ++ '=' :: value ++ ['\n'])
  encode (Nat.toDigits 10 (paxLength body.length) ++ [' ']) ++ body

def concatBytes (bytes : Bytes) : Except ArchiveError Bytes :=
  if maxSafeInteger < bytes.length then .error .archiveTooLarge else .ok bytes

/-- The fields of a header, in order. -/
def headerFields (name mode uid gid size mtime checksum : Bytes) (typeFlag : UInt8)
    (namePrefix : Bytes) : List Bytes :=
  [name, mode, uid, gid, size, mtime, checksum, [typeFlag], zeros 100,
    encode "ustar\x00".toList, encode "00".toList, zeros 80, namePrefix, zeros 12]

/-- The checksum field before the checksum is known. -/
def blankChecksum : Bytes := List.replicate 8 (ascii ' ')

def checksumField (sum : ℕ) : Bytes :=
  let digits := (Nat.toDigits 8 sum).map ascii
  (List.replicate (6 - digits.length) (ascii '0') ++ digits).take 6 ++ [0, ascii ' ']

def makeHeader (name namePrefix : Bytes) (size mtime mode : ℕ) (typeFlag : UInt8) :
    Except ArchiveError Bytes := do
  let name ← writeField 100 name
  let mode ← writeOctal 8 mode
  let uid ← writeOctal 8 0
  let gid ← writeOctal 8 0
  let size ← writeOctal 12 size
  let mtime ← writeOctal 12 mtime
  let namePrefix ← writeField 155 namePrefix
  let fields (checksum : Bytes) : Bytes :=
    (headerFields name mode uid gid size mtime checksum typeFlag namePrefix).flatten
  .ok (fields (checksumField (byteSum (fields blankChecksum))))

/-- `appendPayload`. -/
def paddedPayload (payload : Bytes) : Except ArchiveError Bytes := do
  let padded ← paddedSize payload.length
  .ok (payload ++ zeros (padded - payload.length))

/-- `padStart(8, "0")` of a number. -/
def sequenceText (sequence : ℕ) : Text :=
  let digits := Nat.toDigits 10 sequence
  List.replicate (8 - digits.length) '0' ++ digits

/-- The path as it is written. -/
def writtenPath (archivePath : Text) (directory : Bool) : Text :=
  if directory then archivePath ++ ['/'] else archivePath

/-- The PAX records in front of an entry. -/
def paxRecords (path : Text) (size : ℕ) : Bytes :=
  (if (splitUstarPath (encode path)).isNone then makePaxRecord "path".toList path else []) ++
    if maxOctalSize < size then makePaxRecord "size".toList (Nat.toDigits 10 size) else []

/-- The header and the payload for PAX records, if there are any. -/
def paxEntry (records : Bytes) (sequence : ℕ) : Except ArchiveError Bytes :=
  if records = [] then .ok []
  else do
    let paxPayload ← concatBytes records
    let paxName := encode ("PaxHeaders/".toList ++ sequenceText sequence)
    let header ← makeHeader paxName [] paxPayload.length 0 0o644 (ascii 'x')
    let payload ← paddedPayload paxPayload
    .ok (header ++ payload)

/-- The payload of an entry; a directory has none. -/
def entryData (payload : Bytes) (directory : Bool) : Except ArchiveError Bytes :=
  if directory then .ok [] else paddedPayload payload

/-- What `appendTarEntry` appends. All times are 0. -/
def tarEntry (archivePath : Text) (payload : Bytes) (directory : Bool) (sequence : ℕ) :
    Except ArchiveError Bytes := do
  let path := writtenPath archivePath directory
  let size := if directory then 0 else payload.length
  let pax ← paxEntry (paxRecords path size) sequence
  let effectiveSplit := (splitUstarPath (encode path)).getD
    (encode ("PaxFile/".toList ++ sequenceText sequence), [])
  let header ← makeHeader effectiveSplit.1 effectiveSplit.2
    (if size ≤ maxOctalSize then size else 0) 0 (if directory then 0o755 else 0o644)
    (if directory then ascii '5' else ascii '0')
  let data ← entryData payload directory
  .ok (pax ++ header ++ data)

inductive Kind where
  | directory
  | file
  deriving DecidableEq, Repr

/-- What `encodeTar` has written. -/
structure Writer where
  parts : Bytes := []
  kinds : JsMap Text Kind := []
  sequence : ℕ := 0

def appendTarEntry (w : Writer) (path : Text) (payload : Bytes) (directory : Bool) :
    Except ArchiveError Writer := do
  let bytes ← tarEntry path payload directory w.sequence
  .ok ⟨w.parts ++ bytes, w.kinds.set path (if directory then .directory else .file),
    w.sequence + 1⟩

def addParent (w : Writer) (parent : Text) : Except ArchiveError Writer :=
  match w.kinds.get parent with
  | some .file => .error (.notDirectory parent)
  | some .directory => .ok w
  | none => appendTarEntry w parent [] true

/-- The ancestors of a path, outermost first. -/
def ancestors (path : Text) : List Text :=
  let segments := path.splitOn '/'
  (List.range (segments.length - 1)).map fun index => joinPath (segments.take (index + 1))

def addMember (w : Writer) (member : Text × Bytes) : Except ArchiveError Writer :=
  let directory := isDirectoryName member.1
  match normalizeArchiveEntryPath member.1 with
  | none => .error (.invalidMemberPath member.1)
  | some normalized => do
    if normalized = [] then .error .emptyMemberPath
    else if directory ∧ member.2.length ≠ 0 then .error (.directoryWithData normalized)
    else
      let w ← (ancestors normalized).foldlM addParent w
      match w.kinds.get normalized with
      | some existing =>
        if directory ∧ existing = .directory then .ok w else .error (.duplicatePath normalized)
      | none => appendTarEntry w normalized member.2 directory

def encodeTar (members : List (Text × Bytes)) : Except ArchiveError Bytes := do
  let w ← members.foldlM addMember {}
  concatBytes (w.parts ++ zeros (blockSize * 2))

/-! ### Fields of a header -/

def field (header : Bytes) (offset length : ℕ) : Bytes := (header.drop offset).take length

/-- `invalid` is what `TextDecoder` makes of bytes that are no UTF-8. -/
def readTarString (invalid : Bytes → Text) (header : Bytes) (offset length : ℕ) : Text :=
  decode invalid ((field header offset length).takeWhile (· ≠ 0))

/-- The value of octal digits; a byte that is none is passed over. -/
def octalStep (value : ℤ) (byte : UInt8) : ℤ :=
  if 0x30 ≤ byte ∧ byte ≤ 0x37 then value * 8 + ((byte.toNat : ℤ) - 0x30) else value

def readTarNumeric (header : Bytes) (offset length : ℕ) : ℤ :=
  match field header offset length with
  | [] => 0
  | first :: rest =>
    if first &&& 0x80 ≠ 0 then
      let value : ℤ := rest.foldl (fun value byte => value * 256 + byte.toNat)
        ((first &&& 0x7F).toNat : ℤ)
      if first &&& 0x40 ≠ 0 then value - 2 ^ (length * 8 - 1) else value
    else (first :: rest).foldl octalStep 0

def isSafeInteger (value : ℤ) : Bool := value.natAbs ≤ maxSafeInteger

def readTarSize (header : Bytes) : Except ArchiveError ℕ :=
  let size := readTarNumeric header 124 12
  if isSafeInteger size ∧ 0 ≤ size then .ok size.toNat else .error .invalidMemberSize

def isZeroBlock (header : Bytes) : Bool := header.all (· = 0)

/-- A byte as a signed one. -/
def signedByte (byte : UInt8) : ℤ := if byte < 0x80 then byte.toNat else (byte.toNat : ℤ) - 256

def checksumMatches (header : Bytes) : Bool :=
  let stored := readTarNumeric header 148 8
  let counted := header.take 148 ++ blankChecksum ++ header.drop 156
  stored = byteSum counted || stored = (counted.map signedByte).sum

def isUstarHeader (header : Bytes) : Bool :=
  field header 257 6 = encode "ustar\x00".toList && field header 263 2 = encode "00".toList

/-- What is read from a header, and the name and the link name of a record without others. -/
structure Header where
  typeFlag : UInt8
  size : ℕ
  name : Text
  linkName : Text
  mtime : ℤ
  mode : Option ℕ

def readHeader (invalid : Bytes → Text) (header : Bytes) : Except ArchiveError Header := do
  if ¬ checksumMatches header then .error .corruptHeader
  else
    let typeFlag := header.getD 156 0
    let size ← readTarSize header
    let name := readTarString invalid header 0 100
    let namePrefix := readTarString invalid header 345 155
    let rawMode := readTarNumeric header 100 8
    .ok {
      typeFlag := if typeFlag = 0 then ascii '0' else typeFlag
      size
      name := if isUstarHeader header ∧ namePrefix ≠ [] then namePrefix ++ '/' :: name else name
      linkName := readTarString invalid header 157 100
      mtime := readTarNumeric header 136 12
      mode := if isSafeInteger rawMode ∧ 0 ≤ rawMode then some rawMode.toNat else none }

/-! ### PAX records -/

/-- The attributes that `parsePaxRecords` keeps. -/
inductive PaxKey where
  | path
  | linkpath
  | size
  /-- `PAX_SPARSE_MARKER`: whether there is an attribute of a sparse file. -/
  | sparse
  | sparseName
  | sparseRealSize
  deriving DecidableEq, Repr

abbrev PaxAttrs : Type := JsMap PaxKey Text

def readPaxPath (invalid : Bytes → Text) (limits : ArchiveLimits) (fieldName : String)
    (data : Bytes) : Except ArchiveError Text :=
  if limits.maxPathBytes < data.length then .error (.pathTooLong fieldName)
  else .ok (decode invalid data)

/-- The digits of a record's length, which is not above a limit. -/
def paxLengthOf (limit : ℕ) : Bytes → ℕ → Except ArchiveError ℕ
  | [], length => .ok length
  | byte :: bytes, length =>
    if byte < 0x30 ∨ 0x39 < byte then .error .invalidPaxRecord
    else
      let length := length * 10 + (byte.toNat - 0x30)
      if limit < length then .error .invalidPaxRecord else paxLengthOf limit bytes length

/-- The length of the first record, and what is between its length and its newline. -/
def paxRecord (data : Bytes) : Except ArchiveError (ℕ × Bytes) := do
  let space := (data.takeWhile (· ≠ ascii ' ')).length
  if space = 0 ∨ data.length ≤ space ∨ 16 < space then .error .invalidPaxRecord
  else
    let length ← paxLengthOf data.length (data.take space) 0
    if length = 0 ∨ data.length < length ∨ data[length - 1]? ≠ some (ascii '\n') then
      .error .invalidPaxRecord
    else .ok (length, (data.take (length - 1)).drop (space + 1))

/-- What a record does to the attributes. -/
def applyPaxRecord (invalid : Bytes → Text) (limits : ArchiveLimits) (attrs : PaxAttrs)
    (record : Bytes) : Except ArchiveError PaxAttrs :=
  if ascii '=' ∈ record then
    let key := record.takeWhile (· ≠ ascii '=')
    let value := record.drop (key.length + 1)
    if (encode "GNU.sparse.".toList).isPrefixOf key then
      let attrs := attrs.set .sparse (if value = [] then [] else ['1'])
      if key = encode "GNU.sparse.name".toList then
        (readPaxPath invalid limits "PAX sparse path" value).map (JsMap.set .sparseName · attrs)
      else if key = encode "GNU.sparse.realsize".toList ∨
          key = encode "GNU.sparse.size".toList then
        if 32 < value.length then .error (.invalidSize "sparse real size")
        else .ok (attrs.set .sparseRealSize (decode invalid value))
      else .ok attrs
    else if key = encode "path".toList then
      (readPaxPath invalid limits "PAX path" value).map (JsMap.set .path · attrs)
    else if key = encode "linkpath".toList then
      (readPaxPath invalid limits "PAX link target" value).map (JsMap.set .linkpath · attrs)
    else if key = encode "size".toList then
      if 32 < value.length then .error .invalidMemberSize
      else .ok (attrs.set .size (decode invalid value))
    else .ok attrs
  else .ok attrs

/-- The loop of `parsePaxRecords`. -/
def paxLoop (invalid : Bytes → Text) (limits : ArchiveLimits) (attrs : PaxAttrs) (data : Bytes) :
    Except ArchiveError PaxAttrs :=
  if data = [] then .ok attrs
  else
    match paxRecord data with
    | .error e => .error e
    | .ok (length, record) =>
      match applyPaxRecord invalid limits attrs record with
      | .error e => .error e
      | .ok attrs => if 0 < length then paxLoop invalid limits attrs (data.drop length) else .ok attrs
termination_by data.length
decreasing_by
  have hpos : 0 < data.length := List.length_pos_iff.mpr ‹_›
  rw [List.length_drop]
  omega

def assertIndexSize (limits : ArchiveLimits) (size : ℕ) (what : String) : Except ArchiveError Unit :=
  if maxSafeInteger < size ∨ limits.maxIndexSize < size then .error (.indexTooLarge what)
  else .ok ()

def parsePaxRecords (invalid : Bytes → Text) (limits : ArchiveLimits) (data : Bytes) :
    Except ArchiveError PaxAttrs := do
  assertIndexSize limits data.length "tar PAX metadata"
  paxLoop invalid limits [] data

def applyGlobalPax (globalPax update : PaxAttrs) : PaxAttrs :=
  update.foldl (fun attrs entry =>
    if entry.2 = [] then attrs.delete entry.1 else attrs.set entry.1 entry.2) globalPax

def paxAttribute (globalPax : PaxAttrs) (localPax : Option PaxAttrs) (key : PaxKey) :
    Option Text :=
  match localPax.bind (JsMap.get · key) with
  | some value => some value
  | none => globalPax.get key

def parsePaxSize (value : Text) (fieldName : String) : Except ArchiveError ℕ :=
  if value ≠ [] ∧ value.all Char.isDigit = true then
    let size := Nat.ofDigitChars 10 value 0
    if size ≤ maxSafeInteger then .ok size else .error (.invalidSize fieldName)
  else .error (.invalidSize fieldName)

/-! ### The index -/

/-- `TarMemberSource`, with the bytes of the buffer from the data of the member on. -/
structure MemberSource where
  bytes : Bytes
  sparse : Bool

def MemberSource.read (source : MemberSource) (size : ℕ) : Except ArchiveError Bytes :=
  if source.sparse then .error .unreadable
  else if source.bytes.length < size then .error .unreadable
  else .ok (source.bytes.take size)

inductive EntryStorage where
  | member (source : MemberSource)
  | link (targetPath : Text) (resolveTarget : Bool)

structure ArchiveIndexEntry where
  path : Text
  isDirectory : Bool
  size : ℕ
  mtimeMs : Option ℤ
  mode : Option ℕ
  storage : Option EntryStorage

/-- The bytes of a member. -/
def ArchiveIndexEntry.read (entry : ArchiveIndexEntry) : Except ArchiveError Bytes :=
  match entry.storage with
  | some (.member source) => source.read entry.size
  | _ => .error .unreadable

abbrev EntryMap : Type := JsMap Text ArchiveIndexEntry

/-- `none` if the entry is dropped. -/
def upsertArchiveEntry (entries : EntryMap) (entry : ArchiveIndexEntry) : Option EntryMap :=
  match entries.get entry.path with
  | none => some (entries.set entry.path entry)
  | some existing =>
    if existing.isDirectory ∧ ¬ entry.isDirectory then some (entries.set entry.path entry)
    else if ¬ existing.isDirectory ∧ entry.isDirectory then none
    else some (entries.set entry.path { entry with
      mtimeMs := entry.mtimeMs.or existing.mtimeMs
      mode := entry.mode.or existing.mode
      storage := entry.storage.or existing.storage })

structure PendingTarLink where
  hard : Bool
  targetPath : Text

/-- What the reader keeps from record to record. -/
structure Scan where
  entries : EntryMap := []
  /-- The links that are resolved in the end, by the path of their entry. -/
  pendingLinks : JsMap Text PendingTarLink := []
  longName : Option Text := none
  longLink : Option Text := none
  localPax : Option PaxAttrs := none
  globalPax : PaxAttrs := []

def addEntry (limits : ArchiveLimits) (s : Scan) (entry : ArchiveIndexEntry)
    (pendingLink : Option PendingTarLink) : Except ArchiveError Scan :=
  match upsertArchiveEntry s.entries entry with
  | none => .ok s
  | some entries =>
    let kept := if s.entries.has entry.path then s.pendingLinks.delete entry.path
      else s.pendingLinks
    let pendingLinks := match pendingLink with
      | some pending => kept.set entry.path pending
      | none => kept
    if limits.maxEntries < entries.length then .error .tooManyEntries
    else .ok { s with entries, pendingLinks }

/-! ### Reading -/

/-- `TextDecoder` on bytes that are no UTF-8, and the parts of the reader for records that the
writer does not make. -/
structure TarReader where
  invalid : Bytes → Text
  applyOldGnuNameRecords : Bytes → Scan → Except ArchiveError Scan
  /-- The target of a link, where it has one: of a hard link or a symlink at a path, by name. -/
  linkTarget : Bool → Text → Text → Except ArchiveError (Option Text)
  /-- `resolvePendingLinks`, if there are any. -/
  resolvePendingLinks : Scan → Except ArchiveError EntryMap

def readMetadataPath (R : TarReader) (limits : ArchiveLimits) (fieldName : String)
    (data : Bytes) : Except ArchiveError Text :=
  readPaxPath R.invalid limits fieldName (data.takeWhile (· ≠ 0))

/-- How many bytes the extension headers of a sparse file take. -/
def sparseExtension (after : Bytes) : Except ArchiveError ℕ :=
  if after.length < blockSize then .error .sparseTruncated
  else if after[504]? = some 1 then (sparseExtension (after.drop blockSize)).map (blockSize + ·)
  else .ok blockSize
termination_by after.length
decreasing_by
  have hblock : 0 < blockSize := by decide
  rw [List.length_drop]
  omega

/-- The name, the link name, the size and the shown size of a member, by the records in front. -/
def memberAttributes (s : Scan) (h : Header) : Except ArchiveError (Text × Text × ℕ × ℕ) := do
  let pax := paxAttribute s.globalPax s.localPax
  let name := (pax .path).getD (s.longName.getD h.name)
  let linkName := (pax .linkpath).getD (s.longLink.getD h.linkName)
  let size ← match pax .size with
    | some value => parsePaxSize value "member size"
    | none => .ok h.size
  let displaySize ← match pax .sparseRealSize with
    | some value => parsePaxSize value "sparse real size"
    | none => .ok size
  .ok ((pax .sparseName).getD name, linkName, size, displaySize)

/-- A member whose name is not empty, with its data in front of `after`. -/
def addMemberEntry (R : TarReader) (limits : ArchiveLimits) (s : Scan) (h : Header)
    (isDirectory sparse : Bool) (path linkName : Text) (displaySize : ℕ) (after : Bytes) :
    Except ArchiveError Scan :=
  let scaledMtime := h.mtime * 1000
  let mtimeMs := if h.mtime ≠ 0 ∧ isSafeInteger scaledMtime then some scaledMtime else none
  if limits.maxPathBytes < (encode path).length then .error (.pathTooLong "member path")
  else if isDirectory then addEntry limits s ⟨path, true, 0, mtimeMs, h.mode, none⟩ none
  else if h.typeFlag = ascii '1' ∨ h.typeFlag = ascii '2' then
    let hard := decide (h.typeFlag = ascii '1')
    let portableLinkName := linkName.map fun c => if c = '\\' then '/' else c
    if limits.maxPathBytes < (encode portableLinkName).length then
      .error (.pathTooLong "link target")
    else
      match R.linkTarget hard path portableLinkName with
      | .error e => .error e
      | .ok none =>
        if hard then .error (.link path)
        else addEntry limits s
          ⟨path, false, 0, mtimeMs, h.mode, some (.link portableLinkName false)⟩ none
      | .ok (some targetPath) =>
        addEntry limits s ⟨path, false, 0, mtimeMs, h.mode, none⟩ (some ⟨hard, targetPath⟩)
  else if h.typeFlag ≠ ascii '0' ∧ h.typeFlag ≠ ascii '7' ∧ h.typeFlag ≠ ascii 'S' then .ok s
  else if maxSafeInteger < displaySize ∨ limits.maxMemberSize < displaySize then
    .error (.memberTooLarge path)
  else addEntry limits s
    ⟨path, false, displaySize, mtimeMs, h.mode, some (.member ⟨after, sparse⟩)⟩ none

/-- A record that is a member, and how many bytes it takes after its header. -/
def readMember (R : TarReader) (limits : ArchiveLimits) (s : Scan) (header : Bytes) (h : Header)
    (after : Bytes) : Except ArchiveError (Scan × ℕ) := do
  let (name, linkName, size, displaySize) ← memberAttributes s h
  let sparse := h.typeFlag = ascii 'S' || paxAttribute s.globalPax s.localPax .sparse = some ['1']
  let extension ← if h.typeFlag = ascii 'S' ∧ header[482]? = some 1 then sparseExtension after
    else .ok 0
  let memberDataBlocks ← paddedSize size
  if after.length - extension < memberDataBlocks then .error (.memberTruncated name)
  else
    let s := { s with longName := none, longLink := none, localPax := none }
    let isDirectory := h.typeFlag = ascii '5' || name.getLast? = some '/'
    match normalizeArchiveEntryPath name with
    | none => .ok (s, extension + memberDataBlocks)
    | some path => do
      let s ← addMemberEntry R limits s h isDirectory sparse path linkName displaySize
        (after.drop extension)
      .ok (s, extension + memberDataBlocks)

/-- A record, with its header and the bytes after it, and how many of these it takes. -/
def readRecord (R : TarReader) (limits : ArchiveLimits) (s : Scan) (header after : Bytes) :
    Except ArchiveError (Scan × ℕ) := do
  let h ← readHeader R.invalid header
  let dataBlocks ← paddedSize h.size
  let data := after.take h.size
  if after.length < dataBlocks then .error .dataTruncated
  else if h.typeFlag = ascii 'L' then do
    assertIndexSize limits data.length "GNU long-name metadata"
    let longName ← readMetadataPath R limits "GNU long path" data
    .ok ({ s with longName }, dataBlocks)
  else if h.typeFlag = ascii 'K' then do
    assertIndexSize limits data.length "GNU long-link metadata"
    let longLink ← readMetadataPath R limits "GNU long link target" data
    .ok ({ s with longLink }, dataBlocks)
  else if h.typeFlag = ascii 'N' then do
    let s ← R.applyOldGnuNameRecords data s
    .ok (s, dataBlocks)
  else if h.typeFlag = ascii 'x' ∨ h.typeFlag = ascii 'X' then do
    let localPax ← parsePaxRecords R.invalid limits data
    .ok ({ s with localPax }, dataBlocks)
  else if h.typeFlag = ascii 'g' then do
    let update ← parsePaxRecords R.invalid limits data
    .ok ({ s with globalPax := applyGlobalPax s.globalPax update }, dataBlocks)
  else if h.typeFlag = ascii 'M' then .error .multiVolume
  else readMember R limits s header h after

/-- The loop of `readTarEntriesFromBuffer`, up to the block of zeros. -/
def readLoop (R : TarReader) (limits : ArchiveLimits) (s : Scan) (rest : Bytes) :
    Except ArchiveError Scan :=
  if rest.length < blockSize then .error .missingTerminator
  else if isZeroBlock (rest.take blockSize) then .ok s
  else
    match readRecord R limits s (rest.take blockSize) (rest.drop blockSize) with
    | .error e => .error e
    | .ok (s, taken) => readLoop R limits s (rest.drop (blockSize + taken))
termination_by rest.length
decreasing_by
  have hblock : 0 < blockSize := by decide
  rw [List.length_drop]
  omega

def readTarEntriesFromBuffer (R : TarReader) (limits : ArchiveLimits) (buffer : Bytes) :
    Except ArchiveError (List ArchiveIndexEntry) := do
  if maxSafeInteger < buffer.length ∨ limits.maxInMemorySize < buffer.length then
    .error .tooLargeToRead
  else
    let s ← readLoop R limits {} buffer
    if s.pendingLinks = [] then .ok s.entries.values
    else (R.resolvePendingLinks s).map JsMap.values

end BreadboardTui.Tar
