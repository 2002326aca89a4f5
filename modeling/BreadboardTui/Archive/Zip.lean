import BreadboardTui.Archive.Tar
import BreadboardTui.Lib.LittleEndian

/-!
# Zip archives

An archive is the members, each behind a header of its own, then a directory with a record for each
member, then an end record that says where the directory is. The reader looks for the end record
from the end of the archive, and in front of it for a locator of a second end record, which the
writer adds when there are too many members to count in 16 bits.

The codecs, the checksum, the legacy code page, the local time and the resolution of symbolic links
are parameters. Bytes from an offset on stand for the offset in the directory.
-/

namespace BreadboardTui.Zip

open Utf8
open Tar (ArchiveLimits normalizeArchiveEntryPath isDirectoryName)
export Tar (maxSafeInteger)

/-- What the writer and the reader throw. -/
inductive ZipError where
  | unsafeMemberPath (inputName : Text)
  | pathTooLongToWrite (name : Text)
  | memberTooLargeToWrite (name : Text)
  | offsetsTooLargeToWrite
  | archiveTooLargeToWrite
  | invalidRange (what : String)
  | exceedsArchive (what : String)
  | truncatedData
  | missingEnd
  | truncatedEnd
  | multiVolume
  | missingZip64End
  | missingZip64Metadata
  | directoryOutOfBounds
  | truncatedDirectory
  | malformedDirectory
  | truncatedEntry
  | truncatedExtraHeader
  | malformedExtra
  | unicodePathTooSmall
  | timestampTooSmall
  | malformedNtfs
  | missingZip64Extra
  | malformedZip64Extra
  | unsafeInteger
  | tooManyEntries
  | indexTooLarge (what : String)
  | pathTooLong (field : String)
  | memberTooLarge (memberPath : Text)
  | encrypted (memberPath : Text)
  | unsupportedMethod (method : ℕ) (memberPath : Text)
  | malformedLocalHeader (memberPath : Text)
  | methodsDisagree (memberPath : Text)
  | sizeMismatch (memberPath : Text)
  | truncatedMember (memberPath : Text)
  | crcMismatch (memberPath : Text)
  | decompress (memberPath : Text)
  | noPayload
  deriving DecidableEq, Repr

def localHeaderSignature : ℕ := 0x04034b50

def centralHeaderSignature : ℕ := 0x02014b50

def zip64EocdSignature : ℕ := 0x06064b50

def zip64LocatorSignature : ℕ := 0x07064b50

def eocdSignature : ℕ := 0x06054b50

def u16Max : ℕ := 0xffff

def u32Max : ℕ := 0xffffffff

def utf8Flag : ℕ := 0x0800

/-- `ENCRYPTED_FLAG | STRONG_ENCRYPTION_FLAG` -/
def encryptionFlags : ℕ := 0x0041

def unixHost : ℕ := 3

def osxHost : ℕ := 19

def fileTypeMask : ℕ := 0o170000

def directoryType : ℕ := 0o040000

def symlinkType : ℕ := 0o120000

/-- The attributes of what the writer writes: `(0o100644 << 16) >>> 0`. -/
def fileAttributes : ℕ := 0o100644 * 2 ^ 16

def supportedMethods : List ℕ := [0, 8, 12, 14, 20, 93, 95]

def readUInt16LE (bytes : Bytes) (offset : ℕ) : ℕ := readLE bytes offset 2

def readUInt32LE (bytes : Bytes) (offset : ℕ) : ℕ := readLE bytes offset 4

def readUInt64LE (bytes : Bytes) (offset : ℕ) : Except ZipError ℕ :=
  let value := readUInt32LE bytes offset + readUInt32LE bytes (offset + 4) * 2 ^ 32
  if maxSafeInteger < value then .error .unsafeInteger else .ok value

/-! ### Members -/

/-- A member of an archive, as far as its data are needed. -/
structure ZipMemberSource where
  compressedSize : ℕ
  method : ℕ
  flags : ℕ
  crc : ℕ
  localHeaderOffset : ℤ
  deriving DecidableEq, Repr

inductive Storage where
  | member (source : ZipMemberSource)
  | link (targetPath : Text) (resolveTarget : Bool)
  deriving DecidableEq, Repr

structure ArchiveIndexEntry where
  path : Text
  isDirectory : Bool
  size : ℕ
  mtimeMs : Option ℤ
  mode : Option ℕ
  storage : Option Storage
  deriving DecidableEq, Repr

/-- What the archive code uses of others. -/
structure ZipRuntime where
  crc32 : Bytes → UInt32
  deflateRawSync : Bytes → Bytes
  /-- With `maxOutputLength`. -/
  inflateRawSync : Bytes → ℕ → Option Bytes
  /-- The codecs of the other methods: method, bytes and size. -/
  decompress : ℕ → Bytes → ℕ → Option Bytes
  /-- What bytes that are no UTF-8 are read as. -/
  invalid : Bytes → Text
  /-- The code page of names without the flag. -/
  legacyName : Bytes → Text
  /-- Milliseconds of year, month, day, hour, minute and second. -/
  localTime : ℕ → ℕ → ℕ → ℕ → ℕ → ℕ → Option ℤ
  /-- An entry of a symbolic link, from the target that it holds. -/
  resolveLink : ArchiveIndexEntry → Bytes → Except ZipError ArchiveIndexEntry

variable (R : ZipRuntime)

/-! ### Writing -/

/-- `portableName` -/
def portable (inputName : Text) : Text := inputName.map fun c => if c = '\\' then '/' else c

/-- `portableName.replace(/^\.\//, "")` -/
def dropDotSlash (name : Text) : Text := if ['.', '/'].isPrefixOf name then name.drop 2 else name

/-- `/^[A-Za-z]:/` -/
def startsWithDrive (name : Text) : Bool :=
  match name with
  | letter :: ':' :: _ => letter.isAlpha
  | _ => false

/-- The members that are written so far. -/
structure ZipWriter where
  locals : Bytes := []
  centrals : Bytes := []
  count : ℕ := 0

def localHeader (method checksum payloadLength dataLength nameLength : ℕ) : List (ℕ × ℕ) :=
  [(4, localHeaderSignature), (2, 20), (2, utf8Flag), (2, method), (2, 0), (2, 0x21),
    (4, checksum), (4, payloadLength), (4, dataLength), (2, nameLength), (2, 0)]

def centralHeader (method checksum payloadLength dataLength nameLength localOffset : ℕ) :
    List (ℕ × ℕ) :=
  [(4, centralHeaderSignature), (2, unixHost * 2 ^ 8 + 20), (2, 20), (2, utf8Flag), (2, method),
    (2, 0), (2, 0x21), (4, checksum), (4, payloadLength), (4, dataLength), (2, nameLength), (2, 0),
    (2, 0), (2, 0), (2, 0), (4, fileAttributes), (4, localOffset)]

/-- The payload of a member, and its method: the data are deflated where that makes them shorter. -/
def payloadOf (data : Bytes) : Bytes × ℕ :=
  let deflated := R.deflateRawSync data
  if data.length ≠ 0 ∧ deflated.length < data.length then (deflated, 8) else (data, 0)

/-- The body of the loop over the members. -/
def addMember (w : ZipWriter) (member : Text × Bytes) : Except ZipError ZipWriter :=
  let portableName := portable member.1
  match normalizeArchiveEntryPath portableName with
  | none => .error (.unsafeMemberPath member.1)
  | some name =>
    let nameBytes := encode name
    let payload := (payloadOf R member.2).1
    let method := (payloadOf R member.2).2
    let checksum := (R.crc32 member.2).toNat
    if name ≠ dropDotSlash portableName ∨ portableName.head? = some '/' ∨
        startsWithDrive portableName ∨ '\x00' ∈ portableName then
      .error (.unsafeMemberPath member.1)
    else if u16Max < nameBytes.length then .error (.pathTooLongToWrite name)
    else if u32Max ≤ member.2.length then .error (.memberTooLargeToWrite name)
    else if u32Max ≤ payload.length ∨ u32Max ≤ w.locals.length then
      .error .offsetsTooLargeToWrite
    else
      let w' : ZipWriter :=
        { locals := w.locals ++
            (fields (localHeader method checksum payload.length member.2.length nameBytes.length) ++
              nameBytes ++ payload)
          centrals := w.centrals ++
            (fields (centralHeader method checksum payload.length member.2.length nameBytes.length
              w.locals.length) ++ nameBytes)
          count := w.count + 1 }
      if maxSafeInteger < w'.locals.length + w'.centrals.length ∨ u32Max < w'.count then
        .error .archiveTooLargeToWrite
      else .ok w'

def zip64Eocd (count centralSize localSize : ℕ) : List (ℕ × ℕ) :=
  [(4, zip64EocdSignature), (8, 44), (2, 45), (2, 45), (4, 0), (4, 0), (8, count), (8, count),
    (8, centralSize), (8, localSize)]

def zip64Locator (zip64EocdOffset : ℕ) : List (ℕ × ℕ) :=
  [(4, zip64LocatorSignature), (4, 0), (8, zip64EocdOffset), (4, 1)]

def eocd (count centralSize localSize : ℕ) : List (ℕ × ℕ) :=
  [(4, eocdSignature), (2, 0), (2, 0), (2, count), (2, count), (4, centralSize), (4, localSize),
    (2, 0)]

/-- What stands behind the directory. -/
def trailer (w : ZipWriter) : Bytes :=
  if u16Max ≤ w.count then
    fields (zip64Eocd w.count w.centrals.length w.locals.length) ++
      fields (zip64Locator (w.locals.length + w.centrals.length)) ++
      fields (eocd u16Max w.centrals.length w.locals.length)
  else fields (eocd w.count w.centrals.length w.locals.length)

def encodeZip (members : List (Text × Bytes)) : Except ZipError Bytes := do
  let w ← members.foldlM (addMember R) {}
  if u32Max ≤ w.locals.length ∨ u32Max ≤ w.centrals.length then .error .offsetsTooLargeToWrite
  else if maxSafeInteger < w.locals.length + w.centrals.length + (trailer w).length then
    .error .archiveTooLargeToWrite
  else .ok (w.locals ++ w.centrals ++ trailer w)

/-! ### Finding the directory -/

/-- `source.read(start, end)` -/
def readRange (source : Bytes) (start stop : ℕ) : Except ZipError Bytes :=
  if stop < start then .error (.invalidRange "archive range")
  else if source.length < stop then .error .truncatedData
  else .ok ((source.drop start).take (stop - start))

def checkedEnd (start : ℤ) (size archiveSize : ℕ) (what : String) : Except ZipError ℕ :=
  if start < 0 ∨ maxSafeInteger < start ∨ maxSafeInteger < size then .error (.invalidRange what)
  else if maxSafeInteger < start.toNat + size ∨ archiveSize < start.toNat + size then
    .error (.exceedsArchive what)
  else .ok (start.toNat + size)

/-- The loop of `findEocd`, from an offset down. -/
def findEocdFrom (tail : Bytes) : ℕ → Option ℕ
  | 0 =>
    if readUInt32LE tail 0 = eocdSignature ∧ 22 + readUInt16LE tail 20 = tail.length then some 0
    else none
  | offset + 1 =>
    if readUInt32LE tail (offset + 1) = eocdSignature ∧
        offset + 1 + 22 + readUInt16LE tail (offset + 1 + 20) = tail.length then some (offset + 1)
    else findEocdFrom tail offset

def findEocd (tail : Bytes) : Except ZipError ℕ :=
  if tail.length < 22 then .error .missingEnd
  else
    match findEocdFrom tail (tail.length - 22) with
    | some offset => .ok offset
    | none => .error .missingEnd

structure CentralDirectoryInfo where
  entries : ℕ
  offset : ℕ
  size : ℕ
  physicalEnd : ℕ
  archiveOffset : ℤ
  deriving DecidableEq, Repr

/-- The loop of `readZip64Info` over the candidates. -/
def readZip64Candidates (source : Bytes) (locatorOffset : ℕ) :
    List ℕ → Except ZipError CentralDirectoryInfo
  | [] => .error .missingZip64End
  | candidate :: candidates =>
    if source.length < candidate + 56 then readZip64Candidates source locatorOffset candidates
    else do
      let record ← readRange source candidate (candidate + 56)
      if record.length ≠ 56 ∨ readUInt32LE record 0 ≠ zip64EocdSignature then
        readZip64Candidates source locatorOffset candidates
      else
        let extensibleSize ← readUInt64LE record 4
        if extensibleSize < 44 ∨ candidate + 12 + extensibleSize ≠ locatorOffset then
          readZip64Candidates source locatorOffset candidates
        else if readUInt32LE record 16 ≠ 0 ∨ readUInt32LE record 20 ≠ 0 then .error .multiVolume
        else
          let entriesOnDisk ← readUInt64LE record 24
          let entries ← readUInt64LE record 32
          if entriesOnDisk ≠ entries then .error .multiVolume
          else
            let size ← readUInt64LE record 40
            let offset ← readUInt64LE record 48
            .ok ⟨entries, offset, size, candidate, 0⟩

/-- The bytes in front of the end record, from the tail where it has them. -/
def readLocator (source tail : Bytes) (tailStart locatorOffset : ℕ) : Except ZipError Bytes :=
  if tailStart ≤ locatorOffset then .ok ((tail.drop (locatorOffset - tailStart)).take 20)
  else readRange source locatorOffset (locatorOffset + 20)

def readZip64Info (source tail : Bytes) (tailStart eocdOffset : ℕ) :
    Except ZipError (Option CentralDirectoryInfo) :=
  if eocdOffset < 20 then .ok none
  else do
    let locatorOffset := eocdOffset - 20
    let locator ← readLocator source tail tailStart locatorOffset
    if locator.length ≠ 20 ∨ readUInt32LE locator 0 ≠ zip64LocatorSignature then .ok none
    else if readUInt32LE locator 4 ≠ 0 ∨ readUInt32LE locator 16 ≠ 1 then .error .multiVolume
    else
      let declaredOffset ← readUInt64LE locator 8
      let adjacent :=
        if 56 ≤ locatorOffset ∧ locatorOffset - 56 ≠ declaredOffset then [locatorOffset - 56] else []
      let info ← readZip64Candidates source locatorOffset (declaredOffset :: adjacent)
      .ok (some info)

/-- The loop of `locateCentralDirectory` over the candidates. -/
def locateFrom (source : Bytes) (size : ℕ) : List ℤ → Except ZipError ℕ
  | [] => .error .directoryOutOfBounds
  | offset :: candidates =>
    if offset < 0 ∨ source.length < offset.toNat + 4 ∨ source.length < offset.toNat + size then
      locateFrom source size candidates
    else do
      let signature ← readRange source offset.toNat (offset.toNat + 4)
      if signature.length = 4 ∧ readUInt32LE signature 0 = centralHeaderSignature then
        .ok offset.toNat
      else locateFrom source size candidates

def locateCentralDirectory (source : Bytes) (info : CentralDirectoryInfo) : Except ZipError ℕ :=
  if info.entries = 0 then .ok info.offset
  else
    let adjacent : ℤ := info.physicalEnd - info.size
    locateFrom source info.size
      ((info.offset : ℤ) :: if adjacent ≠ info.offset then [adjacent] else [])

def assertEntryCount (count : ℕ) (limits : ArchiveLimits) : Except ZipError Unit :=
  if limits.maxEntries < count then .error .tooManyEntries else .ok ()

def assertIndexSize (size : ℕ) (limits : ArchiveLimits) (what : String) : Except ZipError Unit :=
  if limits.maxIndexSize < size then .error (.indexTooLarge what) else .ok ()

def assertArchiveMemberSize (size : ℕ) (memberPath : Text) (limits : ArchiveLimits) :
    Except ZipError Unit :=
  if maxSafeInteger < size ∨ limits.maxMemberSize < size then .error (.memberTooLarge memberPath)
  else .ok ()

def assertArchivePathBytes (size : ℕ) (field : String) (maxPathBytes : ℕ) : Except ZipError Unit :=
  if maxPathBytes < size then .error (.pathTooLong field) else .ok ()

/-- What the end record says, or the second one where there is one. -/
def endInfo (source : Bytes) : Except ZipError CentralDirectoryInfo := do
  if source.length < 22 then .error .missingEnd
  else
    let tailLength := min source.length (22 + u16Max)
    let tailStart := source.length - tailLength
    let tail ← readRange source tailStart source.length
    if tail.length ≠ tailLength then .error .truncatedEnd
    else
      let eocdIndex ← findEocd tail
      let eocdOffset := tailStart + eocdIndex
      let disk := readUInt16LE tail (eocdIndex + 4)
      let centralDisk := readUInt16LE tail (eocdIndex + 6)
      let entriesOnDisk := readUInt16LE tail (eocdIndex + 8)
      let entries := readUInt16LE tail (eocdIndex + 10)
      let size := readUInt32LE tail (eocdIndex + 12)
      let offset := readUInt32LE tail (eocdIndex + 16)
      if disk ≠ 0 ∨ centralDisk ≠ 0 ∨
          (entriesOnDisk ≠ u16Max ∧ entries ≠ u16Max ∧ entriesOnDisk ≠ entries) then
        .error .multiVolume
      else
        let zip64 ← readZip64Info source tail tailStart eocdOffset
        match zip64 with
        | some info => .ok info
        | none =>
          if entriesOnDisk = u16Max ∨ entries = u16Max ∨ size = u32Max ∨ offset = u32Max then
            .error .missingZip64Metadata
          else .ok ⟨entries, offset, size, eocdOffset, 0⟩

def readCentralDirectoryInfo (source : Bytes) (limits : ArchiveLimits) :
    Except ZipError CentralDirectoryInfo := do
  let info ← endInfo source
  assertEntryCount info.entries limits
  assertIndexSize info.size limits "ZIP central directory"
  if info.size / 46 < info.entries then .error .truncatedDirectory
  else
    let offset ← locateCentralDirectory source info
    let _ ← checkedEnd offset info.size source.length "central directory"
    .ok { info with offset, archiveOffset := offset - info.offset }

/-! ### Reading the directory -/

def filetimeToMs (bytes : Bytes) (offset : ℕ) : Option ℤ :=
  let milliseconds : ℤ := ((readLE bytes offset 8 / 10000 : ℕ) : ℤ) - 11644473600000
  if milliseconds.natAbs ≤ maxSafeInteger then some milliseconds else none

/-- The loop of `parseNtfsMtime` over the attributes that are left. -/
def parseNtfsAttributes (data : Bytes) : Except ZipError (Option ℤ) :=
  if data.length < 4 then .ok none
  else
    let size := readUInt16LE data 2
    if data.length < 4 + size then .error .malformedNtfs
    else if readUInt16LE data 0 = 1 ∧ 8 ≤ size then .ok (filetimeToMs data 4)
    else parseNtfsAttributes (data.drop (4 + size))
termination_by data.length
decreasing_by
  rw [List.length_drop]
  omega

def parseNtfsMtime (data : Bytes) : Except ZipError (Option ℤ) :=
  if data.length < 4 then .ok none else parseNtfsAttributes (data.drop 4)

def parseDosMtime (time date : ℕ) : Option ℤ :=
  if date = 0 then none
  else
    let year := 1980 + date / 512 % 128
    let month := date / 32 % 16
    let day := date % 32
    let hour := time / 2048 % 32
    let minute := time / 32 % 64
    let second := time % 32 * 2
    if month < 1 ∨ 12 < month ∨ day < 1 ∨ 31 < day ∨ 23 < hour ∨ 59 < minute ∨ 59 < second then none
    else R.localTime year (month - 1) day hour minute second

structure ParsedExtra where
  zip64 : Option Bytes := none
  unicodePath : Option Text := none
  mtimeMs : Option ℤ := none

/-- `UTF8_FATAL_DECODER.decode(bytes)`; `none` where it throws. -/
def decodeFatal (bytes : Bytes) : Option Text :=
  let body := if (encode [byteOrderMark]).isPrefixOf bytes then bytes.drop 3 else bytes
  body.toByteArray.utf8Decode?.map Array.toList

def parseExtraField (rawName : Bytes) (result : ParsedExtra) (id : ℕ) (data : Bytes) :
    Except ZipError ParsedExtra :=
  if id = 0x0001 then .ok { result with zip64 := some data }
  else if id = 0x7075 then
    if data.length < 5 then .error .unicodePathTooSmall
    else if data.head? = some 1 ∧ readUInt32LE data 1 = (R.crc32 rawName).toNat then
      .ok { result with unicodePath := decodeFatal (data.drop 5) <|> result.unicodePath }
    else .ok result
  else if id = 0x5455 then
    if data.length < 1 then .error .timestampTooSmall
    else if (data.headD 0).toNat % 2 ≠ 0 then
      if data.length < 5 then .error .timestampTooSmall
      else
        let seconds : ℤ := readUInt32LE data 1
        .ok { result with
          mtimeMs := some ((if seconds < 2 ^ 31 then seconds else seconds - 2 ^ 32) * 1000) }
    else .ok result
  else if id = 0x000a ∧ result.mtimeMs = none then do
    let mtimeMs ← parseNtfsMtime data
    .ok { result with mtimeMs }
  else .ok result

/-- The loop of `parseExtra` over the fields that are left. -/
def parseExtra (rawName : Bytes) (result : ParsedExtra) (extra : Bytes) :
    Except ZipError ParsedExtra :=
  if extra = [] then .ok result
  else if extra.length < 4 then .error .truncatedExtraHeader
  else
    let size := readUInt16LE extra 2
    if extra.length < 4 + size then .error .malformedExtra
    else do
      let result ← parseExtraField R rawName result (readUInt16LE extra 0)
        ((extra.drop 4).take size)
      parseExtra rawName result (extra.drop (4 + size))
termination_by extra.length
decreasing_by
  rw [List.length_drop]
  omega

structure Zip64Values where
  compressedSize : ℕ
  uncompressedSize : ℕ
  localHeaderOffset : ℕ
  diskStart : ℕ
  deriving DecidableEq, Repr

/-- The next 8 bytes of the extra field, if their field has the placeholder. -/
def zip64Value (extra : Bytes) (offset : ℕ) (needed : Bool) (current : ℕ) :
    Except ZipError (ℕ × ℕ) :=
  if needed then
    if extra.length < offset + 8 then .error .malformedZip64Extra
    else do
      let value ← readUInt64LE extra offset
      .ok (value, offset + 8)
  else .ok (current, offset)

def applyZip64Values (extra : Option Bytes) (current : Zip64Values) :
    Except ZipError Zip64Values :=
  let uncompressedNeeded := current.uncompressedSize == u32Max
  let compressedNeeded := current.compressedSize == u32Max
  let offsetNeeded := current.localHeaderOffset == u32Max
  let diskNeeded := current.diskStart == u16Max
  if (uncompressedNeeded || compressedNeeded || offsetNeeded || diskNeeded) = false then .ok current
  else
    match extra with
    | none => .error .missingZip64Extra
    | some extra => do
      let (uncompressedSize, offset) ← zip64Value extra 0 uncompressedNeeded current.uncompressedSize
      let (compressedSize, offset) ← zip64Value extra offset compressedNeeded current.compressedSize
      let (localHeaderOffset, offset) ←
        zip64Value extra offset offsetNeeded current.localHeaderOffset
      if diskNeeded then
        if extra.length < offset + 4 then .error .malformedZip64Extra
        else .ok ⟨compressedSize, uncompressedSize, localHeaderOffset, readUInt32LE extra offset⟩
      else .ok ⟨compressedSize, uncompressedSize, localHeaderOffset, current.diskStart⟩

structure ParsedZipEntry where
  entry : ArchiveIndexEntry
  isSymlink : Bool

/-- The entry of a record that has a path. -/
def indexEntry (source : Bytes) (limits : ArchiveLimits) (archiveOffset : ℤ)
    (versionMadeBy flags method crc externalAttributes : ℕ) (values : Zip64Values)
    (mtimeMs : Option ℤ) (rawPath normalizedPath : Text) : Except ZipError ParsedZipEntry := do
  assertArchiveMemberSize (max values.uncompressedSize values.compressedSize) normalizedPath limits
  let host := versionMadeBy / 2 ^ 8
  let mode := if host = unixHost ∨ host = osxHost then some (externalAttributes / 2 ^ 16) else none
  let fileType := (mode.map fun mode => mode &&& fileTypeMask).getD 0
  let isDirectory :=
    isDirectoryName rawPath || fileType == directoryType || (externalAttributes &&& 0x10) != 0
  let isSymlink := fileType == symlinkType && !isDirectory
  let localHeaderOffset := values.localHeaderOffset + archiveOffset
  let _ ← checkedEnd localHeaderOffset 30 source.length "local header"
  let member : ZipMemberSource := ⟨values.compressedSize, method, flags, crc, localHeaderOffset⟩
  .ok ⟨⟨normalizedPath, isDirectory, if isDirectory then 0 else values.uncompressedSize, mtimeMs,
    mode.filter (· ≠ 0), if isDirectory then none else some (.member member)⟩, isSymlink⟩

/-- What a record of the directory gives, and what is left of the directory. -/
def parseRecord (source : Bytes) (limits : ArchiveLimits) (archiveOffset : ℤ) (directory : Bytes) :
    Except ZipError (Option ParsedZipEntry × Bytes) := do
  if directory.length < 46 then .error .truncatedDirectory
  else if readUInt32LE directory 0 ≠ centralHeaderSignature then .error .malformedDirectory
  else
    let flags := readUInt16LE directory 8
    let method := readUInt16LE directory 10
    let nameLength := readUInt16LE directory 28
    let extraLength := readUInt16LE directory 30
    let stop := 46 + nameLength + extraLength + readUInt16LE directory 32
    if directory.length < stop then .error .truncatedEntry
    else
      assertArchivePathBytes nameLength "member path" limits.maxPathBytes
      let rawName := (directory.drop 46).take nameLength
      let extra ← parseExtra R rawName {} ((directory.drop (46 + nameLength)).take extraLength)
      let values ← applyZip64Values extra.zip64 ⟨readUInt32LE directory 20,
        readUInt32LE directory 24, readUInt32LE directory 42, readUInt16LE directory 34⟩
      if values.diskStart ≠ 0 then .error .multiVolume
      else
        let rawPath := extra.unicodePath.getD
          (if flags &&& utf8Flag ≠ 0 then decode R.invalid rawName else R.legacyName rawName)
        assertArchivePathBytes (encode rawPath).length "member path" limits.maxPathBytes
        if flags &&& encryptionFlags ≠ 0 ∨ method = 99 then .error (.encrypted rawPath)
        else
          match normalizeArchiveEntryPath rawPath with
          | none => .ok (none, directory.drop stop)
          | some normalizedPath =>
            let mtimeMs := extra.mtimeMs <|>
              parseDosMtime R (readUInt16LE directory 12) (readUInt16LE directory 14)
            let parsed ← indexEntry source limits archiveOffset (readUInt16LE directory 4) flags
              method (readUInt32LE directory 16) (readUInt32LE directory 38) values mtimeMs rawPath
              normalizedPath
            .ok (some parsed, directory.drop stop)

/-- The loop of `parseCentralDirectory` over the records that are left. -/
def parseCentralDirectory (source : Bytes) (limits : ArchiveLimits) (archiveOffset : ℤ) :
    ℕ → List ParsedZipEntry → Bytes → Except ZipError (List ParsedZipEntry)
  | 0, parsed, _ => .ok parsed
  | entries + 1, parsed, directory => do
    let (entry, rest) ← parseRecord R source limits archiveOffset directory
    match entry with
    | none => parseCentralDirectory source limits archiveOffset entries parsed rest
    | some entry =>
      assertEntryCount (parsed.length + 1) limits
      parseCentralDirectory source limits archiveOffset entries (parsed ++ [entry]) rest

/-! ### Reading a member -/

def decodeMember (compressed : Bytes) (method size : ℕ) (memberPath : Text) :
    Except ZipError Bytes :=
  let decoded :=
    if method = 0 then some compressed
    else if method = 8 then R.inflateRawSync compressed (max size 1)
    else R.decompress method compressed size
  match decoded with
  | some bytes => .ok bytes
  | none => .error (.decompress memberPath)

/-- `read` of a `ZipMemberSource`. -/
def ZipMemberSource.read (m : ZipMemberSource) (source : Bytes) (limits : ArchiveLimits) (size : ℕ)
    (memberPath : Text) : Except ZipError Bytes := do
  assertArchiveMemberSize (max size m.compressedSize) memberPath limits
  if m.flags &&& encryptionFlags ≠ 0 ∨ m.method = 99 then .error (.encrypted memberPath)
  else if m.method ∉ supportedMethods then .error (.unsupportedMethod m.method memberPath)
  else
    let headerEnd ← checkedEnd m.localHeaderOffset 30 source.length "local header"
    let header ← readRange source m.localHeaderOffset.toNat headerEnd
    if header.length ≠ 30 ∨ readUInt32LE header 0 ≠ localHeaderSignature then
      .error (.malformedLocalHeader memberPath)
    else if readUInt16LE header 6 &&& encryptionFlags ≠ 0 then .error (.encrypted memberPath)
    else if readUInt16LE header 8 ≠ m.method then .error (.methodsDisagree memberPath)
    else
      let dataStart :=
        m.localHeaderOffset.toNat + 30 + readUInt16LE header 26 + readUInt16LE header 28
      let dataEnd ← checkedEnd dataStart m.compressedSize source.length "data"
      if m.method = 0 ∧ m.compressedSize ≠ size then .error (.sizeMismatch memberPath)
      else
        let compressed ← readRange source dataStart dataEnd
        if compressed.length ≠ m.compressedSize then .error (.truncatedMember memberPath)
        else
          let decoded ← decodeMember R compressed m.method size memberPath
          if decoded.length ≠ size then .error (.sizeMismatch memberPath)
          else if (R.crc32 decoded).toNat ≠ m.crc then .error (.crcMismatch memberPath)
          else .ok decoded

/-- The body of the loop over the entries: what a symbolic link holds is its target. -/
def finishEntry (source : Bytes) (limits : ArchiveLimits) (item : ParsedZipEntry) :
    Except ZipError ArchiveIndexEntry :=
  if item.isSymlink then do
    assertArchivePathBytes item.entry.size "symlink target" limits.maxPathBytes
    match item.entry.storage with
    | some (.member member) =>
      let bytes ← member.read R source limits item.entry.size item.entry.path
      R.resolveLink item.entry bytes
    | _ => .error .noPayload
  else .ok item.entry

def readZip (source : Bytes) (limits : ArchiveLimits) :
    Except ZipError (List ArchiveIndexEntry) := do
  let info ← readCentralDirectoryInfo source limits
  if info.size = 0 then .ok []
  else
    let directory ← readRange source info.offset (info.offset + info.size)
    if directory.length ≠ info.size then .error .truncatedDirectory
    else
      let parsed ← parseCentralDirectory R source limits info.archiveOffset info.entries [] directory
      parsed.mapM (finishEntry R source limits)

end BreadboardTui.Zip
