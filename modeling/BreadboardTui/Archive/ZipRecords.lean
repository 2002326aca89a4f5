import BreadboardTui.Archive.TarPaths
import BreadboardTui.Archive.Zip

/-!
# The records of a zip archive

The writer appends a local record for each member to the one part of an archive and a record of the
directory to the other. Every field fits into its bytes, so each of them is read as it was written.
-/

namespace BreadboardTui.Zip

open Utf8
open Tar (ArchiveLimits normalizeArchiveEntryPath isDirectoryName)

@[simp] theorem ok_bind {α β : Type} (a : α) (f : α → Except ZipError β) :
    (Except.ok a >>= f) = f a := rfl

variable (R : ZipRuntime)

/-! ### What is written -/

/-- The name under which a member is written. -/
def zipName (inputName : Text) : Text := dropDotSlash (portable inputName)

def localRecord (member : Text × Bytes) : Bytes :=
  fields (localHeader (payloadOf R member.2).2 (R.crc32 member.2).toNat
      (payloadOf R member.2).1.length member.2.length (encode (zipName member.1)).length) ++
    encode (zipName member.1) ++ (payloadOf R member.2).1

def centralRecord (offset : ℕ) (member : Text × Bytes) : Bytes :=
  fields (centralHeader (payloadOf R member.2).2 (R.crc32 member.2).toNat
      (payloadOf R member.2).1.length member.2.length (encode (zipName member.1)).length offset) ++
    encode (zipName member.1)

def localsOf (members : List (Text × Bytes)) : Bytes := members.flatMap (localRecord R)

/-- The directory of members that start at an offset. -/
def centralsFrom : ℕ → List (Text × Bytes) → Bytes
  | _, [] => []
  | offset, member :: members =>
    centralRecord R offset member ++ centralsFrom (offset + (localRecord R member).length) members

/-- The writer writes such a member. -/
structure Written (member : Text × Bytes) : Prop where
  normalize : normalizeArchiveEntryPath (portable member.1) = some (zipName member.1)
  name_le : (encode (zipName member.1)).length ≤ u16Max
  data_lt : member.2.length < u32Max
  payload_lt : (payloadOf R member.2).1.length < u32Max

variable {R}

/-- The step: what the writer adds for a member. -/
theorem addMember_eq_ok {w w' : ZipWriter} {member : Text × Bytes}
    (h : addMember R w member = .ok w') :
    Written R member ∧
      w' = ⟨w.locals ++ localRecord R member,
        w.centrals ++ centralRecord R w.locals.length member, w.count + 1⟩ := by
  rw [addMember] at h
  dsimp only at h
  split at h
  · cases h
  next name hname =>
  split at h
  · cases h
  next hsafe =>
  split at h
  · cases h
  next hlong =>
  split at h
  · cases h
  next hdata =>
  split at h
  · cases h
  next hpayload =>
  split at h
  · cases h
  cases h
  have hzip : name = zipName member.1 := by
    by_contra hne
    exact hsafe (.inl hne)
  subst hzip
  refine ⟨⟨hname, not_lt.mp hlong, not_le.mp hdata, ?_⟩, ?_⟩
  · rw [not_or] at hpayload
    exact not_le.mp hpayload.1
  · rw [localRecord, centralRecord]

/-- The run over the members. -/
theorem written_of_ok {members : List (Text × Bytes)} {w w' : ZipWriter}
    (h : members.foldlM (addMember R) w = .ok w') :
    (∀ member ∈ members, Written R member) ∧
      w' = ⟨w.locals ++ localsOf R members, w.centrals ++ centralsFrom R w.locals.length members,
        w.count + members.length⟩ := by
  induction members generalizing w with
  | nil =>
    cases h
    exact ⟨fun member hmember => absurd hmember List.not_mem_nil, by
      simp [localsOf, centralsFrom]⟩
  | cons member members ih =>
    rw [List.foldlM_cons] at h
    cases hadd : addMember R w member with
    | error =>
      rw [hadd] at h
      cases h
    | ok =>
      rw [hadd] at h
      obtain ⟨hwritten, rfl⟩ := addMember_eq_ok hadd
      obtain ⟨hrest, rfl⟩ := ih h
      refine ⟨fun other hother => ?_, ?_⟩
      · rcases List.mem_cons.mp hother with rfl | hother
        · exact hwritten
        · exact hrest other hother
      simp only [localsOf, List.flatMap_cons, centralsFrom, List.length_append,
        List.length_cons, List.append_assoc, ZipWriter.mk.injEq, true_and]
      omega

/-! ### The fields of the records -/

theorem readUInt64LE_eq {bytes : Bytes} {offset value : ℕ} (h : readLE bytes offset 8 = value)
    (hsafe : value ≤ maxSafeInteger) : readUInt64LE bytes offset = .ok value := by
  have hsplit := readLE_add bytes offset 4 4
  have hpow : 256 ^ 4 = 2 ^ 32 := by norm_num
  rw [hpow, Nat.mul_comm (2 ^ 32), h] at hsplit
  rw [readUInt64LE, readUInt32LE, readUInt32LE, ← hsplit, if_neg (not_lt.mpr hsafe)]

variable {method checksum payloadLength dataLength nameLength localOffset : ℕ}

theorem read_localHeader (checksum payloadLength dataLength : ℕ) (hmethod : method < 256 ^ 2)
    (hname : nameLength < 256 ^ 2)
    (rest : Bytes) :
    let bytes := fields (localHeader method checksum payloadLength dataLength nameLength) ++ rest
    readUInt32LE bytes 0 = localHeaderSignature ∧ readUInt16LE bytes 6 = utf8Flag ∧
      readUInt16LE bytes 8 = method ∧ readUInt16LE bytes 26 = nameLength ∧
      readUInt16LE bytes 28 = 0 :=
  ⟨readLE_field 0 rfl rfl (by decide) rest,
    readLE_field 2 rfl (by simp [localHeader, widths]) (by decide) rest,
    readLE_field 3 rfl (by simp [localHeader, widths]) hmethod rest,
    readLE_field 9 rfl (by simp [localHeader, widths]) hname rest,
    readLE_field 10 rfl (by simp [localHeader, widths]) (by decide) rest⟩

/-- The fields of a record of the directory. -/
structure ReadsCentral (method checksum payloadLength dataLength nameLength localOffset : ℕ)
    (bytes : Bytes) : Prop where
  signature : readUInt32LE bytes 0 = centralHeaderSignature
  versionMadeBy : readUInt16LE bytes 4 = unixHost * 2 ^ 8 + 20
  flags : readUInt16LE bytes 8 = utf8Flag
  method : readUInt16LE bytes 10 = method
  dosTime : readUInt16LE bytes 12 = 0
  dosDate : readUInt16LE bytes 14 = 0x21
  crc : readUInt32LE bytes 16 = checksum
  compressed : readUInt32LE bytes 20 = payloadLength
  uncompressed : readUInt32LE bytes 24 = dataLength
  nameLength : readUInt16LE bytes 28 = nameLength
  extraLength : readUInt16LE bytes 30 = 0
  commentLength : readUInt16LE bytes 32 = 0
  diskStart : readUInt16LE bytes 34 = 0
  externalAttributes : readUInt32LE bytes 38 = fileAttributes
  localOffset : readUInt32LE bytes 42 = localOffset

theorem read_centralHeader (hmethod : method < 256 ^ 2) (hchecksum : checksum < 256 ^ 4)
    (hpayload : payloadLength < 256 ^ 4) (hdata : dataLength < 256 ^ 4)
    (hname : nameLength < 256 ^ 2) (hoffset : localOffset < 256 ^ 4) (rest : Bytes) :
    ReadsCentral method checksum payloadLength dataLength nameLength localOffset
      (fields (centralHeader method checksum payloadLength dataLength nameLength localOffset) ++
        rest) where
  signature := readLE_field 0 rfl rfl (by decide) rest
  versionMadeBy := readLE_field 1 rfl (by simp [centralHeader, widths]) (by decide) rest
  flags := readLE_field 3 rfl (by simp [centralHeader, widths]) (by decide) rest
  method := readLE_field 4 rfl (by simp [centralHeader, widths]) hmethod rest
  dosTime := readLE_field 5 rfl (by simp [centralHeader, widths]) (by decide) rest
  dosDate := readLE_field 6 rfl (by simp [centralHeader, widths]) (by decide) rest
  crc := readLE_field 7 rfl (by simp [centralHeader, widths]) hchecksum rest
  compressed := readLE_field 8 rfl (by simp [centralHeader, widths]) hpayload rest
  uncompressed := readLE_field 9 rfl (by simp [centralHeader, widths]) hdata rest
  nameLength := readLE_field 10 rfl (by simp [centralHeader, widths]) hname rest
  extraLength := readLE_field 11 rfl (by simp [centralHeader, widths]) (by decide) rest
  commentLength := readLE_field 12 rfl (by simp [centralHeader, widths]) (by decide) rest
  diskStart := readLE_field 13 rfl (by simp [centralHeader, widths]) (by decide) rest
  externalAttributes := readLE_field 15 rfl (by simp [centralHeader, widths]) (by decide) rest
  localOffset := readLE_field 16 rfl (by simp [centralHeader, widths]) hoffset rest

variable {count centralSize localSize : ℕ}

theorem read_eocd (hcount : count < 256 ^ 2) (hcentral : centralSize < 256 ^ 4)
    (hlocal : localSize < 256 ^ 4) (rest : Bytes) :
    let bytes := fields (eocd count centralSize localSize) ++ rest
    readUInt32LE bytes 0 = eocdSignature ∧ readUInt16LE bytes 4 = 0 ∧ readUInt16LE bytes 6 = 0 ∧
      readUInt16LE bytes 8 = count ∧ readUInt16LE bytes 10 = count ∧
      readUInt32LE bytes 12 = centralSize ∧ readUInt32LE bytes 16 = localSize ∧
      readUInt16LE bytes 20 = 0 :=
  ⟨readLE_field 0 rfl rfl (by decide) rest,
    readLE_field 1 rfl (by simp [eocd, widths]) (by decide) rest,
    readLE_field 2 rfl (by simp [eocd, widths]) (by decide) rest,
    readLE_field 3 rfl (by simp [eocd, widths]) hcount rest,
    readLE_field 4 rfl (by simp [eocd, widths]) hcount rest,
    readLE_field 5 rfl (by simp [eocd, widths]) hcentral rest,
    readLE_field 6 rfl (by simp [eocd, widths]) hlocal rest,
    readLE_field 7 rfl (by simp [eocd, widths]) (by decide) rest⟩

theorem maxSafeInteger_lt : maxSafeInteger < 256 ^ 8 := by decide

theorem read_zip64Eocd (hcount : count ≤ maxSafeInteger) (hcentral : centralSize ≤ maxSafeInteger)
    (hlocal : localSize ≤ maxSafeInteger) (rest : Bytes) :
    let bytes := fields (zip64Eocd count centralSize localSize) ++ rest
    readUInt32LE bytes 0 = zip64EocdSignature ∧ readUInt64LE bytes 4 = .ok 44 ∧
      readUInt32LE bytes 16 = 0 ∧ readUInt32LE bytes 20 = 0 ∧ readUInt64LE bytes 24 = .ok count ∧
      readUInt64LE bytes 32 = .ok count ∧ readUInt64LE bytes 40 = .ok centralSize ∧
      readUInt64LE bytes 48 = .ok localSize :=
  ⟨readLE_field 0 rfl rfl (by decide) rest,
    readUInt64LE_eq (readLE_field 1 rfl (by simp [zip64Eocd, widths]) (by decide) rest) (by decide),
    readLE_field 4 rfl (by simp [zip64Eocd, widths]) (by decide) rest,
    readLE_field 5 rfl (by simp [zip64Eocd, widths]) (by decide) rest,
    readUInt64LE_eq (readLE_field 6 rfl (by simp [zip64Eocd, widths])
      (hcount.trans_lt maxSafeInteger_lt) rest) hcount,
    readUInt64LE_eq (readLE_field 7 rfl (by simp [zip64Eocd, widths])
      (hcount.trans_lt maxSafeInteger_lt) rest) hcount,
    readUInt64LE_eq (readLE_field 8 rfl (by simp [zip64Eocd, widths])
      (hcentral.trans_lt maxSafeInteger_lt) rest) hcentral,
    readUInt64LE_eq (readLE_field 9 rfl (by simp [zip64Eocd, widths])
      (hlocal.trans_lt maxSafeInteger_lt) rest) hlocal⟩

theorem read_zip64Locator {zip64EocdOffset : ℕ} (hoffset : zip64EocdOffset ≤ maxSafeInteger)
    (rest : Bytes) :
    let bytes := fields (zip64Locator zip64EocdOffset) ++ rest
    readUInt32LE bytes 0 = zip64LocatorSignature ∧ readUInt32LE bytes 4 = 0 ∧
      readUInt64LE bytes 8 = .ok zip64EocdOffset ∧ readUInt32LE bytes 16 = 1 :=
  ⟨readLE_field 0 rfl rfl (by decide) rest,
    readLE_field 1 rfl (by simp [zip64Locator, widths]) (by decide) rest,
    readUInt64LE_eq (readLE_field 2 rfl (by simp [zip64Locator, widths])
      (hoffset.trans_lt maxSafeInteger_lt) rest) hoffset,
    readLE_field 3 rfl (by simp [zip64Locator, widths]) (by decide) rest⟩

end BreadboardTui.Zip
