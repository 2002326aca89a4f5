import BreadboardTui.Archive.ZipDirectory

/-!
# A zip archive reads back as written

The reader finds the directory that the writer has written, makes an entry of each of its records,
and finds the member of an entry behind its local header.

* `portable`, `zipName`: a backslash is written as a slash, and a leading `./` is left out.
-/

namespace BreadboardTui.Zip

open List Option

open Utf8
open Tar (ArchiveLimits normalizeArchiveEntryPath isDirectoryName IsNormalized
  isNormalized_of_normalize normalize_of_isNormalized getLast_of_isNormalized stripMark_of_head)

variable {R : ZipRuntime} {limits : ArchiveLimits}

/-- The limits of the reader, for an archive that the writer writes. -/
structure WithinLimits (R : ZipRuntime) (limits : ArchiveLimits)
    (members : List (Text × Bytes)) : Prop where
  entries : members.length ≤ limits.maxEntries
  index : (centralsFrom R 0 members).length ≤ limits.maxIndexSize
  member : ∀ member ∈ members,
    max member.2.length (payloadOf R member.2).1.length ≤ limits.maxMemberSize
  path : ∀ member ∈ members, (encode (zipName member.1)).length ≤ limits.maxPathBytes

/-- The entry of a member whose local header is at an offset. -/
def writtenEntry (R : ZipRuntime) (offset : ℕ) (member : Text × Bytes) : ArchiveIndexEntry where
  path := zipName member.1
  isDirectory := false
  size := member.2.length
  mtimeMs := parseDosMtime R 0 0x21
  mode := some 0o100644
  storage := some (.member ⟨(payloadOf R member.2).1.length, (payloadOf R member.2).2, utf8Flag,
    (R.crc32 member.2).toNat, offset⟩)

/-! ### A record of the directory -/

theorem payloadOf_cases (R : ZipRuntime) (data : Bytes) : payloadOf R data = (data, 0) ∨
      payloadOf R data = (R.deflateRawSync data, 8) ∧ data.length ≠ 0 := by
  rw [payloadOf]
  split
  · next h => exact .inr ⟨rfl, h.1⟩
  · exact .inl rfl

theorem method_cases (R : ZipRuntime) (data : Bytes) :
    (payloadOf R data).2 = 0 ∨ (payloadOf R data).2 = 8 := by
  rcases payloadOf_cases R data with h | ⟨h, -⟩
  · exact .inl (by rw [h])
  · exact .inr (by rw [h])

variable {member : Text × Bytes}

theorem Written.isNormalized (h : Written R member) :
    IsNormalized (zipName member.1) := isNormalized_of_normalize h.normalize

theorem isDirectoryName_of_isNormalized {path : Text} (h : IsNormalized path) :
    isDirectoryName path = false := by
  have hslash := getLast_of_isNormalized h
  have hbackslash : path.getLast? ≠ some '\\' := by
    intro hlast
    obtain ⟨parts, hne, hparts, rfl⟩ := h
    exact Tar.backslash_notMem_joinPath (fun part hpart => (hparts part hpart).backslash)
      (mem_of_getLast? hlast)
  simp [isDirectoryName, hslash, hbackslash]

theorem length_centralHeader (method checksum payloadLength dataLength nameLength offset : ℕ) :
    (fields (centralHeader method checksum payloadLength dataLength nameLength offset)).length =
      46 := by
  rw [length_fields]
  simp [centralHeader, widths]

theorem length_localHeader (method checksum payloadLength dataLength nameLength : ℕ) :
    (fields (localHeader method checksum payloadLength dataLength nameLength)).length = 30 := by
  rw [length_fields]
  simp [localHeader, widths]

variable {offset : ℕ} {source : Bytes}

theorem indexEntry_written (hwritten : Written R member)
    (hlimit : max member.2.length (payloadOf R member.2).1.length ≤ limits.maxMemberSize)
    (hoffset : offset < u32Max) (hsource : offset + 30 ≤ source.length) :
    indexEntry source limits 0 (unixHost * 2 ^ 8 + 20) utf8Flag (payloadOf R member.2).2
        (R.crc32 member.2).toNat fileAttributes
        ⟨(payloadOf R member.2).1.length, member.2.length, offset, 0⟩ (parseDosMtime R 0 0x21)
        (zipName member.1) (zipName member.1) =
      .ok ⟨writtenEntry R offset member, false⟩ := by
  have hdata := hwritten.data_lt
  have hpayload := hwritten.payload_lt
  have hu32 : u32Max + 30 ≤ maxSafeInteger := by decide
  have hsize : assertArchiveMemberSize (max member.2.length (payloadOf R member.2).1.length)
      (zipName member.1) limits = .ok () := by
    rw [assertArchiveMemberSize, if_neg]
    omega
  have hend : checkedEnd ((offset : ℤ) + 0) 30 source.length "local header" =
      .ok (offset + 30) := by
    rw [checkedEnd, Int.add_zero, if_neg (by omega), if_neg (by omega), Int.toNat_natCast]
  have hhost : (unixHost * 2 ^ 8 + 20) / 2 ^ 8 = unixHost := by decide
  have hmode : fileAttributes / 2 ^ 16 = 0o100644 := by decide
  have htype : (0o100644 &&& fileTypeMask == directoryType) = false := by decide
  have hsymlink : (0o100644 &&& fileTypeMask == symlinkType) = false := by decide
  have hbit : (fileAttributes &&& 0x10 != 0) = false := by decide
  have hdirectory := isDirectoryName_of_isNormalized hwritten.isNormalized
  rw [indexEntry]
  dsimp only
  rw [hsize, ok_bind, hend, ok_bind, hhost, hmode, if_pos (.inl rfl), hdirectory, hbit]
  dsimp only [map_some, getD_some]
  have hkept : (some 0o100644).filter (fun mode => decide (mode ≠ 0)) = some 0o100644 := by decide
  rw [hkept, writtenEntry]
  simp [htype, hsymlink]

/-- The record of a member gives its entry, and the rest of the directory is left. -/
theorem parseRecord_centralRecord (rest : Bytes) (hwritten : Written R member)
    (hlimit : max member.2.length (payloadOf R member.2).1.length ≤ limits.maxMemberSize)
    (hpath : (encode (zipName member.1)).length ≤ limits.maxPathBytes)
    (hmark : (zipName member.1).head? ≠ some byteOrderMark)
    (hoffset : offset < u32Max) (hsource : offset + 30 ≤ source.length) :
    parseRecord R source limits 0 (centralRecord R offset member ++ rest) =
      .ok (some ⟨writtenEntry R offset member, false⟩, rest) := by
  have hu32 : u32Max < 256 ^ 4 := by decide
  have hmethod : (payloadOf R member.2).2 < 256 ^ 2 := by
    rcases method_cases R member.2 with h | h <;> rw [h] <;> decide
  have hreads := read_centralHeader hmethod (R.crc32 member.2).toNat_lt
    (hwritten.payload_lt.trans hu32) (hwritten.data_lt.trans hu32)
    (hwritten.name_le.trans_lt (by decide : u16Max < 256 ^ 2)) (hoffset.trans hu32)
    (encode (zipName member.1) ++ rest)
  have hbytes : centralRecord R offset member ++ rest =
      fields (centralHeader (payloadOf R member.2).2 (R.crc32 member.2).toNat
        (payloadOf R member.2).1.length member.2.length (encode (zipName member.1)).length offset) ++
        (encode (zipName member.1) ++ rest) := by rw [centralRecord, append_assoc]
  have hheader := length_centralHeader (payloadOf R member.2).2 (R.crc32 member.2).toNat
    (payloadOf R member.2).1.length member.2.length (encode (zipName member.1)).length offset
  rw [hbytes]
  generalize fields (centralHeader (payloadOf R member.2).2 (R.crc32 member.2).toNat
    (payloadOf R member.2).1.length member.2.length (encode (zipName member.1)).length offset) =
    header at hreads hheader
  have hlength : (header ++ (encode (zipName member.1) ++ rest)).length =
      46 + ((encode (zipName member.1)).length + rest.length) := by
    rw [length_append, length_append, hheader]
  have hname : ((header ++ (encode (zipName member.1) ++ rest)).drop 46).take
      (encode (zipName member.1)).length = encode (zipName member.1) := by
    rw [drop_left' hheader, take_left]
  have hrest : (header ++ (encode (zipName member.1) ++ rest)).drop
      (46 + (encode (zipName member.1)).length) = rest := by
    rw [← drop_drop, drop_left' hheader, drop_left]
  have hextra : ∀ rawName : Bytes, parseExtra R rawName {} [] = .ok {} := by
    intro rawName
    rw [parseExtra, if_pos rfl]
  have hvalues : applyZip64Values none ⟨(payloadOf R member.2).1.length, member.2.length, offset,
      0⟩ = .ok ⟨(payloadOf R member.2).1.length, member.2.length, offset, 0⟩ := by
    have hzero : ((0 : ℕ) == u16Max) = false := by decide
    simp [applyZip64Values, beq_eq_false_iff_ne.mpr hwritten.data_lt.ne, beq_eq_false_iff_ne.mpr
      hwritten.payload_lt.ne, beq_eq_false_iff_ne.mpr hoffset.ne, hzero]
  have hdecode : decode R.invalid (encode (zipName member.1)) = zipName member.1 := by
    rw [decode_encode, stripMark_of_head hmark]
  have hflag : utf8Flag &&& utf8Flag ≠ 0 := by decide
  have hencrypted : ¬ (utf8Flag &&& encryptionFlags ≠ 0 ∨ (payloadOf R member.2).2 = 99) := by
    rw [not_or]
    refine ⟨by decide, ?_⟩
    rcases method_cases R member.2 with h | h <;> rw [h] <;> decide
  have hnormal : normalizeArchiveEntryPath (zipName member.1) = some (zipName member.1) :=
    normalize_of_isNormalized hwritten.isNormalized false
  have hindex := indexEntry_written hwritten hlimit hoffset hsource
  have hpathOk : assertArchivePathBytes (encode (zipName member.1)).length "member path"
      limits.maxPathBytes = .ok () := by rw [assertArchivePathBytes, if_neg (not_lt.mpr hpath)]
  have hmtime : (({} : ParsedExtra).mtimeMs <|> parseDosMtime R 0 0x21) =
      parseDosMtime R 0 0x21 := rfl
  rw [parseRecord, if_neg (by omega), if_neg (not_not.mpr hreads.signature)]
  dsimp only
  rw [hreads.nameLength, hreads.extraLength, hreads.commentLength, hreads.flags, hreads.method,
    hreads.compressed, hreads.uncompressed, hreads.localOffset, hreads.diskStart, hreads.dosTime,
    hreads.dosDate, hreads.versionMadeBy, hreads.crc, hreads.externalAttributes, add_zero,
    add_zero, if_neg (by omega), hpathOk, ok_bind, hname, take_zero, hextra, ok_bind,
    hvalues, ok_bind, if_neg (not_not.mpr rfl), getD_none, if_pos hflag, hdecode, hpathOk,
    ok_bind, if_neg hencrypted, hnormal]
  dsimp only
  rw [hmtime, hindex, ok_bind, hrest]

/-- The entries of members that start at an offset. -/
def entriesFrom (R : ZipRuntime) : ℕ → List (Text × Bytes) → List ArchiveIndexEntry
  | _, [] => []
  | offset, member :: members =>
    writtenEntry R offset member :: entriesFrom R (offset + (localRecord R member).length) members

theorem length_localRecord (R : ZipRuntime) (member : Text × Bytes) :
    (localRecord R member).length =
      30 + (encode (zipName member.1)).length + (payloadOf R member.2).1.length := by
  rw [localRecord, length_append, length_append, length_localHeader]

variable {members : List (Text × Bytes)}

theorem parseCentralDirectory_centralsFrom
    {parsed : List ParsedZipEntry} (hwritten : ∀ member ∈ members, Written R member)
    (hmember : ∀ member ∈ members,
      max member.2.length (payloadOf R member.2).1.length ≤ limits.maxMemberSize)
    (hpath : ∀ member ∈ members, (encode (zipName member.1)).length ≤ limits.maxPathBytes)
    (hmark : ∀ member ∈ members, (zipName member.1).head? ≠ some byteOrderMark)
    (hentries : parsed.length + members.length ≤ limits.maxEntries)
    (hoffset : offset + (localsOf R members).length < u32Max)
    (hsource : offset + (localsOf R members).length ≤ source.length) :
    parseCentralDirectory R source limits 0 members.length parsed (centralsFrom R offset members) =
      .ok (parsed ++ (entriesFrom R offset members).map fun entry => ⟨entry, false⟩) := by
  induction members generalizing offset parsed with
  | nil =>
    rw [length_nil, parseCentralDirectory, entriesFrom, map_nil, append_nil]
  | cons member members ih =>
    have hlocals : (localsOf R (member :: members)).length =
        (localRecord R member).length + (localsOf R members).length := by
      rw [localsOf, flatMap_cons, length_append, localsOf]
    have hlocal := length_localRecord R member
    rw [length_cons] at hentries
    have hrecord := parseRecord_centralRecord
      (centralsFrom R (offset + (localRecord R member).length) members)
      (hwritten member mem_cons_self) (hmember member mem_cons_self)
      (hpath member mem_cons_self) (hmark member mem_cons_self)
      (by omega : offset < u32Max) (by omega : offset + 30 ≤ source.length)
    have hcount : assertEntryCount (parsed.length + 1) limits = .ok () := by
      rw [assertEntryCount, if_neg (by omega)]
    rw [length_cons, parseCentralDirectory, centralsFrom, hrecord, ok_bind]
    dsimp only
    rw [hcount, ok_bind, ih (fun other hother => hwritten other (mem_cons_of_mem _ hother))
      (fun other hother => hmember other (mem_cons_of_mem _ hother))
      (fun other hother => hpath other (mem_cons_of_mem _ hother))
      (fun other hother => hmark other (mem_cons_of_mem _ hother)) (by simp; omega) (by omega)
      (by omega), entriesFrom, map_cons, append_assoc, singleton_append]

/-! ### Reading a member -/

/-- The member of an entry gives its data. -/
theorem read_localRecord {front back : Bytes} (hinflate : ∀ data limit, data.length ≤ limit →
      R.inflateRawSync (R.deflateRawSync data) limit = some data) (hwritten : Written R member)
    (hlimit : max member.2.length (payloadOf R member.2).1.length ≤ limits.maxMemberSize)
    (hsource : source = front ++ (localRecord R member ++ back))
    (hsafe : source.length ≤ maxSafeInteger) :
    ZipMemberSource.read R ⟨(payloadOf R member.2).1.length, (payloadOf R member.2).2, utf8Flag,
        (R.crc32 member.2).toNat, front.length⟩ source limits member.2.length (zipName member.1) =
      .ok member.2 := by
  have hu32 : u32Max ≤ maxSafeInteger := by decide
  have hdata := hwritten.data_lt
  have hpayload := hwritten.payload_lt
  have hsize : assertArchiveMemberSize (max member.2.length (payloadOf R member.2).1.length)
      (zipName member.1) limits = .ok () := by
    rw [assertArchiveMemberSize, if_neg]
    omega
  have hencrypted : ¬ (utf8Flag &&& encryptionFlags ≠ 0 ∨ (payloadOf R member.2).2 = 99) := by
    rw [not_or]
    refine ⟨by decide, ?_⟩
    rcases method_cases R member.2 with h | h <;> rw [h] <;> decide
  have hsupported : ¬ (payloadOf R member.2).2 ∉ supportedMethods := by
    rw [not_not]
    rcases method_cases R member.2 with h | h <;> rw [h] <;> decide
  have hmethod : (payloadOf R member.2).2 < 256 ^ 2 := by
    rcases method_cases R member.2 with h | h <;> rw [h] <;> decide
  have hstored : ¬ ((payloadOf R member.2).2 = 0 ∧
      (payloadOf R member.2).1.length ≠ member.2.length) := by
    rintro ⟨hzero, hne⟩
    rcases payloadOf_cases R member.2 with h | ⟨h, -⟩
    · exact hne (by rw [h])
    rw [h] at hzero
    cases hzero
  have hdecode : decodeMember R (payloadOf R member.2).1 (payloadOf R member.2).2 member.2.length
      (zipName member.1) = .ok member.2 := by
    rcases payloadOf_cases R member.2 with h | ⟨h, -⟩
    · rw [h]
      rfl
    rw [h, decodeMember]
    dsimp only
    rw [if_neg (by decide), if_pos rfl, hinflate _ _ (le_max_left _ _)]
  obtain ⟨hsignature, hflags, hmethodRead, hname, hextra⟩ := read_localHeader
    (R.crc32 member.2).toNat (payloadOf R member.2).1.length member.2.length hmethod
    (hwritten.name_le.trans_lt (by decide : u16Max < 256 ^ 2)) []
  have hheader := length_localHeader (payloadOf R member.2).2 (R.crc32 member.2).toNat
    (payloadOf R member.2).1.length member.2.length (encode (zipName member.1)).length
  rw [localRecord] at hsource
  rw [append_nil] at hsignature hflags hmethodRead hname hextra
  generalize fields (localHeader (payloadOf R member.2).2 (R.crc32 member.2).toNat
    (payloadOf R member.2).1.length member.2.length (encode (zipName member.1)).length) =
    header at hsource hsignature hflags hmethodRead hname hextra hheader
  have hlength : source.length = front.length + (30 + (encode (zipName member.1)).length +
      (payloadOf R member.2).1.length + back.length) := by
    rw [hsource]
    simp only [length_append, hheader]
  have hheaderRange : readRange source front.length (front.length + 30) = .ok header := by
    refine readRange_middle front (encode (zipName member.1) ++ (payloadOf R member.2).1 ++ back)
      ?_ rfl (by rw [hheader])
    rw [hsource]
    simp
  have hdataRange : readRange source
      (front.length + 30 + (encode (zipName member.1)).length + 0)
      (front.length + 30 + (encode (zipName member.1)).length + 0 +
        (payloadOf R member.2).1.length) = .ok (payloadOf R member.2).1 := by
    refine readRange_middle (front ++ header ++ encode (zipName member.1)) back ?_ ?_ ?_
    · rw [hsource]
      simp
    · simp only [length_append, hheader]
      omega
    simp only [length_append, hheader]
    omega
  have hend : ∀ (start size : ℕ) (what : String), start + size ≤ source.length →
      checkedEnd start size source.length what = .ok (start + size) := by
    intro start size what hle
    rw [checkedEnd, if_neg (by omega), if_neg (by omega), Int.toNat_natCast]
  have hlocalFlags : ¬ utf8Flag &&& encryptionFlags ≠ 0 := by decide
  rw [ZipMemberSource.read]
  dsimp only
  rw [hsize, ok_bind, if_neg hencrypted, if_neg hsupported, hend _ _ _ (by omega), ok_bind,
    Int.toNat_natCast, hheaderRange, ok_bind,
    if_neg (not_or.mpr ⟨not_not.mpr hheader, not_not.mpr hsignature⟩), hflags,
    if_neg hlocalFlags, hmethodRead, if_neg (not_not.mpr rfl), hname, hextra,
    hend _ _ _ (by omega), ok_bind, if_neg hstored, hdataRange, ok_bind, if_neg (not_not.mpr rfl),
    hdecode, ok_bind, if_neg (not_not.mpr rfl), if_neg (not_not.mpr rfl)]

/-! ### The round trip -/

/-- The entry is a regular file under the name of the member, and is read as the member's data. -/
structure ReadsAs (R : ZipRuntime) (source : Bytes) (limits : ArchiveLimits)
    (entry : ArchiveIndexEntry) (member : Text × Bytes) : Prop where
  path : entry.path = zipName member.1
  isDirectory : entry.isDirectory = false
  size : entry.size = member.2.length
  mode : entry.mode = some 0o100644
  data : ∃ m, entry.storage = some (.member m) ∧
    m.read R source limits entry.size entry.path = .ok member.2

theorem readsAs_entriesFrom {back : Bytes} (hinflate : ∀ data limit, data.length ≤ limit →
      R.inflateRawSync (R.deflateRawSync data) limit = some data)
    (hwritten : ∀ member ∈ members, Written R member) (hmember : ∀ member ∈ members,
      max member.2.length (payloadOf R member.2).1.length ≤ limits.maxMemberSize)
    (hsafe : source.length ≤ maxSafeInteger) (front : Bytes)
    (hsource : source = front ++ (localsOf R members ++ back)) :
    List.Forall₂ (ReadsAs R source limits) (entriesFrom R front.length members) members := by
  induction members generalizing front with
  | nil => exact .nil
  | cons member members ih =>
    rw [localsOf, flatMap_cons, append_assoc] at hsource
    refine .cons ⟨rfl, rfl, rfl, rfl, _, rfl, ?_⟩ ?_
    · exact read_localRecord hinflate (hwritten member mem_cons_self)
        (hmember member mem_cons_self) hsource hsafe
    have hrest := ih (fun other hother => hwritten other (mem_cons_of_mem _ hother))
      (fun other hother => hmember other (mem_cons_of_mem _ hother))
      (front ++ localRecord R member) (by rw [hsource, append_assoc, localsOf])
    rwa [length_append] at hrest

/-- What the writer has made sure of when it returns. -/
theorem encodeZip_eq_ok {bytes : Bytes} (h : encodeZip R members = .ok bytes) :
    ∃ w : ZipWriter, w.locals = localsOf R members ∧ w.centrals = centralsFrom R 0 members ∧
      w.count = members.length ∧ (∀ member ∈ members, Written R member) ∧
      w.locals.length < u32Max ∧ w.centrals.length < u32Max ∧
      w.locals.length + w.centrals.length + (trailer w).length ≤ maxSafeInteger ∧
      bytes = archiveOf w := by
  rw [encodeZip] at h
  cases hfold : members.foldlM (addMember R) {} with
  | error =>
    rw [hfold] at h
    cases h
  | ok w =>
    rw [hfold, ok_bind] at h
    obtain ⟨hwritten, hw⟩ := written_of_ok hfold
    split at h
    · cases h
    next hsize =>
    rw [not_or] at hsize
    split at h
    · cases h
    next hsafe =>
    refine ⟨w, ?_, ?_, ?_, hwritten, not_le.mp hsize.1, not_le.mp hsize.2, not_lt.mp hsafe,
      (Except.ok.inj h).symm⟩
    · rw [hw, nil_append]
    · rw [hw]
      rfl
    · rw [hw, zero_add]

theorem length_centralsFrom (offset : ℕ) (members : List (Text × Bytes)) :
    46 * members.length ≤ (centralsFrom R offset members).length := by
  induction members generalizing offset with
  | nil => exact le_rfl
  | cons member members ih =>
    have hrest := ih (offset + (localRecord R member).length)
    rw [centralsFrom, centralRecord, length_append, length_append, length_centralHeader,
      length_cons]
    omega

theorem signature_centralsFrom (offset : ℕ) (h : 0 < members.length) :
    readUInt32LE (centralsFrom R offset members) 0 = centralHeaderSignature := by
  cases members with
  | nil => cases h
  | cons =>
    rw [centralsFrom, centralRecord, append_assoc]
    exact readLE_field 0 rfl rfl (by decide) _

theorem mapM_finishEntry (entries : List ArchiveIndexEntry) :
    (entries.map fun entry => (⟨entry, false⟩ : ParsedZipEntry)).mapM
      (finishEntry R source limits) = .ok entries := by
  induction entries with
  | nil => rfl
  | cons entry entries ih =>
    have hentry : finishEntry R source limits ⟨entry, false⟩ = .ok entry := rfl
    rw [map_cons, mapM_cons, hentry, ok_bind, ih, ok_bind]
    rfl

/-- The members of an archive are read back in order, as regular files under their portable names,
where no name starts with a byte order mark and the directory does not end like a locator. -/
theorem readZip_encodeZip (hinflate : ∀ data limit, data.length ≤ limit →
      R.inflateRawSync (R.deflateRawSync data) limit = some data)
    {members : List (Text × Bytes)} {bytes : Bytes} (h : encodeZip R members = .ok bytes)
    (hlimits : WithinLimits R limits members)
    (hmark : ∀ member ∈ members, (zipName member.1).head? ≠ some byteOrderMark)
    (hlocator : members.length < u16Max → ¬ ImitatesLocator (centralsFrom R 0 members)) :
    ∃ entries, readZip R bytes limits = .ok entries ∧
      List.Forall₂ (ReadsAs R bytes limits) entries members := by
  obtain ⟨w, hlocals, hcentrals, hcount, hwritten, hlocalsLt, hcentralsLt, hsafe, rfl⟩ :=
    encodeZip_eq_ok h
  have hencoded : Encoded w := by
    refine ⟨hlocalsLt, hcentralsLt, hsafe, ?_, fun hpos => ?_, fun hzero => ?_, fun hlt => ?_⟩
    · rw [hcount, hcentrals]
      exact length_centralsFrom 0 members
    · rw [hcentrals]
      exact signature_centralsFrom 0 (hcount ▸ hpos)
    · have hnil : members = [] := length_eq_zero_iff.mp (hcount ▸ hzero)
      rw [hlocals, hnil]
      rfl
    rw [hcentrals]
    exact hlocator (hcount ▸ hlt)
  have hinfo : readCentralDirectoryInfo (archiveOf w) limits = _ :=
    hencoded.readCentralDirectoryInfo (hcount ▸ hlimits.entries) (hcentrals ▸ hlimits.index)
  have hlength : (archiveOf w).length =
      w.locals.length + w.centrals.length + (trailer w).length := by
    rw [archiveOf, length_append, length_append]
  have hentries : List.Forall₂ (ReadsAs R (archiveOf w) limits) (entriesFrom R 0 members) members :=
    readsAs_entriesFrom hinflate hwritten hlimits.member (hlength ▸ hsafe) []
      (by rw [nil_append, archiveOf, hlocals, append_assoc])
  refine ⟨entriesFrom R 0 members, ?_, hentries⟩
  rw [readZip, hinfo, ok_bind]
  split
  · next hempty =>
    -- a directory without records is that of no members
    dsimp only at hempty
    have hnone := length_centralsFrom (R := R) 0 members
    rw [← hcentrals, hempty] at hnone
    have hnil : members = [] := length_eq_zero_iff.mp (by omega)
    rw [hnil]
    rfl
  have hrange : readRange (archiveOf w) w.locals.length
      (w.locals.length + w.centrals.length) = .ok w.centrals :=
    readRange_middle w.locals (trailer w) (by rw [archiveOf, append_assoc]) rfl rfl
  have hparse : parseCentralDirectory R (archiveOf w) limits 0 members.length []
      (centralsFrom R 0 members) = _ :=
    parseCentralDirectory_centralsFrom hwritten hlimits.member hlimits.path hmark
      (by rw [length_nil, zero_add]; exact hlimits.entries)
      (by rw [zero_add, ← hlocals]; exact hlocalsLt)
      (by rw [zero_add, ← hlocals]; omega)
  rw [hrange, ok_bind, if_neg (not_not.mpr rfl), hcount, hcentrals, hparse, ok_bind,
    nil_append, mapM_finishEntry]

theorem ok_of_toOption {α : Type} {result : Except ZipError α} {a : α}
    (h : result.toOption = some a) : result = .ok a := by
  cases result with
  | error => cases h
  | ok => rw [some.inj h]

/-- A runtime that deflates nothing, with the checksum of `a`. -/
def storingRuntime : ZipRuntime where
  crc32 data := if data = [97] then 0xe8b7be43 else 0
  deflateRawSync data := data
  inflateRawSync data limit := if data.length ≤ limit then some data else none
  decompress _ _ _ := none
  invalid _ := []
  legacyName _ := []
  localTime _ _ _ _ _ _ := some 315532800000
  resolveLink entry _ := .ok entry

def defaultArchiveLimits : ArchiveLimits :=
  ⟨1000000, 256 * 1024 * 1024, 64 * 1024 * 1024, 64 * 1024 * 1024, 4096⟩

theorem readZip_encodeZip_single : ∃ bytes entries,
    encodeZip storingRuntime [(['a', '/', 'b'], [97])] = .ok bytes ∧
      readZip storingRuntime bytes defaultArchiveLimits = .ok entries ∧
      List.Forall₂ (ReadsAs storingRuntime bytes defaultArchiveLimits) entries
        [(['a', '/', 'b'], [97])] := by
  have hok : (encodeZip storingRuntime [(['a', '/', 'b'], [97])]).toOption.isSome = true := by
    decide +kernel
  obtain ⟨bytes, hbytes⟩ := isSome_iff_exists.mp hok
  have hencode := ok_of_toOption hbytes
  have hinflate : ∀ data limit, data.length ≤ limit → storingRuntime.inflateRawSync
      (storingRuntime.deflateRawSync data) limit = some data := fun data limit hle => if_pos hle
  have hlimits : WithinLimits storingRuntime defaultArchiveLimits [(['a', '/', 'b'], [97])] := by
    constructor <;> decide +kernel
  have hlocator : ¬ ImitatesLocator (centralsFrom storingRuntime 0 [(['a', '/', 'b'], [97])]) := by
    unfold ImitatesLocator
    decide +kernel
  obtain ⟨entries, hread, hentries⟩ :=
    readZip_encodeZip hinflate hencode hlimits (by decide +kernel) fun _ => hlocator
  exact ⟨bytes, entries, hencode, hread, hentries⟩

/-- A member with a backslash in its name is read back under another name. -/
theorem not_readZip_encodeZip : ∃ bytes,
    encodeZip storingRuntime [(['a', '\\', 'b'], [97])] = .ok bytes ∧
      WithinLimits storingRuntime defaultArchiveLimits [(['a', '\\', 'b'], [97])] ∧
      ¬ ∃ entries, readZip storingRuntime bytes defaultArchiveLimits = .ok entries ∧
        entries.map ArchiveIndexEntry.path = [['a', '\\', 'b']] := by
  have hpaths : ((encodeZip storingRuntime [(['a', '\\', 'b'], [97])]).toOption.bind fun bytes =>
      (readZip storingRuntime bytes defaultArchiveLimits).toOption.map fun entries =>
        entries.map ArchiveIndexEntry.path) = some [['a', '/', 'b']] := by
    decide +kernel
  obtain ⟨bytes, hbytes, hread⟩ := bind_eq_some_iff.mp hpaths
  refine ⟨bytes, ok_of_toOption hbytes, by constructor <;> decide +kernel, ?_⟩
  rintro ⟨entries, hentries, hnames⟩
  rw [hentries] at hread
  have hsame : entries.map ArchiveIndexEntry.path = [['a', '/', 'b']] := some.inj hread
  rw [hnames] at hsame
  cases hsame

end BreadboardTui.Zip
