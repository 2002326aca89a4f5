import BreadboardTui.Archive.TarPax

/-!
# Reading an entry

The record of an entry, with a PAX record in front or not, is read as one member: its name is what
the header or the PAX record says, its size what was written, and its data follow the header.
-/

namespace BreadboardTui.Tar

open List

open Utf8

/-! ### Headers and data -/

theorem paddedSize_eq_ok {size padded : ℕ} (h : paddedSize size = .ok padded) :
    size ≤ padded ∧ padded ≤ maxSafeInteger := by
  rw [paddedSize] at h
  generalize (if size % blockSize = 0 then 0 else blockSize - size % blockSize) = added at h
  split at h
  · cases h
  next hsafe =>
  injection h with h
  omega

theorem paddedPayload_eq_ok {payload data : Bytes} (h : paddedPayload payload = .ok data) :
    ∃ count, data = payload ++ zeros count ∧ paddedSize payload.length = .ok data.length := by
  obtain ⟨padded, hpadded, h⟩ := bind_eq_ok.mp h
  injection h with h
  refine ⟨_, h.symm, ?_⟩
  rw [hpadded, ← h, length_append, zeros, length_replicate,
    Nat.add_sub_cancel' (paddedSize_eq_ok hpadded).1]

section Loop

variable {R : TarReader} {limits : ArchiveLimits} {s : Scan}
  {name namePrefix header after : Bytes} {size mode : ℕ} {typeFlag : UInt8}

theorem readLoop_makeHeader (hflag : typeFlag ≠ 0)
    (h : makeHeader name namePrefix size 0 mode typeFlag = .ok header) :
    readLoop R limits s (header ++ after) =
      readRecord R limits s header after >>= fun result =>
        readLoop R limits result.1 (after.drop result.2) := by
  obtain ⟨hlength, hzero, -⟩ := readHeader_makeHeader R.invalid hflag h
  have hblock : blockSize = 512 := rfl
  have hlong : ¬ (header ++ after).length < blockSize := by
    rw [length_append, hlength, hblock]
    omega
  have htake : (header ++ after).take blockSize = header := take_left' hlength
  have hdrop : (header ++ after).drop blockSize = after := drop_left' hlength
  rw [readLoop, if_neg hlong, htake, hzero, hdrop]
  rw [if_neg (by decide)]
  cases hrecord : readRecord R limits s header after with
  | error => rfl
  | ok result =>
    change readLoop R limits result.1 ((header ++ after).drop (blockSize + result.2)) = _
    rw [← drop_drop, hdrop]
    rfl

theorem readRecord_pax {records data rest : Bytes}
    (h : makeHeader name [] records.length 0 mode (ascii 'x') = .ok header)
    (hdata : paddedPayload records = .ok data) :
    readRecord R limits s header (data ++ rest) =
      (parsePaxRecords R.invalid limits records).map fun attrs =>
        ({ s with localPax := some attrs }, data.length) := by
  obtain ⟨-, -, hread⟩ := readHeader_makeHeader R.invalid (by decide) h
  obtain ⟨count, heq, hpadded⟩ := paddedPayload_eq_ok hdata
  have htake : (data ++ rest).take records.length = records := by
    rw [heq, append_assoc, take_left' rfl]
  have hlong : ¬ (data ++ rest).length < data.length := by
    rw [length_append]
    omega
  rw [readRecord, hread]
  change (paddedSize records.length >>= _) = _
  rw [hpadded]
  change (if _ then _ else _) = _
  rw [if_neg hlong, if_neg (by decide : ¬ ascii 'x' = ascii 'L'),
    if_neg (by decide : ¬ ascii 'x' = ascii 'K'), if_neg (by decide : ¬ ascii 'x' = ascii 'N'),
    if_pos (.inl rfl), htake]
  cases parsePaxRecords R.invalid limits records with
  | error => rfl
  | ok => rfl

end Loop

/-! ### Attributes of a member -/

/-- The attributes that are known when the header of an entry is read. -/
def LocalFor (path : Text) (size : ℕ) (localPax : Option PaxAttrs) : Prop :=
  localPax = none ∧ paxAttrs path size = [] ∨ localPax = some (paxAttrs path size)

section Attributes

variable {path : Text} {size : ℕ} {localPax : Option PaxAttrs}

theorem paxAttribute_localFor (h : LocalFor path size localPax) (key : PaxKey) :
    paxAttribute [] localPax key = (paxAttrs path size).get key := by
  rcases h with ⟨rfl, hnil⟩ | rfl
  · rw [hnil]
    rfl
  rw [paxAttribute, Option.bind_some]
  cases (paxAttrs path size).get key with
  | none => rfl
  | some => rfl

theorem get_paxAttrs (path : Text) (size : ℕ) : (paxAttrs path size).get .path =
        (if (splitUstarPath (encode path)).isNone then some (stripMark path) else none) ∧
      (paxAttrs path size).get .size =
        (if maxOctalSize < size then some (Nat.toDigits 10 size) else none) ∧
      ∀ key, key ≠ .path → key ≠ .size → (paxAttrs path size).get key = none := by
  rw [paxAttrs]
  refine ⟨?_, ?_, fun key hpath hsize => ?_⟩
  · split <;> split <;> rfl
  · split <;> split <;> rfl
  cases key with
  | path => exact absurd rfl hpath
  | size => exact absurd rfl hsize
  | linkpath | sparse | sparseName | sparseRealSize => split <;> split <;> rfl

theorem parsePaxSize_toDigits (h : size ≤ maxSafeInteger) (fieldName : String) :
    parsePaxSize (Nat.toDigits 10 size) fieldName = .ok size := by
  have hall : (Nat.toDigits 10 size).all Char.isDigit = true :=
    all_eq_true.mpr fun c hc => isDigit_of_mem hc
  rw [parsePaxSize, if_pos ⟨Nat.toDigits_ne_nil, hall⟩]
  rw [Nat.ofDigitChars_ten_toDigits, if_pos h]

/-- The header of an entry, as it is read. -/
def entryHeader (invalid : Bytes → Text) (split : Bytes × Bytes) (typeFlag : UInt8)
    (size mode : ℕ) : Header where
  typeFlag
  size := if size ≤ maxOctalSize then size else 0
  name := if readField invalid split.2 ≠ [] then
      readField invalid split.2 ++ '/' :: readField invalid split.1
    else readField invalid split.1
  linkName := []
  mtime := (0 : ℕ)
  mode := some mode

theorem memberAttributes_entryHeader {s : Scan} (invalid : Bytes → Text)
    (fallback : Bytes × Bytes) (typeFlag : UInt8) (mode : ℕ) (hname : s.longName = none)
    (hlink : s.longLink = none)
    (hglobal : s.globalPax = []) (hlocal : LocalFor path size s.localPax)
    (hsize : size ≤ maxSafeInteger) :
    memberAttributes s (entryHeader invalid ((splitUstarPath (encode path)).getD fallback)
      typeFlag size mode) = .ok (readName invalid path, [], size, size) := by
  obtain ⟨hpath, hsizeGet, hothers⟩ := get_paxAttrs path size
  rw [memberAttributes, hglobal]
  simp only [paxAttribute_localFor hlocal, hpath, hsizeGet, hothers .linkpath (by decide) (by decide),
    hothers .sparseRealSize (by decide) (by decide), hothers .sparseName (by decide) (by decide),
    hname, hlink, Option.getD_none]
  have hnameRead : (if (splitUstarPath (encode path)).isNone then some (stripMark path)
      else none).getD (entryHeader invalid ((splitUstarPath (encode path)).getD fallback)
        typeFlag size mode).name = readName invalid path := by
    rw [readName]
    cases hsplit : splitUstarPath (encode path) with
    | none =>
      rw [decode_encode]
      rfl
    | some => rfl
  by_cases hbig : maxOctalSize < size
  · simp only [hbig, if_true, parsePaxSize_toDigits hsize]
    rw [hnameRead]
    rfl
  simp only [hbig, if_false]
  have hheader : (entryHeader invalid ((splitUstarPath (encode path)).getD fallback) typeFlag
      size mode).size = size := if_pos (Nat.le_of_not_lt hbig)
  rw [hnameRead, hheader]
  rfl

end Attributes

/-! ### An entry -/

/-- The type flag and the mode of an entry. -/
def entryFlag (directory : Bool) : UInt8 := if directory then ascii '5' else ascii '0'

def entryMode (directory : Bool) : ℕ := if directory then 0o755 else 0o644

/-- What the reader makes of an entry, with its data in front of `after`. -/
def indexEntry (R : TarReader) (limits : ArchiveLimits) (entries : EntryMap) (archivePath : Text)
    (directory : Bool) (size : ℕ) (after : Bytes) : Except ArchiveError Scan :=
  let name := readName R.invalid (writtenPath archivePath directory)
  match normalizeArchiveEntryPath name with
  | none => .ok { entries }
  | some path =>
    if limits.maxPathBytes < (encode path).length then .error (.pathTooLong "member path")
    else if directory = true ∨ name.getLast? = some '/' then
      addEntry limits { entries }
        ⟨path, true, 0, none, some (entryMode directory), none⟩ none
    else if maxSafeInteger < size ∨ limits.maxMemberSize < size then .error (.memberTooLarge path)
    else addEntry limits { entries }
      ⟨path, false, size, none, some (entryMode directory),
        some (.member ⟨after, false⟩)⟩ none

section Entry

variable {R : TarReader} {limits : ArchiveLimits} {archivePath : Text} {directory : Bool}
  {size : ℕ} {header data rest : Bytes}

theorem entryFlag_ne (directory : Bool) {c : Char}
    (h : ascii c ≠ ascii '5' ∧ ascii c ≠ ascii '0') : entryFlag directory ≠ ascii c := by
  cases directory with
  | true => exact h.1.symm
  | false => exact h.2.symm

/-- A member of the writer is a directory or a file. -/
theorem addMemberEntry_entry {invalid : Bytes → Text} {s : Scan} {split : Bytes × Bytes}
    {path : Text} {isDirectory : Bool} {after : Bytes}
    (hdirectory : directory = true → isDirectory = true) :
    addMemberEntry R limits s
        (entryHeader invalid split (entryFlag directory) size (entryMode directory)) isDirectory
        false path [] size after =
      if limits.maxPathBytes < (encode path).length then .error (.pathTooLong "member path")
      else if isDirectory then
        addEntry limits s ⟨path, true, 0, none, some (entryMode directory), none⟩ none
      else if maxSafeInteger < size ∨ limits.maxMemberSize < size then
        .error (.memberTooLarge path)
      else addEntry limits s
        ⟨path, false, size, none, some (entryMode directory), some (.member ⟨after, false⟩)⟩
        none := by
  cases isDirectory with
  | true =>
    rw [addMemberEntry]
    simp [entryHeader]
  | false =>
    cases directory with
    | true => cases hdirectory rfl
    | false =>
      have hone : ascii '0' ≠ ascii '1' := by decide
      have htwo : ascii '0' ≠ ascii '2' := by decide
      rw [addMemberEntry]
      simp [entryHeader, entryFlag, hone, htwo]

variable {fallback : Bytes × Bytes}

theorem readMember_entry {s : Scan} (hpending : s.pendingLinks = [])
    (hname : s.longName = none) (hlink : s.longLink = none) (hglobal : s.globalPax = [])
    (hlocal : LocalFor (writtenPath archivePath directory) size s.localPax)
    (hdata : paddedSize size = .ok data.length) :
    readMember R limits s header (entryHeader R.invalid
        ((splitUstarPath (encode (writtenPath archivePath directory))).getD fallback)
        (entryFlag directory) size (entryMode directory)) (data ++ rest) =
      (indexEntry R limits s.entries archivePath directory size (data ++ rest)).map fun s =>
        (s, data.length) := by
  have hsize := (paddedSize_eq_ok hdata).1.trans (paddedSize_eq_ok hdata).2
  have hattrs := memberAttributes_entryHeader R.invalid fallback (entryFlag directory)
    (entryMode directory) hname hlink hglobal hlocal hsize
  have hsparse : paxAttribute s.globalPax s.localPax .sparse = none := by
    rw [hglobal, paxAttribute_localFor hlocal]
    exact (get_paxAttrs _ _).2.2 .sparse (by decide) (by decide)
  have hflagS : (entryHeader R.invalid
      ((splitUstarPath (encode (writtenPath archivePath directory))).getD fallback)
      (entryFlag directory) size (entryMode directory)).typeFlag ≠ ascii 'S' :=
    entryFlag_ne directory (by decide)
  have hlong : ¬ (data ++ rest).length - 0 < data.length := by
    rw [length_append]
    omega
  have hclean : { s with longName := none, longLink := none, localPax := none } =
      ({ entries := s.entries } : Scan) := by
    cases s
    rw [hpending, hglobal]
  rw [readMember, hattrs]
  simp only [bind, Except.bind, hflagS, false_and, if_false, hdata, hlong, hsparse, hclean,
    decide_false, Bool.false_or, drop_zero]
  rw [indexEntry]
  cases hpath : normalizeArchiveEntryPath
      (readName R.invalid (writtenPath archivePath directory)) with
  | none =>
    dsimp only [Except.map]
    rw [zero_add]
  | some path =>
    have hdecide : decide (none = some ['1']) = false := rfl
    dsimp only
    have hflag : (decide ((entryHeader R.invalid ((splitUstarPath
        (encode (writtenPath archivePath directory))).getD fallback) (entryFlag directory) size
          (entryMode directory)).typeFlag = ascii '5') ||
        decide ((readName R.invalid (writtenPath archivePath directory)).getLast? = some '/')) =
        decide (directory = true ∨
          (readName R.invalid (writtenPath archivePath directory)).getLast? = some '/') := by
      cases directory with
      | true => simp [entryHeader, entryFlag]
      | false =>
        have hne : ascii '0' ≠ ascii '5' := by decide
        simp [entryHeader, entryFlag, hne]
    rw [hdecide, hflag, addMemberEntry_entry fun h => decide_eq_true (.inl h), zero_add]
    simp only [decide_eq_true_eq]
    generalize (if limits.maxPathBytes < (encode path).length then _ else _) = indexed
    cases indexed <;> rfl

theorem paddedSize_header {blocks : ℕ} (h : paddedSize size = .ok blocks) :
    ∃ taken ≤ blocks, paddedSize (if size ≤ maxOctalSize then size else 0) = .ok taken := by
  split
  · exact ⟨blocks, le_rfl, h⟩
  · exact ⟨0, Nat.zero_le _, rfl⟩

theorem readRecord_entry {s : Scan} (hpending : s.pendingLinks = [])
    (hname : s.longName = none) (hlink : s.longLink = none) (hglobal : s.globalPax = [])
    (hlocal : LocalFor (writtenPath archivePath directory) size s.localPax)
    (hdata : paddedSize size = .ok data.length)
    (h : makeHeader
      ((splitUstarPath (encode (writtenPath archivePath directory))).getD fallback).1
      ((splitUstarPath (encode (writtenPath archivePath directory))).getD fallback).2
      (if size ≤ maxOctalSize then size else 0) 0 (entryMode directory) (entryFlag directory) =
        .ok header) :
    readRecord R limits s header (data ++ rest) =
      (indexEntry R limits s.entries archivePath directory size (data ++ rest)).map fun s =>
        (s, data.length) := by
  have hzero : entryFlag directory ≠ 0 := by
    cases directory <;> decide
  obtain ⟨-, -, hread⟩ := readHeader_makeHeader R.invalid hzero h
  obtain ⟨taken, htaken, hpadded⟩ := paddedSize_header hdata
  have hlong : ¬ (data ++ rest).length < taken := by
    rw [length_append]
    omega
  have hheader : readHeader R.invalid header = .ok (entryHeader R.invalid
      ((splitUstarPath (encode (writtenPath archivePath directory))).getD fallback)
      (entryFlag directory) size (entryMode directory)) := hread
  have hflag (c : Char) (hc : ascii c ≠ ascii '5' ∧ ascii c ≠ ascii '0') :
      (entryHeader R.invalid
        ((splitUstarPath (encode (writtenPath archivePath directory))).getD fallback)
        (entryFlag directory) size (entryMode directory)).typeFlag ≠ ascii c :=
    entryFlag_ne directory hc
  have hsize : paddedSize (entryHeader R.invalid
      ((splitUstarPath (encode (writtenPath archivePath directory))).getD fallback)
      (entryFlag directory) size (entryMode directory)).size = .ok taken := hpadded
  rw [readRecord, hheader]
  simp only [bind, Except.bind, hsize, hlong, if_false, hflag 'L' (by decide),
    hflag 'K' (by decide), hflag 'N' (by decide), hflag 'x' (by decide), hflag 'X' (by decide),
    hflag 'g' (by decide), hflag 'M' (by decide), or_self]
  exact readMember_entry hpending hname hlink hglobal hlocal hdata

theorem entryFlag_ne_zero (directory : Bool) : entryFlag directory ≠ 0 := by
  cases directory <;> decide

/-- The size that is written for an entry. -/
def entrySize (payload : Bytes) (directory : Bool) : ℕ := if directory then 0 else payload.length

theorem paxAttrs_of_nil {path : Text} (h : paxRecords path size = []) : paxAttrs path size = [] := by
  have hne (key value : Text) : makePaxRecord key value ≠ [] := by
    intro hnil
    have hcount := paxLength_eq (encode (key ++ '=' :: value ++ ['\n'])).length
    rw [← length_makePaxRecord, hnil, length_nil] at hcount
    omega
  rw [paxRecords, append_eq_nil_iff] at h
  rw [paxAttrs]
  obtain ⟨hpath, hsize⟩ := h
  split at hpath
  · exact absurd hpath (hne _ _)
  next hsplit =>
  split at hsize
  · exact absurd hsize (hne _ _)
  next hbig =>
  rw [if_neg hsplit, if_neg hbig]
  rfl

variable {sequence : ℕ}

theorem tarEntry_eq_ok {payload bytes : Bytes}
    (h : tarEntry archivePath payload directory sequence = .ok bytes) :
    ∃ pax header data fallback,
      paxEntry (paxRecords (writtenPath archivePath directory) (entrySize payload directory))
        sequence = .ok pax ∧
      makeHeader ((splitUstarPath (encode (writtenPath archivePath directory))).getD fallback).1
        ((splitUstarPath (encode (writtenPath archivePath directory))).getD fallback).2
        (if entrySize payload directory ≤ maxOctalSize then entrySize payload directory else 0) 0
        (entryMode directory) (entryFlag directory) = .ok header ∧
      (∃ count, data = (if directory then [] else payload) ++ zeros count) ∧
      paddedSize (entrySize payload directory) = .ok data.length ∧
      bytes = pax ++ header ++ data := by
  rw [tarEntry] at h
  obtain ⟨pax, hpax, h⟩ := bind_eq_ok.mp h
  obtain ⟨header, hheader, h⟩ := bind_eq_ok.mp h
  obtain ⟨data, hdata, h⟩ := bind_eq_ok.mp h
  injection h with h
  refine ⟨pax, header, data, _, hpax, hheader, ?_, ?_, h.symm⟩
  · cases directory with
    | true =>
      injection hdata with hdata
      exact ⟨0, hdata.symm⟩
    | false =>
      obtain ⟨count, heq, -⟩ := paddedPayload_eq_ok hdata
      exact ⟨count, heq⟩
  cases directory with
  | true =>
    injection hdata with hdata
    rw [← hdata]
    rfl
  | false => exact (paddedPayload_eq_ok hdata).choose_spec.2

theorem paxEntry_cases {records pax : Bytes} (h : paxEntry records sequence = .ok pax) :
    records.length ≤ maxSafeInteger ∧ (records = [] ∧ pax = [] ∨
      ∃ paxName paxHeader paxData,
        makeHeader paxName [] records.length 0 0o644 (ascii 'x') = .ok paxHeader ∧
        paddedPayload records = .ok paxData ∧ pax = paxHeader ++ paxData) := by
  rw [paxEntry] at h
  split at h
  · next hnil =>
    injection h with h
    rw [hnil]
    exact ⟨Nat.zero_le _, .inl ⟨rfl, h.symm⟩⟩
  obtain ⟨paxPayload, hconcat, h⟩ := bind_eq_ok.mp h
  rw [concatBytes] at hconcat
  split at hconcat
  · cases hconcat
  next hsafe =>
  cases hconcat
  obtain ⟨paxHeader, hheader, h⟩ := bind_eq_ok.mp h
  obtain ⟨paxData, hdata, h⟩ := bind_eq_ok.mp h
  injection h with h
  exact ⟨Nat.le_of_not_lt hsafe, .inr ⟨_, paxHeader, paxData, hheader, hdata, h.symm⟩⟩

theorem readLoop_entry {s : Scan} (hpending : s.pendingLinks = [])
    (hname : s.longName = none) (hlink : s.longLink = none) (hglobal : s.globalPax = [])
    (hlocal : LocalFor (writtenPath archivePath directory) size s.localPax)
    (hdata : paddedSize size = .ok data.length)
    (h : makeHeader
      ((splitUstarPath (encode (writtenPath archivePath directory))).getD fallback).1
      ((splitUstarPath (encode (writtenPath archivePath directory))).getD fallback).2
      (if size ≤ maxOctalSize then size else 0) 0 (entryMode directory) (entryFlag directory) =
        .ok header) :
    readLoop R limits s (header ++ (data ++ rest)) =
      indexEntry R limits s.entries archivePath directory size (data ++ rest) >>= fun s =>
        readLoop R limits s rest := by
  rw [readLoop_makeHeader (entryFlag_ne_zero directory) h,
    readRecord_entry hpending hname hlink hglobal hlocal hdata h]
  cases indexEntry R limits s.entries archivePath directory size (data ++ rest) with
  | error => rfl
  | ok s =>
    change readLoop R limits s ((data ++ rest).drop data.length) = readLoop R limits s rest
    rw [drop_left' rfl]

/-- An entry in front of others is read as one member; a path that is too long for its PAX record
is refused. -/
theorem readLoop_tarEntry {payload bytes : Bytes}
    (h : tarEntry archivePath payload directory sequence = .ok bytes)
    (hindex : (paxRecords (writtenPath archivePath directory)
      (entrySize payload directory)).length ≤ limits.maxIndexSize) :
    ∃ data : Bytes, (∃ count, data = (if directory then [] else payload) ++ zeros count) ∧
      ∀ entries tail,
        (PaxPathFits limits (writtenPath archivePath directory) →
          readLoop R limits { entries } (bytes ++ tail) =
            indexEntry R limits entries archivePath directory (entrySize payload directory)
              (data ++ tail) >>= fun s => readLoop R limits s tail) ∧
        (¬ PaxPathFits limits (writtenPath archivePath directory) →
          readLoop R limits { entries } (bytes ++ tail) = .error (.pathTooLong "PAX path")) := by
  obtain ⟨pax, header, data, fallback, hpax, hheader, hdata, hpadded, rfl⟩ := tarEntry_eq_ok h
  obtain ⟨hsafe, hpax⟩ := paxEntry_cases hpax
  have hsize := (paddedSize_eq_ok hpadded).1.trans (paddedSize_eq_ok hpadded).2
  refine ⟨data, hdata, fun entries tail => ?_⟩
  rcases hpax with ⟨hnil, rfl⟩ | ⟨paxName, paxHeader, paxData, hpaxHeader, hpaxData, rfl⟩
  · have hattrs := paxAttrs_of_nil hnil
    have hread : readLoop R limits { entries } ([] ++ header ++ data ++ tail) = _ :=
      (congrArg _ (append_assoc header data tail)).trans
        (readLoop_entry rfl rfl rfl rfl (.inl ⟨rfl, hattrs⟩) hpadded hheader)
    refine ⟨fun _ => hread, fun hfits => absurd (fun hsplit => ?_) hfits⟩
    -- without records the path is in the header
    rw [paxAttrs, hsplit] at hattrs
    cases hattrs
  have hbytes : paxHeader ++ paxData ++ header ++ data ++ tail =
      paxHeader ++ (paxData ++ (header ++ (data ++ tail))) := by
    simp
  have hpaxRead : readLoop R limits { entries } (paxHeader ++ (paxData ++ (header ++
      (data ++ tail)))) = _ := readLoop_makeHeader (by decide) hpaxHeader
  rw [readRecord_pax hpaxHeader hpaxData] at hpaxRead
  rw [hbytes, hpaxRead]
  refine ⟨fun hfits => ?_, fun hfits => ?_⟩
  · rw [parsePaxRecords_paxRecords R.invalid hsize hsafe hindex hfits]
    change readLoop R limits { entries, localPax := some _ }
      ((paxData ++ (header ++ (data ++ tail))).drop paxData.length) = _
    rw [drop_left' rfl]
    exact readLoop_entry rfl rfl rfl rfl (.inr rfl) hpadded hheader
  rw [parsePaxRecords_tooLong R.invalid hsafe hindex hfits]
  rfl

end Entry

end BreadboardTui.Tar
