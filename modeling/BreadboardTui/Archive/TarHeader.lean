import BreadboardTui.Archive.TarPaths

/-!
# Headers

A header that the writer makes is read with the fields it was made from.
-/

namespace BreadboardTui.Tar

open List

open Utf8

theorem bind_eq_ok {ε α β : Type} {x : Except ε α} {f : α → Except ε β} {b : β} :
    x >>= f = .ok b ↔ ∃ a, x = .ok a ∧ f a = .ok b := by
  constructor
  · intro h
    cases x with
    | error => cases h
    | ok a => exact ⟨a, rfl, h⟩
  rintro ⟨a, rfl, h⟩
  exact h

/-! ### Octal numbers -/

variable {n : ℕ}

theorem octal_of_mem_toDigits {c : Char} (h : c ∈ Nat.toDigits 8 n) :
    ∃ d < 8, c = Nat.digitChar d := by
  induction n using Nat.strong_induction_on with
  | _ n ih =>
    rw [Nat.toDigits_eq_if (by decide)] at h
    split at h
    · next hlt =>
      rw [mem_singleton] at h
      exact ⟨n, hlt, h⟩
    next hge =>
    rcases mem_append.mp h with h | h
    · exact ih (n / 8) (by omega) h
    rw [mem_singleton] at h
    exact ⟨n % 8, Nat.mod_lt _ (by decide), h⟩

theorem octalStep_digit {d : ℕ} (h : d < 8) (value : ℤ) :
    octalStep value (ascii (Nat.digitChar d)) = value * 8 + d := by
  interval_cases d <;> rfl

theorem foldl_octalStep_toDigits (n : ℕ) :
    ((Nat.toDigits 8 n).map ascii).foldl octalStep 0 = n := by
  induction n using Nat.strong_induction_on with
  | _ n ih =>
    rw [Nat.toDigits_eq_if (by decide)]
    split
    · next hlt =>
      rw [map_singleton, foldl_cons, foldl_nil, octalStep_digit hlt]
      omega
    next hge =>
    rw [map_append, List.foldl_append, ih (n / 8) (by omega), map_singleton,
      foldl_cons, foldl_nil, octalStep_digit (Nat.mod_lt _ (by decide))]
    omega

theorem foldl_octalStep_zeros (count : ℕ) :
    (List.replicate count (ascii '0')).foldl octalStep 0 = 0 := by
  induction count with
  | zero => rfl
  | succ count ih =>
    rw [replicate_succ, foldl_cons]
    exact ih

/-- Digits, with zeros in front and what is no digit behind. -/
def octalBytes (count n : ℕ) (tail : Bytes) : Bytes :=
  List.replicate count (ascii '0') ++ (Nat.toDigits 8 n).map ascii ++ tail

variable {tail : Bytes}

theorem foldl_octalStep_tail (h : ∀ byte ∈ tail, byte < 0x30) (value : ℤ) :
    tail.foldl octalStep value = value := by
  induction tail with
  | nil => rfl
  | cons byte tail ih =>
    have hbyte : ¬ (0x30 ≤ byte ∧ byte ≤ 0x37) := fun hdigit =>
      absurd (h byte mem_cons_self) (UInt8.not_lt.mpr hdigit.1)
    rw [foldl_cons, octalStep, if_neg hbyte]
    exact ih fun b hb => h b (mem_cons_of_mem _ hb)

theorem foldl_octalBytes (count n : ℕ) (h : ∀ byte ∈ tail, byte < 0x30) :
    (octalBytes count n tail).foldl octalStep 0 = n := by
  rw [octalBytes, List.foldl_append, List.foldl_append, foldl_octalStep_zeros,
    foldl_octalStep_toDigits, foldl_octalStep_tail h]

theorem octalBytes_eq_cons (count n : ℕ) (tail : Bytes) :
    ∃ d < 8, ∃ rest, octalBytes count n tail = ascii (Nat.digitChar d) :: rest := by
  rw [octalBytes]
  cases count with
  | succ => exact ⟨0, by decide, _, rfl⟩
  | zero =>
    cases hdigits : Nat.toDigits 8 n with
    | nil => exact absurd hdigits Nat.toDigits_ne_nil
    | cons c =>
      obtain ⟨d, hd, rfl⟩ := octal_of_mem_toDigits (n := n) (c := c) (by
        rw [hdigits]
        exact mem_cons_self)
      exact ⟨d, hd, _, rfl⟩

variable {length : ℕ} {header : Bytes} {offset : ℕ}

theorem readTarNumeric_octal {count : ℕ} (htail : ∀ byte ∈ tail, byte < 0x30)
    (h : field header offset length = octalBytes count n tail) :
    readTarNumeric header offset length = n := by
  have hvalue := foldl_octalBytes count n htail
  obtain ⟨d, hd, rest, hcons⟩ := octalBytes_eq_cons count n tail
  have hhigh : ascii (Nat.digitChar d) &&& 0x80 = 0 := by
    interval_cases d <;> rfl
  rw [readTarNumeric, h]
  rw [hcons] at hvalue ⊢
  simp only [hhigh, ne_eq, not_true_eq_false, if_false]
  exact hvalue

/-! ### Fields that were written -/

variable {value : Bytes} {bytes : Bytes}

theorem writeField_eq_ok (h : writeField length value = .ok bytes) :
    bytes.length = length ∧ bytes = value ++ zeros (length - value.length) := by
  rw [writeField] at h
  split at h
  · cases h
  next hle =>
  injection h with h
  refine ⟨?_, h.symm⟩
  rw [← h, length_append, zeros, length_replicate]
  omega

theorem writeOctal_eq_ok {value : ℕ} (hlength : 0 < length)
    (h : writeOctal length value = .ok bytes) : bytes.length = length ∧ value ≤ maxSafeInteger ∧
      ∃ count, bytes = octalBytes count value [0] := by
  rw [writeOctal] at h
  split at h
  · cases h
  next hsafe =>
  split at h
  · cases h
  next hfits =>
  injection h with h
  refine ⟨?_, Nat.le_of_not_lt hsafe, _, h.symm⟩
  rw [← h]
  simp only [length_append, length_replicate, length_map, length_singleton] at hfits ⊢
  omega

theorem takeWhile_padded (value : Bytes) (count : ℕ) :
    (value ++ zeros count).takeWhile (· ≠ 0) = value.takeWhile (· ≠ 0) := by
  induction value with
  | nil =>
    cases count with
    | zero => rfl
    | succ => rfl
  | cons byte value ih =>
    rw [cons_append, takeWhile_cons, takeWhile_cons, ih]

/-! ### Where the fields are -/

/-- The lengths of the fields that differ from header to header. -/
structure FieldLengths (name mode uid gid size mtime checksum namePrefix : Bytes) : Prop where
  name : name.length = 100
  mode : mode.length = 8
  uid : uid.length = 8
  gid : gid.length = 8
  size : size.length = 12
  mtime : mtime.length = 12
  checksum : checksum.length = 8
  namePrefix : namePrefix.length = 155

theorem field_flatten (fields : List Bytes) {index : ℕ}
    (hvalue : fields[index]? = some value) (hoffset : (fields.take index).flatten.length = offset)
    (hlength : value.length = length) : field fields.flatten offset length = value := by
  obtain ⟨hlt, hget⟩ := List.getElem?_eq_some_iff.mp hvalue
  have hfields : fields.flatten =
      (fields.take index).flatten ++ (value ++ (fields.drop (index + 1)).flatten) := by
    rw [← flatten_cons, ← hget, ← drop_eq_getElem_cons hlt, ← flatten_append, take_append_drop]
  rw [field, hfields, drop_left' hoffset, take_left' hlength]

section Fields

variable {name mode uid gid size mtime checksum namePrefix : Bytes}

theorem length_headerFields
    (typeFlag : UInt8) (h : FieldLengths name mode uid gid size mtime checksum namePrefix) :
    (headerFields name mode uid gid size mtime checksum typeFlag namePrefix).flatten.length =
      512 := by
  simp only [headerFields, flatten_cons, flatten_nil, length_append,
    length_nil, length_singleton, h.name, h.mode, h.uid, h.gid, h.size, h.mtime,
    h.checksum, h.namePrefix, zeros, length_replicate]
  rfl

/-- A field, where `offset` is the sum of the lengths in front. -/
theorem field_headerFields (typeFlag : UInt8)
    (h : FieldLengths name mode uid gid size mtime checksum namePrefix) :
    let header := (headerFields name mode uid gid size mtime checksum typeFlag namePrefix).flatten
    field header 0 100 = name ∧ field header 100 8 = mode ∧ field header 124 12 = size ∧
      field header 136 12 = mtime ∧ field header 148 8 = checksum ∧
      field header 156 1 = [typeFlag] ∧ field header 157 100 = zeros 100 ∧
      field header 257 6 = encode "ustar\x00".toList ∧ field header 263 2 = encode "00".toList ∧
      field header 345 155 = namePrefix := by
  have hmap : (headerFields name mode uid gid size mtime checksum typeFlag namePrefix).map
      List.length = [100, 8, 8, 8, 12, 12, 8, 1, 100, 6, 2, 80, 155, 12] := by
    simp only [headerFields, map_cons, map_nil, h.name, h.mode, h.uid, h.gid, h.size,
      h.mtime, h.checksum, h.namePrefix, zeros, length_replicate, length_singleton]
    rfl
  have hfield (index : ℕ) {offset length : ℕ} {value : Bytes}
      (hvalue : (headerFields name mode uid gid size mtime checksum typeFlag namePrefix)[index]? =
        some value)
      (hoffset : ([100, 8, 8, 8, 12, 12, 8, 1, 100, 6, 2, 80, 155, 12].take index).sum = offset)
      (hlength : value.length = length) :
      field (headerFields name mode uid gid size mtime checksum typeFlag namePrefix).flatten
        offset length = value := by
    refine field_flatten _ hvalue ?_ hlength
    rw [length_flatten, map_take, hmap, hoffset]
  exact ⟨hfield 0 rfl rfl h.name, hfield 1 rfl rfl h.mode, hfield 4 rfl rfl h.size,
    hfield 5 rfl rfl h.mtime, hfield 6 rfl rfl h.checksum, hfield 7 rfl rfl rfl,
    hfield 8 rfl rfl rfl, hfield 9 rfl rfl rfl, hfield 10 rfl rfl rfl,
    hfield 12 rfl rfl h.namePrefix⟩

theorem counted_headerFields
    (typeFlag : UInt8) (h : FieldLengths name mode uid gid size mtime checksum namePrefix) :
    let header := (headerFields name mode uid gid size mtime checksum typeFlag namePrefix).flatten
    header.take 148 ++ blankChecksum ++ header.drop 156 =
      (headerFields name mode uid gid size mtime blankChecksum typeFlag namePrefix).flatten := by
  have hsplit (c : Bytes) :
      (headerFields name mode uid gid size mtime c typeFlag namePrefix).flatten =
        (name ++ mode ++ uid ++ gid ++ size ++ mtime) ++ (c ++
          ([typeFlag] ++ (zeros 100 ++ (encode "ustar\x00".toList ++ (encode "00".toList ++
            (zeros 80 ++ (namePrefix ++ zeros 12))))))) := by
    simp [headerFields]
  have hlength : (name ++ mode ++ uid ++ gid ++ size ++ mtime).length = 148 := by
    simp [h.name, h.mode, h.uid, h.gid, h.size, h.mtime]
  dsimp only
  rw [hsplit checksum, hsplit blankChecksum, take_left' hlength, ← append_assoc _ checksum,
    drop_left', append_assoc]
  rw [length_append, hlength, h.checksum]

end Fields

/-! ### Checksums -/

theorem byteSum_le (bytes : Bytes) : byteSum bytes ≤ 255 * bytes.length := by
  induction bytes with
  | nil => exact le_rfl
  | cons byte bytes ih =>
    have hbyte := byte.toNat_lt
    rw [byteSum] at ih ⊢
    rw [map_cons, sum_cons, length_cons]
    omega

theorem checksumField_eq {sum : ℕ} (h : sum < 8 ^ 6) : (checksumField sum).length = 8 ∧
      ∃ count, checksumField sum = octalBytes count sum [0, ascii ' '] := by
  have hle : (Nat.toDigits 8 sum).length ≤ 6 := (Nat.length_toDigits_le_iff (by decide)
    (by decide)).mpr h
  have htake : (List.replicate (6 - ((Nat.toDigits 8 sum).map ascii).length) (ascii '0') ++
      (Nat.toDigits 8 sum).map ascii).length = 6 := by
    rw [length_append, length_replicate, length_map]
    omega
  have hfield : checksumField sum =
      octalBytes (6 - ((Nat.toDigits 8 sum).map ascii).length) sum [0, ascii ' '] := by
    rw [checksumField, octalBytes, take_of_length_le (Nat.le_of_eq htake)]
  refine ⟨?_, _, hfield⟩
  rw [hfield, octalBytes, length_append, htake]
  rfl

/-! ### What a header is read as -/

theorem isSafeInteger_natCast (h : n ≤ maxSafeInteger) : isSafeInteger n = true := by
  rw [isSafeInteger, Int.natAbs_natCast]
  exact decide_eq_true h

theorem readTarString_eq (invalid : Bytes → Text) {count : ℕ}
    (h : field header offset length = value ++ zeros count) :
    readTarString invalid header offset length = readField invalid value := by
  rw [readTarString, h, takeWhile_padded, readField]

/-- A header that is made is read with what it was made from. -/
theorem readHeader_makeHeader {name namePrefix : Bytes} {size mtime mode : ℕ}
    {typeFlag : UInt8} (invalid : Bytes → Text) (hflag : typeFlag ≠ 0)
    (h : makeHeader name namePrefix size mtime mode typeFlag = .ok header) :
    header.length = 512 ∧ isZeroBlock header = false ∧
      readHeader invalid header = .ok {
        typeFlag, size, mtime
        name := if readField invalid namePrefix ≠ [] then
            readField invalid namePrefix ++ '/' :: readField invalid name
          else readField invalid name
        linkName := []
        mode := some mode } := by
  rw [makeHeader] at h
  obtain ⟨nameField, hname, h⟩ := bind_eq_ok.mp h
  obtain ⟨modeField, hmode, h⟩ := bind_eq_ok.mp h
  obtain ⟨uid, huid, h⟩ := bind_eq_ok.mp h
  obtain ⟨gid, hgid, h⟩ := bind_eq_ok.mp h
  obtain ⟨sizeField, hsize, h⟩ := bind_eq_ok.mp h
  obtain ⟨mtimeField, hmtime, h⟩ := bind_eq_ok.mp h
  obtain ⟨prefixField, hpre, h⟩ := bind_eq_ok.mp h
  injection h with h
  obtain ⟨hnameLength, hname⟩ := writeField_eq_ok hname
  obtain ⟨hprefixLength, hpre⟩ := writeField_eq_ok hpre
  obtain ⟨hmodeLength, hmodeSafe, modeZeros, hmode⟩ := writeOctal_eq_ok (by decide) hmode
  obtain ⟨huidLength, -⟩ := writeOctal_eq_ok (by decide) huid
  obtain ⟨hgidLength, -⟩ := writeOctal_eq_ok (by decide) hgid
  obtain ⟨hsizeLength, hsizeSafe, sizeZeros, hsize⟩ := writeOctal_eq_ok (by decide) hsize
  obtain ⟨hmtimeLength, hmtimeSafe, mtimeZeros, hmtime⟩ := writeOctal_eq_ok (by decide) hmtime
  -- the checksum has at most six digits
  have hblank : FieldLengths nameField modeField uid gid sizeField mtimeField blankChecksum
      prefixField :=
    ⟨hnameLength, hmodeLength, huidLength, hgidLength, hsizeLength, hmtimeLength, rfl,
      hprefixLength⟩
  have hsum := byteSum_le (headerFields nameField modeField uid gid sizeField mtimeField
    blankChecksum typeFlag prefixField).flatten
  rw [length_headerFields typeFlag hblank] at hsum
  obtain ⟨hchecksumLength, checksumZeros, hchecksum⟩ :=
    checksumField_eq (lt_of_le_of_lt hsum (by decide))
  have hlengths : FieldLengths nameField modeField uid gid sizeField mtimeField
      (checksumField (byteSum (headerFields nameField modeField uid gid sizeField mtimeField
        blankChecksum typeFlag prefixField).flatten)) prefixField :=
    ⟨hnameLength, hmodeLength, huidLength, hgidLength, hsizeLength, hmtimeLength,
      hchecksumLength, hprefixLength⟩
  have hfields := field_headerFields typeFlag hlengths
  have hcounted := counted_headerFields typeFlag hlengths
  have hlength := length_headerFields typeFlag hlengths
  have hheader : (headerFields nameField modeField uid gid sizeField mtimeField
      (checksumField (byteSum (headerFields nameField modeField uid gid sizeField mtimeField
        blankChecksum typeFlag prefixField).flatten)) typeFlag prefixField).flatten = header := h
  rw [hheader] at hfields hcounted hlength
  obtain ⟨fname, fmode, fsize, fmtime, fchecksum, fflag, flink, fmagic, fversion, fpathPrefix⟩ :=
    hfields
  have htail : ∀ byte ∈ ([0] : Bytes), byte < 0x30 := by
    rw [forall_mem_singleton]
    exact Nat.succ_pos _
  have htail' : ∀ byte ∈ [0, ascii ' '], byte < 0x30 := by
    rw [forall_mem_cons, forall_mem_singleton]
    exact ⟨Nat.succ_pos _, by decide⟩
  have hget : header[156]? = some typeFlag := by
    have hflagField := congrArg (fun bytes : Bytes => bytes[0]?) fflag
    simpa [field, getElem?_take, getElem?_drop] using hflagField
  refine ⟨hlength, ?_, ?_⟩
  · rw [isZeroBlock, Bool.eq_false_iff]
    intro hall
    exact hflag (of_decide_eq_true (all_eq_true.mp hall _ (mem_of_getElem? hget)))
  have hmatches : checksumMatches header = true := by
    rw [checksumMatches, hcounted, readTarNumeric_octal htail' (fchecksum.trans hchecksum)]
    simp
  have hsizeRead : readTarSize header = .ok size := by
    rw [readTarSize, readTarNumeric_octal htail (fsize.trans hsize)]
    simp [isSafeInteger_natCast hsizeSafe]
  have hustar : isUstarHeader header = true := by
    rw [isUstarHeader, fmagic, fversion]
    simp
  have hmodeRead : readTarNumeric header 100 8 = mode :=
    readTarNumeric_octal htail (fmode.trans hmode)
  have hmtimeRead : readTarNumeric header 136 12 = mtime :=
    readTarNumeric_octal htail (fmtime.trans hmtime)
  have hnameRead := readTarString_eq invalid (fname.trans hname)
  have hprefixRead := readTarString_eq invalid (fpathPrefix.trans hpre)
  have hlinkRead : readTarString invalid header 157 100 = [] := by
    have hzeros : field header 157 100 = [] ++ zeros 100 := flink
    rw [readTarString_eq invalid hzeros, ← encode_nil, readField_encode]
    rfl
  rw [readHeader, if_neg (by simp [hmatches]), hsizeRead]
  simp [hget, hflag, hustar, hnameRead, hprefixRead, hlinkRead, hmodeRead, hmtimeRead,
    isSafeInteger_natCast hmodeSafe, bind, Except.bind]

end BreadboardTui.Tar
