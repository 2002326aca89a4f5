import BreadboardTui.Archive.ZipRecords

/-!
# Finding the directory of a zip archive

The end record that the writer writes is at the very end, so it is the first place where the reader
looks. In front of it stands the locator of the second end record, or else the end of the directory,
which is the name of the last member: if that looks like a locator, the reader takes it for one.
-/

namespace BreadboardTui.Zip

open List

open Utf8
open Tar (ArchiveLimits normalizeArchiveEntryPath isDirectoryName)

theorem readRange_middle {source middle : Bytes} (front back : Bytes) {start stop : ℕ}
    (hsource : source = front ++ (middle ++ back)) (hstart : start = front.length)
    (hstop : stop = front.length + middle.length) : readRange source start stop = .ok middle := by
  subst hsource hstart hstop
  rw [readRange, if_neg (by omega), if_neg (by simp only [length_append]; omega),
    drop_left, Nat.add_sub_cancel_left, take_left]

variable {front : Bytes} {length : ℕ}

theorem readUInt16LE_append (h : front.length = length) (rest : Bytes) (offset : ℕ) :
    readUInt16LE (front ++ rest) (length + offset) = readUInt16LE rest offset :=
  readLE_append h rest offset 2

theorem readUInt32LE_append (h : front.length = length) (rest : Bytes) (offset : ℕ) :
    readUInt32LE (front ++ rest) (length + offset) = readUInt32LE rest offset :=
  readLE_append h rest offset 4

/-! ### The end record -/

variable {count centralSize localSize : ℕ}

theorem length_eocd : (fields (eocd count centralSize localSize)).length = 22 := by
  rw [length_fields]
  simp [eocd, widths]

theorem findEocd_append (rest : Bytes) (hcount : count < 256 ^ 2) (hcentral : centralSize < 256 ^ 4)
    (hlocal : localSize < 256 ^ 4) :
    findEocd (rest ++ fields (eocd count centralSize localSize)) = .ok rest.length := by
  obtain ⟨hsignature, -, -, -, -, -, -, hcomment⟩ := read_eocd hcount hcentral hlocal []
  rw [append_nil] at hsignature hcomment
  have hlength : (rest ++ fields (eocd count centralSize localSize)).length = rest.length + 22 := by
    rw [length_append, length_eocd]
  have hfirst : readUInt32LE (rest ++ fields (eocd count centralSize localSize)) rest.length =
      eocdSignature := by
    rw [← add_zero rest.length, readUInt32LE_append rfl, hsignature]
  have hzero : readUInt16LE (rest ++ fields (eocd count centralSize localSize))
      (rest.length + 20) = 0 := by rw [readUInt16LE_append rfl, hcomment]
  have hfrom : findEocdFrom (rest ++ fields (eocd count centralSize localSize)) rest.length =
      some rest.length := by
    cases hrest : rest.length with
    | zero =>
      rw [hrest] at hfirst hzero hlength
      rw [findEocdFrom, if_pos]
      exact ⟨hfirst, by rw [← zero_add 20, hzero, hlength]⟩
    | succ =>
      rw [hrest] at hfirst hzero hlength
      rw [findEocdFrom, if_pos]
      exact ⟨hfirst, by rw [hzero, hlength]⟩
  rw [findEocd, hlength, if_neg (by omega), Nat.add_sub_cancel, hfrom]

/-- Where the reader's tail starts. -/
def tailStart (length : ℕ) : ℕ := length - min length (22 + u16Max)

/-- What the end record says is used, unless there is a second one. -/
theorem endInfo_eq {body : Bytes} (hcount : count < 256 ^ 2) (hcentral : centralSize < u32Max)
    (hlocal : localSize < u32Max) {source : Bytes}
    (hsource : source = body ++ fields (eocd count centralSize localSize)) :
    endInfo source =
      (readZip64Info source (source.drop (tailStart source.length)) (tailStart source.length)
        body.length).bind fun zip64 =>
        match zip64 with
        | some info => .ok info
        | none =>
          if count = u16Max then .error .missingZip64Metadata
          else .ok ⟨count, localSize, centralSize, body.length, 0⟩ := by
  have hlength : source.length = body.length + 22 := by
    rw [hsource, length_append, length_eocd]
  rw [endInfo, if_neg (by omega), tailStart]
  obtain ⟨start, hstart⟩ : ∃ start, start = source.length - min source.length (22 + u16Max) :=
    ⟨_, rfl⟩
  have hle : start ≤ body.length := by omega
  have htail : source.drop start =
      body.drop start ++ fields (eocd count centralSize localSize) := by
    rw [hsource, drop_append_of_le_length hle]
  have hrange : readRange source start source.length = .ok (source.drop start) := by
    rw [readRange, if_neg (by omega), if_neg (by omega), ← length_drop, take_length]
  have hrest : (body.drop start).length = body.length - start := length_drop
  have hu32 : u32Max < 256 ^ 4 := by decide
  have hfind := findEocd_append (body.drop start) hcount (hcentral.trans hu32) (hlocal.trans hu32)
  obtain ⟨-, hdisk, hcentralDisk, hon, hentries, hsize, hoffset, -⟩ :=
    read_eocd hcount (hcentral.trans hu32) (hlocal.trans hu32) []
  rw [append_nil] at hdisk hcentralDisk hon hentries hsize hoffset
  have htailLength : (source.drop start).length = min source.length (22 + u16Max) := by
    rw [length_drop]
    omega
  have hsum : start + (body.drop start).length = body.length := by omega
  have hread16 : ∀ offset, readUInt16LE (body.drop start ++
      fields (eocd count centralSize localSize)) ((body.drop start).length + offset) =
        readUInt16LE (fields (eocd count centralSize localSize)) offset :=
    fun offset => readUInt16LE_append rfl _ offset
  have hread32 : ∀ offset, readUInt32LE (body.drop start ++
      fields (eocd count centralSize localSize)) ((body.drop start).length + offset) =
        readUInt32LE (fields (eocd count centralSize localSize)) offset :=
    fun offset => readUInt32LE_append rfl _ offset
  dsimp only
  rw [← hstart]
  rw [htail] at hrange htailLength ⊢
  rcases hinfo : readZip64Info source (body.drop start ++ fields (eocd count centralSize localSize))
    start body.length with err | (_ | info) <;>
    simp only [hrange, bind, Except.bind, htailLength, ne_eq, not_true, if_false, hfind, hread16,
      hread32, hdisk, hcentralDisk, hon, hentries, hsize, hoffset, and_false, or_false,
      hcentral.ne, hlocal.ne, or_self, hsum, hinfo]

/-! ### The locator -/

/-- A directory whose end looks like the locator of a second end record. -/
def ImitatesLocator (directory : Bytes) : Prop :=
  20 ≤ directory.length ∧
    readUInt32LE (directory.drop (directory.length - 20)) 0 = zip64LocatorSignature

section

variable {source body back : Bytes} {start : ℕ}

/-- What the reader takes for the locator is the end of what stands in front of the end record. -/
theorem readLocator_eq (hsource : source = body ++ back) (hlong : 20 ≤ body.length) :
    readLocator source (source.drop start) start (body.length - 20) =
      .ok (body.drop (body.length - 20)) := by
  have hlength : (body.drop (body.length - 20)).length = 20 := by
    rw [length_drop]
    omega
  have hsplit : source = body.take (body.length - 20) ++ (body.drop (body.length - 20) ++ back) := by
    rw [hsource, ← append_assoc, take_append_drop]
  have htake : (body.take (body.length - 20)).length = body.length - 20 := by
    rw [length_take]
    omega
  rw [readLocator]
  split
  · next hle =>
    rw [drop_drop, Nat.add_sub_cancel' hle]
    conv_lhs => rw [hsplit]
    rw [drop_left' htake, take_left' hlength]
  · exact readRange_middle _ _ hsplit htake.symm (by rw [htake, hlength])

theorem readZip64Info_of_no_locator (hsource : source = body ++ back) (hbody : 20 ≤ body.length →
      readUInt32LE (body.drop (body.length - 20)) 0 ≠ zip64LocatorSignature) :
    readZip64Info source (source.drop start) start body.length = .ok none := by
  rw [readZip64Info]
  split
  · rfl
  next hlong =>
  dsimp only
  rw [readLocator_eq hsource (not_lt.mp hlong), ok_bind, if_pos]
  exact .inr (hbody (not_lt.mp hlong))

theorem readZip64Info_of_locator {declaredOffset : ℕ} {info : CentralDirectoryInfo}
    (hsource : source = body ++ fields (zip64Locator declaredOffset) ++ back)
    (hsafe : declaredOffset ≤ maxSafeInteger)
    (hcandidates : ∀ others, readZip64Candidates source body.length (declaredOffset :: others) =
      .ok info) :
    readZip64Info source (source.drop start) start
      (body ++ fields (zip64Locator declaredOffset)).length = .ok (some info) := by
  have hwidth : (fields (zip64Locator declaredOffset)).length = 20 := by
    rw [length_fields]
    simp [zip64Locator, widths]
  have hlength : (body ++ fields (zip64Locator declaredOffset)).length = body.length + 20 := by
    rw [length_append, hwidth]
  have hlocator : readLocator source (source.drop start) start _ = _ :=
    readLocator_eq hsource (by omega)
  obtain ⟨hsignature, hdisk, hdeclared, hdisks⟩ := read_zip64Locator hsafe []
  rw [append_nil] at hsignature hdisk hdeclared hdisks
  rw [hlength, Nat.add_sub_cancel, drop_left] at hlocator
  rw [readZip64Info, hlength, if_neg (by omega), Nat.add_sub_cancel]
  dsimp only
  rw [hlocator, ok_bind, if_neg (not_or.mpr ⟨not_not.mpr hwidth, not_not.mpr hsignature⟩),
    if_neg (not_or.mpr ⟨not_not.mpr hdisk, not_not.mpr hdisks⟩), hdeclared, ok_bind, hcandidates,
    ok_bind]

end

/-- The second end record is where its locator says. -/
theorem readZip64Candidates_eq (back : Bytes) {locatorOffset : ℕ} {source : Bytes}
    (hsource : source = front ++ (fields (zip64Eocd count centralSize localSize) ++ back))
    (hlocator : locatorOffset = front.length + 56) (hcount : count ≤ maxSafeInteger)
    (hcentral : centralSize ≤ maxSafeInteger) (hlocal : localSize ≤ maxSafeInteger)
    (others : List ℕ) :
    readZip64Candidates source locatorOffset (front.length :: others) =
      .ok ⟨count, localSize, centralSize, front.length, 0⟩ := by
  have hwidth : (fields (zip64Eocd count centralSize localSize)).length = 56 := by
    rw [length_fields]
    simp [zip64Eocd, widths]
  have hlong : ¬ source.length < front.length + 56 := by
    rw [hsource, length_append, length_append, hwidth]
    omega
  have hrange : readRange source front.length (front.length + 56) =
      .ok (fields (zip64Eocd count centralSize localSize)) :=
    readRange_middle _ _ hsource rfl (by rw [hwidth])
  obtain ⟨hsignature, hsize, hdisk, hdisk', hon, hentries, hcentralSize, hlocalSize⟩ :=
    read_zip64Eocd hcount hcentral hlocal []
  rw [append_nil] at hsignature hsize hdisk hdisk' hon hentries hcentralSize hlocalSize
  have hextensible : ¬ (44 < 44 ∨ front.length + 12 + 44 ≠ locatorOffset) := by omega
  rw [readZip64Candidates, if_neg hlong, hrange, ok_bind,
    if_neg (not_or.mpr ⟨not_not.mpr hwidth, not_not.mpr hsignature⟩), hsize, ok_bind,
    if_neg hextensible, if_neg (not_or.mpr ⟨not_not.mpr hdisk, not_not.mpr hdisk'⟩), hon, ok_bind,
    hentries, ok_bind, if_neg (not_not.mpr rfl), hcentralSize, ok_bind, hlocalSize, ok_bind]

/-! ### The directory -/

/-- What the writer has made sure of at the end, and what the directory looks like. -/
structure Encoded (w : ZipWriter) : Prop where
  locals_lt : w.locals.length < u32Max
  centrals_lt : w.centrals.length < u32Max
  safe : w.locals.length + w.centrals.length + (trailer w).length ≤ maxSafeInteger
  long : 46 * w.count ≤ w.centrals.length
  signature : 0 < w.count → readUInt32LE w.centrals 0 = centralHeaderSignature
  empty : w.count = 0 → w.locals = []
  no_locator : w.count < u16Max → ¬ ImitatesLocator w.centrals

variable {w : ZipWriter}

def archiveOf (w : ZipWriter) : Bytes := w.locals ++ w.centrals ++ trailer w

theorem Encoded.endInfo (h : Encoded w) :
    endInfo (archiveOf w) = .ok ⟨w.count, w.locals.length, w.centrals.length,
      w.locals.length + w.centrals.length, 0⟩ := by
  have hsafe := h.safe
  by_cases hcount : u16Max ≤ w.count
  · have htrailer : trailer w = fields (zip64Eocd w.count w.centrals.length w.locals.length) ++
        fields (zip64Locator (w.locals.length + w.centrals.length)) ++
          fields (eocd u16Max w.centrals.length w.locals.length) := by rw [trailer, if_pos hcount]
    have hfront : (w.locals ++ w.centrals).length = w.locals.length + w.centrals.length :=
      length_append
    have hsource : archiveOf w = w.locals ++ w.centrals ++
        fields (zip64Eocd w.count w.centrals.length w.locals.length) ++
          fields (zip64Locator (w.locals.length + w.centrals.length)) ++
            fields (eocd u16Max w.centrals.length w.locals.length) := by
      rw [archiveOf, htrailer]
      simp
    have hwidth : (fields (zip64Eocd w.count w.centrals.length w.locals.length)).length = 56 := by
      rw [length_fields]
      simp [zip64Eocd, widths]
    have hlong := h.long
    have hcandidates : ∀ others, readZip64Candidates (archiveOf w)
        (w.locals ++ w.centrals ++
          fields (zip64Eocd w.count w.centrals.length w.locals.length)).length
        ((w.locals.length + w.centrals.length) :: others) =
          .ok ⟨w.count, w.locals.length, w.centrals.length,
            w.locals.length + w.centrals.length, 0⟩ := by
      intro others
      rw [← hfront]
      refine readZip64Candidates_eq
        (fields (zip64Locator (w.locals.length + w.centrals.length)) ++
          fields (eocd u16Max w.centrals.length w.locals.length)) ?_ ?_ ?_ ?_ ?_ others
      · rw [hsource]
        simp
      · rw [length_append, hwidth]
      · omega
      · omega
      · omega
    rw [endInfo_eq (by decide) h.centrals_lt h.locals_lt hsource,
      readZip64Info_of_locator hsource (by omega) hcandidates]
    rfl
  have htrailer : trailer w = fields (eocd w.count w.centrals.length w.locals.length) := by
    rw [trailer, if_neg hcount]
  have hsource : archiveOf w = w.locals ++ w.centrals ++
      fields (eocd w.count w.centrals.length w.locals.length) := by rw [archiveOf, htrailer]
  have hlt : w.count < 256 ^ 2 := (not_le.mp hcount).trans (by decide)
  have hbody : 20 ≤ (w.locals ++ w.centrals).length →
      readUInt32LE ((w.locals ++ w.centrals).drop ((w.locals ++ w.centrals).length - 20)) 0 ≠
        zip64LocatorSignature := by
    intro hlong hlocator
    have hlength : 20 ≤ w.centrals.length := by
      rcases eq_zero_or_pos w.count with hzero | hpos
      · rwa [h.empty hzero, nil_append] at hlong
      have := h.long
      omega
    refine h.no_locator (not_le.mp hcount) ⟨hlength, ?_⟩
    have hdrop : (w.locals ++ w.centrals).drop ((w.locals ++ w.centrals).length - 20) =
        w.centrals.drop (w.centrals.length - 20) := by
      rw [length_append, Nat.add_sub_assoc hlength, drop_append,
        drop_eq_nil_of_le (Nat.le_add_right _ _), Nat.add_sub_cancel_left, nil_append]
    rwa [hdrop] at hlocator
  rw [endInfo_eq hlt h.centrals_lt h.locals_lt hsource,
    readZip64Info_of_no_locator hsource hbody, ← length_append]
  change (if w.count = u16Max then _ else _) = _
  rw [if_neg (by omega)]

theorem Encoded.locate (h : Encoded w) {physicalEnd : ℕ} :
    locateCentralDirectory (archiveOf w) ⟨w.count, w.locals.length, w.centrals.length, physicalEnd,
      0⟩ = .ok w.locals.length := by
  rw [locateCentralDirectory]
  split
  · rfl
  next hcount =>
  dsimp only at hcount ⊢
  have hlong := h.long
  have hlength : (archiveOf w).length =
      w.locals.length + w.centrals.length + (trailer w).length := by
    rw [archiveOf, length_append, length_append]
  have hsource : archiveOf w = w.locals ++ (w.centrals.take 4 ++
      (w.centrals.drop 4 ++ trailer w)) := by
    rw [archiveOf, ← append_assoc (w.centrals.take 4), take_append_drop, append_assoc]
  have htake : (w.centrals.take 4).length = 4 := by
    rw [length_take]
    omega
  have hsignature : readUInt32LE (w.centrals.take 4) 0 = centralHeaderSignature := by
    rw [← h.signature (pos_of_ne_zero hcount), readUInt32LE, readUInt32LE, readLE, readLE,
      drop_zero, drop_zero, take_take, min_self]
  have hin : ¬ ((w.locals.length : ℤ) < 0 ∨ (archiveOf w).length < (w.locals.length : ℤ).toNat + 4 ∨
        (archiveOf w).length < (w.locals.length : ℤ).toNat + w.centrals.length) := by omega
  rw [locateFrom, if_neg hin, Int.toNat_natCast,
    readRange_middle _ _ hsource rfl (by rw [htake]), ok_bind, if_pos ⟨htake, hsignature⟩]

theorem Encoded.readCentralDirectoryInfo (h : Encoded w) {limits : ArchiveLimits}
    (hentries : w.count ≤ limits.maxEntries) (hindex : w.centrals.length ≤ limits.maxIndexSize) :
    readCentralDirectoryInfo (archiveOf w) limits =
      .ok ⟨w.count, w.locals.length, w.centrals.length, w.locals.length + w.centrals.length, 0⟩ := by
  have hlong := h.long
  have hsafe := h.safe
  have hlength : (archiveOf w).length =
      w.locals.length + w.centrals.length + (trailer w).length := by
    rw [archiveOf, length_append, length_append]
  have hend : checkedEnd w.locals.length w.centrals.length (archiveOf w).length
      "central directory" = .ok (w.locals.length + w.centrals.length) := by
    rw [checkedEnd, if_neg (by omega), if_neg (by omega), Int.toNat_natCast]
  have hmany : ¬ w.centrals.length / 46 < w.count := by omega
  rw [Zip.readCentralDirectoryInfo, h.endInfo, ok_bind, assertEntryCount,
    if_neg (not_lt.mpr hentries), ok_bind, assertIndexSize, if_neg (not_lt.mpr hindex), ok_bind,
    if_neg hmany, h.locate, ok_bind, hend, ok_bind, sub_self]

end BreadboardTui.Zip
