import BreadboardTui.Archive.TarHeader
import BreadboardTui.Archive.ZipRoundTrip

/-!
# What any zip archive gives

Whatever its bytes are, an archive that is read has no more entries than allowed, all of them below
the root, none larger than allowed and each with its local header inside the archive.
-/

namespace BreadboardTui.Zip

open Utf8
open Tar (ArchiveLimits IsNormalized isNormalized_of_normalize bind_eq_ok)

variable {R : ZipRuntime} {source : Bytes} {limits : ArchiveLimits} {archiveOffset : ℤ}

/-- An entry stays below the root, is no larger than allowed, and its data can be asked for. -/
structure SafeRecord (source : Bytes) (limits : ArchiveLimits) (item : ParsedZipEntry) : Prop where
  normalized : IsNormalized item.entry.path
  size_le : item.entry.size ≤ limits.maxMemberSize
  directory : item.entry.isDirectory = true → item.entry.size = 0 ∧ item.entry.storage = none
  member : item.entry.isDirectory = false → ∃ m, item.entry.storage = some (.member m) ∧
    m.compressedSize ≤ limits.maxMemberSize ∧ (m.flags &&& encryptionFlags = 0 ∧ m.method ≠ 99) ∧
    0 ≤ m.localHeaderOffset ∧ m.localHeaderOffset.toNat + 30 ≤ source.length

theorem indexEntry_safe {versionMadeBy flags method crc externalAttributes : ℕ}
    {values : Zip64Values} {mtimeMs : Option ℤ} {rawPath path : Text} {item : ParsedZipEntry}
    (hpath : IsNormalized path) (hplain : flags &&& encryptionFlags = 0 ∧ method ≠ 99)
    (h : indexEntry source limits archiveOffset versionMadeBy flags method crc externalAttributes
      values mtimeMs rawPath path = .ok item) : SafeRecord source limits item := by
  obtain ⟨_, hsize, h⟩ := bind_eq_ok.mp h
  obtain ⟨stop, hstop, h⟩ := bind_eq_ok.mp h
  unfold assertArchiveMemberSize at hsize
  split at hsize
  · cases hsize
  next hfits =>
  unfold checkedEnd at hstop
  split at hstop
  · cases hstop
  split at hstop
  · cases hstop
  next hstart hend =>
  simp only [not_or, not_lt, max_le_iff] at hfits hstart hend
  have hle (isDirectory : Bool) :
      (if isDirectory then 0 else values.uncompressedSize) ≤ limits.maxMemberSize := by
    cases isDirectory
    · exact hfits.2.1
    · exact Nat.zero_le _
  cases h
  exact ⟨hpath, hle _, fun hdir => ⟨if_pos hdir, if_pos hdir⟩, fun hfile =>
    ⟨_, if_neg (Bool.eq_false_iff.mp hfile), hfits.2.2, hplain, hstart.1, hend.2⟩⟩

/-- The step over a record. -/
theorem parseRecord_safe {directory rest : Bytes} {item : ParsedZipEntry}
    (h : parseRecord R source limits archiveOffset directory = .ok (some item, rest)) :
    SafeRecord source limits item := by
  unfold parseRecord at h
  split at h
  · cases h
  split at h
  · cases h
  dsimp only at h
  split at h
  · cases h
  obtain ⟨_, -, h⟩ := bind_eq_ok.mp h
  obtain ⟨extra, -, h⟩ := bind_eq_ok.mp h
  obtain ⟨values, -, h⟩ := bind_eq_ok.mp h
  split at h
  · cases h
  obtain ⟨_, -, h⟩ := bind_eq_ok.mp h
  split at h
  · cases h
  next hplain =>
  split at h
  · cases h
  next path hpath =>
  obtain ⟨parsed, hparsed, h⟩ := bind_eq_ok.mp h
  cases h
  exact indexEntry_safe (isNormalized_of_normalize hpath)
    (by simpa only [not_or, not_not, ne_eq] using hplain) hparsed

theorem parseCentralDirectory_safe {count : ℕ} {parsed parsed' : List ParsedZipEntry}
    {directory : Bytes} (hsafe : ∀ item ∈ parsed, SafeRecord source limits item)
    (hlength : parsed.length ≤ limits.maxEntries)
    (h : parseCentralDirectory R source limits archiveOffset count parsed directory = .ok parsed') :
    (∀ item ∈ parsed', SafeRecord source limits item) ∧ parsed'.length ≤ limits.maxEntries := by
  induction count generalizing parsed directory with
  | zero =>
    cases h
    exact ⟨hsafe, hlength⟩
  | succ count ih =>
    obtain ⟨⟨entry, rest⟩, hentry, h⟩ := bind_eq_ok.mp h
    cases entry with
    | none => exact ih hsafe hlength h
    | some item =>
      obtain ⟨_, hcount, h⟩ := bind_eq_ok.mp h
      unfold assertEntryCount at hcount
      split at hcount
      · cases hcount
      next hle =>
      refine ih (fun other hother => ?_) (by simpa using not_lt.mp hle) h
      rcases List.mem_append.mp hother with hother | hother
      · exact hsafe other hother
      · rw [List.mem_singleton.mp hother]
        exact parseRecord_safe hentry

theorem mapM_finishEntry_safe {parsed : List ParsedZipEntry} {entries : List ArchiveIndexEntry}
    (hsafe : ∀ item ∈ parsed, SafeRecord source limits item)
    (h : parsed.mapM (finishEntry R source limits) = .ok entries) :
    entries.length = parsed.length ∧ ∀ entry ∈ entries, ∃ item, SafeRecord source limits item ∧
      finishEntry R source limits item = .ok entry := by
  induction parsed generalizing entries with
  | nil =>
    cases h
    exact ⟨rfl, by simp⟩
  | cons item parsed ih =>
    rw [List.mapM_cons] at h
    obtain ⟨entry, hentry, h⟩ := bind_eq_ok.mp h
    obtain ⟨rest, hrest, h⟩ := bind_eq_ok.mp h
    cases h
    obtain ⟨hlength, hall⟩ := ih (fun other h => hsafe other (List.mem_cons_of_mem _ h)) hrest
    exact ⟨congrArg Nat.succ hlength, List.forall_mem_cons.mpr
      ⟨⟨item, hsafe item List.mem_cons_self, hentry⟩, hall⟩⟩

/-- **Whatever the bytes are**: an archive that is read has no more entries than allowed, and each
is a safe record, or what the link of one resolves to. -/
theorem readZip_safe {entries : List ArchiveIndexEntry}
    (h : readZip R source limits = .ok entries) :
    entries.length ≤ limits.maxEntries ∧ ∀ entry ∈ entries, ∃ item,
      SafeRecord source limits item ∧ finishEntry R source limits item = .ok entry := by
  obtain ⟨info, -, h⟩ := bind_eq_ok.mp h
  split at h
  · cases h
    exact ⟨Nat.zero_le _, by simp⟩
  obtain ⟨directory, -, h⟩ := bind_eq_ok.mp h
  split at h
  · cases h
  obtain ⟨parsed, hparsed, h⟩ := bind_eq_ok.mp h
  obtain ⟨hsafe, hlength⟩ := parseCentralDirectory_safe (by simp) (Nat.zero_le _) hparsed
  obtain ⟨heq, hall⟩ := mapM_finishEntry_safe hsafe h
  exact ⟨heq ▸ hlength, hall⟩

theorem readZip_safe_single : ∃ source entries,
    readZip storingRuntime source defaultArchiveLimits = .ok entries ∧ entries ≠ [] ∧
      ∀ entry ∈ entries, ∃ item, SafeRecord source defaultArchiveLimits item ∧
        finishEntry storingRuntime source defaultArchiveLimits item = .ok entry := by
  have hok : ((encodeZip storingRuntime [(['a', '/', 'b'], [97])]).toOption.any fun source =>
      (readZip storingRuntime source defaultArchiveLimits).toOption.any (· ≠ [])) = true := by
    decide +kernel
  obtain ⟨source, -, hread⟩ := (Option.any_eq_true _ _).mp hok
  obtain ⟨entries, hentries, hne⟩ := (Option.any_eq_true _ _).mp hread
  have hentries := ok_of_toOption hentries
  exact ⟨source, entries, hentries, of_decide_eq_true hne, (readZip_safe hentries).2⟩

end BreadboardTui.Zip
