import BreadboardTui.Journal.BatchRuns
import BreadboardTui.Journal.Branch

/-!
# What a failed batch leaves

`leavesNoTrace_iff` says when a failed `appendEntriesAtomically` leaves the journal as if the batch
had never been staged: exactly when the callback has not renamed the session, and the last call of
others that took effect, if there is one, is neither a renaming nor a message for another branch.
Those two move entries and leaf past the fields that the batch keeps.
-/

namespace BreadboardTui

open List

namespace Journal

namespace SessionManager

/-! ### The promise -/

section Promise

variable (generateId : List String → String) (m : SessionManager)
  (callback outside : List JournalCall)

/-- The entries of the callback. -/
def batchEntries : List SessionEntry :=
  (m.staged generateId callback).entries.drop m.entries.length

/-- The entries of others. -/
def outsideEntries : List SessionEntry :=
  (m.published generateId callback outside).entries.drop
    (m.staged generateId callback).entries.length

/-- The leaf that the calls of others leave when no batch is active and the leaf is the one before
the batch. -/
def unstagedLeaf : Option String :=
  (SessionManager.calls generateId
    { (m.staged generateId callback).setIndexLeaf m.index.leaf with atomicEntryBatch := none }
    outside).index.leaf

/-- The promise of `appendEntriesAtomically` for a publish that fails. -/
structure LeavesNoTrace : Prop where
  /-- The entries before the batch and those of others stay, below their nearest ancestors that do. -/
  entries : List.Forall₂ (fun old new => new.id = old.id ∧ new.timestamp = old.timestamp ∧
      new.body = old.body ∧ NearestRetained
        (m.published generateId callback outside).index.entriesById
        ((m.batchEntries generateId callback).map (·.id)) old.parentId new.parentId)
    (m.entries ++ m.outsideEntries generateId callback outside)
    (m.failedBatch generateId callback outside).entries
  resolves : ∀ entry ∈ (m.failedBatch generateId callback outside).entries,
    ∀ parentId ∈ entry.parentId,
      ((m.failedBatch generateId callback outside).index.entriesById.get parentId).isSome = true
  leaf : NearestRetained (m.published generateId callback outside).index.entriesById
    ((m.batchEntries generateId callback).map (·.id))
    (m.unstagedLeaf generateId callback outside)
    (m.failedBatch generateId callback outside).index.leaf
  notified : ∃ issued,
    (m.failedBatch generateId callback outside).notified = m.notified ++ issued ∧
      (∀ entry ∈ m.outsideEntries generateId callback outside,
        issued.countP (·.id = entry.id) = 1) ∧
      ∀ entry ∈ m.batchEntries generateId callback, issued.countP (·.id = entry.id) = 0

end Promise

/-! ### When a failed batch leaves no trace -/

section Failed

variable {generateId : List String → String} {m : SessionManager}
  {callback outside : List JournalCall}

/-- The journal as the callback finds it. -/
def opened (m : SessionManager) : SessionManager :=
  { m with atomicEntryBatch := some ⟨true, [], [], m.index.leaf, false, none⟩ }

/-- The journal as the callback leaves it to others. -/
def released (generateId : List String → String) (m : SessionManager)
    (callback : List JournalCall) : SessionManager :=
  { m.staged generateId callback with
    atomicEntryBatch :=
      (m.staged generateId callback).atomicEntryBatch.map ({ · with collecting := false }) }

/-- The same journal, had the batch not been staged. -/
def unstaged (generateId : List String → String) (m : SessionManager)
    (callback : List JournalCall) : SessionManager :=
  { (m.staged generateId callback).setIndexLeaf m.index.leaf with atomicEntryBatch := none }

variable {B D O titles others : List SessionEntry} {ids : List String} {renamed : Bool}
  {last : Effect} {batch : AtomicEntryBatch}

theorem Collecting.used_of_used (h : m.Consistent)
    (hstaged : Collecting m (m.staged generateId callback) B D ids renamed) {id : String}
    (hid : id ∈ m.usedIds) : id ∈ (m.staged generateId callback).usedIds := by
  rw [h.used] at hid
  rw [hstaged.consistent.used, hstaged.entries, map_append]
  exact mem_append_left _ hid

theorem Collecting.toOutside (h : m.Consistent)
    (hstaged : Collecting m (m.staged generateId callback) B D ids renamed) :
    Outside (released generateId m callback) (released generateId m callback)
      (unstaged generateId m callback) ids D .none [] [] []
      ⟨false, ids, D, m.index.leaf, false, none⟩ := by
  have hleaf : ∀ id ∈ m.index.leaf, id ∈ (m.staged generateId callback).usedIds :=
    fun id hid => hstaged.used_of_used h (h.leaf id hid)
  refine ⟨hstaged.consistent.of_leaf rfl rfl hstaged.consistent.leaf,
    hstaged.consistent.of_leaf rfl rfl hleaf, rfl, rfl, ⟨rfl, rfl⟩, (append_nil _).symm, ?_,
    rfl, rfl, (append_nil _).symm, rfl, (append_nil _).symm, List.Perm.nil, hleaf,
    fun _ _ => rfl, ?_⟩
  · rw [released, hstaged.batch]
    rfl
  · rintro (hbad | hbad) <;> cases hbad

/-- What is known of a failed batch. -/
structure Rejected (generateId : List String → String) (m : SessionManager)
    (callback outside : List JournalCall) (B O titles others : List SessionEntry)
    (D : List SessionEntry) (ids : List String) (renamed : Bool) (last : Effect)
    (batch : AtomicEntryBatch) : Prop where
  staged : Collecting m (m.staged generateId callback) B D ids renamed
  late : Outside (released generateId m callback) (m.published generateId callback outside)
    (SessionManager.calls generateId (unstaged generateId m callback) outside) ids D last O titles
    others batch

variable (callback outside) in
theorem Consistent.rejected (h : m.Consistent) (hfresh : ∀ used, generateId used ∉ used)
    (hne : ∀ used, generateId used ≠ "") :
    ∃ B O titles others D ids batch, Rejected generateId m callback outside B O titles others D ids
      (((opened m).effects generateId callback).contains .title)
      (lastEffect ((released generateId m callback).effects generateId outside)) batch := by
  have hcalls : ∃ B D ids, Collecting m (m.staged generateId callback) B D ids
      (false || ((opened m).effects generateId callback).contains .title) :=
    (Collecting.initial h).calls hfresh hne callback
  rw [Bool.false_or] at hcalls
  obtain ⟨B, D, ids, hstaged⟩ := hcalls
  obtain ⟨O, titles, others, batch, hlate⟩ := (hstaged.toOutside h).calls hfresh hne outside
  exact ⟨B, O, titles, others, D, ids, batch, hstaged, hlate⟩

variable (hrej : Rejected generateId m callback outside B O titles others D ids renamed last batch)

include hrej

theorem Rejected.batchEntries : m.batchEntries generateId callback = B := by
  rw [SessionManager.batchEntries, hrej.staged.entries, drop_left]

theorem Rejected.entries :
    (m.published generateId callback outside).entries = m.entries ++ B ++ O := by
  rw [hrej.late.entries, ← hrej.staged.entries]
  rfl

theorem Rejected.outsideEntries : m.outsideEntries generateId callback outside = O := by
  rw [SessionManager.outsideEntries, hrej.entries, ← hrej.staged.entries, drop_left]

theorem Rejected.failedBatch : m.failedBatch generateId callback outside = notifyDurableEntries
      { (m.published generateId callback outside).rollbackAtomicEntryBatch batch with
        atomicEntryBatch := none }
      ((batch.deferredNotifications.filter (·.id ∉ batch.entryIds)).map
        (reparent (m.published generateId callback outside).index batch.entryIds)) := by
  rw [SessionManager.failedBatch]
  simp [hrej.late.active]

theorem Rejected.nodup : ((m.entries ++ B ++ O).map SessionEntry.id).Nodup := by
  have hnodup := hrej.late.consistent.nodup
  rwa [hrej.entries] at hnodup

/-- A title entry of the callback stays behind. -/
theorem Rejected.not_leavesNoTrace (hrenamed : renamed = true) :
    ¬ m.LeavesNoTrace generateId callback outside := by
  intro htrace
  obtain ⟨title, htitle, hnot⟩ := hrej.staged.escaped hrenamed
  have hentries := htrace.entries
  rw [hrej.outsideEntries, hrej.failedBatch] at hentries
  have hids : (m.entries ++ O).map SessionEntry.id =
      ((m.published generateId callback outside).rollbackAtomicEntryBatch batch).entries.map
        SessionEntry.id := by
    exact map_id_of_forall₂ (hentries.imp fun _ _ hsame => hsame.1.symm)
  have hused : title.id ∈ (m.published generateId callback outside).usedIds := by
    rw [hrej.late.consistent.used, hrej.entries]
    exact mem_map_of_mem (by simp [htitle])
  obtain ⟨entry, hentry, hid⟩ :=
    hrej.late.consistent.mem_rollback hused (hrej.late.entryIds.symm ▸ hnot)
  have hmem : title.id ∈ (m.entries ++ O).map SessionEntry.id := by
    rw [hids, ← hid]
    exact mem_map_of_mem hentry
  have hnodup := hrej.nodup
  rw [map_append, map_append, nodup_append, nodup_append] at hnodup
  obtain ⟨⟨-, -, hpre⟩, -, hpost⟩ := hnodup
  have htitleId := mem_map_of_mem (f := SessionEntry.id) htitle
  rw [map_append, mem_append] at hmem
  rcases hmem with hmem | hmem
  · exact hpre title.id hmem title.id htitleId rfl
  · exact hpost title.id (mem_append_right _ htitleId) title.id hmem rfl

theorem Rejected.entryIds (hrenamed : renamed = false) :
    batch.entryIds = B.map SessionEntry.id := by
  rw [hrej.late.entryIds, (hrej.staged.whole hrenamed).1]

theorem Rejected.filter_entries (hrenamed : renamed = false) :
    (m.published generateId callback outside).entries.filter (·.id ∉ batch.entryIds) =
      m.entries ++ O := by
  rw [hrej.entries, hrej.entryIds hrenamed]
  exact filter_batch hrej.nodup

/-- The leaf is right exactly when the last call went through the batch. -/
theorem Rejected.leaf_iff (hrenamed : renamed = false) :
    NearestRetained (m.published generateId callback outside).index.entriesById
        (B.map SessionEntry.id) (m.unstagedLeaf generateId callback outside)
        (m.failedBatch generateId callback outside).index.leaf ↔
      last ≠ .title ∧ last ≠ .toBranch := by
  have hlate := hrej.late
  have hleaf := hlate.consistent.leaf_rollback hlate.kept
  rw [hrej.entryIds hrenamed] at hleaf
  have hunstaged : m.unstagedLeaf generateId callback outside =
      (SessionManager.calls generateId (unstaged generateId m callback) outside).index.leaf := rfl
  have hfailed : (m.failedBatch generateId callback outside).index.leaf =
      ((m.published generateId callback outside).rollbackAtomicEntryBatch batch).index.leaf := by
    rw [hrej.failedBatch]
    rfl
  rw [hunstaged, hfailed]
  constructor
  · intro hnearest
    rw [← not_or]
    intro hbad
    obtain ⟨init, entry, hadded, hcases⟩ := hlate.missed hbad
    -- the last entry is an entry of others, and the nearest ancestor of no other entry
    have hlast : (m.published generateId callback outside).entries =
        (m.entries ++ B ++ init) ++ [entry] := by
      rw [hrej.entries, hadded, ← append_assoc]
    have hnot : entry.id ∉ B.map SessionEntry.id := by
      have hnodup := hrej.nodup
      rw [hadded, map_append, nodup_append, map_append] at hnodup
      intro hmem
      exact hnodup.2.2 entry.id (mem_append_right _ hmem) entry.id (by simp) rfl
    have hself : NearestRetained (m.published generateId callback outside).index.entriesById
        (B.map SessionEntry.id) (some entry.id) (some entry.id) := .retained hnot
    rcases hcases with ⟨hu, hkept⟩ | ⟨hkept, hu⟩
    · rw [hu] at hnearest
      rw [← NearestRetained.unique hself hnearest] at hleaf
      exact hkept (NearestRetained.eq_last hlate.consistent hlast hleaf rfl)
    rw [hkept] at hleaf
    rw [← NearestRetained.unique hself hleaf] at hnearest
    exact hu (NearestRetained.eq_last hlate.consistent hlast hnearest rfl)
  rintro ⟨htitle, hbranch⟩
  rwa [← hlate.tracked htitle hbranch]

variable {entry : SessionEntry}

theorem Rejected.apart (he : entry ∈ O) : entry.id ∉ (m.entries ++ B).map SessionEntry.id := by
  have hnodup := hrej.nodup
  rw [map_append, nodup_append] at hnodup
  intro hmem
  exact hnodup.2.2 entry.id hmem entry.id (mem_map_of_mem he) rfl

theorem Rejected.filter_deferred (hrenamed : renamed = false) :
    batch.deferredNotifications.filter (·.id ∉ batch.entryIds) = others := by
  rw [hrej.late.deferred, (hrej.staged.whole hrenamed).2, hrej.entryIds hrenamed, filter_append]
  have hdrop : B.filter (·.id ∉ B.map SessionEntry.id) = [] := by
    refine filter_eq_nil_iff.mpr fun entry he hnot => ?_
    exact of_decide_eq_true hnot (mem_map_of_mem he)
  have hkeep : others.filter (·.id ∉ B.map SessionEntry.id) = others := by
    refine filter_eq_self.mpr fun entry he => decide_eq_true fun hmem => ?_
    have hadded : entry ∈ O := hrej.late.shared.subset (mem_append_right titles he)
    refine hrej.apart hadded ?_
    rw [map_append]
    exact mem_append_right _ hmem
  rw [hdrop, hkeep, nil_append]

theorem Rejected.countP_added (k : String) :
    titles.countP (·.id = k) + others.countP (·.id = k) = O.countP (·.id = k) := by
  rw [← countP_append, hrej.late.shared.countP_eq]

theorem Rejected.countP_self (he : entry ∈ O) : O.countP (·.id = entry.id) = 1 := by
  have hnodup := hrej.nodup
  rw [map_append, nodup_append] at hnodup
  have hcount := count_eq_one_of_mem hnodup.2.1 (mem_map_of_mem (f := SessionEntry.id) he)
  rw [List.count, countP_map] at hcount
  exact hcount

theorem Rejected.countP_batch (he : entry ∈ B) : O.countP (·.id = entry.id) = 0 := by
  refine countP_eq_zero.mpr fun other hother hid => hrej.apart hother ?_
  rw [of_decide_eq_true hid]
  exact mem_map_of_mem (mem_append_right _ he)

/-- How often an entry that is new since the batch began is notified. -/
theorem Rejected.countP_issued
    (hpending : ∀ entry ∈ m.pendingDurabilityNotifications, entry.id ∈ m.usedIds) {k : String}
    (hk : k ∉ m.usedIds) (hcount : O.countP (·.id = k) ≤ 1) (ids' : List String) :
    (titles ++ notifyOnce [] (m.pendingDurabilityNotifications ++
      others.map (reparent (m.published generateId callback outside).index ids'))).countP
        (·.id = k) = O.countP (·.id = k) := by
  have hwaiting : (∃ entry ∈ m.pendingDurabilityNotifications ++
      others.map (reparent (m.published generateId callback outside).index ids'), entry.id = k) ↔
        0 < others.countP (·.id = k) := by
    rw [countP_pos_iff]
    constructor
    · rintro ⟨entry, hentry, hid⟩
      rcases mem_append.mp hentry with hentry | hentry
      · exact absurd (hid ▸ hpending entry hentry) hk
      obtain ⟨old, hold, rfl⟩ := mem_map.mp hentry
      exact ⟨old, hold, decide_eq_true hid⟩
    rintro ⟨entry, hentry, hid⟩
    exact ⟨_, mem_append_right _ (mem_map_of_mem hentry), of_decide_eq_true hid⟩
  have hsum := hrej.countP_added k
  rw [countP_append, countP_notifyOnce, ← hsum]
  congr 1
  by_cases hpos : 0 < others.countP (·.id = k)
  · rw [if_pos ⟨not_mem_nil, hwaiting.mpr hpos⟩]
    omega
  rw [if_neg fun hcond => hpos (hwaiting.mp hcond.2)]
  omega

/-- Every entry of others is notified once, and no entry of the batch is. -/
theorem Rejected.notified (hrenamed : renamed = false) (h : m.Consistent)
    (hpending : ∀ entry ∈ m.pendingDurabilityNotifications, entry.id ∈ m.usedIds) :
    ∃ issued, (m.failedBatch generateId callback outside).notified = m.notified ++ issued ∧
      (∀ entry ∈ O, issued.countP (·.id = entry.id) = 1) ∧
      ∀ entry ∈ B, issued.countP (·.id = entry.id) = 0 := by
  have hnotified : (m.published generateId callback outside).notified = m.notified ++ titles := by
    rw [hrej.late.notified, ← hrej.staged.notified hrenamed]
    rfl
  have hpending' : (m.published generateId callback outside).pendingDurabilityNotifications =
      m.pendingDurabilityNotifications := hrej.late.pending.trans hrej.staged.pending
  have hnew : ∀ entry ∈ B ++ O, entry.id ∉ m.usedIds := by
    intro entry he hmem
    have hnodup := hrej.nodup
    rw [append_assoc, map_append, nodup_append] at hnodup
    rw [h.used] at hmem
    exact hnodup.2.2 entry.id hmem entry.id (mem_map_of_mem he) rfl
  refine ⟨titles ++ notifyOnce [] (m.pendingDurabilityNotifications ++ others.map (reparent
    (m.published generateId callback outside).index batch.entryIds)), ?_, fun entry he => ?_,
    fun entry he => ?_⟩
  · rw [hrej.failedBatch, hrej.filter_deferred hrenamed, ← append_assoc, ← hnotified, ← hpending']
    rfl
  · have hone := hrej.countP_self he
    have hissued := hrej.countP_issued hpending (hnew entry (mem_append_right _ he)) hone.le
    rw [hissued, hone]
  have hzero := hrej.countP_batch he
  have hissued := hrej.countP_issued hpending (hnew entry (mem_append_left _ he))
    (hzero.le.trans zero_le_one)
  rw [hissued, hzero]

end Failed

/-- A failed batch leaves no trace exactly when its callback has not renamed the session, and the
last call of others that took effect has neither renamed it nor written to another branch. -/
theorem leavesNoTrace_iff {generateId : List String → String}
    (hfresh : ∀ used, generateId used ∉ used) (hne : ∀ used, generateId used ≠ "")
    {m : SessionManager} (h : m.Consistent)
    (hpending : ∀ entry ∈ m.pendingDurabilityNotifications, entry.id ∈ m.usedIds)
    (callback outside : List JournalCall) :
    m.LeavesNoTrace generateId callback outside ↔
      .title ∉ (opened m).effects generateId callback ∧
        lastEffect ((released generateId m callback).effects generateId outside) ≠ .title ∧
        lastEffect ((released generateId m callback).effects generateId outside) ≠ .toBranch := by
  obtain ⟨B, O, titles, others, D, ids, batch, hrej⟩ := h.rejected callback outside hfresh hne
  rw [← contains_iff_mem, Bool.not_eq_true]
  constructor
  · intro htrace
    have hrenamed := Bool.eq_false_iff.mpr fun hrenamed => hrej.not_leavesNoTrace hrenamed htrace
    have hleaf := htrace.leaf
    rw [hrej.batchEntries] at hleaf
    exact ⟨hrenamed, (hrej.leaf_iff hrenamed).mp hleaf⟩
  rintro ⟨hrenamed, hlast⟩
  have hids := hrej.entryIds hrenamed
  have hconsistent := hrej.late.consistent
  have hentries : (m.failedBatch generateId callback outside).entries = (m.entries ++ O).map
      (reparent (m.published generateId callback outside).index batch.entryIds) := by
    rw [← hrej.filter_entries hrenamed, hrej.failedBatch]
    rfl
  refine ⟨?_, ?_, ?_, ?_⟩
  · rw [hrej.batchEntries, hrej.outsideEntries, hentries, forall₂_map_right_iff,
      forall₂_same, ← hids]
    intro entry he
    have hmem : entry ∈ (m.published generateId callback outside).entries := by
      rw [← hrej.filter_entries hrenamed] at he
      exact mem_of_mem_filter he
    exact ⟨rfl, rfl, rfl, hconsistent.nearestRetained_of_mem (hconsistent.parent_used hmem)⟩
  · rw [hrej.failedBatch]
    exact fun entry he => hconsistent.parent_rollback he
  · rw [hrej.batchEntries]
    exact (hrej.leaf_iff hrenamed).mpr hlast
  rw [hrej.outsideEntries, hrej.batchEntries]
  exact hrej.notified hrenamed h hpending

section Examples

/-- A new journal. -/
def blank : SessionManager := ⟨[], .empty, none, none, none, [], []⟩

theorem blank_consistent : blank.Consistent :=
  ⟨nodup_nil, fun _ h => (nomatch h), by simp [blank], rfl, fun _ h => (nomatch h),
    fun _ h => (nomatch h)⟩

/-- A journal with one question. -/
def asked : SessionManager := blank.call longerId (.append "t1" (.message (.user "question")))

/-- A message of others below an entry of the batch moves up to the question. -/
theorem leavesNoTrace_asked :
    asked.LeavesNoTrace longerId [.append "t2" (.message (.user "staged"))]
      [.append "t3" (.message (.user "other"))] :=
  (leavesNoTrace_iff longerId_fresh longerId_ne
    (blank_consistent.keeps_call longerId_fresh longerId_ne _) (by decide +kernel) _ _).mpr
    (by decide +kernel)

/-- A message of others for another branch becomes the leaf. -/
theorem not_leavesNoTrace_asked :
    ¬ asked.LeavesNoTrace longerId [.append "t2" (.message (.user "staged"))]
      [.appendMessageToBranch "t3" (.user "aside") (some "+")] := by
  intro h
  have hleaf : asked.unstagedLeaf longerId [.append "t2" (.message (.user "staged"))]
      [.appendMessageToBranch "t3" (.user "aside") (some "+")] = some "+" := by decide +kernel
  have hnearest := h.leaf
  rw [hleaf] at hnearest
  have hsame := NearestRetained.unique (.retained (by decide +kernel)) hnearest
  revert hsame
  decide +kernel

end Examples

end SessionManager

end Journal

end BreadboardTui
