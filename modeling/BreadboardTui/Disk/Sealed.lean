import BreadboardTui.Disk.Seal

/-!
# The sealed session

What a session manager still does to its file after `seal`, in every run: nothing, but for the
title slot of a line that was being appended, the cleanup of a session that was only there for a
draft, and the path that a caller has dropped.
-/

namespace BreadboardTui

namespace Disk

open Effects Journal
open Loader (SessionTitleSource)

/-! ### The calls -/

section Calls

variable {generateId : List String → String} {P : Manager → Prop}

theorem keeps_flush : Keeps generateId Respected flush := by
  refine keeps_get.bind fun s => .ite_pure fun _ =>
    (keeps_scheduleDiskWork ?_).bind fun _ => (keeps_succeed (keeps_call _)).bind fun _ =>
    keeps_get.bind fun s => keeps_throwFailure s
  exact keeps_get.bind fun s => (keeps_writerIsOpen stable_respected _).bind fun _ =>
    .ite (fun _ => keeps_succeed (keeps_call _)) fun _ => keeps_pure _

theorem keeps_flushSync : Keeps generateId Respected flushSync := by
  refine keeps_get.bind fun s => .ite_pure fun _ => .ite (fun _ => keeps_throw _) fun _ => ?_
  split
  · exact keeps_throw _
  refine .ite (fun _ => .ite (fun _ => ?_) fun _ => keeps_pure _) fun _ => ?_
  · exact (keeps_attemptSync stable_respected).bind fun _ => keeps_attemptSync stable_respected
  · exact keeps_rewriteSynchronously.bind fun _ => keeps_get.bind fun s => keeps_throwFailure s

theorem keeps_ensureOnDisk : Keeps generateId Respected ensureOnDisk :=
  keeps_get.bind fun _ => .ite_pure fun _ => .bind (keeps_set fun _ => ⟨rfl, rfl⟩) fun _ =>
    .ite_pure fun _ => keeps_rewriteAtomically

theorem keeps_rewriteEntries : Keeps generateId Respected rewriteEntries :=
  keeps_get.bind fun _ => .ite_pure fun _ => keeps_rewriteAtomically

theorem keeps_changeDirectories (next : List String) :
    Keeps generateId Respected (changeDirectories next) :=
  .bind (keeps_set fun _ => ⟨rfl, rfl⟩) fun _ => keeps_get.bind fun _ =>
    .ite_pure fun _ => .bind (keeps_set fun _ => ⟨rfl, rfl⟩) fun _ => keeps_rewriteAtomically

variable (directory : String)

theorem keeps_addWorkspaceDirectory :
    Keeps generateId Respected (addWorkspaceDirectory directory) :=
  keeps_get.bind fun _ => .ite (fun _ => keeps_throw _) fun _ => .ite_pure
    fun _ => keeps_changeDirectories _

theorem keeps_removeWorkspaceDirectory :
    Keeps generateId Respected (removeWorkspaceDirectory directory) :=
  keeps_get.bind fun _ => .ite (fun _ => keeps_changeDirectories _) fun _ => keeps_pure _

theorem keeps_setAdditionalDirectories (directories : List String) :
    Keeps generateId Respected (setAdditionalDirectories directories) :=
  keeps_get.bind fun _ => .ite_pure fun _ => keeps_changeDirectories _

theorem keeps_setSessionName (timestamp name : String) (source : SessionTitleSource) :
    Keeps generateId Respected (setSessionName generateId timestamp name source) :=
  keeps_get.bind fun _ => .ite_pure fun _ => .ite_pure
    fun _ => .ite_pure fun _ => .bind (keeps_set fun _ => ⟨rfl, rfl⟩)
      fun _ => keeps_persistTitleChangeEntry

theorem keeps_journalCall (call : JournalCall) :
    Keeps generateId Respected (journalCall generateId call) := by
  refine keeps_get.bind fun s => .ite (fun _ => keeps_set fun _ => ⟨rfl, rfl⟩) fun _ =>
    .ite (fun _ => ?_) fun _ => ?_
  · split
    · exact keeps_set fun _ => ⟨rfl, rfl⟩
    · exact keeps_pure _
  · exact .bind (keeps_set fun _ => ⟨rfl, rfl⟩) fun _ => keeps_appendToSessionFile

variable (calls : List JournalCall) (throws : Bool)

theorem keeps_callback : Keeps generateId Respected (callback generateId calls throws) := by
  fun_induction callback generateId calls throws with
  | case1 => exact keeps_pure _
  | case2 => exact keeps_throw _
  | case3 timestamp name source calls throws ih => exact ih
  | case4 call calls throws hcall ih => exact (keeps_journalCall call).bind fun _ => ih

theorem frames_rollback : Frames Manager.rollback := by
  intro s
  unfold Manager.rollback
  split
  · exact ⟨rfl, rfl⟩
  · exact ⟨rfl, rfl⟩

theorem keeps_failBatch (e : DiskError) : Keeps generateId Respected (failBatch e) := by
  refine .bind (keeps_set fun s => frames_rollback s.stopCollecting) fun _ =>
    ((keeps_authoritativelyRewriteCurrentStateLocked e).tryCatch fun repairError => ?_).bind
      fun _ => .bind (keeps_set fun _ => ⟨rfl, rfl⟩) fun _ => keeps_throw _
  refine .bind (keeps_set fun _ => ⟨rfl, rfl⟩) fun _ => ?_
  split
  · exact keeps_throw _
  · exact keeps_latchIndeterminate stable_respected _ _

theorem keeps_commitBatch : Keeps generateId Respected (commitBatch generateId calls throws) :=
  .bind (.always (keeps_callback calls throws) (keeps_set fun _ => ⟨rfl, rfl⟩)) fun _ =>
    keeps_rewriteAtomically.bind fun _ => keeps_get.bind fun _ => .ite (fun _ => keeps_throw _)
      fun _ => keeps_set fun _ => ⟨rfl, rfl⟩

theorem keeps_appendEntriesAtomically :
    Keeps generateId Respected (appendEntriesAtomically generateId calls throws) := by
  refine keeps_withAtomicPersistenceLock (keeps_get.bind fun s =>
    .ite (fun _ => keeps_callback calls throws) fun _ => .ite (fun _ => keeps_throw _) fun _ => ?_)
  have hready : Keeps generateId Respected (ensureOnDisk >>= fun _ => flush) :=
    keeps_ensureOnDisk.bind fun _ => keeps_flush
  refine (hready.tryCatch fun e => ?_).bind fun _ => .bind (keeps_set fun _ => ⟨rfl, rfl⟩) fun _ =>
    (keeps_commitBatch calls throws).tryCatch keeps_failBatch
  exact (keeps_authoritativelyRewriteCurrentStateLocked e).bind fun _ =>
    .bind (keeps_set fun _ => ⟨rfl, rfl⟩) fun _ => keeps_throw _

theorem keeps_recoverPersistenceFromCurrentState :
    Keeps generateId Respected recoverPersistenceFromCurrentState :=
  keeps_withAtomicPersistenceLock (keeps_get.bind fun _ => .ite_pure fun _ =>
    .ite (fun _ => keeps_throw _) fun _ =>
    (keeps_authoritativelyRewriteCurrentStateLocked _).bind fun _ => keeps_set fun _ => ⟨rfl, rfl⟩)

theorem keeps_saveDraft (text : String) : Keeps generateId Respected (saveDraft text) := by
  refine keeps_get.bind fun s => .ite_pure fun _ =>
    .ite (fun _ => keeps_succeed (keeps_call _)) fun _ => (keeps_ask stable_respected).bind fun _ =>
    keeps_ensureOnDisk.bind fun _ => Keeps.bind ?_ fun _ => keeps_succeed (keeps_call _)
  exact .ite (fun _ => (keeps_succeed (keeps_call _)).bind fun _ => keeps_set fun _ => ⟨rfl, rfl⟩)
    fun _ => keeps_pure _

theorem keeps_consumeDraft : Keeps generateId Respected consumeDraft := by
  refine keeps_get.bind fun s => .ite_pure fun _ => (keeps_call _).bind fun draft => ?_
  split
  · exact keeps_pure _
  refine (keeps_succeed (keeps_call _)).bind fun _ => keeps_get.bind fun s => .ite (fun _ => ?_)
    fun _ => keeps_pure _
  exact (keeps_ask stable_respected).bind fun _ =>
    .ite (fun _ => keeps_set fun _ => ⟨rfl, rfl⟩) fun _ => keeps_pure _

theorem keeps_dropSession : Keeps generateId Respected dropSession :=
  keeps_drainAndCloseWriter.bind fun _ => (keeps_touch (t := .dropSession) trivial).bind fun _ =>
    keeps_succeed (keeps_call _)

variable (s : Manager)

theorem keeps_sessionFileExists : Keeps generateId Respected (sessionFileExists s) :=
  .ite (fun _ => keeps_ask stable_respected) fun _ => keeps_pure _

/-- The cleanup looks at the draft and at the entries in the same block in which it deletes. -/
theorem keeps_dropIfEmptyAndNoDraft : Keeps generateId Respected dropIfEmptyAndNoDraft := by
  refine keeps_get.bind fun s => .ite_pure fun harmed => (keeps_sessionFileExists s).bind fun _ =>
    .ite (fun _ => keeps_set fun _ => ⟨rfl, rfl⟩) fun _ =>
    (keeps_ask stable_respected).bind fun draft => .ite_pure fun hdraft =>
    .ite (fun _ => ?_) fun hentries => ?_
  · exact (keeps_succeed (keeps_call _)).bind fun _ => keeps_set fun _ => ⟨rfl, rfl⟩
  have hafter : (FileTouch.cleanUp s.draftOnlySessionCleanupArmed draft
      s.journal.entries).AfterSeal := by
    refine ⟨?_, ?_, ?_⟩
    · simpa using harmed
    · simpa using hdraft
    · simpa using hentries
  exact (keeps_touch hafter).bind fun _ => (keeps_call _).bind fun _ =>
    .ite (fun _ => keeps_set fun _ => ⟨rfl, rfl⟩) fun _ => keeps_pure _

theorem keeps_close : Keeps generateId Respected close := by
  refine keeps_get.bind fun s => .ite_pure fun _ =>
    (keeps_scheduleDiskWork ?_).bind fun _ => keeps_dropIfEmptyAndNoDraft.bind fun _ =>
    (keeps_succeed (keeps_call _)).bind fun _ => keeps_get.bind fun s => keeps_throwFailure s
  refine keeps_get.bind fun s => keeps_closeWriterHandle.bind fun _ => Keeps.bind ?_ fun _ =>
    .ite (fun _ => keeps_set fun _ => ⟨rfl, rfl⟩) fun _ => keeps_pure _
  exact keeps_get.bind fun s => .ite_pure fun _ => keeps_sessionFileExists s

theorem sealedTouches_sealOnce : s.sealOnce.sealedTouches = s.sealedTouches := by
  unfold Manager.sealOnce
  split
  · rfl
  · rfl

theorem keeps_body (job : DiskJob) : Keeps generateId Respected (job.body generateId) := by
  cases job with
  | call call =>
    cases call with
    | setSessionName timestamp name source => exact keeps_setSessionName timestamp name source
    | append => exact keeps_journalCall _
    | appendMessageToBranch => exact keeps_journalCall _
    | branch => exact keeps_journalCall _
    | resetLeaf => exact keeps_journalCall _
    | branchWithSummary => exact keeps_journalCall _
  | ingestReplicatedEntry entry => exact keeps_recordEntry entry
  | ensureOnDisk => exact keeps_ensureOnDisk
  | rewriteEntries => exact keeps_rewriteEntries
  | flush => exact keeps_flush
  | flushSync => exact keeps_flushSync
  | addWorkspaceDirectory directory => exact keeps_addWorkspaceDirectory directory
  | removeWorkspaceDirectory directory => exact keeps_removeWorkspaceDirectory directory
  | setAdditionalDirectories directories => exact keeps_setAdditionalDirectories directories
  | appendEntriesAtomically calls throws => exact keeps_appendEntriesAtomically calls throws
  | recoverPersistenceFromCurrentState => exact keeps_recoverPersistenceFromCurrentState
  | saveDraft text => exact keeps_saveDraft text
  | consumeDraft => exact keeps_consumeDraft
  | dropSession => exact keeps_dropSession
  | close => exact keeps_close
  | «seal» =>
    refine keeps_modify fun s hs => ?_
    rw [Respected, sealedTouches_sealOnce]
    exact hs
  | releaseRetainedEntries =>
    refine keeps_modify fun s hs => ?_
    have htouches : s.releaseRetainedEntries.sealedTouches = s.sealedTouches :=
      sealedTouches_sealOnce s
    rw [Respected, htouches]
    exact hs
  | appending => exact keeps_appending

theorem sealing_sound : (sealing generateId).Sound where
  refl _ _ := trivial
  trans _ _ := trivial
  idle_rely _ _ := trivial
  pre_rely _ _ := trivial
  start _ _ _ := trivial
  happen h hstep _ := by
    cases hstep
    exact ⟨fun t ht => h t ht, fun _ => trivial⟩
  body {i job s} h _ := keeps_body job i s h

end Calls

/-! ### Every run -/

/-- A session that was just made, before its first answers. -/
def newSession (answers : ℕ → Bool) : Manager where
  persist := true
  cwd := "/project"
  additionalDirectories := []
  sessionFile := some "/sessions/a.jsonl"
  journal := ⟨[], SessionEntryIndex.rebuild [], none, none, none, [], []⟩
  hasTitleSlot := true
  fileIsCurrent := false
  rewriteRequired := false
  forceFileCreation := false
  draftOnlySessionCleanupArmed := false
  writer := false
  released := false
  diskTail := none
  diskFailure := none
  atomicPersistenceTail := none
  diskEpoch := 0
  atomicRewriteFenceEpoch := none
  atomicRewriteDirty := false
  sessionFileRelocating := none
  tickets := 0
  settled := []
  answers := answers
  rounds := 2
  sealedTouches := []

/-- The moves of a task that is started as number `i`, and goes on `n` times with every call
succeeding. -/
def alone (job : DiskJob) (i n : ℕ) : List (Move DiskJob DiskChoice Manager) :=
  .start job :: List.replicate n (.resume i ⟨true, true⟩)

/-- A draft is saved and taken back, and the session is disposed of. -/
def disposal : List (Move DiskJob DiskChoice Manager) :=
  alone (.saveDraft "draft") 0 8 ++ alone .consumeDraft 1 4 ++ alone .seal 2 1 ++ alone .close 3 3

/-- The first and the seventh call find no file. -/
def disposalAnswers (n : ℕ) : Bool := n != 0 && n != 6

/-- A title is set, and the session is sealed while the line is being appended. -/
def retitled : List (Move DiskJob DiskChoice Manager) :=
  alone .ensureOnDisk 0 6 ++
    (alone (.call (.setSessionName "t" "title" .user)) 1 2 ++ alone .seal 2 1 ++
      [.resume 1 ⟨true, true⟩])

/-- The empty session that only held a draft is deleted by the closing of the sealed manager. -/
theorem touches_disposal :
    ((machine fun _ => "id").run disposal ⟨newSession disposalAnswers, []⟩).map
      (·.state.sealedTouches) = some [.cleanUp true false []] := by
  decide +kernel

/-- The title slot is written after the seal. -/
theorem touches_retitled : ((machine fun _ => "id").run retitled ⟨newSession fun _ => true, []⟩).map
      (·.state.sealedTouches) = some [.updateSessionTitle false] := by
  decide +kernel

/-- No call that changes the file is started after the seal. -/
def SealedUntouched (generateId : List String → String) (s : Manager) : Prop :=
  ∀ (moves : List (Move DiskJob DiskChoice Manager))
    (w : World Manager DiskJob DiskCall.Reply DiskError),
    (machine generateId).run moves ⟨s, []⟩ = some w → w.state.sealedTouches = []

/-- A run refutes it in which such a call is recorded. -/
theorem not_sealedUntouched_of_touches {generateId : List String → String} {s : Manager}
    {moves : List (Move DiskJob DiskChoice Manager)} {t : FileTouch}
    (h : ((machine generateId).run moves ⟨s, []⟩).map (·.state.sealedTouches) = some [t]) :
    ¬ SealedUntouched generateId s := by
  intro huntouched
  obtain ⟨w, hrun, htouches⟩ := Option.map_eq_some_iff.mp h
  have hnone := huntouched moves w hrun
  rw [htouches] at hnone
  exact absurd hnone (List.cons_ne_nil _ _)

end Disk

end BreadboardTui
