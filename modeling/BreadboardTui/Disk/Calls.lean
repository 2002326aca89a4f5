import BreadboardTui.Disk.Work

/-!
# The calls of a session manager

The public methods that write the session file, sealing included, and the machine in which they
run: any number of calls at any time, suspended at every storage call, and everything else that
assigns the manager's fields in between.
-/

namespace BreadboardTui

namespace Disk

open Effects Journal
open Loader (SessionTitleSource)

def flush : DiskM Unit := do
  let s ← Fiber.get
  if !s.persist || s.sessionFile.isNone then pure ()
  else
    scheduleDiskWork (do
      let s ← Fiber.get
      if ← writerIsOpen s.writer then succeed (Fiber.call DiskCall.flush) else pure ()) none false false
    succeed (Fiber.call DiskCall.drain)
    let s ← Fiber.get
    match s.diskFailure with
    | some failure => throw failure
    | none => pure ()

def flushSync : DiskM Unit := do
  let s ← Fiber.get
  if !s.persist || s.sessionFile.isNone then pure ()
  else if s.journal.atomicEntryBatch.isSome then
    throw (.error "Cannot synchronously flush during an atomic session batch.")
  else
    match s.diskFailure with
    | some failure => throw failure
    | none =>
      if s.fileIsCurrent && !s.rewriteRequired then
        -- `flushSync` of the writer may throw, and `getError` may return an error.
        if s.writer then
          attemptSync
          attemptSync
        else pure ()
      else
        rewriteSynchronously
        let s ← Fiber.get
        match s.diskFailure with
        | some failure => throw failure
        | none => pure ()

def ensureOnDisk : DiskM Unit := do
  let s ← Fiber.get
  if !s.persist || s.sessionFile.isNone then pure ()
  else
    Fiber.modify fun s => { s with forceFileCreation := true }
    if s.fileIsCurrent && !s.rewriteRequired then pure () else rewriteAtomically

def rewriteEntries : DiskM Unit := do
  let s ← Fiber.get
  if !s.persist || s.sessionFile.isNone then pure () else rewriteAtomically

/-! ### Workspace directories -/

def persistWorkspaceDirectoriesChange : DiskM Unit := do
  let s ← Fiber.get
  if !s.persist || s.sessionFile.isNone || !s.shouldHaveSessionFile then pure ()
  else
    Fiber.modify fun s => { s with rewriteRequired := true }
    rewriteAtomically

/-- The directories become `next`, which the file is told. -/
def changeDirectories (next : List String) : DiskM Unit := do
  Fiber.modify fun s => { s with additionalDirectories := next }
  persistWorkspaceDirectoriesChange

/-- `addWorkspaceDirectory`, of a normalized path. -/
def addWorkspaceDirectory (directory : String) : DiskM Unit := do
  let s ← Fiber.get
  if directory = s.cwd then
    throw (.error "The current working directory is already the primary workspace root.")
  else if directory ∈ s.additionalDirectories then pure ()
  else changeDirectories (s.additionalDirectories ++ [directory])

/-- `removeWorkspaceDirectory`, of a normalized path. -/
def removeWorkspaceDirectory (directory : String) : DiskM Unit := do
  let s ← Fiber.get
  if directory ∈ s.additionalDirectories then
    changeDirectories (s.additionalDirectories.erase directory)
  else pure ()

/-- `setAdditionalDirectories`, of a normalized list. -/
def setAdditionalDirectories (directories : List String) : DiskM Unit := do
  let s ← Fiber.get
  if directories = s.additionalDirectories then pure () else changeDirectories directories

/-! ### The journal -/

section Journal

variable (generateId : List String → String)

def setSessionName (timestamp name : String) (source : SessionTitleSource) : DiskM Unit := do
  let s ← Fiber.get
  if s.released then pure ()
  else if s.journal.titleSource = some .user ∧ source = .auto then pure ()
  else if cleanTitle name = "" then pure ()
  else
    Fiber.modify fun s =>
      { s with journal := s.journal.setSessionName generateId timestamp name source }
    persistTitleChangeEntry

/-- A synchronous call that touches the journal. One that is dropped after the seal may still move
the leaf. -/
def journalCall (call : JournalCall) : DiskM Unit := do
  let s ← Fiber.get
  let journal := s.journal.call generateId call
  if journal.entries.length = s.journal.entries.length then
    Fiber.modify fun s => { s with journal := journal }
  else if s.released then
    match call with
    | .branchWithSummary _ branchFromId _ =>
      Fiber.modify fun s => { s with journal := s.journal.setLeaf branchFromId }
    | _ => pure ()
  else
    Fiber.modify fun s => { s with journal := journal }
    appendToSessionFile

/-- The callback of a batch. It is synchronous, so it sets no title. -/
def callback : List JournalCall → Bool → DiskM Unit
  | [], false => pure ()
  | [], true => throw (.error "callback")
  | .setSessionName .. :: calls, throws => callback calls throws
  | call :: calls, throws => do
    journalCall generateId call
    callback calls throws

/-- What `#appendEntriesAtomicallyLocked` does when a batch has failed. -/
def failBatch (operationError : DiskError) : DiskM Unit := do
  Fiber.modify fun s => s.stopCollecting.rollback
  tryCatch (authoritativelyRewriteCurrentStateLocked operationError) fun repairError => do
    Fiber.modify Manager.abandonBatch
    match repairError with
    | .indeterminate .. => throw repairError
    | _ => latchIndeterminate operationError [repairError]
  Fiber.modify fun s => s.endBatch s.retainedNotifications
  throw operationError

/-- The batch from the moment it is active. -/
def commitBatch (calls : List JournalCall) (throws : Bool) : DiskM Unit := do
  (callback generateId calls throws).always (Fiber.modify Manager.stopCollecting)
  rewriteAtomically
  let s ← Fiber.get
  if !s.fileIsCurrent || s.rewriteRequired then
    throw (.error "Atomic session batch was superseded before commit.")
  else Fiber.modify fun s => s.endBatch s.deferredNotifications

def appendEntriesAtomicallyLocked (calls : List JournalCall) (throws : Bool) : DiskM Unit := do
  let s ← Fiber.get
  if !s.persist || s.sessionFile.isNone then callback generateId calls throws
  else if s.journal.atomicEntryBatch.isSome then
    throw (.error "Atomic persistence lock ownership was violated.")
  else
    tryCatch (do
      ensureOnDisk
      flush) fun operationError => do
      authoritativelyRewriteCurrentStateLocked operationError
      Fiber.modify fun s => { s with journal := s.journal.notifyDurableEntries [] }
      throw operationError
    Fiber.modify fun s =>
      { s with journal := { s.journal with
          atomicEntryBatch := some ⟨true, [], [], s.journal.index.leaf, false, none⟩ } }
    tryCatch (commitBatch generateId calls throws) failBatch

def appendEntriesAtomically (calls : List JournalCall) (throws : Bool) : DiskM Unit :=
  withAtomicPersistenceLock (appendEntriesAtomicallyLocked generateId calls throws)

def recoverPersistenceFromCurrentState : DiskM Unit :=
  withAtomicPersistenceLock do
    let s ← Fiber.get
    if !s.persist || s.sessionFile.isNone then pure ()
    else if s.journal.atomicEntryBatch.isSome then
      throw (.error "Atomic persistence lock ownership was violated.")
    else
      authoritativelyRewriteCurrentStateLocked (s.diskFailure.getD
        (.error "Authoritative session persistence recovery was requested."))
      Fiber.modify fun s => { s with journal := s.journal.notifyDurableEntries [] }

/-! ### Drafts -/

/-- `saveDraft`, where the draft may be what the session file is for. -/
def armCleanup (draftWillMaterializeMetadataOnlyFile : Bool) : DiskM Unit := do
  if draftWillMaterializeMetadataOnlyFile then
    succeed (Fiber.call DiskCall.writeText)
    Fiber.modify fun s => { s with draftOnlySessionCleanupArmed := true }
  else pure ()

def saveDraft (text : String) : DiskM Unit := do
  let s ← Fiber.get
  if s.sessionFile.isNone || !s.persist then pure ()
  else if text = "" then succeed (Fiber.call DiskCall.unlink)
  else
    let fileExists ← ask
    ensureOnDisk
    armCleanup (!fileExists && s.journal.entries.all isDraftOnlyMetadataEntry)
    succeed (Fiber.call DiskCall.writeText)

def consumeDraft : DiskM Unit := do
  let s ← Fiber.get
  if s.sessionFile.isNone then pure ()
  else
    match ← Fiber.call DiskCall.readText with
    | none => pure ()
    | some _ =>
      succeed (Fiber.call DiskCall.unlink)
      let s ← Fiber.get
      if s.journal.entries.all isDraftOnlyMetadataEntry then
        -- `#hasDraftOnlySessionMarker()`.
        if ← ask then Fiber.modify fun s => { s with draftOnlySessionCleanupArmed := true }
        else pure ()
      else pure ()

/-! ### Deleting and closing -/

def dropSession : DiskM Unit := do
  drainAndCloseWriter
  touch .dropSession
  succeed (Fiber.call DiskCall.deleteSessionWithArtifacts)

/-- The deletion in `#dropIfEmptyAndNoDraft`. Its errors are logged. -/
def cleanUp (armed draft : Bool) (entries : List SessionEntry) : DiskM Unit := do
  touch (.cleanUp armed draft entries)
  if ← Fiber.call DiskCall.deleteSessionWithArtifacts then
    Fiber.modify fun s =>
      { s with
        fileIsCurrent := false
        forceFileCreation := false
        hasTitleSlot := false
        draftOnlySessionCleanupArmed := false }
  else pure ()

/-- Whether there is a session file on the disk. -/
def sessionFileExists (s : Manager) : DiskM Bool :=
  if s.sessionFile.isSome then ask else pure false

def dropIfEmptyAndNoDraft : DiskM Unit := do
  let s ← Fiber.get
  if !s.draftOnlySessionCleanupArmed then pure ()
  else
    let fileExists ← sessionFileExists s
    if !fileExists then Fiber.modify fun s => { s with draftOnlySessionCleanupArmed := false }
    else
      let draft ← ask
      if draft then pure ()
      else if !s.journal.entries.all isDraftOnlyMetadataEntry then
        succeed (Fiber.call DiskCall.unlink)
        Fiber.modify fun s => { s with draftOnlySessionCleanupArmed := false }
      else cleanUp s.draftOnlySessionCleanupArmed draft s.journal.entries

/-- Whether the file is there after its writer was closed, if there was one. -/
def isCurrentWith (hadWriter : Bool) : DiskM Bool := do
  let s ← Fiber.get
  if hadWriter then pure true else sessionFileExists s

def close : DiskM Unit := do
  let s ← Fiber.get
  if !s.persist then pure ()
  else
    scheduleDiskWork (do
      let s ← Fiber.get
      closeWriterHandle
      if ← isCurrentWith s.writer then Fiber.modify fun s => { s with fileIsCurrent := true } else
        pure ())
      none false false
    dropIfEmptyAndNoDraft
    succeed (Fiber.call DiskCall.drain)
    let s ← Fiber.get
    match s.diskFailure with
    | some failure => throw failure
    | none => pure ()

/-! ### The machine -/

/-- The program of a call. -/
def DiskJob.body : DiskJob → DiskM Unit
  | call (.setSessionName timestamp name source) => setSessionName generateId timestamp name source
  | call c => journalCall generateId c
  | ingestReplicatedEntry entry => recordEntry entry
  | ensureOnDisk => Disk.ensureOnDisk
  | rewriteEntries => Disk.rewriteEntries
  | flush => Disk.flush
  | flushSync => Disk.flushSync
  | addWorkspaceDirectory directory => Disk.addWorkspaceDirectory directory
  | removeWorkspaceDirectory directory => Disk.removeWorkspaceDirectory directory
  | setAdditionalDirectories directories => Disk.setAdditionalDirectories directories
  | appendEntriesAtomically calls throws => Disk.appendEntriesAtomically generateId calls throws
  | recoverPersistenceFromCurrentState => Disk.recoverPersistenceFromCurrentState
  | saveDraft text => Disk.saveDraft text
  | consumeDraft => Disk.consumeDraft
  | dropSession => Disk.dropSession
  | close => Disk.close
  | .seal => Fiber.modify Manager.sealOnce
  | releaseRetainedEntries => Fiber.modify Manager.releaseRetainedEntries
  | appending => Disk.appending

/-- The outside may start every call, and may assign the fields as the operations do that no job
stands for. -/
def machine : Machine Manager DiskJob DiskCall.Reply DiskChoice Manager DiskError where
  body job _ := job.body generateId
  reply c choice s := c.reply s choice
  admits job := match job with
    | .appending => false
    | _ => true
  happen next s := some (next.replaceSession s)

end Journal

end Disk

end BreadboardTui
