import BreadboardTui.Journal.Batch
import BreadboardTui.Lib.Tasks

/-!
# The disk side of the session manager

A session manager keeps its journal in memory and in one file. Appends are written before the call
returns; everything else goes through a queue of disk work, in which a task can be suspended at
every storage call. This file has the fields of the manager that the disk work looks at and the
calls that it makes.

The synchronous calls of the storage (`existsSync`, `writeTextSync`, `appendSync`, …) are answered
without a suspension. Their answers are a sequence in the state, of which each call takes the
first one, so a statement about all states is about all answers.
-/

namespace BreadboardTui

namespace Disk

open Effects Journal
open Loader (SessionTitleSource)

/-- The errors that pass through the disk work. -/
inductive DiskError where
  | storage
  | error (message : String)
  /-- `SessionPersistenceIndeterminateError`. -/
  | indeterminate (operationError : DiskError) (recoveryErrors : List DiskError)

/-- The storage calls that change, truncate or delete the session file. -/
inductive FileTouch where
  | openWriter
  | append
  | writeTextSync
  /-- The staged body of `writeTextAtomic` becomes visible. -/
  | publish
  /-- `updateSessionTitle`; whether the manager was sealed when the task appended its line. -/
  | updateSessionTitle (lineSealed : Bool)
  /-- `deleteSessionWithArtifacts` in the cleanup of `close`: whether the cleanup was armed and a
  draft was there, and the entries in memory. -/
  | cleanUp (armed draft : Bool) (entries : List SessionEntry)
  /-- `deleteSessionWithArtifacts` for the path that a caller of `dropSession` names. -/
  | dropSession
  deriving DecidableEq

/-- The paths of a `moveTo` that is under way. -/
structure Relocation where
  source : String
  dest : String

/-- The fields of a session manager. -/
structure Manager where
  persist : Bool
  cwd : String
  additionalDirectories : List String
  sessionFile : Option String
  journal : SessionManager
  hasTitleSlot : Bool
  fileIsCurrent : Bool
  rewriteRequired : Bool
  forceFileCreation : Bool
  draftOnlySessionCleanupArmed : Bool
  /-- Whether `#writer` is set. -/
  writer : Bool
  released : Bool
  diskTail : Option ℕ
  diskFailure : Option DiskError
  atomicPersistenceTail : Option ℕ
  diskEpoch : ℕ
  atomicRewriteFenceEpoch : Option ℕ
  atomicRewriteDirty : Bool
  sessionFileRelocating : Option Relocation
  /-- The number of the next promise of a queue. -/
  tickets : ℕ
  /-- The promises of the queues that have settled. -/
  settled : List ℕ
  /-- The answers of the synchronous storage calls to come. -/
  answers : ℕ → Bool
  /-- How many rounds the rewrite loops can take. -/
  rounds : ℕ
  /-- The calls that were started since the seal and change the session file. -/
  sealedTouches : List FileTouch

def isDraftOnlyMetadataEntry (entry : SessionEntry) : Bool :=
  match entry.body with
  | .modelChange .. | .thinkingLevelChange .. | .serviceTierChange _ | .modeChange ..
  | .credentialPin .. => true
  | _ => false

def isAssistantEntry (entry : SessionEntry) : Bool :=
  match entry.body with
  | .message (.assistant _) => true
  | _ => false

namespace Manager

def shouldHaveSessionFile (s : Manager) : Bool :=
  s.forceFileCreation || s.fileIsCurrent || s.journal.entries.any isAssistantEntry

/-- Memory and file have diverged. -/
def diverge (s : Manager) : Manager := { s with fileIsCurrent := false, rewriteRequired := true }

/-- The file has been rewritten from memory. -/
def rewritten (s : Manager) : Manager :=
  { s with fileIsCurrent := true, rewriteRequired := false, hasTitleSlot := true }

def clearDiskError (s : Manager) : Manager := { s with diskFailure := none }

def closeWriterEventually (s : Manager) : Manager := { s with writer := false }

/-- `seal`. -/
def sealOnce (s : Manager) : Manager :=
  if s.released then s else { s with released := true, diskEpoch := s.diskEpoch + 1 }

def releaseRetainedEntries (s : Manager) : Manager :=
  { s.sealOnce.closeWriterEventually with
    journal := { s.journal with entries := [], index := SessionEntryIndex.rebuild [] } }

/-- A queued promise settles. -/
def settle (ticket : ℕ) (s : Manager) : Manager := { s with settled := ticket :: s.settled }

def relinquishFence (epoch : ℕ) (s : Manager) : Manager :=
  if s.atomicRewriteFenceEpoch = some epoch then { s with atomicRewriteFenceEpoch := none } else s

/-- The batch has collected its entries. -/
def stopCollecting (s : Manager) : Manager :=
  { s with
    journal := { s.journal with
      atomicEntryBatch := s.journal.atomicEntryBatch.map ({ · with collecting := false }) } }

/-- `#rollbackAtomicEntryBatch`. The notifications hold the same entries as the journal. -/
def rollback (s : Manager) : Manager :=
  match s.journal.atomicEntryBatch with
  | none => s
  | some batch =>
    { s with
      journal := { s.journal.rollbackAtomicEntryBatch batch with
        atomicEntryBatch := some { batch with
          deferredNotifications := batch.deferredNotifications.map
            (SessionManager.reparent s.journal.index batch.entryIds) } } }

/-- The deferred notifications of entries that are not the batch's. -/
def retainedNotifications (s : Manager) : List SessionEntry :=
  match s.journal.atomicEntryBatch with
  | none => []
  | some batch => batch.deferredNotifications.filter (·.id ∉ batch.entryIds)

/-- All deferred notifications. -/
def deferredNotifications (s : Manager) : List SessionEntry :=
  (s.journal.atomicEntryBatch.map AtomicEntryBatch.deferredNotifications).getD []

/-- The batch is over, and `entries` are known to be durable. -/
def endBatch (s : Manager) (entries : List SessionEntry) : Manager :=
  { s with journal := { s.journal with atomicEntryBatch := none }.notifyDurableEntries entries }

/-- The batch is over, and the file is in an unknown state. -/
def abandonBatch (s : Manager) : Manager :=
  { s with
    journal := { s.journal with
      atomicEntryBatch := none
      pendingDurabilityNotifications :=
        s.journal.pendingDurabilityNotifications ++ s.retainedNotifications } }.diverge

/-- What `newSession`, `fork`, `moveTo`, `setSessionFile` and `restoreState` assign between two
suspensions: any field but the seal. -/
def replaceSession (next s : Manager) : Manager :=
  { next with
    persist := s.persist
    released := s.released
    diskEpoch := s.diskEpoch
    atomicPersistenceTail := s.atomicPersistenceTail
    tickets := s.tickets
    settled := s.settled
    sealedTouches := s.sealedTouches }

end Manager

/-! ### Calls -/

/-- What the disk work awaits. -/
inductive DiskCall where
  /-- A promise of one of the queues; `none` is a settled one. -/
  | turn (ticket : Option ℕ)
  | closeWriter
  | append
  | flush
  | drain
  /-- `writeTextAtomic`, up to where it asks the commit guard. -/
  | stage
  | updateSessionTitle
  | readText
  | unlink
  | writeText
  | deleteSessionWithArtifacts
  | never

/-- The answers; a text that was read is only known to be the expected one or another. -/
abbrev DiskCall.Reply : DiskCall → Type
  | turn _ => Unit
  | readText => Option Bool
  | never => Empty
  | _ => Bool

/-- Whether a call succeeds, and whether a text that was read is the expected one. -/
structure DiskChoice where
  success : Bool
  expected : Bool

/-- How the calls are answered. -/
def DiskCall.reply (s : Manager) : (c : DiskCall) → DiskChoice → Option c.Reply
  | turn none, _ => some ()
  | turn (some ticket), _ => if ticket ∈ s.settled then some () else none
  | readText, choice => some (if choice.success then some choice.expected else none)
  | never, _ => none
  | closeWriter, choice | append, choice | flush, choice | drain, choice | stage, choice
  | updateSessionTitle, choice | unlink, choice | writeText, choice
  | deleteSessionWithArtifacts, choice => some choice.success

/-- What runs as a task of its own. -/
inductive DiskJob where
  /-- One of the calls that touch the journal. -/
  | call (call : JournalCall)
  | ingestReplicatedEntry (entry : SessionEntry)
  | ensureOnDisk
  | rewriteEntries
  | flush
  | flushSync
  | addWorkspaceDirectory (directory : String)
  | removeWorkspaceDirectory (directory : String)
  | setAdditionalDirectories (directories : List String)
  /-- `appendEntriesAtomically` with a callback that makes these calls and may throw. -/
  | appendEntriesAtomically (callback : List JournalCall) (throws : Bool)
  | recoverPersistenceFromCurrentState
  | saveDraft (text : String)
  | consumeDraft
  | dropSession
  | close
  | seal
  | releaseRetainedEntries
  /-- The line that a writer without `appendSync` is still appending. -/
  | appending

/-- The functions of the manager. -/
abbrev DiskM := Fiber Manager DiskJob DiskCall.Reply DiskError

end Disk

end BreadboardTui
