import BreadboardTui.Disk.Manager

/-!
# Disk work

The functions of the session manager that write its file, and the public calls that lead to them,
as tasks over the fields of the manager.
-/

namespace BreadboardTui

namespace Disk

open Effects Journal
open Loader (SessionTitleSource)

/-! ### Storage calls -/

/-- The answer of a synchronous storage call. -/
def ask : DiskM Bool := do
  let s ← Fiber.get
  Fiber.modify fun s => { s with answers := fun n => s.answers (n + 1) }
  pure (s.answers 0)

/-- A synchronous call that may throw. -/
def attemptSync : DiskM Unit := do
  if ← ask then pure () else throw .storage

/-- An awaited call that may fail. -/
def succeed (answer : DiskM Bool) : DiskM Unit := do
  if ← answer then pure () else throw .storage

/-- A call is started that changes the session file. -/
def touch (t : FileTouch) : DiskM Unit :=
  Fiber.modify fun s =>
    if s.released then { s with sealedTouches := s.sealedTouches ++ [t] } else s

/-- A loop has taken all its rounds. -/
def neverAgain {α : Type} : DiskM α := do
  let nothing ← Fiber.call DiskCall.never
  nothing.elim

/-! ### The queues -/

def noteDiskFailure (error : DiskError) : DiskM DiskError := do
  let s ← Fiber.get
  Fiber.modify fun s => { s with diskFailure := some (s.diskFailure.getD error) }
  pure (s.diskFailure.getD error)

def latchIndeterminate {α : Type} (operationError : DiskError) (recoveryErrors : List DiskError) :
    DiskM α := do
  Fiber.modify fun s =>
    { s with diskFailure := some (.indeterminate operationError recoveryErrors) }
  throw (.indeterminate operationError recoveryErrors)

/-- A task of the disk queue at its turn. -/
def queued (work : DiskM Unit) (epoch : ℕ) (ignorePriorError ignoreEpoch : Bool) : DiskM Unit := do
  let s ← Fiber.get
  if !ignoreEpoch && epoch != s.diskEpoch then pure ()
  else
    match s.diskFailure, ignorePriorError with
    | some failure, false => throw failure
    | _, _ => work

/-- `#scheduleDiskWork`, awaited by its caller. -/
def scheduleDiskWork (work : DiskM Unit) (epoch : Option ℕ)
    (ignorePriorError ignoreEpoch : Bool) : DiskM Unit := do
  let s ← Fiber.get
  Fiber.modify fun s => { s with diskTail := some s.tickets, tickets := s.tickets + 1 }
  let _ ← Fiber.call (DiskCall.turn s.diskTail)
  let reported : DiskM Unit :=
    tryCatch (queued work (epoch.getD s.diskEpoch) ignorePriorError ignoreEpoch) fun error => do
      Fiber.pause
      throw (← noteDiskFailure error)
  reported.always do
    Fiber.modify (Manager.settle s.tickets)
    Fiber.pause

def withAtomicPersistenceLock (operation : DiskM Unit) : DiskM Unit := do
  let s ← Fiber.get
  Fiber.modify fun s => { s with atomicPersistenceTail := some s.tickets, tickets := s.tickets + 1 }
  let _ ← Fiber.call (DiskCall.turn s.atomicPersistenceTail)
  operation.always (Fiber.modify (Manager.settle s.tickets))

/-! ### Writing the file -/

def closeWriterHandle : DiskM Unit := do
  let s ← Fiber.get
  if s.writer then
    Fiber.modify Manager.closeWriterEventually
    succeed (Fiber.call DiskCall.closeWriter)
  else pure ()

/-- `#writer?.isOpen()`. -/
def writerIsOpen (writer : Bool) : DiskM Bool :=
  if writer then ask else pure false

def drainAndCloseWriter : DiskM Unit :=
  (scheduleDiskWork closeWriterHandle none true true).always
    (Fiber.modify fun s => { s with writer := false, diskTail := none })

/-- `#liveRelocationWritePath() ?? #sessionFile`. -/
def writePath (s : Manager) : DiskM (Option String) :=
  match s.sessionFileRelocating with
  | none => pure s.sessionFile
  | some relocating => do
    if ← ask then pure (some relocating.dest)
    else if ← ask then pure (some relocating.source)
    else pure (some relocating.dest)

def rewriteSynchronously : DiskM Unit := do
  let s ← Fiber.get
  if s.released then pure ()
  else if !s.persist || !s.shouldHaveSessionFile then pure ()
  else
    match ← writePath s with
    | none => pure ()
    | some targetPath =>
      tryCatch (do
        -- `#fileBody()` serializes every entry and may throw.
        attemptSync
        Fiber.modify fun s => { s with diskEpoch := s.diskEpoch + 1, diskTail := none, writer := false }
        touch .writeTextSync
        attemptSync
        Fiber.modify fun s =>
          if s.sessionFileRelocating.isNone || s.sessionFile = some targetPath then
            s.clearDiskError.rewritten
          else { s.clearDiskError.diverge with hasTitleSlot := true }) fun error => do
        let _ ← noteDiskFailure error

/-- `writeTextAtomic` with the commit guard of an epoch. The guard is asked immediately before the
staged body becomes visible. -/
def writeTextAtomic (epoch : ℕ) : DiskM Unit := do
  succeed (Fiber.call DiskCall.stage)
  let s ← Fiber.get
  if s.released || s.diskEpoch != epoch then Fiber.pause
  else
    touch .publish
    attemptSync
    Fiber.pause

/-- The loop of `#runFencedAtomicRewrite`. -/
def fencedRounds (epoch : ℕ) : ℕ → DiskM Bool
  | 0 => neverAgain
  | n + 1 => do
    Fiber.modify fun s => { s with atomicRewriteDirty := false }
    closeWriterHandle
    let s ← Fiber.get
    if s.sessionFile.isNone || s.diskEpoch != epoch then pure false
    else
      attemptSync
      writeTextAtomic epoch
      let s ← Fiber.get
      if s.diskEpoch != epoch then pure false
      else if s.atomicRewriteDirty then fencedRounds epoch n
      else pure true

def runFencedAtomicRewrite (epoch : ℕ) : DiskM Bool := do
  let s ← Fiber.get
  if s.released then pure false
  else
    Fiber.modify fun s => { s with atomicRewriteFenceEpoch := some epoch }
    (fencedRounds epoch s.rounds).always (Fiber.modify (Manager.relinquishFence epoch))

def rewriteAtomically : DiskM Unit := do
  let s ← Fiber.get
  if !s.persist || s.sessionFile.isNone then pure ()
  else if s.released then pure ()
  else
    scheduleDiskWork (do
      let published ← runFencedAtomicRewrite s.diskEpoch
      Fiber.pause
      if published then Fiber.modify Manager.rewritten else pure ()) (some s.diskEpoch) false false

/-- The loop of `#authoritativelyRewriteCurrentStateLocked`. -/
def repairRounds (operationError : DiskError) (epoch : ℕ) : ℕ → DiskM Unit
  | 0 => neverAgain
  | n + 1 => do
    Fiber.modify fun s => { s with atomicRewriteDirty := false }
    let s ← Fiber.get
    if s.sessionFile.isNone then
      latchIndeterminate operationError
        [.error "Session file disappeared during authoritative repair."]
    else
      attemptSync
      tryCatch (writeTextAtomic epoch) fun error => do
        let drained ← Fiber.call DiskCall.drain
        let recoveryErrors := error :: if drained then [] else [.storage]
        match ← Fiber.call DiskCall.readText with
        | none => latchIndeterminate operationError (recoveryErrors ++ [.storage])
        | some true => pure ()
        | some false =>
          latchIndeterminate operationError (recoveryErrors ++
            [.error "Authoritative session repair did not match durable storage."])
      let s ← Fiber.get
      if s.diskEpoch != epoch then
        latchIndeterminate operationError
          [.error "Authoritative session repair was superseded before verification."]
      else if s.atomicRewriteDirty then repairRounds operationError epoch n
      else pure ()

/-- Whether `writer.close()` succeeds, if there is a writer. -/
def closeWriter (writer : Bool) : DiskM Bool :=
  if writer then Fiber.call DiskCall.closeWriter else pure true

/-- The closing of the writer and the draining before a repair. -/
def settleWriter (operationError : DiskError) (writer : Bool) : DiskM Unit := do
  let closed ← closeWriter writer
  let drained ← Fiber.call DiskCall.drain
  if ← writerIsOpen writer then
    latchIndeterminate operationError
      ((if closed then .error "Failed to close session writer before authoritative repair."
        else .storage) :: if drained then [] else [.storage])
  else pure ()

def authoritativelyRewriteCurrentStateLocked (operationError : DiskError) : DiskM Unit := do
  let s ← Fiber.get
  if s.released then pure ()
  else if !s.persist || s.sessionFile.isNone then pure ()
  else
    let epoch := s.diskEpoch + 1
    Fiber.modify fun s =>
      { s with
        diskEpoch := epoch
        writer := false
        diskTail := none
        forceFileCreation := true
        fileIsCurrent := false
        rewriteRequired := true
        atomicRewriteFenceEpoch := some epoch
        diskFailure := some (s.diskFailure.getD operationError) }
    let repair : DiskM Unit :=
      tryCatch (do
        let _ ← Fiber.call (DiskCall.turn s.diskTail)
        settleWriter operationError s.writer
        repairRounds operationError epoch s.rounds
        Fiber.modify fun s => s.rewritten.clearDiskError) fun error =>
        match error with
        | .indeterminate .. => throw error
        | _ => latchIndeterminate operationError [error]
    repair.always (Fiber.modify (Manager.relinquishFence epoch))

/-! ### Appending -/

def appendWriter : DiskM Unit := do
  let s ← Fiber.get
  if s.sessionFile.isNone then
    throw (.error "Cannot open a session writer before a session file exists")
  else
    if ← writerIsOpen s.writer then pure ()
    else
      touch .openWriter
      attemptSync
      Fiber.modify fun s => { s with writer := true }

/-- The hot path of `#appendToSessionFile`. -/
def appendLine : DiskM Unit := do
  appendWriter
  attemptSync
  touch .append
  -- A writer has `appendSync` or it has not.
  if ← ask then attemptSync
  else
    let _ ← Fiber.spawn DiskJob.appending fun _ s => s
    pure ()

/-- The file lacks an entry. -/
def noteDivergence (error : DiskError) : DiskM Unit := do
  Fiber.modify Manager.diverge
  let _ ← noteDiskFailure error

/-- What follows `void writer.append(line)`. -/
def appending : DiskM Unit := do
  if ← Fiber.call DiskCall.append then pure () else noteDivergence .storage

def appendToSessionFile : DiskM Unit := do
  let s ← Fiber.get
  if s.released || !s.persist || s.sessionFile.isNone then pure ()
  else if s.journal.atomicEntryBatch.isSome then
    Fiber.modify fun s => { s.diverge with atomicRewriteDirty := true }
  else
    Fiber.modify fun s => if s.diskFailure.isSome then s.diverge else s
    let s ← Fiber.get
    if !s.shouldHaveSessionFile then Fiber.modify fun s => { s with fileIsCurrent := false }
    else if s.sessionFileRelocating.isSome then rewriteSynchronously
    else if s.atomicRewriteFenceEpoch = some s.diskEpoch then
      Fiber.modify fun s => { s with atomicRewriteDirty := true }
      rewriteSynchronously
    else if !s.fileIsCurrent || s.rewriteRequired then rewriteSynchronously
    else tryCatch appendLine noteDivergence

def recordEntry (entry : SessionEntry) : DiskM Unit := do
  let s ← Fiber.get
  if s.released then pure ()
  else
    Fiber.modify fun s => { s with journal := s.journal.recordEntry entry }
    appendToSessionFile

/-- The queued task of `#persistTitleChangeEntry`. -/
def titleTask (epoch : ℕ) : DiskM Unit := do
  let s ← Fiber.get
  if s.released then pure ()
  else if s.sessionFile.isNone then pure ()
  else
    tryCatch (do
      appendWriter
      touch .append
      succeed (Fiber.call DiskCall.append)
      touch (.updateSessionTitle s.released)
      succeed (Fiber.call DiskCall.updateSessionTitle)
      Fiber.modify fun s => if s.diskEpoch = epoch then { s with fileIsCurrent := true } else s)
      fun _ => do
        let published ← runFencedAtomicRewrite epoch
        Fiber.pause
        if published then Fiber.modify fun s => s.clearDiskError.rewritten else pure ()

def persistTitleChangeEntry : DiskM Unit := do
  let s ← Fiber.get
  if !s.persist || s.sessionFile.isNone then pure ()
  else if s.diskFailure.isSome then
    Fiber.modify Manager.diverge
    rewriteSynchronously
    let s ← Fiber.get
    match s.diskFailure with
    | some failure => throw failure
    | none => pure ()
  else if !s.shouldHaveSessionFile then Fiber.modify fun s => { s with fileIsCurrent := false }
  else if s.sessionFileRelocating.isSome then rewriteSynchronously
  else if !s.fileIsCurrent || s.rewriteRequired || !s.hasTitleSlot then rewriteAtomically
  else if ← ask then
    attemptSync
    scheduleDiskWork (titleTask s.diskEpoch) (some s.diskEpoch) false false
  else rewriteAtomically

end Disk

end BreadboardTui
