import BreadboardTui.Journal.Index
import BreadboardTui.Loader.SessionLoader

/-!
# Atomic batches of entries

`appendEntriesAtomically` stages the entries of a callback and publishes the journal with one
replace. Where the publish fails, `rollbackAtomicEntryBatch` takes the staged entries out again and
keeps what other callers did in the meantime.

The model follows the journal in memory: entries, index, leaf and notifications. The publish is the
moment at which it fails; the calls of others before it are a list.
-/

namespace BreadboardTui

namespace Journal

open Loader (SessionTitleSource)

structure AtomicEntryBatch where
  collecting : Bool
  entryIds : List String
  deferredNotifications : List SessionEntry
  preBatchLeafId : Option String
  externalLeafChanged : Bool
  externalLeafId : Option String
  deriving DecidableEq, Repr

/-- The journal of a session manager; `notified` are the calls of `onEntryAppended`. -/
structure SessionManager where
  entries : List SessionEntry
  index : SessionEntryIndex
  sessionName : Option String
  titleSource : Option SessionTitleSource
  atomicEntryBatch : Option AtomicEntryBatch
  pendingDurabilityNotifications : List SessionEntry
  notified : List SessionEntry
  deriving DecidableEq, Repr

/-- The runs of spaces in a text, each as one space. -/
def collapseSpaces : List Char → List Char
  | ' ' :: ' ' :: text => collapseSpaces (' ' :: text)
  | c :: text => c :: collapseSpaces text
  | [] => []

def cleanTitle (raw : String) : String :=
  String.ofList
    (trimChars (collapseSpaces (raw.toList.map fun c => if isControl c then ' ' else c)))

namespace SessionManager

def has (m : SessionManager) (id : String) : Bool := m.index.entriesById.has id

/-- The ids in use, as `generateId` is given them. -/
def usedIds (m : SessionManager) : List String := m.index.entriesById.map Prod.fst

/-- `SessionEntryIndex.setLeaf`. -/
def setIndexLeaf (m : SessionManager) (id : Option String) : SessionManager :=
  { m with index := { m.index with leaf := id } }

def setLeaf (m : SessionManager) (id : Option String) : SessionManager :=
  { m.setIndexLeaf id with
    atomicEntryBatch := m.atomicEntryBatch.map fun batch =>
      if batch.collecting then batch
      else { batch with externalLeafChanged := true, externalLeafId := id } }

/-- What `#recordEntry` does to the batch. -/
def AtomicEntryBatch.record (batch : AtomicEntryBatch) (entry : SessionEntry) : AtomicEntryBatch :=
  let deferred := batch.deferredNotifications ++ [entry]
  if batch.collecting then
    { batch with entryIds := batch.entryIds ++ [entry.id], deferredNotifications := deferred }
  else
    { batch with
      externalLeafChanged := true
      externalLeafId := some entry.id
      deferredNotifications := deferred }

/-- `#recordEntry`, in memory. -/
def recordEntry (m : SessionManager) (entry : SessionEntry) : SessionManager :=
  { m with
    entries := m.entries ++ [entry]
    index := m.index.insert entry
    atomicEntryBatch := m.atomicEntryBatch.map (AtomicEntryBatch.record · entry)
    notified := if m.atomicEntryBatch.isSome then m.notified else m.notified ++ [entry] }

section Calls

variable (generateId : List String → String)

/-- The `append*` methods. `appendLabelChange` throws for a target that is not there. -/
def append (m : SessionManager) (timestamp : String) (body : EntryBody) : SessionManager :=
  match body with
  | .label targetId _ =>
    if m.has targetId then
      m.recordEntry ⟨generateId m.usedIds, m.index.leaf, timestamp, body⟩
    else m
  | _ => m.recordEntry ⟨generateId m.usedIds, m.index.leaf, timestamp, body⟩

def appendMessageToBranch (m : SessionManager) (timestamp : String) (message : AgentMessage)
    (parentId : Option String) : SessionManager :=
  if parentId.all m.has then
    (m.recordEntry ⟨generateId m.usedIds, parentId, timestamp, .message message⟩).setIndexLeaf
      m.index.leaf
  else m

def branch (m : SessionManager) (branchFromId : String) : SessionManager :=
  if m.has branchFromId then m.setLeaf (some branchFromId) else m

def resetLeaf (m : SessionManager) : SessionManager := m.setLeaf none

def branchWithSummary (m : SessionManager) (timestamp : String) (branchFromId : Option String)
    (summary : String) : SessionManager :=
  if branchFromId.all m.has then
    (m.setLeaf branchFromId).recordEntry ⟨generateId m.usedIds, branchFromId, timestamp,
      .branchSummary (branchFromId.getD "root") summary⟩
  else m

/-- `setSessionName`, up to where it first waits. -/
def setSessionName (m : SessionManager) (timestamp name : String) (source : SessionTitleSource) :
    SessionManager :=
  if m.titleSource = some .user ∧ source = .auto then m
  else if cleanTitle name = "" then m
  else
    let entry : SessionEntry := ⟨generateId m.usedIds, m.index.leaf, timestamp,
      .titleChange (cleanTitle name) (m.sessionName.filter (· ≠ ""))⟩
    { m with
      sessionName := some (cleanTitle name)
      titleSource := some source
      entries := m.entries ++ [entry]
      index := m.index.insert entry
      notified := m.notified ++ [entry] }

end Calls

/-! ### Rollback -/

/-- `retainedAncestor`. The walk ends at an entry that it has seen, so it visits every entry of the
index at most once. -/
def retainedAncestor (index : SessionEntryIndex) (entryIds : List String) :
    ℕ → List String → Option String → Option String
  | 0, _, id => id
  | _ + 1, _, none => none
  | n + 1, seen, some id =>
    if id ≠ "" ∧ id ∈ entryIds ∧ id ∉ seen then
      retainedAncestor index entryIds n (id :: seen)
        ((index.entriesById.get id).bind SessionEntry.parentId)
    else some id

/-- An entry below what is left of its ancestors. The entries are objects, so what waits for its
notification changes with them. -/
def reparent (index : SessionEntryIndex) (entryIds : List String) (entry : SessionEntry) :
    SessionEntry :=
  { entry with
    parentId := retainedAncestor index entryIds (index.entriesById.length + 1) [] entry.parentId }

def rollbackAtomicEntryBatch (m : SessionManager) (batch : AtomicEntryBatch) : SessionManager :=
  let retained := (m.entries.filter (·.id ∉ batch.entryIds)).map (reparent m.index batch.entryIds)
  let restoredLeaf := retainedAncestor m.index batch.entryIds
    (m.index.entriesById.length + 1) []
    (if batch.externalLeafChanged then batch.externalLeafId else batch.preBatchLeafId)
  let index := SessionEntryIndex.rebuild retained
  { m with
    entries := retained
    index := { index with
      leaf := restoredLeaf.filter fun id => id ≠ "" && index.entriesById.has id } }

/-- The notifications of a list, each entry once. -/
def notifyOnce : List String → List SessionEntry → List SessionEntry
  | _, [] => []
  | seen, entry :: entries =>
    if entry.id ∈ seen then notifyOnce seen entries
    else entry :: notifyOnce (entry.id :: seen) entries

def notifyDurableEntries (m : SessionManager) (entries : List SessionEntry) : SessionManager :=
  { m with
    pendingDurabilityNotifications := []
    notified := m.notified ++ notifyOnce [] (m.pendingDurabilityNotifications ++ entries) }

end SessionManager

/-- A call that touches the journal. -/
inductive JournalCall where
  | append (timestamp : String) (body : EntryBody)
  | appendMessageToBranch (timestamp : String) (message : AgentMessage) (parentId : Option String)
  | branch (branchFromId : String)
  | resetLeaf
  | branchWithSummary (timestamp : String) (branchFromId : Option String) (summary : String)
  | setSessionName (timestamp name : String) (source : SessionTitleSource)
  deriving DecidableEq, Repr

section Run

variable (generateId : List String → String)

/-- A call; one that throws changes nothing. -/
def SessionManager.call (m : SessionManager) : JournalCall → SessionManager
  | .append timestamp body => m.append generateId timestamp body
  | .appendMessageToBranch timestamp message parentId =>
    m.appendMessageToBranch generateId timestamp message parentId
  | .branch branchFromId => m.branch branchFromId
  | .resetLeaf => m.resetLeaf
  | .branchWithSummary timestamp branchFromId summary =>
    m.branchWithSummary generateId timestamp branchFromId summary
  | .setSessionName timestamp name source => m.setSessionName generateId timestamp name source

def SessionManager.calls (m : SessionManager) (cs : List JournalCall) : SessionManager :=
  cs.foldl (SessionManager.call generateId) m

/-- The journal at the end of the callback. -/
def SessionManager.staged (m : SessionManager) (callback : List JournalCall) : SessionManager :=
  SessionManager.calls generateId
    { m with atomicEntryBatch := some ⟨true, [], [], m.index.leaf, false, none⟩ } callback

/-- The journal when the publish fails, after the calls of others. -/
def SessionManager.published (m : SessionManager) (callback outside : List JournalCall) :
    SessionManager :=
  let staged := m.staged generateId callback
  SessionManager.calls generateId
    { staged with
      atomicEntryBatch := staged.atomicEntryBatch.map ({ · with collecting := false }) } outside

/-- `appendEntriesAtomically` where the publish fails and the repair succeeds. -/
def SessionManager.failedBatch (m : SessionManager) (callback outside : List JournalCall) :
    SessionManager :=
  let late := m.published generateId callback outside
  match late.atomicEntryBatch with
  | none => late
  | some batch =>
    let rolledBack := late.rollbackAtomicEntryBatch batch
    let retainedNotifications := (batch.deferredNotifications.filter (·.id ∉ batch.entryIds)).map
      (SessionManager.reparent late.index batch.entryIds)
    { rolledBack with atomicEntryBatch := none }.notifyDurableEntries retainedNotifications

end Run

end Journal

end BreadboardTui
