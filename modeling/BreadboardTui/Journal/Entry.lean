import BreadboardTui.Js.Collections
import Mathlib.Data.Nat.Notation

/-!
# Session entries

The entries of a session journal and the messages they carry, as far as the session manager and
the context builder look at them or pass them on.
-/

namespace BreadboardTui

namespace Journal

/-! ### Messages -/

inductive StopReason where
  | stop
  | length
  | toolUse
  | error
  | aborted
  deriving DecidableEq, Repr

/-- A content block of an assistant message. -/
inductive AssistantBlock where
  | text (text : String)
  | thinking (thinking : String) (thinkingSignature : Option String)
  | redactedThinking (data : String)
  | toolCall (id name : String)
  deriving DecidableEq, Repr

structure AssistantMessage where
  provider : String
  model : String
  stopReason : StopReason
  /-- Whether `retryRecovery` is set. -/
  retryRecovery : Bool
  content : List AssistantBlock
  deriving DecidableEq, Repr

/-- `preserveData.openaiRemoteCompaction`, where it is an object; a field of another type is
`none`. -/
structure RemoteCompaction where
  provider : Option String
  replacementHistory : Option (List String)
  deriving DecidableEq, Repr

/-- The replay history of a provider. -/
structure ProviderPayload where
  provider : String
  items : List String
  deriving DecidableEq, Repr

structure CompactionEntry where
  summary : String
  shortSummary : Option String
  firstKeptEntryId : String
  tokensBefore : ℕ
  tokensAfter : Option ℕ
  method : Option String
  providerReplayThroughEntryId : Option String
  openaiRemoteCompaction : Option RemoteCompaction
  /-- The snapcompact archive in `preserveData`. -/
  archive : Option String
  warning : Option String
  deriving DecidableEq, Repr

/-- The roles whose messages the context only passes on. -/
inductive OtherRole where
  | developer
  | bashExecution
  | pythonExecution
  | hookMessage
  | fileMention
  deriving DecidableEq, Repr

inductive AgentMessage where
  | user (text : String)
  | assistant (message : AssistantMessage)
  | toolResult (toolCallId : String) (content : String) (isError : Bool)
  | custom (customType content : String) (display : Bool) (attribution : Option String)
      (timestamp : String)
  | branchSummary (summary fromId timestamp : String)
  | compactionSummary (compaction : CompactionEntry) (payload : Option ProviderPayload)
      (timestamp : String)
  | other (role : OtherRole) (content : String)
  deriving DecidableEq, Repr

def interruptedThinkingMessageType : String := "interrupted-thinking"

def prewalkPlanMessageType : String := "prewalk-plan"

def defaultCustomMessageType : String := "custom-message"

/-! ### Entries -/

/-- A persisted service tier: the family map of newer sessions, or the scalar of older ones. -/
inductive PersistedServiceTier where
  | absent
  | byFamily (openai anthropic google : Option String)
  | scalar (value : String)
  deriving DecidableEq, Repr

structure ServiceTierByFamily where
  openai : Option String
  anthropic : Option String
  google : Option String
  deriving DecidableEq, Repr

structure CustomMessageEntry where
  customType : Option String
  /-- The content, where it is text or a list of blocks. -/
  content : Option String
  display : Option Bool
  attribution : Option String
  deriving DecidableEq, Repr

/-- The type of an entry with its payload. -/
inductive EntryBody where
  | message (message : AgentMessage)
  | thinkingLevelChange (thinkingLevel configured : Option String)
  | modelChange (model : String) (role : Option String)
  | serviceTierChange (serviceTier : PersistedServiceTier)
  | compaction (compaction : CompactionEntry)
  | branchSummary (fromId summary : String)
  | custom (customType : String)
  | customMessage (message : CustomMessageEntry)
  | label (targetId : String) (label : Option String)
  | titleChange (title : String) (previousTitle : Option String)
  | ttsrInjection (injectedRules : List String)
  | sessionInit (task : String)
  | modeChange (mode : String) (data : Option String)
  | credentialPin (provider hash : String)
  | resetBoundary
  deriving DecidableEq, Repr

structure SessionEntry where
  id : String
  parentId : Option String
  timestamp : String
  body : EntryBody
  deriving DecidableEq, Repr

namespace SessionEntry

def isLabel (entry : SessionEntry) : Bool :=
  match entry.body with
  | .label .. => true
  | _ => false

def isCompaction (entry : SessionEntry) : Bool :=
  match entry.body with
  | .compaction _ => true
  | _ => false

def isResetBoundary (entry : SessionEntry) : Bool :=
  match entry.body with
  | .resetBoundary => true
  | _ => false

end SessionEntry

/-- The index by id that `buildSessionContext` builds; a later entry replaces an earlier one of the
same id. -/
def indexById (entries : List SessionEntry) : JsMap String SessionEntry :=
  entries.foldl (fun byId entry => byId.set entry.id entry) []

end Journal

end BreadboardTui
