import BreadboardTui.Journal.Entry

/-!
# The session context

`buildSessionContext` in model mode: the path from the leaf to the root, the settings along it,
the messages it emits, and the two filters that run over them. The display transcript, which
shares the function behind an option, is not modelled.

The walk to the root stops at the first entry it has seen before, so it visits every entry of the
index at most once: `ancestors` counts down from the size of the index.
-/

namespace BreadboardTui

namespace Journal

/-! ### The path -/

/-- `entry.parentId ? byId.get(entry.parentId) : undefined`. -/
def parentOf (byId : JsMap String SessionEntry) (entry : SessionEntry) : Option SessionEntry :=
  match entry.parentId with
  | none => none
  | some parentId => if parentId = "" then none else byId.get parentId

/-- The walk from an entry to the root, leaf first. -/
def ancestors (byId : JsMap String SessionEntry) :
    ℕ → List String → Option SessionEntry → List SessionEntry
  | 0, _, _ => []
  | _ + 1, _, none => []
  | n + 1, seen, some entry =>
    if entry.id ∈ seen then []
    else entry :: ancestors byId n (entry.id :: seen) (parentOf byId entry)

/-- The path from the root to an entry. -/
def pathFrom (byId : JsMap String SessionEntry) (leaf : Option SessionEntry) : List SessionEntry :=
  (ancestors byId (byId.length + 2) [] leaf).reverse

/-! ### Settings along the path -/

def isServiceTier (tier : String) : Bool :=
  tier ∈ ["auto", "default", "flex", "scale", "priority"]

def coerceServiceTierByFamily : PersistedServiceTier → Option ServiceTierByFamily
  | .absent => none
  | .byFamily openai anthropic google =>
    let out : ServiceTierByFamily :=
      ⟨openai.filter isServiceTier, anthropic.filter isServiceTier, google.filter isServiceTier⟩
    if out = ⟨none, none, none⟩ then none else some out
  | .scalar "priority" => some ⟨some "priority", some "priority", some "priority"⟩
  | .scalar "openai-only" => some ⟨some "priority", none, none⟩
  | .scalar "claude-only" => some ⟨none, some "priority", none⟩
  | .scalar "auto" => some ⟨some "auto", none, none⟩
  | .scalar "default" => some ⟨some "default", none, none⟩
  | .scalar "flex" => some ⟨some "flex", none, none⟩
  | .scalar "scale" => some ⟨some "scale", none, none⟩
  | .scalar _ => none

/-- What the entries of the path say besides their messages. -/
structure ContextSettings where
  thinkingLevel : String
  configuredThinkingLevel : Option String
  serviceTier : Option ServiceTierByFamily
  models : JsMap String String
  hasExplicitDefaultModel : Bool
  injectedTtsrRules : List String
  mode : String
  modeData : Option String
  deriving DecidableEq, Repr

def ContextSettings.initial : ContextSettings where
  thinkingLevel := "off"
  configuredThinkingLevel := none
  serviceTier := none
  models := []
  hasExplicitDefaultModel := false
  injectedTtsrRules := []
  mode := "none"
  modeData := none

/-- `set.add` for every rule. -/
def addRules (rules : List String) (injectedRules : List String) : List String :=
  injectedRules.foldl (fun rules rule => if rule ∈ rules then rules else rules ++ [rule]) rules

/-- One iteration of the loop over the path. -/
def ContextSettings.apply (settings : ContextSettings) (entry : SessionEntry) : ContextSettings :=
  match entry.body with
  | .thinkingLevelChange thinkingLevel configured =>
    { settings with
      thinkingLevel := thinkingLevel.getD "off"
      configuredThinkingLevel := configured <|> thinkingLevel }
  | .modelChange model role =>
    if model = "" then settings
    else
      { settings with
        models := settings.models.set (role.getD "default") model
        hasExplicitDefaultModel :=
          settings.hasExplicitDefaultModel || role.getD "default" == "default" }
  | .serviceTierChange serviceTier =>
    { settings with serviceTier := coerceServiceTierByFamily serviceTier }
  | .message (.assistant message) =>
    if settings.hasExplicitDefaultModel then settings
    else
      { settings with
        models := settings.models.set "default" s!"{message.provider}/{message.model}" }
  | .ttsrInjection injectedRules =>
    { settings with injectedTtsrRules := addRules settings.injectedTtsrRules injectedRules }
  | .modeChange mode data => { settings with mode := mode, modeData := data }
  | _ => settings

/-- The last compaction of the path, with its entry. -/
def latestCompaction (path : List SessionEntry) : Option (SessionEntry × CompactionEntry) :=
  path.foldl (fun latest entry =>
    match entry.body with
    | .compaction compaction => some (entry, compaction)
    | _ => latest) none

/-! ### Emission -/

def getOpenAiRemoteCompactionPayload (compaction : CompactionEntry) : Option ProviderPayload :=
  match compaction.openaiRemoteCompaction with
  | some ⟨some provider, some items⟩ => if provider = "" then none else some ⟨provider, items⟩
  | _ => none

/-- `createCustomMessage(normalizeCustomMessagePayload(entry), …)`. -/
def customMessage (message : CustomMessageEntry) (content timestamp : String) : AgentMessage :=
  .custom ((message.customType.filter (· ≠ "")).getD defaultCustomMessageType) content
    (message.display.getD false)
    (message.attribution.map fun attribution => if attribution = "user" then "user" else "agent")
    timestamp

/-- `appendMessage`: the message of an entry, if it has one for the model. -/
def appendMessage (entry : SessionEntry) : Option AgentMessage :=
  match entry.body with
  | .message (.assistant message) => if message.retryRecovery then none else some (.assistant message)
  | .message message => some message
  | .customMessage message =>
    if message.customType = some prewalkPlanMessageType then none
    else message.content.map fun content => customMessage message content entry.timestamp
  | .branchSummary fromId summary =>
    if summary = "" then none else some (.branchSummary summary fromId entry.timestamp)
  | _ => none

/-- The index of the last `/clear` boundary. -/
def resetBoundaryIdx (path : List SessionEntry) : Option ℕ :=
  (path.reverse.findIdx? (·.isResetBoundary)).map fun i => path.length - 1 - i

/-- The index of a compaction on the path. -/
def compactionIdx (path : List SessionEntry) (entry : SessionEntry) : ℕ :=
  path.findIdx fun e => e.isCompaction && e.id == entry.id

/-- The entries before a compaction that are emitted with it. -/
def keptEntries (path : List SessionEntry) (idx : ℕ) (compaction : CompactionEntry) :
    List SessionEntry :=
  match getOpenAiRemoteCompactionPayload compaction with
  | none => (path.take idx).dropWhile fun entry => entry.id ≠ compaction.firstKeptEntryId
  | some _ =>
    match compaction.providerReplayThroughEntryId.filter (· ≠ "") with
    | none => []
    | some through =>
      match path.findIdx? fun entry => entry.id == through with
      | some i => if i < idx then (path.take idx).drop (i + 1) else []
      | none => []

/-- A `/clear` boundary that no later compaction has superseded. -/
def activeBoundary (path : List SessionEntry) : Option ℕ :=
  (resetBoundaryIdx path).filter fun boundary =>
    (latestCompaction path).all fun (entry, _) => compactionIdx path entry < boundary

/-- The messages of the path, before the filters. -/
def emittedMessages (path : List SessionEntry) : List AgentMessage :=
  match activeBoundary path, latestCompaction path with
  | some boundary, _ => (path.drop (boundary + 1)).filterMap appendMessage
  | none, some (entry, compaction) =>
    let idx := compactionIdx path entry
    .compactionSummary compaction (getOpenAiRemoteCompactionPayload compaction) entry.timestamp ::
      ((keptEntries path idx compaction).filterMap appendMessage ++
        (path.drop (idx + 1)).filterMap appendMessage)
  | none, none => path.filterMap appendMessage

/-! ### The filters -/

def AssistantBlock.callId? : AssistantBlock → Option String
  | .toolCall id _ => some id
  | _ => none

/-- The ids of the `toolCall` blocks of a message. -/
def AgentMessage.calls : AgentMessage → List String
  | .assistant message => message.content.filterMap AssistantBlock.callId?
  | _ => []

/-- The call that a tool result answers. -/
def AgentMessage.resultId? : AgentMessage → Option String
  | .toolResult toolCallId .. => some toolCallId
  | _ => none

def pairedToolResultIds (messages : List AgentMessage) : List String :=
  messages.filterMap AgentMessage.resultId?

/-- A block of a turn that is rewritten: calls without a result and redacted thinking go, and a
thinking block loses its signature. -/
def normalizeBlock (paired : List String) : AssistantBlock → Option AssistantBlock
  | .toolCall id name => if id ∈ paired then some (.toolCall id name) else none
  | .redactedThinking _ => none
  | .thinking thinking _ => some (.thinking thinking none)
  | .text text => some (.text text)

/-- One iteration of the loop that strips dangling tool calls; `none` where the turn is left
without content. -/
def stripDangling (paired : List String) (message : AgentMessage) : Option AgentMessage :=
  match message with
  | .assistant assistant =>
    if message.calls.all (· ∈ paired) then some message
    else
      let normalized := assistant.content.filterMap (normalizeBlock paired)
      if normalized.isEmpty then none else some (.assistant { assistant with content := normalized })
  | _ => some message

/-- The stop reasons of a failed turn. -/
def AgentMessage.isFailedTurn : AgentMessage → Bool
  | .assistant message => message.stopReason = .aborted ∨ message.stopReason = .error
  | _ => false

/-- A note that continues the interrupted thinking of the turn before it. -/
def AgentMessage.isInterruptedThinking : AgentMessage → Bool
  | .custom customType .. => customType = interruptedThinkingMessageType
  | _ => false

/-- The loop that removes failed turns with their results. It runs from the end: what follows a
message has been filtered when the message is looked at. -/
def dropFailedTurns : List AgentMessage → List AgentMessage
  | [] => []
  | message :: messages =>
    let rest := dropFailedTurns messages
    if message.isFailedTurn && !rest.head?.any (·.isInterruptedThinking) then
      rest.filter fun candidate => candidate.resultId?.all (· ∉ message.calls)
    else message :: rest

/-- Both filters. -/
def filterMessages (messages : List AgentMessage) : List AgentMessage :=
  dropFailedTurns (messages.filterMap (stripDangling (pairedToolResultIds messages)))

/-! ### The context -/

/-- `leafId`: not given, `null`, or an entry. -/
inductive LeafRef where
  | unspecified
  | root
  | entry (id : String)
  deriving DecidableEq, Repr

structure SessionContext where
  messages : List AgentMessage
  settings : ContextSettings
  deriving DecidableEq, Repr

/-- The entry from which the walk starts. -/
def leafEntry (entries : List SessionEntry) (byId : JsMap String SessionEntry) :
    LeafRef → Option SessionEntry
  | .root => none
  | .unspecified => entries.getLast?
  | .entry id => if id = "" then entries.getLast? else byId.get id <|> entries.getLast?

/-- The context of a path. -/
def contextOf (path : List SessionEntry) : SessionContext where
  messages := filterMessages (emittedMessages path)
  settings := path.foldl ContextSettings.apply .initial

/-- `buildSessionContext`. Without a leaf the path is empty. -/
def buildSessionContext (entries : List SessionEntry) (leaf : LeafRef)
    (byId : JsMap String SessionEntry) : SessionContext :=
  contextOf (pathFrom byId (leafEntry entries byId leaf))

end Journal

end BreadboardTui
