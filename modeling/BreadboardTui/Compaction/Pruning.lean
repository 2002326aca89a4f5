import Mathlib.Algebra.Order.Ring.Rat
import Mathlib.Tactic

/-!
# Pruning tool results

The two passes that blank tool results on a branch: `pruneSupersededToolResults`, which is cheap and
runs often, and `pruneToolOutputs`, which also takes old results.

A result goes for one of three reasons. It is superseded by a later result of the same key, its tool
flagged it as useless, or enough tool results follow it. `pruning_blanks_only` says what holds for
every result that goes, whatever the branch, the token counter and the configuration are.
-/

namespace BreadboardTui.Pruning

open List Option

/-! ### The branch -/

structure ToolCall (Data : Type) where
  id : String
  name : String
  arguments : Data

inductive ResultBlock (Data : Type) where
  | text (text : String)
  | other (block : Data)

structure ToolResultMessage (Data : Type) where
  toolCallId : String
  toolName : String
  content : List (ResultBlock Data)
  details : Option Data := none
  isError : Bool := false
  useless : Bool := false
  prunedAt : Option ℚ := none
  timestamp : Option ℚ := none

inductive AssistantBlock (Data : Type) where
  | toolCall (call : ToolCall Data)
  | other (block : Data)

inductive AgentMessage (Data : Type) where
  | assistant (content : List (AssistantBlock Data)) (timestamp : Option ℚ)
  | toolResult (message : ToolResultMessage Data)
  | other (message : Data) (timestamp : Option ℚ)

def AgentMessage.timestamp {Data : Type} : AgentMessage Data → Option ℚ
  | .assistant _ timestamp => timestamp
  | .toolResult message => message.timestamp
  | .other _ timestamp => timestamp

/-- `message` is there where the type of the entry is `message`. -/
structure SessionEntry (Data : Type) where
  id : String
  message : Option (AgentMessage Data)

/-- A matcher is the name of a tool, or a predicate on a result and its call. -/
inductive ProtectedToolMatcher (Data : Type) where
  | tool (name : String)
  | context (holds : ToolResultMessage Data → Option (ToolCall Data) → Bool)

section Model

variable {Data : Type}

def getToolResultMessage (entry : SessionEntry Data) : Option (ToolResultMessage Data) :=
  match entry.message with
  | some (.toolResult message) => some message
  | _ => none

/-- The calls of an entry. -/
def toolCalls (entry : SessionEntry Data) : List (ToolCall Data) :=
  match entry.message with
  | some (.assistant content _) => content.filterMap fun
    | .toolCall call => some call
    | .other _ => none
  | _ => []

/-- The last call with an id is the one that the map keeps. -/
def collectToolCallsById (entries : List (SessionEntry Data)) (id : String) :
    Option (ToolCall Data) :=
  (entries.flatMap toolCalls).reverse.find? fun call => call.id = id

def isProtectedToolResult (toolResult : ToolResultMessage Data) (toolCall : Option (ToolCall Data))
    (matchers : List (ProtectedToolMatcher Data)) : Bool :=
  matchers.any fun
    | .tool name => toolResult.toolName = name
    | .context holds => holds toolResult toolCall

/-! ### Notices -/

def SUPERSEDED_NOTICE : String := "[Superseded by a newer read of this file]"

def USELESS_NOTICE : String := "[Uneventful result elided]"

def createPrunedNotice (tokens : ℕ) : String := "[Output truncated - " ++ toString tokens ++ " tokens]"

def MIN_PRUNE_TOKENS : ℕ := 50

/-- Four characters are a token, rounded up. -/
def estimatePrunedSavings (tokens : ℕ) (notice : String) : ℕ :=
  tokens - (notice.length + 3) / 4

/-- The tokens of all messages behind each entry, and those of all messages. -/
def computeMessageSuffixTokens (countMessage : AgentMessage Data → ℕ) :
    List (SessionEntry Data) → List ℕ × ℕ
  | [] => ([], 0)
  | entry :: rest =>
    let (suffix, accumulated) := computeMessageSuffixTokens countMessage rest
    (accumulated :: suffix, accumulated + (entry.message.map countMessage).getD 0)

def resolveBoundaryIndex (entries : List (SessionEntry Data)) (keepBoundaryId : Option String) : ℕ :=
  match keepBoundaryId with
  | none => 0
  | some id => (entries.findIdx? fun entry => entry.id = id).getD 0

/-! ### Candidates -/

structure Candidate where
  index : ℕ
  tokens : ℕ
  notice : String

/-- What comes before the separator of a key that has one. -/
def baseKey (key : String) : Option String :=
  if '\x00' ∈ key.toList then some (String.ofList (key.toList.takeWhile fun c => c ≠ '\x00'))
  else none

section Collect

variable (countMessage : AgentMessage Data → ℕ)
variable (toolCallsById : String → Option (ToolCall Data))
variable (protectedTools : List (ProtectedToolMatcher Data))

/-- The key of a result that is unpruned, has a call and is not protected. -/
def liveKey (supersedeKey : String → Data → Option String) (entry : SessionEntry Data) :
    Option String := do
  let message ← getToolResultMessage entry
  guard message.prunedAt.isNone
  let toolCall ← toolCallsById message.toolCallId
  guard (!isProtectedToolResult message (some toolCall) protectedTools)
  supersedeKey toolCall.name toolCall.arguments

/-- The candidates from an index on, in message order, and the keys of the results there. -/
def collectSupersededFrom (supersedeKey : String → Data → Option String) (i : ℕ) :
    List (SessionEntry Data) → List Candidate × List String
  | [] => ([], [])
  | entry :: rest =>
    let (candidates, seenKeys) := collectSupersededFrom supersedeKey (i + 1) rest
    match liveKey toolCallsById protectedTools supersedeKey entry with
    | none => (candidates, seenKeys)
    | some key =>
      let superseded := key ∈ seenKeys ∨ ∃ base ∈ baseKey key, base ∈ seenKeys
      let tokens := (entry.message.map countMessage).getD 0
      (if superseded then ⟨i, tokens, SUPERSEDED_NOTICE⟩ :: candidates else candidates,
        key :: seenKeys)

/-- The candidates of a configuration, which may have no key function. -/
def collectSupersededResults (supersedeKey : Option (String → Data → Option String))
    (entries : List (SessionEntry Data)) : List Candidate :=
  match supersedeKey with
  | none => []
  | some supersedeKey =>
    (collectSupersededFrom countMessage toolCallsById protectedTools supersedeKey 0 entries).1

/-- The candidate at an index, where its tool flagged the result as useless. -/
def uselessAt (exclude : List Candidate) (entry : SessionEntry Data) (i : ℕ) : Option Candidate := do
  let message ← getToolResultMessage entry
  guard (message.useless && message.prunedAt.isNone && !message.isError)
  guard (!exclude.any fun c => c.index = i)
  guard (!isProtectedToolResult message (toolCallsById message.toolCallId) protectedTools)
  let tokens := countMessage (.toolResult message)
  guard (0 < estimatePrunedSavings tokens USELESS_NOTICE)
  return ⟨i, tokens, USELESS_NOTICE⟩

def collectUselessResults (exclude : List Candidate) (entries : List (SessionEntry Data)) :
    List Candidate :=
  entries.zipIdx.filterMap fun (entry, i) =>
    uselessAt countMessage toolCallsById protectedTools exclude entry i

end Collect

/-! ### Blanking -/

def blank (notice : String) (prunedAt : ℚ) (message : ToolResultMessage Data) :
    ToolResultMessage Data :=
  { message with content := [.text notice], prunedAt := some prunedAt }

/-- An entry with its result blanked. -/
def blankEntry (notice : String) (prunedAt : ℚ) (entry : SessionEntry Data) : SessionEntry Data :=
  { entry with
    message := entry.message.map fun
      | .toolResult message => .toolResult (blank notice prunedAt message)
      | message => message }

def applyNotices (prunedAt : ℚ) (candidates : List Candidate) (entries : List (SessionEntry Data)) :
    List (SessionEntry Data) :=
  candidates.foldl (fun entries c => entries.modify c.index (blankEntry c.notice prunedAt)) entries

def summedSavings (candidates : List Candidate) : ℕ :=
  (candidates.map fun c => estimatePrunedSavings c.tokens c.notice).sum

/-- `PruneResult`, with the branch after the pass. -/
structure Pruned (Data : Type) where
  entries : List (SessionEntry Data)
  prunedCount : ℕ := 0
  tokensSaved : ℕ := 0

/-! ### The two passes -/

structure SupersedePruneConfig (Data : Type) where
  supersedeKey : Option (String → Data → Option String) := none
  pruneUseless : Bool := false
  suffixTokenLimit : ℚ := 8000
  idleFlushMs : ℚ := 30 * 60000
  now : Option ℚ := none
  keepBoundaryId : Option String := none
  protectedTools : List (ProtectedToolMatcher Data)

/-- The last message is old enough for the cache of the provider to be cold. -/
def isIdle (entries : List (SessionEntry Data)) (config : SupersedePruneConfig Data) (clock : ℚ) :
    Bool :=
  match (entries.filterMap SessionEntry.message).getLast?.bind AgentMessage.timestamp with
  | none => false
  | some timestamp => config.idleFlushMs ≤ config.now.getD clock - timestamp

/-- The results that the configuration would prune, in message order. -/
def supersedeCandidates (entries : List (SessionEntry Data)) (countMessage : AgentMessage Data → ℕ)
    (config : SupersedePruneConfig Data) : List Candidate :=
  let toolCallsById := collectToolCallsById entries
  let candidates := collectSupersededResults countMessage toolCallsById config.protectedTools
    config.supersedeKey entries
  if config.pruneUseless then
    (candidates ++ collectUselessResults countMessage toolCallsById config.protectedTools candidates
      entries).mergeSort fun a b => a.index ≤ b.index
  else candidates

def pruneSupersededToolResults (entries : List (SessionEntry Data))
    (countMessage : AgentMessage Data → ℕ) (config : SupersedePruneConfig Data) (clock : ℚ) :
    Pruned Data :=
  let candidates := supersedeCandidates entries countMessage config
  let boundaryIndex := resolveBoundaryIndex entries config.keepBoundaryId
  let suffixTokens := (computeMessageSuffixTokens countMessage entries).1
  let toPrune :=
    if isIdle entries config clock then candidates.filter fun c => boundaryIndex ≤ c.index
    else candidates.filter fun c =>
      boundaryIndex ≤ c.index ∧ (suffixTokens.getD c.index 0 : ℚ) ≤ config.suffixTokenLimit
  { entries := applyNotices clock toPrune entries
    prunedCount := toPrune.length
    tokensSaved := summedSavings toPrune }

structure PruneConfig (Data : Type) where
  protectTokens : ℚ
  minimumSavings : ℚ
  protectedTools : List (ProtectedToolMatcher Data)
  supersedeKey : Option (String → Data → Option String) := none
  pruneUseless : Bool := true
  keepBoundaryId : Option String := none
  cacheWarmSuffixTokens : Option ℚ := none

/-- What the walk of `pruneToolOutputs` looks up. -/
structure PruneContext (Data : Type) where
  countMessage : AgentMessage Data → ℕ
  toolCallsById : String → Option (ToolCall Data)
  protectedTools : List (ProtectedToolMatcher Data)
  protectTokens : ℚ
  superseded : List Candidate
  useless : List Candidate
  boundaryIndex : ℕ
  messageSuffix : List ℕ
  cacheWarmSuffixTokens : Option ℚ

namespace PruneContext

variable (ctx : PruneContext Data)

/-- What is written over the result at an index, with the tokens of the results behind it. -/
def noticeAt (i : ℕ) (message : ToolResultMessage Data) (accumulatedTokens : ℕ) : Option String :=
  let tokens := ctx.countMessage (.toolResult message)
  let isProtected := isProtectedToolResult message (ctx.toolCallsById message.toolCallId)
    ctx.protectedTools
  let inWarmPrefix := ctx.cacheWarmSuffixTokens.any fun limit =>
    limit < (ctx.messageSuffix.getD i 0 : ℚ)
  if message.prunedAt.isSome then none
  else if inWarmPrefix || i < ctx.boundaryIndex then none
  else if ctx.superseded.any fun c => c.index = i then some SUPERSEDED_NOTICE
  else if ctx.useless.any fun c => c.index = i then some USELESS_NOTICE
  else if (accumulatedTokens : ℚ) < ctx.protectTokens || isProtected || tokens < MIN_PRUNE_TOKENS
    then none
  else some (createPrunedNotice tokens)

/-- The candidates from an index on, the last one first, and the tokens of the results there. -/
def walkTools (i : ℕ) : List (SessionEntry Data) → List Candidate × ℕ
  | [] => ([], 0)
  | entry :: rest =>
    let (candidates, accumulatedTokens) := walkTools (i + 1) rest
    match getToolResultMessage entry with
    | none => (candidates, accumulatedTokens)
    | some message =>
      let tokens := ctx.countMessage (.toolResult message)
      match ctx.noticeAt i message accumulatedTokens with
      | none => (candidates, accumulatedTokens + tokens)
      | some notice => (candidates ++ [⟨i, tokens, notice⟩], accumulatedTokens + tokens)

end PruneContext

def pruneContext (entries : List (SessionEntry Data)) (countMessage : AgentMessage Data → ℕ)
    (config : PruneConfig Data) : PruneContext Data :=
  let toolCallsById := collectToolCallsById entries
  let superseded := collectSupersededResults countMessage toolCallsById config.protectedTools
    config.supersedeKey entries
  { countMessage := countMessage
    toolCallsById := toolCallsById
    protectedTools := config.protectedTools
    protectTokens := config.protectTokens
    superseded := superseded
    useless :=
      if config.pruneUseless then
        collectUselessResults countMessage toolCallsById config.protectedTools superseded entries
      else []
    boundaryIndex := resolveBoundaryIndex entries config.keepBoundaryId
    messageSuffix := (computeMessageSuffixTokens countMessage entries).1
    cacheWarmSuffixTokens := config.cacheWarmSuffixTokens }

def pruneToolOutputs (entries : List (SessionEntry Data)) (countMessage : AgentMessage Data → ℕ)
    (config : PruneConfig Data) (clock : ℚ) : Pruned Data :=
  let candidates := ((pruneContext entries countMessage config).walkTools 0 entries).1
  let tokensSaved := summedSavings candidates
  if (tokensSaved : ℚ) < config.minimumSavings then { entries := entries }
  else
    { entries := applyNotices clock candidates entries
      prunedCount := candidates.length
      tokensSaved := tokensSaved }

end Model

/-! ### What may go -/

section Claims

variable {Data : Type}

/-- The tokens of the tool results among entries. -/
def toolResultTokens (countMessage : AgentMessage Data → ℕ) (entries : List (SessionEntry Data)) : ℕ :=
  (entries.filterMap getToolResultMessage).foldr
    (fun message total => total + countMessage (.toolResult message)) 0

/-- The tokens of all messages among entries. -/
def messageTokens (countMessage : AgentMessage Data → ℕ) (entries : List (SessionEntry Data)) : ℕ :=
  entries.foldr (fun entry total => total + (entry.message.map countMessage).getD 0) 0

/-- Later on the branch there is a result, an error or not, that is unpruned and not protected, with
the same key or with the base key. -/
def IsSuperseded (entries : List (SessionEntry Data)) (supersedeKey : String → Data → Option String)
    (protectedTools : List (ProtectedToolMatcher Data)) (i : ℕ) : Prop :=
  ∃ key, (entries[i]?.bind
      (liveKey (collectToolCallsById entries) protectedTools supersedeKey)) = some key ∧
    ∃ j, i < j ∧ ∃ later, (entries[j]?.bind
        (liveKey (collectToolCallsById entries) protectedTools supersedeKey)) = some later ∧
      (later = key ∨ baseKey key = some later)

/-- Why a result goes. -/
inductive Reason where
  | superseded
  | useless
  | age
  deriving DecidableEq

def Reason.notice (tokens : ℕ) : Reason → String
  | .superseded => SUPERSEDED_NOTICE
  | .useless => USELESS_NOTICE
  | .age => createPrunedNotice tokens

/-- The result at an index was unpruned, unprotected and not before the boundary, and is blanked for
a reason; nothing else of its entry has changed. -/
structure Blanked (entries after : List (SessionEntry Data)) (countMessage : AgentMessage Data → ℕ)
    (protectedTools : List (ProtectedToolMatcher Data)) (keepBoundaryId : Option String) (clock : ℚ)
    (i : ℕ) (reason : Reason) : Prop where
  blanked : ∃ entry message, entries[i]? = some entry ∧ getToolResultMessage entry = some message ∧
    after[i]? = some
      (blankEntry (reason.notice (countMessage (.toolResult message))) clock entry) ∧
    message.prunedAt = none ∧
    isProtectedToolResult message (collectToolCallsById entries message.toolCallId) protectedTools =
      false
  kept : resolveBoundaryIndex entries keepBoundaryId ≤ i

/-- What blanking an entry has saved. -/
def savedAt (countMessage : AgentMessage Data → ℕ) (before after : SessionEntry Data) : ℕ :=
  match getToolResultMessage before, getToolResultMessage after with
  | some message, some { prunedAt := some _, content := [.text notice], .. } =>
    if message.prunedAt.isNone then
      estimatePrunedSavings (countMessage (.toolResult message)) notice
    else 0
  | _, _ => 0

end Claims

/-! ### The walks -/

section Walks

variable {Data : Type} {countMessage : AgentMessage Data → ℕ}
variable {toolCallsById : String → Option (ToolCall Data)}
variable {protectedTools : List (ProtectedToolMatcher Data)}

variable {supersedeKey : String → Data → Option String}

theorem liveKey_eq_some {entry : SessionEntry Data}
    {key : String} (h : liveKey toolCallsById protectedTools supersedeKey entry = some key) :
    ∃ message, getToolResultMessage entry = some message ∧ message.prunedAt = none ∧
      isProtectedToolResult message (toolCallsById message.toolCallId) protectedTools = false := by
  rw [liveKey] at h
  obtain ⟨message, hmessage, h⟩ := bind_eq_some_iff.mp h
  obtain ⟨_, hpruned, h⟩ := bind_eq_some_iff.mp h
  obtain ⟨toolCall, hcall, h⟩ := bind_eq_some_iff.mp h
  obtain ⟨_, hprotected, -⟩ := bind_eq_some_iff.mp h
  refine ⟨message, hmessage, ?_, ?_⟩
  · rw [guard_eq_some'] at hpruned
    exact isNone_iff_eq_none.mp hpruned
  rw [guard_eq_some', Bool.not_eq_true'] at hprotected
  rwa [hcall]

/-- The key of a result, at an index of a list of entries. -/
def liveKeyAt (toolCallsById : String → Option (ToolCall Data))
    (protectedTools : List (ProtectedToolMatcher Data))
    (supersedeKey : String → Data → Option String) (entries : List (SessionEntry Data)) (k : ℕ) :
    Option String :=
  entries[k]?.bind (liveKey toolCallsById protectedTools supersedeKey)

theorem mem_seenKeys (key : String) : ∀ (entries : List (SessionEntry Data)) (i : ℕ),
      key ∈ (collectSupersededFrom countMessage toolCallsById protectedTools supersedeKey i
        entries).2 →
      ∃ k, liveKeyAt toolCallsById protectedTools supersedeKey entries k = some key
  | [], _, h => absurd h not_mem_nil
  | entry :: rest, i, h => by
    rw [collectSupersededFrom] at h
    cases hlive : liveKey toolCallsById protectedTools supersedeKey entry with
    | none =>
      rw [hlive] at h
      obtain ⟨k, hk⟩ := mem_seenKeys key rest (i + 1) h
      exact ⟨k + 1, hk⟩
    | some =>
      rw [hlive] at h
      rcases mem_cons.mp h with rfl | h
      · exact ⟨0, hlive⟩
      obtain ⟨k, hk⟩ := mem_seenKeys key rest (i + 1) h
      exact ⟨k + 1, hk⟩

/-- A candidate is the result at its index, and a later key supersedes its own. -/
structure IsSupersededCandidate (countMessage : AgentMessage Data → ℕ)
    (toolCallsById : String → Option (ToolCall Data))
    (protectedTools : List (ProtectedToolMatcher Data))
    (supersedeKey : String → Data → Option String) (entries : List (SessionEntry Data)) (k : ℕ)
    (c : Candidate) : Prop where
  notice_eq : c.notice = SUPERSEDED_NOTICE
  tokens_eq : ∃ entry, entries[k]? = some entry ∧ c.tokens = (entry.message.map countMessage).getD 0
  superseded : ∃ key, liveKeyAt toolCallsById protectedTools supersedeKey entries k = some key ∧
    ∃ j, k < j ∧ ∃ later, liveKeyAt toolCallsById protectedTools supersedeKey entries j =
      some later ∧ (later = key ∨ baseKey key = some later)

theorem IsSupersededCandidate.cons {supersedeKey : String → Data → Option String}
    {entries : List (SessionEntry Data)} {k : ℕ} {c : Candidate}
    (h : IsSupersededCandidate countMessage toolCallsById protectedTools supersedeKey entries k c)
    (entry : SessionEntry Data) :
    IsSupersededCandidate countMessage toolCallsById protectedTools supersedeKey (entry :: entries)
      (k + 1) c := by
  obtain ⟨key, hkey, j, hj, later, hlater, hrelated⟩ := h.superseded
  exact ⟨h.notice_eq, h.tokens_eq, key, hkey, j + 1, Nat.succ_lt_succ hj, later, hlater, hrelated⟩

variable {c : Candidate}

theorem mem_collectSupersededFrom : ∀ (entries : List (SessionEntry Data)) (i : ℕ),
      c ∈ (collectSupersededFrom countMessage toolCallsById protectedTools supersedeKey i
        entries).1 →
      ∃ k, c.index = i + k ∧
        IsSupersededCandidate countMessage toolCallsById protectedTools supersedeKey entries k c
  | [], _, h => absurd h not_mem_nil
  | entry :: rest, i, h => by
    have hrest (h : c ∈ (collectSupersededFrom countMessage toolCallsById protectedTools
        supersedeKey (i + 1) rest).1) : ∃ k, c.index = i + k ∧ IsSupersededCandidate countMessage
          toolCallsById protectedTools supersedeKey (entry :: rest) k c := by
      obtain ⟨k, hindex, hk⟩ := mem_collectSupersededFrom rest (i + 1) h
      exact ⟨k + 1, hindex.trans (by omega), hk.cons entry⟩
    rw [collectSupersededFrom] at h
    cases hlive : liveKey toolCallsById protectedTools supersedeKey entry with
    | none =>
      rw [hlive] at h
      exact hrest h
    | some key =>
      rw [hlive] at h
      dsimp only at h
      split at h
      · next hseen =>
        rcases mem_cons.mp h with rfl | h
        · refine ⟨0, rfl, rfl, ⟨entry, rfl, rfl⟩, key, hlive, ?_⟩
          rcases hseen with hseen | ⟨base, hbase, hseen⟩
          · obtain ⟨k, hk⟩ := mem_seenKeys key rest (i + 1) hseen
            exact ⟨k + 1, Nat.succ_pos k, key, hk, .inl rfl⟩
          obtain ⟨k, hk⟩ := mem_seenKeys base rest (i + 1) hseen
          exact ⟨k + 1, Nat.succ_pos k, base, hk, .inr hbase⟩
        · exact hrest h
      · exact hrest h

theorem mem_collectSupersededResults {supersedeKey : Option (String → Data → Option String)}
    {entries : List (SessionEntry Data)}
    (h : c ∈ collectSupersededResults countMessage toolCallsById protectedTools supersedeKey
      entries) :
    ∃ keyFn ∈ supersedeKey, IsSupersededCandidate countMessage toolCallsById protectedTools keyFn
      entries c.index c := by
  cases supersedeKey with
  | none => exact absurd h not_mem_nil
  | some keyFn =>
    obtain ⟨k, hindex, hk⟩ := mem_collectSupersededFrom entries 0 h
    rw [zero_add] at hindex
    exact ⟨keyFn, rfl, hindex ▸ hk⟩

theorem IsSupersededCandidate.result {entries : List (SessionEntry Data)} {k : ℕ}
    (h : IsSupersededCandidate countMessage toolCallsById protectedTools supersedeKey entries k c) :
    ∃ entry message, entries[k]? = some entry ∧ getToolResultMessage entry = some message ∧
      message.prunedAt = none ∧ isProtectedToolResult message (toolCallsById message.toolCallId)
        protectedTools = false ∧ c.tokens = countMessage (.toolResult message) := by
  obtain ⟨key, hkey, -⟩ := h.superseded
  obtain ⟨entry, hentry, hlive⟩ := bind_eq_some_iff.mp hkey
  obtain ⟨message, hmessage, hpruned, hprotected⟩ := liveKey_eq_some hlive
  obtain ⟨entry', hentry', htokens⟩ := h.tokens_eq
  obtain rfl := some.inj (hentry.symm.trans hentry')
  refine ⟨entry, message, hentry, hmessage, hpruned, hprotected, htokens.trans ?_⟩
  rw [getToolResultMessage] at hmessage
  split at hmessage
  · next hentry =>
    cases hmessage
    rw [hentry]
    rfl
  · cases hmessage

theorem mem_collectUselessResults {exclude : List Candidate} {entries : List (SessionEntry Data)}
    (h : c ∈ collectUselessResults countMessage toolCallsById protectedTools exclude
      entries) :
    ∃ entry message, entries[c.index]? = some entry ∧ getToolResultMessage entry = some message ∧
      message.prunedAt = none ∧ isProtectedToolResult message (toolCallsById message.toolCallId)
        protectedTools = false ∧ c.tokens = countMessage (.toolResult message) ∧
      c.notice = USELESS_NOTICE ∧ message.useless = true := by
  obtain ⟨⟨entry, i⟩, hmem, h⟩ := mem_filterMap.mp h
  dsimp only at h
  rw [uselessAt] at h
  obtain ⟨message, hmessage, h⟩ := bind_eq_some_iff.mp h
  obtain ⟨_, hflags, h⟩ := bind_eq_some_iff.mp h
  obtain ⟨-, -, h⟩ := bind_eq_some_iff.mp h
  obtain ⟨_, hprotected, h⟩ := bind_eq_some_iff.mp h
  obtain ⟨-, -, h⟩ := bind_eq_some_iff.mp h
  cases h
  rw [guard_eq_some', Bool.and_eq_true, Bool.and_eq_true] at hflags
  rw [guard_eq_some', Bool.not_eq_true'] at hprotected
  exact ⟨entry, message, mem_zipIdx_iff_getElem?.mp hmem, hmessage,
    isNone_iff_eq_none.mp hflags.1.2, hprotected, rfl, rfl, hflags.1.1⟩

/-! ### Running totals -/

theorem computeMessageSuffixTokens_snd (entries : List (SessionEntry Data)) :
    (computeMessageSuffixTokens countMessage entries).2 = messageTokens countMessage entries := by
  induction entries with
  | nil => rfl
  | cons entry rest ih =>
    show (computeMessageSuffixTokens countMessage rest).2 + _ = _
    rw [ih]
    rfl

theorem computeMessageSuffixTokens_getElem? :
    ∀ (entries : List (SessionEntry Data)) (i : ℕ), i < entries.length →
      (computeMessageSuffixTokens countMessage entries).1[i]? =
        some (messageTokens countMessage (entries.drop (i + 1)))
  | [], i, h => absurd h (Nat.not_lt_zero i)
  | _ :: rest, 0, _ => congrArg some (computeMessageSuffixTokens_snd rest)
  | _ :: rest, i + 1, h =>
    computeMessageSuffixTokens_getElem? rest i (Nat.lt_of_succ_lt_succ h)

variable {ctx : PruneContext Data}

theorem walkTools_snd (i : ℕ) (entries : List (SessionEntry Data)) :
    (ctx.walkTools i entries).2 = toolResultTokens ctx.countMessage entries := by
  induction entries generalizing i with
  | nil => rfl
  | cons entry rest ih =>
    rw [PruneContext.walkTools, toolResultTokens]
    cases hmessage : getToolResultMessage entry with
    | none =>
      rw [filterMap_cons_none hmessage]
      exact ih (i + 1)
    | some message =>
      rw [filterMap_cons_some hmessage, foldr_cons]
      have hsum := congrArg (· + ctx.countMessage (.toolResult message)) (ih (i + 1))
      dsimp only at hsum ⊢
      split <;> exact hsum

/-- A candidate of the walk is the result at an index. -/
structure IsWalked (ctx : PruneContext Data) (i k : ℕ) (entries : List (SessionEntry Data))
    (c : Candidate) : Prop where
  index_eq : c.index = i + k
  result : ∃ entry message, entries[k]? = some entry ∧ getToolResultMessage entry = some message ∧
    c.tokens = ctx.countMessage (.toolResult message) ∧
    ctx.noticeAt (i + k) message (toolResultTokens ctx.countMessage (entries.drop (k + 1))) =
      some c.notice

theorem mem_walkTools :
    ∀ (entries : List (SessionEntry Data)) (i : ℕ), c ∈ (ctx.walkTools i entries).1 →
      ∃ k, IsWalked ctx i k entries c
  | [], _, h => absurd h not_mem_nil
  | entry :: rest, i, h => by
    have hrest (h : c ∈ (ctx.walkTools (i + 1) rest).1) : ∃ k, IsWalked ctx i k (entry :: rest) c := by
      obtain ⟨k, hindex, hresult⟩ := mem_walkTools rest (i + 1) h
      rw [show i + 1 + k = i + (k + 1) by omega] at hindex hresult
      exact ⟨k + 1, hindex, hresult⟩
    rw [PruneContext.walkTools] at h
    cases hmessage : getToolResultMessage entry with
    | none =>
      rw [hmessage] at h
      exact hrest h
    | some message =>
      rw [hmessage] at h
      dsimp only at h
      split at h
      · exact hrest h
      next hnotice =>
      rcases mem_append.mp h with h | h
      · exact hrest h
      obtain rfl := mem_singleton.mp h
      refine ⟨0, rfl, entry, message, rfl, hmessage, rfl, ?_⟩
      rw [walkTools_snd] at hnotice
      exact hnotice

/-- The indices of the walk's candidates are distinct. -/
theorem pairwise_walkTools (entries : List (SessionEntry Data)) (i : ℕ) :
    (ctx.walkTools i entries).1.Pairwise fun c c' => c.index ≠ c'.index := by
  induction entries generalizing i with
  | nil => exact List.Pairwise.nil
  | cons entry rest ih =>
    rw [PruneContext.walkTools]
    cases getToolResultMessage entry with
    | none => exact ih (i + 1)
    | some =>
      dsimp only
      split
      · exact ih (i + 1)
      refine pairwise_append.mpr ⟨ih (i + 1), pairwise_singleton _ _, ?_⟩
      intro c hc c' hc'
      obtain ⟨k, hindex, -⟩ := mem_walkTools rest (i + 1) hc
      rw [mem_singleton.mp hc', hindex]
      show i + 1 + k ≠ i
      omega

end Walks

/-! ### Blanking -/

section Blanking

variable {Data : Type}

theorem getToolResultMessage_blankEntry {entry : SessionEntry Data}
    {message : ToolResultMessage Data} (h : getToolResultMessage entry = some message)
    (notice : String) (clock : ℚ) :
    getToolResultMessage (blankEntry notice clock entry) = some (blank notice clock message) := by
  rw [getToolResultMessage] at h
  split at h
  · next hentry =>
    cases h
    rw [getToolResultMessage, blankEntry, hentry]
    rfl
  · cases h

theorem blankEntry_blankEntry (notice notice' : String) (clock : ℚ) (entry : SessionEntry Data) :
    blankEntry notice clock (blankEntry notice' clock entry) = blankEntry notice clock entry := by
  obtain ⟨id, message⟩ := entry
  rcases message with _ | ⟨_ | _ | _⟩ <;> rfl

theorem getElem?_applyNotices (clock : ℚ) (i : ℕ) :
    ∀ (candidates : List Candidate) (entries : List (SessionEntry Data)),
      (applyNotices clock candidates entries)[i]? = entries[i]? ∨
        ∃ c ∈ candidates, c.index = i ∧ (applyNotices clock candidates entries)[i]? =
          entries[i]?.map (blankEntry c.notice clock)
  | [], _ => .inl rfl
  | c :: candidates, entries => by
    have hmodify := getElem?_modify (blankEntry c.notice clock) c.index entries i
    have happly : applyNotices clock (c :: candidates) entries = applyNotices clock candidates
      (entries.modify c.index (blankEntry c.notice clock)) := rfl
    rw [happly]
    by_cases hindex : c.index = i
    · have hmodified : (entries.modify c.index (blankEntry c.notice clock))[i]? =
          entries[i]?.map (blankEntry c.notice clock) := by
        rw [hmodify]
        cases entries[i]? <;> simp [hindex]
      rcases getElem?_applyNotices clock i candidates
        (entries.modify c.index (blankEntry c.notice clock)) with h | ⟨c', hc', hindex', h⟩
      · exact .inr ⟨c, mem_cons_self, hindex, h.trans hmodified⟩
      refine .inr ⟨c', mem_cons_of_mem c hc', hindex', h.trans ?_⟩
      rw [hmodified, Option.map_map]
      exact congrArg (Option.map · entries[i]?)
        (funext (blankEntry_blankEntry c'.notice c.notice clock))
    have hmodified : (entries.modify c.index (blankEntry c.notice clock))[i]? = entries[i]? := by
      rw [hmodify]
      cases entries[i]? <;> simp [hindex]
    rcases getElem?_applyNotices clock i candidates
      (entries.modify c.index (blankEntry c.notice clock)) with h | ⟨c', hc', hindex', h⟩
    · exact .inl (h.trans hmodified)
    · exact .inr ⟨c', mem_cons_of_mem c hc', hindex', hmodified ▸ h⟩

theorem length_applyNotices (clock : ℚ) (candidates : List Candidate)
    (entries : List (SessionEntry Data)) :
    (applyNotices clock candidates entries).length = entries.length := by
  induction candidates generalizing entries with
  | nil => rfl
  | cons c candidates ih => exact (ih _).trans (length_modify ..)

end Blanking

/-! ### What was saved -/

section Savings

variable {Data : Type} {countMessage : AgentMessage Data → ℕ}

theorem savedAt_self (entry : SessionEntry Data) : savedAt countMessage entry entry = 0 := by
  rw [savedAt]
  cases getToolResultMessage entry with
  | none => rfl
  | some =>
    split
    · next hbefore hafter =>
      cases hbefore
      cases hafter
      rfl
    · rfl

theorem savedAt_blankEntry {entry : SessionEntry Data} {message : ToolResultMessage Data}
    (h : getToolResultMessage entry = some message) (hpruned : message.prunedAt = none)
    (notice : String) (clock : ℚ) : savedAt countMessage entry (blankEntry notice clock entry) =
      estimatePrunedSavings (countMessage (.toolResult message)) notice := by
  rw [savedAt, h, getToolResultMessage_blankEntry h notice clock]
  simp [blank, hpruned]

theorem sum_zipWith_modify {α : Type} (f : α → α → ℕ) (g : α → α) :
    ∀ (before after : List α) (i : ℕ) (a b : α), before[i]? = some a → after[i]? = some b →
      f a b = 0 →
      (List.zipWith f before (after.modify i g)).sum = (List.zipWith f before after).sum + f a (g b)
  | [], _, _, _, _, ha, _, _ => by cases ha
  | _ :: _, [], _, _, _, _, hb, _ => by cases hb
  | a :: before, b :: after, 0, _, _, ha, hb, hzero => by
    cases ha
    cases hb
    show f _ (g _) + _ = f _ _ + _ + _
    rw [hzero]
    omega
  | a :: before, b :: after, i + 1, a', b', ha, hb, hzero => by
    have ih := sum_zipWith_modify f g before after i a' b' ha hb hzero
    show f a b + (List.zipWith f before (after.modify i g)).sum =
      f a b + (List.zipWith f before after).sum + _
    rw [ih, add_assoc]

/-- The candidates are unpruned results, each counted at its index. -/
def AreResults (countMessage : AgentMessage Data → ℕ) (entries : List (SessionEntry Data))
    (candidates : List Candidate) : Prop :=
  ∀ c ∈ candidates, ∃ entry message, entries[c.index]? = some entry ∧
    getToolResultMessage entry = some message ∧ message.prunedAt = none ∧
    c.tokens = countMessage (.toolResult message)

/-- The savings of the candidates add up along the blanking, which has not reached them yet. -/
theorem sum_savedAt_applyNotices {entries : List (SessionEntry Data)} (clock : ℚ)
    {candidates : List Candidate} (hresults : AreResults countMessage entries candidates)
    (hdistinct : candidates.Pairwise fun c c' => c.index ≠ c'.index)
    {after : List (SessionEntry Data)}
    (hafter : ∀ c ∈ candidates, after[c.index]? = entries[c.index]?) :
    (List.zipWith (savedAt countMessage) entries (applyNotices clock candidates after)).sum =
      (List.zipWith (savedAt countMessage) entries after).sum + summedSavings candidates := by
  induction candidates generalizing after with
  | nil => rfl
  | cons c candidates ih =>
    obtain ⟨hne, hdistinct⟩ := pairwise_cons.mp hdistinct
    obtain ⟨entry, message, hentry, hmessage, hpruned, htokens⟩ := hresults c mem_cons_self
    have hc := (hafter c mem_cons_self).trans hentry
    have hstep := sum_zipWith_modify (savedAt countMessage) (blankEntry c.notice clock) entries after
      c.index entry entry hentry hc (savedAt_self entry)
    rw [savedAt_blankEntry hmessage hpruned, ← htokens] at hstep
    have hrest := @ih (fun c' hc' => hresults c' (mem_cons_of_mem c hc')) hdistinct
      (after.modify c.index (blankEntry c.notice clock)) fun c' hc' => by
        have hother : (after.modify c.index (blankEntry c.notice clock))[c'.index]? =
            after[c'.index]? := by
          rw [getElem?_modify]
          simp [hne c' hc']
        exact hother.trans (hafter c' (mem_cons_of_mem c hc'))
    have hsaved : summedSavings (c :: candidates) =
        estimatePrunedSavings c.tokens c.notice + summedSavings candidates := sum_cons
    have happly : applyNotices clock (c :: candidates) after =
        applyNotices clock candidates (after.modify c.index (blankEntry c.notice clock)) := rfl
    rw [happly, hrest, hstep, hsaved, add_assoc]

theorem sum_zipWith_savedAt_self (entries : List (SessionEntry Data)) :
    (List.zipWith (savedAt countMessage) entries entries).sum = 0 := by
  induction entries with
  | nil => rfl
  | cons entry entries ih =>
    rw [zipWith_cons_cons, sum_cons, ih, savedAt_self]

end Savings

/-! ### The passes -/

section Passes

variable {Data : Type} {entries : List (SessionEntry Data)} {countMessage : AgentMessage Data → ℕ}

theorem messageSuffix_getD {i : ℕ} {entry : SessionEntry Data} (h : entries[i]? = some entry) :
    (computeMessageSuffixTokens countMessage entries).1.getD i 0 =
      messageTokens countMessage (entries.drop (i + 1)) := by
  obtain ⟨hlt, -⟩ := List.getElem?_eq_some_iff.mp h
  rw [getD_eq_getElem?_getD, computeMessageSuffixTokens_getElem? entries i hlt]
  rfl

variable {c : Candidate}

theorem IsSupersededCandidate.isSuperseded {supersedeKey : String → Data → Option String}
    {protectedTools : List (ProtectedToolMatcher Data)} {k : ℕ}
    (h : IsSupersededCandidate countMessage (collectToolCallsById entries) protectedTools
      supersedeKey entries k c) : IsSuperseded entries supersedeKey protectedTools k :=
  h.superseded

/-- What `pruneSupersededToolResults` may prune. -/
theorem mem_supersedeCandidates {config : SupersedePruneConfig Data}
    (h : c ∈ supersedeCandidates entries countMessage config) :
    ∃ entry message reason, entries[c.index]? = some entry ∧
      getToolResultMessage entry = some message ∧ message.prunedAt = none ∧
      isProtectedToolResult message (collectToolCallsById entries message.toolCallId)
        config.protectedTools = false ∧
      c.notice = Reason.notice (countMessage (.toolResult message)) reason ∧ reason ≠ .age ∧
      (reason = .superseded → ∃ supersedeKey ∈ config.supersedeKey,
        IsSuperseded entries supersedeKey config.protectedTools c.index) := by
  have hsuperseded (h : c ∈ collectSupersededResults countMessage (collectToolCallsById entries)
      config.protectedTools config.supersedeKey entries) :
      ∃ entry message reason, entries[c.index]? = some entry ∧
        getToolResultMessage entry = some message ∧ message.prunedAt = none ∧
        isProtectedToolResult message (collectToolCallsById entries message.toolCallId)
          config.protectedTools = false ∧
        c.notice = Reason.notice (countMessage (.toolResult message)) reason ∧ reason ≠ .age ∧
        (reason = .superseded → ∃ supersedeKey ∈ config.supersedeKey,
          IsSuperseded entries supersedeKey config.protectedTools c.index) := by
    obtain ⟨keyFn, hkeyFn, hc⟩ := mem_collectSupersededResults h
    obtain ⟨entry, message, hentry, hmessage, hpruned, hprotected, -⟩ := hc.result
    exact ⟨entry, message, .superseded, hentry, hmessage, hpruned, hprotected, hc.notice_eq,
      nofun, fun _ => ⟨keyFn, hkeyFn, hc.isSuperseded⟩⟩
  rw [supersedeCandidates] at h
  split at h
  · rcases mem_append.mp (mem_mergeSort.mp h) with h | h
    · exact hsuperseded h
    · obtain ⟨entry, message, hentry, hmessage, hpruned, hprotected, -, hnotice, -⟩ :=
        mem_collectUselessResults h
      exact ⟨entry, message, .useless, hentry, hmessage, hpruned, hprotected, hnotice, nofun, nofun⟩
  · exact hsuperseded h

/-- Why the walk of `pruneToolOutputs` takes a result. -/
theorem mem_walk_pruneContext {config : PruneConfig Data}
    (h : c ∈ ((pruneContext entries countMessage config).walkTools 0 entries).1) :
    ∃ entry message reason, entries[c.index]? = some entry ∧
      getToolResultMessage entry = some message ∧ message.prunedAt = none ∧
      isProtectedToolResult message (collectToolCallsById entries message.toolCallId)
        config.protectedTools = false ∧
      c.tokens = countMessage (.toolResult message) ∧
      c.notice = Reason.notice (countMessage (.toolResult message)) reason ∧
      resolveBoundaryIndex entries config.keepBoundaryId ≤ c.index ∧
      (reason = .superseded → ∃ supersedeKey ∈ config.supersedeKey,
        IsSuperseded entries supersedeKey config.protectedTools c.index) ∧
      (reason = .age → config.protectTokens ≤
        (toolResultTokens countMessage (entries.drop (c.index + 1)) : ℚ)) ∧
      (∀ limit ∈ config.cacheWarmSuffixTokens,
        (messageTokens countMessage (entries.drop (c.index + 1)) : ℚ) ≤ limit) := by
  obtain ⟨k, hindex, entry, message, hentry, hmessage, htokens, hnotice⟩ := mem_walkTools entries 0 h
  rw [zero_add] at hindex hnotice
  subst hindex
  rw [PruneContext.noticeAt] at hnotice
  split at hnotice
  · cases hnotice
  next hpruned =>
  rw [not_isSome_iff_eq_none] at hpruned
  split at hnotice
  · cases hnotice
  next hguard =>
  rw [Bool.or_eq_true, not_or, decide_eq_true_eq, not_lt] at hguard
  have hwarm : ∀ limit ∈ config.cacheWarmSuffixTokens,
      (messageTokens countMessage (entries.drop (c.index + 1)) : ℚ) ≤ limit := by
    intro limit hlimit
    by_contra hlt
    refine hguard.1 ?_
    rw [show (pruneContext entries countMessage config).cacheWarmSuffixTokens = some limit
      from hlimit, any_some, decide_eq_true_eq, show
        (pruneContext entries countMessage config).messageSuffix.getD
      c.index 0 = _ from messageSuffix_getD hentry]
    exact not_le.mp hlt
  split at hnotice
  · next hsuperseded =>
    obtain ⟨c', hc', heq⟩ := any_eq_true.mp hsuperseded
    obtain ⟨keyFn, hkeyFn, hcandidate⟩ := mem_collectSupersededResults hc'
    rw [of_decide_eq_true heq] at hcandidate
    obtain ⟨entry', message', hentry', hmessage', -, hprotected, -⟩ := hcandidate.result
    obtain rfl := some.inj (hentry.symm.trans hentry')
    obtain rfl := some.inj (hmessage.symm.trans hmessage')
    exact ⟨entry, message, .superseded, hentry, hmessage, hpruned, hprotected, htokens,
      (some.inj hnotice).symm, hguard.2,
      fun _ => ⟨keyFn, hkeyFn, hcandidate.isSuperseded⟩, nofun, hwarm⟩
  split at hnotice
  · next huseless =>
    obtain ⟨c', hc', heq⟩ := any_eq_true.mp huseless
    have hmem : c' ∈ collectUselessResults countMessage (collectToolCallsById entries)
        config.protectedTools (pruneContext entries countMessage config).superseded
        entries := by
      rw [pruneContext] at hc'
      split at hc'
      · exact hc'
      · cases hc'
    obtain ⟨entry', message', hentry', hmessage', -, hprotected, -⟩ :=
      mem_collectUselessResults hmem
    rw [of_decide_eq_true heq] at hentry'
    obtain rfl := some.inj (hentry.symm.trans hentry')
    obtain rfl := some.inj (hmessage.symm.trans hmessage')
    exact ⟨entry, message, .useless, hentry, hmessage, hpruned, hprotected, htokens,
      (some.inj hnotice).symm, hguard.2, nofun, nofun,
      hwarm⟩
  split at hnotice
  · cases hnotice
  · next hage =>
    rw [Bool.or_eq_true, Bool.or_eq_true, not_or, not_or, decide_eq_true_eq, not_lt,
      Bool.not_eq_true] at hage
    exact ⟨entry, message, .age, hentry, hmessage, hpruned, hage.1.2, htokens,
      (some.inj hnotice).symm, hguard.2, nofun, fun _ => hage.1.1,
      hwarm⟩

theorem sum_savedAt_pruneToolOutputs (config : PruneConfig Data) (clock : ℚ) :
    (List.zipWith (savedAt countMessage) entries
      (applyNotices clock ((pruneContext entries countMessage config).walkTools 0 entries).1
        entries)).sum =
      summedSavings ((pruneContext entries countMessage config).walkTools 0 entries).1 := by
  rw [sum_savedAt_applyNotices clock (fun c hc => ?_) (pairwise_walkTools entries 0) fun _ _ => rfl,
    sum_zipWith_savedAt_self, zero_add]
  obtain ⟨entry, message, -, hentry, hmessage, hpruned, -, htokens, -⟩ := mem_walk_pruneContext hc
  exact ⟨entry, message, hentry, hmessage, hpruned, htokens⟩

end Passes

/-! ### What both passes keep -/

section Main

variable {Data : Type} {clock : ℚ}

theorem exists_candidate {entries : List (SessionEntry Data)} {candidates : List Candidate} {i : ℕ}
    (hchanged : (applyNotices clock candidates entries)[i]? ≠ entries[i]?) :
    ∃ c ∈ candidates, c.index = i ∧ (applyNotices clock candidates entries)[i]? =
      entries[i]?.map (blankEntry c.notice clock) :=
  (getElem?_applyNotices clock i candidates entries).resolve_left hchanged

theorem blanked_of_candidate {entries after : List (SessionEntry Data)}
    {countMessage : AgentMessage Data → ℕ} {protectedTools : List (ProtectedToolMatcher Data)}
    {keepBoundaryId : Option String} {c : Candidate} {entry : SessionEntry Data}
    {message : ToolResultMessage Data} {reason : Reason}
    (hblank : after[c.index]? = entries[c.index]?.map (blankEntry c.notice clock))
    (hentry : entries[c.index]? = some entry) (hmessage : getToolResultMessage entry = some message)
    (hpruned : message.prunedAt = none)
    (hprotected : isProtectedToolResult message (collectToolCallsById entries message.toolCallId)
      protectedTools = false)
    (hnotice : c.notice = Reason.notice (countMessage (.toolResult message)) reason)
    (hkept : resolveBoundaryIndex entries keepBoundaryId ≤ c.index) :
    Blanked entries after countMessage protectedTools keepBoundaryId clock c.index reason := by
  refine ⟨⟨entry, message, hentry, hmessage, ?_, hpruned, hprotected⟩, hkept⟩
  rw [hblank, hentry, hnotice]
  rfl

/-- Whatever the branch, the counter, the configuration and the clock are: an entry that a pass
changes is a result that may go, blanked for a reason that it has. -/
theorem pruning_blanks_only (entries : List (SessionEntry Data))
    (countMessage : AgentMessage Data → ℕ) (clock : ℚ) :
    (∀ (config : PruneConfig Data) (i : ℕ),
      let after := (pruneToolOutputs entries countMessage config clock).entries
      after.length = entries.length ∧ (after[i]? ≠ entries[i]? →
        ∃ reason, Blanked entries after countMessage config.protectedTools config.keepBoundaryId
          clock i reason ∧
        (reason = .superseded → ∃ supersedeKey ∈ config.supersedeKey,
          IsSuperseded entries supersedeKey config.protectedTools i) ∧
        (reason = .age → config.protectTokens ≤
          (toolResultTokens countMessage (entries.drop (i + 1)) : ℚ)) ∧
        (∀ limit ∈ config.cacheWarmSuffixTokens,
          (messageTokens countMessage (entries.drop (i + 1)) : ℚ) ≤ limit) ∧
        config.minimumSavings ≤
          ((List.zipWith (savedAt countMessage) entries after).sum : ℚ))) ∧
    (∀ (config : SupersedePruneConfig Data) (i : ℕ),
      let after := (pruneSupersededToolResults entries countMessage config clock).entries
      after.length = entries.length ∧ (after[i]? ≠ entries[i]? →
        ∃ reason, Blanked entries after countMessage config.protectedTools config.keepBoundaryId
          clock i reason ∧
        (reason = .superseded → ∃ supersedeKey ∈ config.supersedeKey,
          IsSuperseded entries supersedeKey config.protectedTools i) ∧
        reason ≠ .age ∧
        (isIdle entries config clock = false →
          (messageTokens countMessage (entries.drop (i + 1)) : ℚ) ≤ config.suffixTokenLimit))) := by
  constructor
  · intro config i
    rw [pruneToolOutputs]
    split
    · exact ⟨rfl, fun hchanged => absurd rfl hchanged⟩
    next hsavings =>
    refine ⟨length_applyNotices .., fun hchanged => ?_⟩
    obtain ⟨c, hc, rfl, hblank⟩ := exists_candidate hchanged
    obtain ⟨entry, message, reason, hentry, hmessage, hpruned, hprotected, -, hnotice, hkept,
      hsuperseded, hage, hwarm⟩ := mem_walk_pruneContext hc
    refine ⟨reason, blanked_of_candidate hblank hentry hmessage hpruned hprotected hnotice hkept,
      hsuperseded, hage, hwarm, ?_⟩
    rw [sum_savedAt_pruneToolOutputs config clock]
    exact not_lt.mp hsavings
  intro config i
  refine ⟨length_applyNotices .., fun hchanged => ?_⟩
  obtain ⟨c, hc, rfl, hblank⟩ := exists_candidate hchanged
  have hmem : c ∈ supersedeCandidates entries countMessage config ∧
      resolveBoundaryIndex entries config.keepBoundaryId ≤ c.index ∧
      (isIdle entries config clock = false →
        ((computeMessageSuffixTokens countMessage entries).1.getD c.index 0 : ℚ) ≤
          config.suffixTokenLimit) := by
    split at hc
    · next hidle =>
      obtain ⟨hmem, hkept⟩ := mem_filter.mp hc
      exact ⟨hmem, of_decide_eq_true hkept, fun h => absurd (h.symm.trans hidle) Bool.false_ne_true⟩
    obtain ⟨hmem, hkept⟩ := mem_filter.mp hc
    have hkept := of_decide_eq_true hkept
    exact ⟨hmem, hkept.1, fun _ => hkept.2⟩
  obtain ⟨hmem, hkept, hsuffix⟩ := hmem
  obtain ⟨entry, message, reason, hentry, hmessage, hpruned, hprotected, hnotice, hage,
    hsuperseded⟩ := mem_supersedeCandidates hmem
  rw [messageSuffix_getD hentry] at hsuffix
  exact ⟨reason, blanked_of_candidate hblank hentry hmessage hpruned hprotected hnotice hkept,
    hsuperseded, hage, hsuffix⟩

end Main

/-! ### A failed read -/

/-- A file is read twice; the second read fails. -/
def failedReread : List (SessionEntry String) :=
  [⟨"1", some (.assistant [.toolCall ⟨"a", "read", "file"⟩] none)⟩,
    ⟨"2", some (.toolResult ⟨"a", "read", [.text "contents"], none, false, false, none, none⟩)⟩,
    ⟨"3", some (.assistant [.toolCall ⟨"b", "read", "file"⟩] none)⟩,
    ⟨"4", some (.toolResult ⟨"b", "read", [.text "not found"], none, true, false, none, none⟩)⟩]

/-- The keys are the arguments. -/
def rereadConfig : SupersedePruneConfig String :=
  { supersedeKey := some fun _ arguments => some arguments, protectedTools := [] }

/-- The failed read supersedes the good one: it is the only result that comes later. -/
theorem failed_read_supersedes : Blanked failedReread
        (pruneSupersededToolResults failedReread (fun _ => 0) rereadConfig 0).entries (fun _ => 0) []
        none 0 1 .superseded ∧
      ∀ j, 1 < j → ∀ entry message, failedReread[j]? = some entry →
        getToolResultMessage entry = some message → message.isError = true := by
  refine ⟨⟨⟨_, _, rfl, rfl, rfl, rfl, rfl⟩, Nat.zero_le _⟩, fun j hj entry message hentry hmessage => ?_⟩
  match j, hj, hentry with
  | 2, _, hentry =>
    cases hentry
    cases hmessage
  | 3, _, hentry =>
    cases hentry
    cases hmessage
    rfl
  | j + 4, _, hentry => cases hentry

end BreadboardTui.Pruning
