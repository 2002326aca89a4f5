import BreadboardTui.Js.Value
import Mathlib.Data.List.TakeWhile

/-!
# The append-only context

The agent loop sends the model a system prompt and tool specs that are frozen until their
fingerprint changes (`StablePrefix`), and messages from a log that only grows
(`AppendOnlyLog`). `syncMessages` compares the new messages with the ones it has synced before by
their digests, drops the log down to the part that is stable, and appends the rest.

Sync cursor, digests and log are three lists, and `appendMessage`, `replaceTailMessage` and
`log.clear` change the log alone. `fresh_run_iff` says when that and the 32-bit digests do no
harm: in every run, each sync and each build gives what was asked for exactly if each of them
meets the condition `Safe` on the state before it.
-/

namespace BreadboardTui

open List Option

namespace AppendOnly

/-! ### Digests -/

/-- What the host language and the loop give: `JSON.stringify` as UTF-16 units, and the wire specs
of a context's tools. `τ` are the tools. -/
structure Runtime (τ σ ο : Type) where
  stringify : JsValue → List UInt16
  normalizeTools : Option (List τ) → ο → Option (List σ)
  /-- The fields of a spec that the fingerprint reads, as an object. -/
  specFields : σ → JsValue
  intentTracing : ο → Bool
  pruneToolDescriptions : ο → Option Bool

/-- `hash = ((hash << 5) - hash + code) | 0` over the payload, and `hash >>> 0` at the end. -/
def hashUnits (payload : List UInt16) : UInt32 :=
  payload.foldl (fun hash code => (hash <<< 5) - hash + code.toUInt32) 0

/-- `value ?? other`. -/
def nullish (value other : JsValue) : JsValue :=
  match value with
  | .undefined | .null => other
  | value => value

/-- The fields of a message that the provider may serialize. -/
def messagePayload (m : List (String × JsValue)) : JsValue :=
  .object
    [("r", nullish (getField m "role") .null),
      ("c", nullish (getField m "content") .null),
      ("pp", nullish (getField m "providerPayload") .null),
      ("tc", nullish (nullish (getField m "toolCalls") (getField m "tool_calls")) .null),
      ("tcid", nullish (nullish (getField m "toolCallId") (getField m "tool_call_id")) .null),
      ("tn", nullish (nullish (getField m "toolName") (getField m "name")) .null),
      ("err", nullish (getField m "isError") .null),
      ("id", nullish (getField m "id") .null)]

/-- A message object: which one it is, and what it holds. -/
structure Message where
  ref : ℕ
  value : JsValue

section Digest

variable {τ σ ο : Type} (R : Runtime τ σ ο)

/-- What the digest covers of a message: the text of its payload, nothing of a value that is no
object. -/
def covered (msg : Message) : Option (List UInt16) :=
  match msg.value with
  | .object fields => some (R.stringify (messagePayload fields))
  | .array _ => some (R.stringify (messagePayload []))
  | .undefined | .null | .bool _ | .number _ | .string _ => none

def messageDigest (msg : Message) : UInt32 :=
  match covered R msg with
  | some payload => hashUnits payload
  | none => 0

theorem messageDigest_congr {msg msg' : Message} (h : covered R msg = covered R msg') :
    messageDigest R msg = messageDigest R msg' := by
  rw [messageDigest, messageDigest, h]

end Digest

/-! ### The stable prefix -/

structure AgentContext (τ : Type) where
  systemPrompt : List String
  tools : Option (List τ)

/-- The fingerprint is the number that the code prints in base 36. -/
structure StablePrefixSnapshot (σ : Type) where
  systemPrompt : List String
  tools : List σ
  fingerprint : UInt32

variable {τ σ ο : Type} (R : Runtime τ σ ο)

def computeFingerprint (systemPrompt : List String) (tools : List σ) (options : ο) : UInt32 :=
  hashUnits (R.stringify (.object
    [("s", .array (systemPrompt.map .string)),
      ("t", .array (tools.map R.specFields)),
      ("i", .bool (R.intentTracing options)),
      ("pd", match R.pruneToolDescriptions options with
        | some prune => .bool prune
        | none => .undefined)]))

def takeSnapshot (context : AgentContext τ) (options : ο) : StablePrefixSnapshot σ :=
  let tools := (R.normalizeTools context.tools options).getD []
  { systemPrompt := context.systemPrompt, tools := tools,
    fingerprint := computeFingerprint R context.systemPrompt tools options }

/-- `StablePrefix`: the cached snapshot and the number of rebuilds. -/
structure StablePrefix (σ : Type) where
  snapshot : Option (StablePrefixSnapshot σ)
  version : ℕ

namespace StablePrefix

/-- `build`: a snapshot with the same fingerprint stays. -/
def build (p : StablePrefix σ) (context : AgentContext τ) (options : ο) : StablePrefix σ :=
  let snapshot := takeSnapshot R context options
  match p.snapshot with
  | some cached =>
    if cached.fingerprint = snapshot.fingerprint then p
    else ⟨some snapshot, p.version + 1⟩
  | none => ⟨some snapshot, p.version + 1⟩

def invalidate (p : StablePrefix σ) : StablePrefix σ := { p with snapshot := none }

end StablePrefix

/-! ### The manager -/

/-- `AppendOnlyContextManager`. -/
structure Manager (σ : Type) where
  stable : StablePrefix σ
  log : List Message
  lastSyncCount : ℕ
  messageDigests : List UInt32

/-- What is sent to the model. -/
structure LlmContext (σ : Type) where
  systemPrompt : List String
  messages : List Message
  tools : List σ

namespace Manager

def new : Manager σ := ⟨⟨none, 0⟩, [], 0, []⟩

/-- Index of the first message whose digest differs from the one synced at its place. -/
def longestStablePrefix (s : Manager σ) (normalizedMessages : List Message) : ℕ :=
  let bound := min s.lastSyncCount normalizedMessages.length
  ((List.range bound).find? fun i =>
    decide ((normalizedMessages[i]?).map (messageDigest R) ≠ s.messageDigests[i]?)).getD bound

/-- `this.log.clear(); this.#lastSyncCount = 0; this.#messageDigests = []`. -/
def resetSyncCursor (s : Manager σ) : Manager σ :=
  { s with log := [], lastSyncCount := 0, messageDigests := [] }

/-- The trim of an in-place rewrite, bounded by the physical log. -/
def trim (s : Manager σ) (normalizedMessages : List Message) : Manager σ :=
  let stableCount := min (s.longestStablePrefix R normalizedMessages) s.log.length
  if stableCount < s.lastSyncCount then
    { s with log := s.log.take stableCount, lastSyncCount := stableCount,
             messageDigests := s.messageDigests.take stableCount }
  else s

/-- The append of the diverged tail, or of the full delta. -/
def appendTail (s : Manager σ) (normalizedMessages : List Message) : Manager σ :=
  let tail := normalizedMessages.drop s.lastSyncCount
  { s with log := s.log ++ tail, lastSyncCount := normalizedMessages.length,
           messageDigests := s.messageDigests ++ tail.map (messageDigest R) }

def syncMessages (s : Manager σ) (normalizedMessages : List Message) : Manager σ :=
  let s := if normalizedMessages.length < s.lastSyncCount then s.resetSyncCursor else s
  let s := if 0 < s.lastSyncCount then s.trim R normalizedMessages else s
  s.appendTail R normalizedMessages

def appendMessage (s : Manager σ) (message : Message) : Manager σ :=
  { s with log := s.log ++ [message] }

/-- `log.replaceTail`: the last entry, if there is one. -/
def replaceTailMessage (s : Manager σ) (message : Message) : Manager σ :=
  if s.log = [] then s else { s with log := s.log.dropLast ++ [message] }

def logClear (s : Manager σ) : Manager σ := { s with log := [] }

def invalidate (s : Manager σ) : Manager σ := { s with stable := s.stable.invalidate }

def invalidateForModelChange (s : Manager σ) : Manager σ := s.invalidate.resetSyncCursor

def buildPrefix (s : Manager σ) (context : AgentContext τ) (options : ο) : Manager σ :=
  { s with stable := s.stable.build R context options }

def reset (s : Manager σ) (context : AgentContext τ) (options : ο) : Manager σ :=
  s.invalidateForModelChange.buildPrefix R context options

/-- What `build` returns: the cached prefix, which is there after the build, and the log. -/
def build (s : Manager σ) (context : AgentContext τ) (options : ο) : Option (LlmContext σ) :=
  (s.stable.build R context options).snapshot.map fun snapshot =>
    ⟨snapshot.systemPrompt, s.log, snapshot.tools⟩

end Manager

/-! ### Runs -/

/-- The calls on a manager. -/
inductive Op (τ ο : Type) where
  | syncMessages (normalizedMessages : List Message)
  | appendMessage (message : Message)
  | replaceTailMessage (message : Message)
  | logClear
  | resetSyncCursor
  | invalidate
  | invalidateForModelChange
  | build (context : AgentContext τ) (options : ο)
  | reset (context : AgentContext τ) (options : ο)

def step (s : Manager σ) : Op τ ο → Manager σ
  | .syncMessages normalizedMessages => s.syncMessages R normalizedMessages
  | .appendMessage message => s.appendMessage message
  | .replaceTailMessage message => s.replaceTailMessage message
  | .logClear => s.logClear
  | .resetSyncCursor => s.resetSyncCursor
  | .invalidate => s.invalidate
  | .invalidateForModelChange => s.invalidateForModelChange
  | .build context options => s.buildPrefix R context options
  | .reset context options => s.reset R context options

/-- The array that was synced last. There is none after a reset of the cursor. -/
def syncedAfter (synced : List Message) : Op τ ο → List Message
  | .syncMessages normalizedMessages => normalizedMessages
  | .resetSyncCursor | .invalidateForModelChange | .reset _ _ => []
  | .appendMessage _ | .replaceTailMessage _ | .logClear | .invalidate | .build _ _ => synced

/-- `P` holds at every step of a run. It is told the state before the step and the array that was
synced last. -/
def Along (P : Manager σ → List Message → Op τ ο → Prop) :
    Manager σ → List Message → List (Op τ ο) → Prop
  | _, _, [] => True
  | s, synced, op :: ops => P s synced op ∧ Along P (step R s op) (syncedAfter synced op) ops

/-- The index of the first message that differs, in what the digest covers, from the one synced
at its place. -/
def firstDifference : List Message → List Message → ℕ
  | old :: synced, message :: messages =>
    if covered R old = covered R message then firstDifference synced messages + 1 else 0
  | _, _ => 0

/-- Nothing stale comes out of the step: the log is what was synced and keeps its objects up to
the first difference, the prefix is the one of the context. -/
def Fresh (s : Manager σ) (synced : List Message) : Op τ ο → Prop
  | .syncMessages messages =>
    (s.syncMessages R messages).log.map (covered R) = messages.map (covered R) ∧
      ∀ i < firstDifference R synced messages, ∀ entry ∈ s.log[i]?,
        (s.syncMessages R messages).log[i]? = some entry
  | .build context options =>
    ∃ sent, s.build R context options = some sent ∧ sent.systemPrompt = context.systemPrompt ∧
      sent.tools = (R.normalizeTools context.tools options).getD []
  | _ => True

/-- The condition of a step. A sync that does not shrink the array: the part of the log that looks
stable by its digests is what is being synced, and if nothing has diverged the log holds nothing
else. One that does: the objects up to the first difference are the ones of the log. A build: no
other prefix with the same fingerprint is cached. -/
def Safe (s : Manager σ) (synced : List Message) : Op τ ο → Prop
  | .syncMessages messages =>
    if messages.length < synced.length then
      ∀ i < firstDifference R synced messages, ∀ entry ∈ s.log[i]?, messages[i]? = some entry
    else
      (∀ i < min (s.longestStablePrefix R messages) s.log.length,
        (s.log[i]?).map (covered R) = (messages[i]?).map (covered R)) ∧
      (min (s.longestStablePrefix R messages) s.log.length = synced.length →
        s.log.length = synced.length)
  | .build context options =>
    ∀ cached ∈ s.stable.snapshot,
      cached.fingerprint = (takeSnapshot R context options).fingerprint →
        cached.systemPrompt = context.systemPrompt ∧
          cached.tools = (R.normalizeTools context.tools options).getD []
  | _ => True

/-! ### The cursor and the digests -/

/-- The sync cursor and the digests are those of the array that was synced last. -/
def Tracks (synced : List Message) (s : Manager σ) : Prop :=
  s.lastSyncCount = synced.length ∧ s.messageDigests = synced.map (messageDigest R)

variable {R} {s : Manager σ} {synced messages : List Message} {i : ℕ}

theorem firstDifference_agree (h : i < firstDifference R synced messages) :
    i < synced.length ∧ i < messages.length ∧
      (synced[i]?).map (covered R) = (messages[i]?).map (covered R) := by
  induction synced generalizing messages i with
  | nil => simp [firstDifference] at h
  | cons old synced ih =>
    cases messages with
    | nil => simp [firstDifference] at h
    | cons message =>
      by_cases hc : covered R old = covered R message
      · rw [firstDifference, if_pos hc] at h
        cases i with
        | zero => simp [hc]
        | succ =>
          obtain ⟨hold, hnew, hagree⟩ := ih (Nat.lt_of_succ_lt_succ h)
          exact ⟨Nat.succ_lt_succ hold, Nat.succ_lt_succ hnew, hagree⟩
      rw [firstDifference, if_neg hc] at h
      exact absurd h (Nat.not_lt_zero i)

theorem longestStablePrefix_le (s : Manager σ) (messages : List Message) :
    s.longestStablePrefix R messages ≤ min s.lastSyncCount messages.length := by
  rw [Manager.longestStablePrefix]
  cases hfind : (List.range (min s.lastSyncCount messages.length)).find? fun i =>
      decide ((messages[i]?).map (messageDigest R) ≠ s.messageDigests[i]?) with
  | none => exact le_rfl
  | some i => exact (mem_range.mp (mem_of_find?_eq_some hfind)).le

theorem digest_of_lt_longestStablePrefix (h : i < s.longestStablePrefix R messages) :
    (messages[i]?).map (messageDigest R) = s.messageDigests[i]? := by
  rw [Manager.longestStablePrefix] at h
  cases hfind : (List.range (min s.lastSyncCount messages.length)).find? fun i =>
      decide ((messages[i]?).map (messageDigest R) ≠ s.messageDigests[i]?) with
  | none =>
    rw [hfind] at h
    have hnot := find?_range_eq_none.mp hfind i h
    simpa using hnot
  | some k =>
    rw [hfind] at h
    have hnot := (find?_range_eq_some.mp hfind).2.2 i h
    simpa using hnot

/-- The first difference lies at the end of the stable prefix or before it. -/
theorem firstDifference_le_longestStablePrefix (ht : Tracks R synced s) :
    firstDifference R synced messages ≤ s.longestStablePrefix R messages := by
  have hdigest : ∀ i < firstDifference R synced messages,
      (messages[i]?).map (messageDigest R) = s.messageDigests[i]? := by
    intro i hi
    obtain ⟨hold, hnew, hagree⟩ := firstDifference_agree hi
    rw [ht.2, getElem?_map, getElem?_eq_getElem hold, getElem?_eq_getElem hnew]
    rw [getElem?_eq_getElem hold, getElem?_eq_getElem hnew] at hagree
    have hcovered : covered R synced[i] = covered R messages[i] := by simpa using hagree
    rw [map_some, map_some, messageDigest_congr R hcovered]
  rw [Manager.longestStablePrefix]
  cases hfind : (List.range (min s.lastSyncCount messages.length)).find? fun i =>
      decide ((messages[i]?).map (messageDigest R) ≠ s.messageDigests[i]?) with
  | none =>
    by_contra hlt
    obtain ⟨hold, hnew, -⟩ := firstDifference_agree (not_le.mp hlt)
    rw [getD_none, ht.1] at hold hnew
    omega
  | some i =>
    by_contra hlt
    have hdiffers : (messages[i]?).map (messageDigest R) ≠ s.messageDigests[i]? := by
      simpa using (find?_range_eq_some.mp hfind).1
    exact hdiffers (hdigest i (not_le.mp hlt))

theorem take_messageDigests {n : ℕ} (h : n ≤ s.longestStablePrefix R messages) :
    s.messageDigests.take n = (messages.take n).map (messageDigest R) := by
  apply ext_getElem?
  intro i
  by_cases hi : i < n
  · have hdigest := digest_of_lt_longestStablePrefix (lt_of_lt_of_le hi h)
    rw [getElem?_take_of_lt hi, getElem?_map, getElem?_take_of_lt hi, hdigest]
  have hge : n ≤ i := Nat.le_of_not_lt hi
  rw [getElem?_map, getElem?_eq_none ((length_take_le n _).trans hge),
    getElem?_eq_none ((length_take_le n _).trans hge), map_none]

/-! ### One sync -/

theorem syncMessages_of_lt (h : messages.length < s.lastSyncCount) : s.syncMessages R messages =
      { s with log := messages, lastSyncCount := messages.length,
               messageDigests := messages.map (messageDigest R) } := by
  simp [Manager.syncMessages, h, Manager.resetSyncCursor, Manager.appendTail]

theorem syncMessages_of_le (h : ¬ messages.length < s.lastSyncCount) :
    s.syncMessages R messages = (s.trim R messages).appendTail R messages := by
  rw [Manager.syncMessages, if_neg h]
  by_cases hpos : 0 < s.lastSyncCount
  · simp only [if_pos hpos]
  simp only [if_neg hpos]
  rw [Manager.trim, if_neg (by omega)]

/-- What the sync leaves of the log: a part of it, or all of it. -/
theorem log_syncMessages (h : ¬ messages.length < s.lastSyncCount) :
    (s.syncMessages R messages).log =
      (if min (s.longestStablePrefix R messages) s.log.length < s.lastSyncCount then
        s.log.take (min (s.longestStablePrefix R messages) s.log.length) else s.log) ++
      messages.drop (min (s.longestStablePrefix R messages) s.log.length) := by
  have hle := longestStablePrefix_le (R := R) s messages
  rw [syncMessages_of_le h, Manager.trim]
  by_cases hk : min (s.longestStablePrefix R messages) s.log.length < s.lastSyncCount
  · simp only [if_pos hk, Manager.appendTail]
  have hcount : s.lastSyncCount = min (s.longestStablePrefix R messages) s.log.length := by
    omega
  simp only [if_neg hk, Manager.appendTail]
  rw [← hcount]

theorem tracks_syncMessages (ht : Tracks R synced s) :
    Tracks R messages (s.syncMessages R messages) := by
  by_cases h : messages.length < s.lastSyncCount
  · rw [syncMessages_of_lt h]
    exact ⟨rfl, rfl⟩
  rw [syncMessages_of_le h]
  refine ⟨rfl, ?_⟩
  rw [Manager.trim]
  by_cases hk : min (s.longestStablePrefix R messages) s.log.length < s.lastSyncCount
  · simp only [if_pos hk, Manager.appendTail]
    rw [take_messageDigests (min_le_left _ _), ← map_append, take_append_drop]
  have hall : s.lastSyncCount ≤ s.longestStablePrefix R messages := by omega
  have hdigests := take_messageDigests hall
  rw [take_of_length_le (by rw [ht.1, ht.2, length_map])] at hdigests
  simp only [if_neg hk, Manager.appendTail]
  rw [hdigests, ← map_append, take_append_drop]

theorem tracks_step (ht : Tracks R synced s) (op : Op τ ο) :
    Tracks R (syncedAfter synced op) (step R s op) := by
  cases op with
  | syncMessages => exact tracks_syncMessages ht
  | replaceTailMessage =>
    rw [step, Manager.replaceTailMessage]
    split
    · exact ht
    · exact ht
  | appendMessage | logClear | invalidate | build => exact ht
  | resetSyncCursor | invalidateForModelChange | reset => exact ⟨rfl, rfl⟩

/-- Two lists agree under a map exactly if they do at every place. -/
theorem map_eq_map_take_iff {α β : Type} {f : α → β} {xs ys : List α} {k : ℕ} (hk : k ≤ ys.length) :
    xs.map f = (ys.take k).map f ↔
      xs.length = k ∧ ∀ i < k, (xs[i]?).map f = (ys[i]?).map f := by
  constructor
  · intro h
    have hlen : xs.length = k := by
      have := congrArg List.length h
      simpa [hk] using this
    refine ⟨hlen, fun i hi => ?_⟩
    have hget := congrArg (·[i]?) h
    simpa [getElem?_take_of_lt hi] using hget
  rintro ⟨hlen, hget⟩
  apply ext_getElem?
  intro i
  by_cases hi : i < k
  · rw [getElem?_map, getElem?_map, getElem?_take_of_lt hi, hget i hi]
  rw [getElem?_eq_none (by rw [length_map]; omega),
    getElem?_eq_none (by rw [length_map, length_take]; omega)]

/-- A sync of an array that has not shrunk gives the array exactly under its condition. -/
theorem log_syncMessages_eq_iff (ht : Tracks R synced s) (h : ¬ messages.length < s.lastSyncCount) :
    (s.syncMessages R messages).log.map (covered R) = messages.map (covered R) ↔
      (∀ i < min (s.longestStablePrefix R messages) s.log.length,
        (s.log[i]?).map (covered R) = (messages[i]?).map (covered R)) ∧
      (min (s.longestStablePrefix R messages) s.log.length = synced.length →
        s.log.length = synced.length) := by
  have hle := longestStablePrefix_le (R := R) s messages
  have hcount := ht.1
  rw [log_syncMessages h]
  generalize hk : min (s.longestStablePrefix R messages) s.log.length = k
  have hklen : k ≤ messages.length := by omega
  have hsplit : messages.map (covered R) =
      (messages.take k).map (covered R) ++ (messages.drop k).map (covered R) := by
    rw [← map_append, take_append_drop]
  rw [map_append, hsplit, append_cancel_right_eq]
  by_cases hlt : k < s.lastSyncCount
  · rw [if_pos hlt, map_eq_map_take_iff hklen]
    constructor
    · rintro ⟨-, hget⟩
      refine ⟨fun i hi => ?_, fun heq => by omega⟩
      rw [← hget i hi, getElem?_take_of_lt hi]
    rintro ⟨hget, -⟩
    refine ⟨by rw [length_take]; omega, fun i hi => ?_⟩
    rw [getElem?_take_of_lt hi, hget i hi]
  rw [if_neg hlt, map_eq_map_take_iff hklen]
  constructor
  · rintro ⟨hlen, hget⟩
    exact ⟨hget, fun heq => hlen.trans heq⟩
  rintro ⟨hget, hlen⟩
  exact ⟨(hlen (by omega)).trans (by omega), hget⟩

/-- Up to the first difference such a sync leaves the objects of the log in place. -/
theorem getElem?_log_syncMessages (ht : Tracks R synced s) (h : ¬ messages.length < s.lastSyncCount)
    (hi : i < firstDifference R synced messages) {entry : Message} (hentry : entry ∈ s.log[i]?) :
    (s.syncMessages R messages).log[i]? = some entry := by
  have hstable : firstDifference R synced messages ≤ s.longestStablePrefix R messages :=
    firstDifference_le_longestStablePrefix ht
  obtain ⟨hlen, -⟩ := List.getElem?_eq_some_iff.mp hentry
  rw [log_syncMessages h]
  split
  · rw [getElem?_append_left (by rw [length_take]; omega),
      getElem?_take_of_lt (by omega)]
    exact hentry
  rw [getElem?_append_left hlen]
  exact hentry

/-- **One step.** -/
theorem fresh_iff_safe (ht : Tracks R synced s) (op : Op τ ο) :
    Fresh R s synced op ↔ Safe R s synced op := by
  cases op with
  | syncMessages messages =>
    rw [Fresh, Safe]
    by_cases h : messages.length < synced.length
    · rw [if_pos h, syncMessages_of_lt (by rw [ht.1]; exact h)]
      exact and_iff_right rfl
    have hcount : ¬ messages.length < s.lastSyncCount := by rwa [ht.1]
    rw [if_neg h, ← log_syncMessages_eq_iff ht hcount]
    exact and_iff_left fun i hi entry hentry =>
      getElem?_log_syncMessages ht hcount hi hentry
  | build context options =>
    rw [Fresh, Safe, Manager.build, StablePrefix.build]
    cases hcached : s.stable.snapshot with
    | none => simp [takeSnapshot]
    | some cached =>
      by_cases heq : cached.fingerprint = (takeSnapshot R context options).fingerprint
      · simp [heq, hcached]
      simp only [if_neg heq, map_some]
      exact iff_of_true ⟨_, rfl, rfl, rfl⟩ fun cached' hmem hfinger =>
        absurd (some.inj hmem ▸ hfinger) heq
  | appendMessage | replaceTailMessage | logClear | resetSyncCursor | invalidate
  | invalidateForModelChange | reset => exact Iff.rfl

/-! ### Whole runs -/

theorem along_congr {P Q : Manager σ → List Message → Op τ ο → Prop}
    (hPQ : ∀ s synced op, Tracks R synced s → (P s synced op ↔ Q s synced op))
    (ht : Tracks R synced s) (ops : List (Op τ ο)) :
    Along R P s synced ops ↔ Along R Q s synced ops := by
  induction ops generalizing s synced with
  | nil => exact Iff.rfl
  | cons op ops ih => exact and_congr (hPQ s synced op ht) (ih (tracks_step ht op))

/-- In every run of a new manager nothing stale comes out of any step exactly if every step meets
its condition. -/
theorem fresh_run_iff (R : Runtime τ σ ο) (ops : List (Op τ ο)) :
    Along R (Fresh R) Manager.new [] ops ↔ Along R (Safe R) Manager.new [] ops :=
  along_congr (fun _ _ op ht => fresh_iff_safe ht op) ⟨rfl, rfl⟩ ops

section Examples

/-- The text of a string without escapes, and of `null`. -/
def quoted : JsValue → String
  | .string text => "\"" ++ text ++ "\""
  | _ => "null"

/-- `JSON.stringify` on an object of such values. -/
def stringifyFlat : JsValue → List UInt16
  | .object fields =>
    let text := "\x7b" ++ ",".intercalate (fields.map fun field =>
      "\"" ++ field.1 ++ "\":" ++ quoted field.2) ++ "\x7d"
    text.toList.map fun c => c.toNat.toUInt16
  | _ => []

def flatRuntime : Runtime Unit Unit Unit where
  stringify := stringifyFlat
  normalizeTools tools _ := tools
  specFields _ := .null
  intentTracing _ := false
  pruneToolDescriptions _ := none

def userMessage (ref : ℕ) (content : String) : Message :=
  ⟨ref, .object [("role", .string "user"), ("content", .string content)]⟩

/-- The two contents have one digest, and the rewrite is not seen. -/
theorem not_fresh_collision :
    ¬ ∀ ops : List (Op Unit Unit), Along flatRuntime (Fresh flatRuntime) Manager.new [] ops := by
  intro hall
  obtain ⟨-, hsecond, -⟩ :=
    hall [.syncMessages [userMessage 0 "Aa"], .syncMessages [userMessage 1 "BB"]]
  have hne : (((Manager.new.syncMessages flatRuntime [userMessage 0 "Aa"]).syncMessages flatRuntime
      [userMessage 1 "BB"]).log.map (covered flatRuntime)) ≠
        [userMessage 1 "BB"].map (covered flatRuntime) := by
    decide +kernel
  exact hne hsecond.1

end Examples

end AppendOnly

end BreadboardTui
