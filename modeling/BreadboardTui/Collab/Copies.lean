import BreadboardTui.Journal.Branch

/-!
# Copies of entries

The entries of a shared session are sent to the guests without images, and long strings in them are
shortened. A copy has the ids, the types and the other small fields of the entry; its texts are
related to those of the entry by a relation `Short`.

The context of copies is a copy of the context: `EntryCopy.emittedMessages`, `filterMessages_copy`.
-/

namespace BreadboardTui

open List Option

namespace Journal

variable (Short : String → String → Prop)

/-! ### Messages -/

inductive BlockCopy : AssistantBlock → AssistantBlock → Prop where
  | text {text text' : String} : Short text text' → BlockCopy (.text text) (.text text')
  | thinking {thinking thinking' : String} (signature signature' : Option String) :
      Short thinking thinking' →
      BlockCopy (.thinking thinking signature) (.thinking thinking' signature')
  | redactedThinking (data data' : String) :
      BlockCopy (.redactedThinking data) (.redactedThinking data')
  | toolCall (id name : String) : BlockCopy (.toolCall id name) (.toolCall id name)

structure AssistantCopy (message message' : AssistantMessage) : Prop where
  stopReason : message'.stopReason = message.stopReason
  retryRecovery : message'.retryRecovery = message.retryRecovery
  content : List.Forall₂ (BlockCopy Short) message.content message'.content

structure CompactionCopy (compaction compaction' : CompactionEntry) : Prop where
  summary : Short compaction.summary compaction'.summary
  firstKeptEntryId : compaction'.firstKeptEntryId = compaction.firstKeptEntryId
  providerReplayThroughEntryId :
    compaction'.providerReplayThroughEntryId = compaction.providerReplayThroughEntryId
  /-- The replay history may be shortened, but is there or not. -/
  payload : (getOpenAiRemoteCompactionPayload compaction').map (·.provider) =
    (getOpenAiRemoteCompactionPayload compaction).map (·.provider)

inductive MessageCopy : AgentMessage → AgentMessage → Prop where
  | user {text text' : String} : Short text text' → MessageCopy (.user text) (.user text')
  | assistant {message message' : AssistantMessage} : AssistantCopy Short message message' →
      MessageCopy (.assistant message) (.assistant message')
  | toolResult (toolCallId : String) {content content' : String} (isError : Bool) :
      Short content content' →
      MessageCopy (.toolResult toolCallId content isError) (.toolResult toolCallId content' isError)
  | custom (customType : String) {content content' : String} (display : Bool)
      (attribution : Option String) (timestamp : String) : Short content content' →
      MessageCopy (.custom customType content display attribution timestamp)
        (.custom customType content' display attribution timestamp)
  | branchSummary {summary summary' : String} (fromId timestamp : String) : Short summary summary' →
      MessageCopy (.branchSummary summary fromId timestamp)
        (.branchSummary summary' fromId timestamp)
  | compactionSummary {compaction compaction' : CompactionEntry}
      {payload payload' : Option ProviderPayload} (timestamp : String) :
      CompactionCopy Short compaction compaction' →
      payload'.map (·.provider) = payload.map (·.provider) →
      MessageCopy (.compactionSummary compaction payload timestamp)
        (.compactionSummary compaction' payload' timestamp)
  | other (role : OtherRole) {content content' : String} : Short content content' →
      MessageCopy (.other role content) (.other role content')

/-! ### Entries -/

/-- The body of a copy; only these types are sent. -/
inductive BodyCopy : EntryBody → EntryBody → Prop where
  | message {message message' : AgentMessage} : MessageCopy Short message message' →
      BodyCopy (.message message) (.message message')
  | thinkingLevelChange (thinkingLevel configured : Option String) :
      BodyCopy (.thinkingLevelChange thinkingLevel configured)
        (.thinkingLevelChange thinkingLevel configured)
  | modelChange (model : String) (role : Option String) :
      BodyCopy (.modelChange model role) (.modelChange model role)
  | compaction {compaction compaction' : CompactionEntry} :
      CompactionCopy Short compaction compaction' →
      BodyCopy (.compaction compaction) (.compaction compaction')
  | branchSummary (fromId : String) {summary summary' : String} : Short summary summary' →
      (summary' = "" ↔ summary = "") →
      BodyCopy (.branchSummary fromId summary) (.branchSummary fromId summary')
  | customMessage {message message' : CustomMessageEntry} :
      message'.customType = message.customType → message'.display = message.display →
      message'.attribution = message.attribution →
      Option.Rel Short message.content message'.content →
      BodyCopy (.customMessage message) (.customMessage message')

structure EntryCopy (entry entry' : SessionEntry) : Prop where
  id : entry'.id = entry.id
  parentId : entry'.parentId = entry.parentId
  timestamp : entry'.timestamp = entry.timestamp
  body : BodyCopy Short entry.body entry'.body

variable {Short}

/-! ### Lists that correspond -/

section Forall₂

variable {α β γ δ : Type} {R : α → β → Prop} {S : γ → δ → Prop} {xs : List α} {ys : List β}

variable {p : α → Bool} {q : β → Bool}

theorem forall₂_dropWhile (h : List.Forall₂ R xs ys)
    (hpq : ∀ a b, R a b → p a = q b) : List.Forall₂ R (xs.dropWhile p) (ys.dropWhile q) := by
  induction h with
  | nil => exact .nil
  | @cons a b xs ys hab htail ih =>
    rw [dropWhile_cons, dropWhile_cons, hpq a b hab]
    split
    · exact ih
    · exact .cons hab htail

theorem filterMap_eq_of_forall₂ {f : α → Option γ} {g : β → Option γ} (h : List.Forall₂ R xs ys)
    (hfg : ∀ a b, R a b → f a = g b) : xs.filterMap f = ys.filterMap g := by
  induction h with
  | nil => rfl
  | @cons a b xs ys hab _ ih => rw [filterMap_cons, filterMap_cons, hfg a b hab, ih]

theorem head?_any_of_forall₂ (h : List.Forall₂ R xs ys)
    (hpq : ∀ a b, R a b → p a = q b) : xs.head?.any p = ys.head?.any q := by
  cases h with
  | nil => rfl
  | cons hab _ => exact hpq _ _ hab

theorem isEmpty_of_forall₂ (h : List.Forall₂ R xs ys) : xs.isEmpty = ys.isEmpty := by
  cases h <;> rfl

theorem findIdx_eq_of_forall₂ (h : List.Forall₂ R xs ys)
    (hpq : ∀ a b, R a b → p a = q b) : xs.findIdx p = ys.findIdx q := by
  induction h with
  | nil => rfl
  | @cons a b xs ys hab _ ih => rw [findIdx_cons, findIdx_cons, hpq a b hab, ih]

theorem findIdx?_eq_of_forall₂ (h : List.Forall₂ R xs ys)
    (hpq : ∀ a b, R a b → p a = q b) : xs.findIdx? p = ys.findIdx? q := by
  induction h with
  | nil => rfl
  | @cons a b xs ys hab _ ih => rw [findIdx?_cons, findIdx?_cons, hpq a b hab, ih]

theorem forall_of_forall₂ {p : α → Prop} {q : β → Prop} (h : List.Forall₂ R xs ys)
    (hpq : ∀ a b, R a b → p a ∧ q b) : (∀ a ∈ xs, p a) ∧ ∀ b ∈ ys, q b := by
  induction h with
  | nil => exact ⟨forall_mem_nil _, forall_mem_nil _⟩
  | cons hab _ ih =>
    obtain ⟨hp, hq⟩ := hpq _ _ hab
    exact ⟨forall_mem_cons.mpr ⟨hp, ih.1⟩, forall_mem_cons.mpr ⟨hq, ih.2⟩⟩

end Forall₂

/-! ### The filters -/

section Filters

variable {message message' : AgentMessage} {messages messages' : List AgentMessage}

theorem MessageCopy.calls_eq (h : MessageCopy Short message message') :
    message.calls = message'.calls := by
  cases h with
  | assistant h =>
    refine filterMap_eq_of_forall₂ h.content fun block block' hblock => ?_
    cases hblock <;> rfl
  | _ => rfl

theorem MessageCopy.resultId?_eq (h : MessageCopy Short message message') :
    message.resultId? = message'.resultId? := by
  cases h <;> rfl

theorem MessageCopy.isFailedTurn_eq (h : MessageCopy Short message message') :
    message.isFailedTurn = message'.isFailedTurn := by
  cases h with
  | assistant h => rw [AgentMessage.isFailedTurn, AgentMessage.isFailedTurn, h.stopReason]
  | _ => rfl

theorem MessageCopy.isInterruptedThinking_eq (h : MessageCopy Short message message') :
    message.isInterruptedThinking = message'.isInterruptedThinking := by
  cases h <;> rfl

theorem BlockCopy.normalizeBlock {block block' : AssistantBlock} (h : BlockCopy Short block block')
    (paired : List String) :
    Option.Rel (BlockCopy Short) (normalizeBlock paired block) (normalizeBlock paired block') := by
  cases h with
  | text h => exact .some (.text h)
  | thinking signature signature' h => exact .some (.thinking none none h)
  | redactedThinking => exact .none
  | toolCall id name =>
    rw [Journal.normalizeBlock]
    split
    · exact .some (.toolCall id name)
    · exact .none

theorem MessageCopy.stripDangling (h : MessageCopy Short message message') (paired : List String) :
    Option.Rel (MessageCopy Short) (stripDangling paired message)
      (stripDangling paired message') := by
  have hcalls := h.calls_eq
  cases h with
  | assistant h =>
    have hcontent := rel_filterMap (fun _ _ hblock => hblock.normalizeBlock paired) h.content
    rw [Journal.stripDangling, Journal.stripDangling, ← hcalls]
    split
    · exact .some (.assistant h)
    dsimp only
    rw [isEmpty_of_forall₂ hcontent]
    split
    · exact .none
    · exact .some (.assistant ⟨h.stopReason, h.retryRecovery, hcontent⟩)
  | user h => exact .some (.user h)
  | toolResult toolCallId isError h => exact .some (.toolResult toolCallId isError h)
  | custom customType display attribution timestamp h =>
    exact .some (.custom customType display attribution timestamp h)
  | branchSummary fromId timestamp h => exact .some (.branchSummary fromId timestamp h)
  | compactionSummary timestamp h hpayload => exact .some (.compactionSummary timestamp h hpayload)
  | other role h => exact .some (.other role h)

theorem dropFailedTurns_copy (h : List.Forall₂ (MessageCopy Short) messages messages') :
    List.Forall₂ (MessageCopy Short) (dropFailedTurns messages) (dropFailedTurns messages') := by
  induction h with
  | nil => exact .nil
  | @cons message message' messages messages' hmessage _ ih =>
    have hhead : (dropFailedTurns messages).head?.any (·.isInterruptedThinking) =
        (dropFailedTurns messages').head?.any (·.isInterruptedThinking) :=
      head?_any_of_forall₂ ih fun _ _ hfirst => hfirst.isInterruptedThinking_eq
    rw [dropFailedTurns, dropFailedTurns, hmessage.isFailedTurn_eq, hhead]
    split
    · refine rel_filter (fun candidate candidate' hcandidate => ?_) ih
      simp [hcandidate.resultId?_eq, hmessage.calls_eq]
    · exact .cons hmessage ih

theorem filterMessages_copy (h : List.Forall₂ (MessageCopy Short) messages messages') :
    List.Forall₂ (MessageCopy Short) (filterMessages messages) (filterMessages messages') := by
  have hpaired : pairedToolResultIds messages = pairedToolResultIds messages' :=
    filterMap_eq_of_forall₂ h fun _ _ hmessage => hmessage.resultId?_eq
  rw [filterMessages, filterMessages, hpaired]
  exact dropFailedTurns_copy (rel_filterMap (fun _ _ hmessage => hmessage.stripDangling _) h)

end Filters

/-! ### What copies emit -/

section Emission

variable {entry entry' : SessionEntry} {path path' : List SessionEntry}

theorem EntryCopy.isCompaction_eq (h : EntryCopy Short entry entry') :
    entry.isCompaction = entry'.isCompaction := by
  obtain ⟨id, parentId, timestamp, body⟩ := entry
  obtain ⟨id', parentId', timestamp', body'⟩ := entry'
  cases h.body <;> rfl

theorem EntryCopy.isResetBoundary_eq (h : EntryCopy Short entry entry') :
    entry.isResetBoundary = false ∧ entry'.isResetBoundary = false := by
  obtain ⟨id, parentId, timestamp, body⟩ := entry
  obtain ⟨id', parentId', timestamp', body'⟩ := entry'
  cases h.body <;> exact ⟨rfl, rfl⟩

theorem EntryCopy.appendMessage (h : EntryCopy Short entry entry') :
    Option.Rel (MessageCopy Short) (appendMessage entry) (appendMessage entry') := by
  obtain ⟨id, parentId, timestamp, body⟩ := entry
  obtain ⟨id', parentId', timestamp', body'⟩ := entry'
  obtain ⟨-, -, htimestamp, hbody⟩ := h
  subst htimestamp
  cases hbody with
  | message h =>
    cases h with
    | assistant h =>
      simp only [Journal.appendMessage, h.retryRecovery]
      split
      · exact .none
      · exact .some (.assistant h)
    | user h => exact .some (.user h)
    | toolResult toolCallId isError h => exact .some (.toolResult toolCallId isError h)
    | custom customType display attribution timestamp h =>
      exact .some (.custom customType display attribution timestamp h)
    | branchSummary fromId timestamp h => exact .some (.branchSummary fromId timestamp h)
    | compactionSummary timestamp h hpayload =>
      exact .some (.compactionSummary timestamp h hpayload)
    | other role h => exact .some (.other role h)
  | thinkingLevelChange => exact .none
  | modelChange => exact .none
  | compaction => exact .none
  | branchSummary fromId h hempty =>
    simp only [Journal.appendMessage, hempty]
    split
    · exact .none
    · exact .some (.branchSummary _ _ h)
  | @customMessage message message' htype hdisplay hattribution hcontent =>
    simp only [Journal.appendMessage, htype]
    split
    · exact .none
    cases hm : message.content with
    | none =>
      rw [hm] at hcontent
      cases hm' : message'.content with
      | none => exact .none
      | some => rw [hm'] at hcontent; cases hcontent
    | some =>
      rw [hm] at hcontent
      cases hm' : message'.content with
      | none => rw [hm'] at hcontent; cases hcontent
      | some =>
        rw [hm'] at hcontent
        cases hcontent with
        | some hshort =>
          simp only [map_some, customMessage, htype, hdisplay, hattribution]
          exact .some (.custom _ _ _ _ hshort)

theorem filterMap_appendMessage_copy (h : List.Forall₂ (EntryCopy Short) path path') :
    List.Forall₂ (MessageCopy Short) (path.filterMap appendMessage)
      (path'.filterMap appendMessage) :=
  rel_filterMap (fun _ _ hentry => hentry.appendMessage) h

/-- The step of `latestCompaction`. -/
def laterCompaction (latest : Option (SessionEntry × CompactionEntry)) (entry : SessionEntry) :
    Option (SessionEntry × CompactionEntry) :=
  match entry.body with
  | .compaction compaction => some (entry, compaction)
  | _ => latest

theorem latestCompaction_copy (h : List.Forall₂ (EntryCopy Short) path path') :
    Option.Rel (fun latest latest' => EntryCopy Short latest.1 latest'.1 ∧
      CompactionCopy Short latest.2 latest'.2) (latestCompaction path) (latestCompaction path') := by
  have hstep : ∀ latest latest' : Option (SessionEntry × CompactionEntry),
      Option.Rel (fun latest latest' => EntryCopy Short latest.1 latest'.1 ∧
        CompactionCopy Short latest.2 latest'.2) latest latest' →
      Option.Rel (fun latest latest' => EntryCopy Short latest.1 latest'.1 ∧
        CompactionCopy Short latest.2 latest'.2)
        (path.foldl laterCompaction latest) (path'.foldl laterCompaction latest') := by
    induction h with
    | nil => exact fun _ _ h => h
    | @cons entry entry' path path' hentry _ ih =>
      intro latest latest' hlatest
      refine ih _ _ ?_
      obtain ⟨id, parentId, timestamp, body⟩ := entry
      obtain ⟨id', parentId', timestamp', body'⟩ := entry'
      have hbody := hentry.body
      cases hbody with
      | compaction hcompaction => exact .some ⟨hentry, hcompaction⟩
      | _ => exact hlatest
  exact hstep none none .none

theorem compactionIdx_copy (h : List.Forall₂ (EntryCopy Short) path path')
    (hentry : EntryCopy Short entry entry') :
    compactionIdx path entry = compactionIdx path' entry' := by
  refine findIdx_eq_of_forall₂ h fun e e' he => ?_
  rw [he.isCompaction_eq, he.id, hentry.id]

theorem resetBoundaryIdx_of_sent (h : ∀ entry ∈ path, entry.isResetBoundary = false) :
    resetBoundaryIdx path = none := by
  have hnone : path.reverse.findIdx? (·.isResetBoundary) = none := by
    rw [findIdx?_eq_none_iff]
    exact fun entry hentry => h entry (mem_reverse.mp hentry)
  rw [resetBoundaryIdx, hnone]
  rfl

theorem keptEntries_copy (h : List.Forall₂ (EntryCopy Short) path path') (idx : ℕ)
    {compaction compaction' : CompactionEntry} (hc : CompactionCopy Short compaction compaction') :
    List.Forall₂ (EntryCopy Short) (keptEntries path idx compaction)
      (keptEntries path' idx compaction') := by
  have hpayload := hc.payload
  rw [keptEntries, keptEntries, hc.providerReplayThroughEntryId, hc.firstKeptEntryId]
  cases hp : getOpenAiRemoteCompactionPayload compaction with
  | none =>
    rw [hp] at hpayload
    rw [map_eq_none_iff.mp hpayload]
    refine forall₂_dropWhile (forall₂_take idx h) fun e e' he => ?_
    rw [he.id]
  | some =>
    rw [hp] at hpayload
    obtain ⟨payload', hp', -⟩ := map_eq_some_iff.mp hpayload
    rw [hp']
    dsimp only
    split
    · exact .nil
    next through _ =>
    have hfound : path.findIdx? (fun entry => entry.id == through) =
        path'.findIdx? (fun entry => entry.id == through) :=
      findIdx?_eq_of_forall₂ h fun e e' he => by rw [he.id]
    rw [hfound]
    split
    · split
      · exact forall₂_drop _ (forall₂_take idx h)
      · exact .nil
    · exact .nil

theorem emittedMessages_copy (h : List.Forall₂ (EntryCopy Short) path path') :
    List.Forall₂ (MessageCopy Short) (emittedMessages path) (emittedMessages path') := by
  obtain ⟨hreset, hreset'⟩ := forall_of_forall₂ h fun _ _ hentry => hentry.isResetBoundary_eq
  have hlatest := latestCompaction_copy h
  -- no boundary is sent
  rw [emittedMessages, emittedMessages, activeBoundary, activeBoundary,
    resetBoundaryIdx_of_sent hreset, resetBoundaryIdx_of_sent hreset', filter_none,
    filter_none]
  cases hl : latestCompaction path with
  | none =>
    rw [hl] at hlatest
    cases hl' : latestCompaction path' with
    | none => exact filterMap_appendMessage_copy h
    | some => rw [hl'] at hlatest; cases hlatest
  | some =>
    rw [hl] at hlatest
    cases hl' : latestCompaction path' with
    | none => rw [hl'] at hlatest; cases hlatest
    | some =>
      rw [hl'] at hlatest
      cases hlatest with
      | some hcopy =>
        obtain ⟨hentry, hcompaction⟩ := hcopy
        dsimp only
        rw [compactionIdx_copy h hentry, hentry.timestamp]
        refine .cons (.compactionSummary _ hcompaction hcompaction.payload) ?_
        refine rel_append ?_ (filterMap_appendMessage_copy (forall₂_drop _ h))
        exact filterMap_appendMessage_copy (keptEntries_copy h _ hcompaction)

end Emission

end Journal

end BreadboardTui
