import BreadboardTui.Compaction.CutPoint
import Mathlib.Data.Rat.Floor

/-!
# The preparation of a compaction

`prepareCompaction` splits the entries from its boundary on into a part to summarize, the head of a
split turn, and a part to keep. The boundary is the newest readable compaction or `/clear` marker,
whereas the live context also holds the tail that a compaction has kept, which lies before it.
-/

namespace BreadboardTui

open List Option

namespace Compaction

open Journal

/-! ### The boundary -/

/-- A compaction that the active model can read; whether it can is decided by what the compaction
preserves, the model and the settings. -/
def isReadable (readable : CompactionEntry → Bool) (entry : SessionEntry) : Bool :=
  match entry.body with
  | .compaction compaction => readable compaction
  | _ => false

/-- `findReadableCompactionIndex`; `none` is `-1`. -/
def findReadableCompactionIndex (readable : CompactionEntry → Bool) (pathEntries : List SessionEntry) :
    Option ℕ :=
  (indices 0 pathEntries.length).reverse.find? fun i => pathEntries[i]?.any (isReadable readable)

/-- The index after one that may be `-1`. -/
def indexAfter (i : Option ℕ) : ℕ := i.elim 0 (· + 1)

/-- The newest `/clear` marker after the readable compaction. -/
def resetAfter (pathEntries : List SessionEntry) (prevCompactionIndex : Option ℕ) : Option ℕ :=
  (indices (indexAfter prevCompactionIndex) pathEntries.length).reverse.find? fun i =>
    pathEntries[i]?.any (·.isResetBoundary)

/-- The compaction whose summary is reused; a newer `/clear` marker has cleared it. -/
def reusedCompaction (readable : CompactionEntry → Bool) (pathEntries : List SessionEntry) :
    Option ℕ :=
  let prevCompactionIndex := findReadableCompactionIndex readable pathEntries
  if (resetAfter pathEntries prevCompactionIndex).isSome then none else prevCompactionIndex

def boundaryStart (readable : CompactionEntry → Bool) (pathEntries : List SessionEntry) : ℕ :=
  let prevCompactionIndex := findReadableCompactionIndex readable pathEntries
  indexAfter (resetAfter pathEntries prevCompactionIndex <|> prevCompactionIndex)

/-! ### Messages -/

def getMessageFromEntry (entry : SessionEntry) : Option AgentMessage :=
  match entry.body with
  | .message message => some message
  | .customMessage message =>
    some (.custom (message.customType.getD "") (message.content.getD "")
      (message.display.getD false) message.attribution entry.timestamp)
  | .branchSummary fromId summary => some (.branchSummary summary fromId entry.timestamp)
  | _ => none

/-- The entries from `a` up to `b`. -/
def segment (pathEntries : List SessionEntry) (a b : ℕ) : List SessionEntry :=
  (pathEntries.take b).drop a

/-! ### The budget -/

/-- What is read of the last assistant usage: the tokens of the context and of the prompt. -/
structure UsageTokens where
  contextTokens : ℚ
  promptTokens : ℚ
  deriving DecidableEq, Repr

def estimateEntriesTokens (countMessage : AgentMessage → ℚ) (entries : List SessionEntry)
    (startIndex endIndex : ℕ) : ℚ :=
  (((segment entries startIndex endIndex).filterMap getMessageFromEntry).map countMessage).sum

/-- The budget, scaled where the prompt is larger than its estimate. -/
def scaledKeepRecentTokens (keepRecentTokens estimatedTokens : ℚ) : Option UsageTokens → ℚ
  | none => keepRecentTokens
  | some usage =>
    let ratio := if 0 < estimatedTokens then usage.promptTokens / estimatedTokens else 0
    if 1 < ratio then max 1 (⌊keepRecentTokens / ratio⌋ : ℚ) else keepRecentTokens

/-! ### The preparation -/

/-- `CompactionPreparation`, but for the file operations and the settings. -/
structure CompactionPreparation where
  firstKeptEntryId : String
  messagesToSummarize : List AgentMessage
  turnPrefixMessages : List AgentMessage
  recentMessages : List AgentMessage
  isSplitTurn : Bool
  tokensBefore : ℚ
  previousSummary : Option String
  deriving DecidableEq, Repr

/-- What a compaction is prepared from. -/
structure CompactionInput where
  pathEntries : List SessionEntry
  readable : CompactionEntry → Bool
  countMessage : AgentMessage → ℚ
  keepRecentTokens : ℚ
  lastUsage : Option UsageTokens

namespace CompactionInput

variable (input : CompactionInput)

def boundaryStart : ℕ := Compaction.boundaryStart input.readable input.pathEntries

def boundaryEnd : ℕ := input.pathEntries.length

def cutPoint : CutPointResult :=
  findCutPoint input.pathEntries input.countMessage input.boundaryStart input.boundaryEnd
    (scaledKeepRecentTokens input.keepRecentTokens
      (estimateEntriesTokens input.countMessage input.pathEntries input.boundaryStart
        input.boundaryEnd) input.lastUsage)

def historyEnd : ℕ :=
  if input.cutPoint.isSplitTurn then input.cutPoint.turnStartIndex.getD 0
  else input.cutPoint.firstKeptEntryIndex

/-- The entries whose messages are summarized. -/
def summarized : List SessionEntry :=
  segment input.pathEntries input.boundaryStart input.historyEnd

/-- The entries at the head of a split turn. -/
def turnPrefix : List SessionEntry :=
  if input.cutPoint.isSplitTurn then
    segment input.pathEntries (input.cutPoint.turnStartIndex.getD 0)
      input.cutPoint.firstKeptEntryIndex
  else []

/-- The entries that are kept. -/
def recent : List SessionEntry :=
  segment input.pathEntries input.cutPoint.firstKeptEntryIndex input.boundaryEnd

def previousSummary : Option String :=
  (reusedCompaction input.readable input.pathEntries).bind fun i =>
    input.pathEntries[i]?.bind fun entry =>
      match entry.body with
      | .compaction compaction => some compaction.summary
      | _ => none

def prepareCompaction : Option CompactionPreparation :=
  if input.pathEntries.getLast?.any (·.isCompaction) then none
  else
    match input.pathEntries[input.cutPoint.firstKeptEntryIndex]? with
    | none => none
    | some firstKeptEntry =>
      let messagesToSummarize := input.summarized.filterMap getMessageFromEntry
      let turnPrefixMessages := input.turnPrefix.filterMap getMessageFromEntry
      if firstKeptEntry.id = "" then none
      else if messagesToSummarize.isEmpty && turnPrefixMessages.isEmpty then none
      else
        some
          { firstKeptEntryId := firstKeptEntry.id
            messagesToSummarize := messagesToSummarize
            turnPrefixMessages := turnPrefixMessages
            recentMessages := input.recent.filterMap getMessageFromEntry
            isSplitTurn := input.cutPoint.isSplitTurn
            tokensBefore := (input.lastUsage.map (·.contextTokens)).getD 0
            previousSummary := input.previousSummary }

end CompactionInput

/-! ### The context before and after -/

/-- The entries that the context emits after its summary. -/
def emittedEntries (path : List SessionEntry) : List SessionEntry :=
  match activeBoundary path, latestCompaction path with
  | some boundary, _ => path.drop (boundary + 1)
  | none, some (entry, compaction) =>
    let idx := compactionIdx path entry
    keptEntries path idx compaction ++ path.drop (idx + 1)
  | none, none => path

/-- An entry with a message for the model. -/
def isLive (entry : SessionEntry) : Bool := (appendMessage entry).isSome

/-- The entries that are left after a compaction: summarized, at the head of a split turn, or emitted
by the context with the compaction on its path. -/
def CompactionInput.covered (input : CompactionInput) (appended : SessionEntry) : List SessionEntry :=
  input.summarized ++ input.turnPrefix ++ emittedEntries (input.pathEntries ++ [appended])

/-- A compaction loses nothing: what was live is covered once and in order, and nothing from before a
`/clear` marker or a readable summary is. -/
structure LosesNothing (input : CompactionInput) (appended : SessionEntry) : Prop where
  live : ((emittedEntries input.pathEntries).filter isLive).Sublist (input.covered appended)
  once : (input.covered appended).Nodup
  order : (input.covered appended).Sublist input.pathEntries
  fresh : ∀ before boundary after, input.pathEntries = before ++ boundary :: after →
    boundary.isResetBoundary ∨ isReadable input.readable boundary →
      ∀ entry ∈ input.covered appended, entry ∈ after

/-- No live message lies before a readable compaction or a `/clear` marker. -/
def TailCovered (input : CompactionInput) : Prop :=
  ∀ before boundary after, input.pathEntries = before ++ boundary :: after →
    boundary.isResetBoundary ∨ isReadable input.readable boundary →
      ∀ entry ∈ emittedEntries input.pathEntries, isLive entry = true → entry ∈ after

/-- An entry that records a local compaction of the preparation. -/
structure Records (appended : SessionEntry) (preparation : CompactionPreparation) : Prop where
  body : ∃ compaction, appended.body = .compaction compaction ∧
    compaction.firstKeptEntryId = preparation.firstKeptEntryId ∧
      getOpenAiRemoteCompactionPayload compaction = none

/-! ### The cut in the path -/

section Proofs

variable {path : List SessionEntry} {a b : ℕ}

theorem segment_append_drop (path : List SessionEntry) (h : a ≤ b) :
    segment path a b ++ path.drop b = path.drop a := by
  have hsplit : path.drop a = (path.take b ++ path.drop b).drop a := by
    rw [take_append_drop]
  rw [hsplit, drop_append, segment, length_take]
  rcases le_total b path.length with hb | hb
  · rw [Nat.min_eq_left hb, Nat.sub_eq_zero_of_le h, drop_zero]
  · rw [drop_of_length_le hb, drop_nil]

theorem segment_append_segment {c : ℕ} (h : a ≤ b) (h' : b ≤ c) :
    segment path a b ++ segment path b c = segment path a c := by
  have hall := segment_append_drop (path.take c) h
  rw [segment, take_take, Nat.min_eq_left h'] at hall
  exact hall

/-! ### The boundary in the path -/

/-- A `/clear` marker or a readable compaction. -/
def IsBoundary (readable : CompactionEntry → Bool) (entry : SessionEntry) : Prop :=
  entry.isResetBoundary = true ∨ isReadable readable entry = true

theorem not_of_find?_indices {p : ℕ → Bool} {start k n : ℕ}
    (h : (indices start n).reverse.find? p = none) (hk : start ≤ k) (hn : k < n) : p k = false := by
  have hnot := find?_eq_none.mp h k (mem_reverse.mpr (mem_indices.mpr ⟨hk, hn⟩))
  exact Bool.eq_false_of_not_eq_true hnot

section Boundary

variable {readable : CompactionEntry → Bool} {entry : SessionEntry} {k : ℕ}

theorem lt_indexAfter_of_readable (hentry : path[k]? = some entry)
    (h : isReadable readable entry = true) :
    k < indexAfter (findReadableCompactionIndex readable path) := by
  have hlt := (List.getElem?_eq_some_iff.mp hentry).1
  cases hfind : findReadableCompactionIndex readable path with
  | none =>
    have hnot := not_of_find?_indices hfind (Nat.zero_le k) hlt
    rw [hentry, any_some, h] at hnot
    cases hnot
  | some =>
    obtain ⟨-, -, -, hafter⟩ := find?_reverse_indices hfind
    by_contra hge
    have hnot := hafter k (Nat.lt_of_not_ge fun hle => hge (Nat.lt_succ_of_le hle)) hlt
    rw [hentry, any_some, h] at hnot
    cases hnot

theorem lt_boundaryStart (hentry : path[k]? = some entry) (h : IsBoundary readable entry) :
    k < boundaryStart readable path := by
  have hlt := (List.getElem?_eq_some_iff.mp hentry).1
  rw [boundaryStart]
  cases hreset : resetAfter path (findReadableCompactionIndex readable path) with
  | none =>
    rcases h with h | h
    · by_contra hge
      have hnot := not_of_find?_indices hreset (Nat.le_of_not_lt hge) hlt
      rw [hentry, any_some, h] at hnot
      cases hnot
    · exact lt_indexAfter_of_readable hentry h
  | some =>
    obtain ⟨hstart, -, -, hafter⟩ := find?_reverse_indices hreset
    refine Nat.lt_succ_of_le ?_
    rcases h with h | h
    · by_contra hge
      have hnot := hafter k (Nat.lt_of_not_le hge) hlt
      rw [hentry, any_some, h] at hnot
      cases hnot
    · exact (lt_indexAfter_of_readable hentry h).le.trans hstart

/-- The boundary is the start of the path, or right behind a marker or a readable compaction. -/
theorem boundaryStart_cases (readable : CompactionEntry → Bool) (path : List SessionEntry) :
    boundaryStart readable path = 0 ∨ ∃ k entry, boundaryStart readable path = k + 1 ∧
      path[k]? = some entry ∧ IsBoundary readable entry := by
  rw [boundaryStart]
  cases hreset : resetAfter path (findReadableCompactionIndex readable path) with
  | none =>
    cases hfind : findReadableCompactionIndex readable path with
    | none => exact .inl rfl
    | some p =>
      obtain ⟨-, hlt, hp, -⟩ := find?_reverse_indices hfind
      rw [getElem?_eq_getElem hlt, any_some] at hp
      exact .inr ⟨p, path[p], rfl, getElem?_eq_getElem hlt, .inr hp⟩
  | some r =>
    obtain ⟨-, hlt, hr, -⟩ := find?_reverse_indices hreset
    rw [getElem?_eq_getElem hlt, any_some] at hr
    exact .inr ⟨r, path[r], rfl, getElem?_eq_getElem hlt, .inl hr⟩

end Boundary

/-! ### The context with the compaction on its path -/

theorem emittedEntries_sublist (path : List SessionEntry) : (emittedEntries path).Sublist path := by
  rw [emittedEntries]
  split
  · exact drop_sublist _ _
  · next entry compaction _ _ =>
    have hkept : (keptEntries path (compactionIdx path entry) compaction).Sublist
        (path.take (compactionIdx path entry)) := by
      rw [keptEntries]
      split
      · exact dropWhile_sublist _
      split
      · exact nil_sublist _
      split
      · split
        · exact drop_sublist _ _
        · exact nil_sublist _
      · exact nil_sublist _
    have hafter : (path.drop (compactionIdx path entry + 1)).Sublist
        (path.drop (compactionIdx path entry)) := by
      rw [← drop_drop]
      exact drop_sublist _ _
    have hall := hkept.append hafter
    rwa [take_append_drop] at hall
  · exact List.Sublist.refl path

section Appended

variable {appended : SessionEntry} {compaction : CompactionEntry}

theorem latestCompaction_concat (hbody : appended.body = .compaction compaction) :
    latestCompaction (path ++ [appended]) = some (appended, compaction) := by
  rw [latestCompaction, List.foldl_append, foldl_cons, foldl_nil, hbody]

theorem compactionIdx_concat (hbody : appended.body = .compaction compaction)
    (hfresh : appended.id ∉ path.map (·.id)) :
    compactionIdx (path ++ [appended]) appended = path.length := by
  have hnone : path.findIdx (fun e => e.isCompaction && e.id == appended.id) = path.length := by
    rw [findIdx_eq_length]
    intro e he
    have hne : e.id ≠ appended.id := fun heq => hfresh (heq ▸ mem_map_of_mem he)
    rw [beq_false_of_ne hne, Bool.and_false]
  have hself : [appended].findIdx (fun e => e.isCompaction && e.id == appended.id) = 0 := by
    rw [findIdx_cons, SessionEntry.isCompaction, hbody, beq_self_eq_true]
    rfl
  rw [compactionIdx, findIdx_append, hnone, if_neg (lt_irrefl _), hself, zero_add]

/-- A marker before the compaction has been superseded by it. -/
theorem activeBoundary_concat (hbody : appended.body = .compaction compaction)
    (hfresh : appended.id ∉ path.map (·.id)) : activeBoundary (path ++ [appended]) = none := by
  rw [activeBoundary, latestCompaction_concat hbody, filter_eq_none_iff]
  intro boundary hboundary
  rw [resetBoundaryIdx] at hboundary
  obtain ⟨i, -, rfl⟩ := map_eq_some_iff.mp hboundary
  rw [all_some]
  dsimp only
  rw [compactionIdx_concat hbody hfresh, length_append, length_singleton]
  simp

theorem emittedEntries_concat (hbody : appended.body = .compaction compaction)
    (hfresh : appended.id ∉ path.map (·.id))
    (hpayload : getOpenAiRemoteCompactionPayload compaction = none) :
    emittedEntries (path ++ [appended]) =
      path.dropWhile fun entry => entry.id ≠ compaction.firstKeptEntryId := by
  rw [emittedEntries, activeBoundary_concat hbody hfresh, latestCompaction_concat hbody]
  dsimp only
  rw [compactionIdx_concat hbody hfresh, keptEntries, hpayload]
  rw [take_left', drop_of_length_le, append_nil]
  · rw [length_append, length_singleton]
  · rfl

end Appended

theorem dropWhile_id_ne (hids : (path.map (·.id)).Nodup) {c : ℕ} {entry : SessionEntry}
    (hentry : path[c]? = some entry) :
    (path.dropWhile fun e => e.id ≠ entry.id) = path.drop c := by
  induction path generalizing c with
  | nil => cases hentry
  | cons first path ih =>
    rw [map_cons, nodup_cons] at hids
    cases c with
    | zero =>
      cases hentry
      simp
    | succ =>
      rw [getElem?_cons_succ] at hentry
      have hne : first.id ≠ entry.id := fun heq =>
        hids.1 (heq ▸ mem_map_of_mem (mem_of_getElem? hentry))
      rw [dropWhile_cons, if_pos (decide_eq_true hne), drop_succ_cons]
      exact ih hids.2 hentry

end Proofs

/-! ### What a compaction covers -/

section Covered

variable {input : CompactionInput} {appended : SessionEntry} {preparation : CompactionPreparation}

theorem historyEnd_le (input : CompactionInput) : input.boundaryStart ≤ input.historyEnd ∧
      input.historyEnd ≤ input.cutPoint.firstKeptEntryIndex := by
  have hstart : input.boundaryStart ≤ input.cutPoint.firstKeptEntryIndex := (findCutPoint_mem ..).1
  rw [CompactionInput.historyEnd]
  split
  · next hsplit =>
    obtain ⟨t, ht, hle, hcut, -⟩ := findCutPoint_turn _ _ _ _ _ hsplit
    have hgetD : input.cutPoint.turnStartIndex.getD 0 = t := by
      rw [CompactionInput.cutPoint, ht]
      rfl
    rw [hgetD]
    exact ⟨hle, hcut⟩
  · exact ⟨hstart, le_rfl⟩

theorem summarized_append_turnPrefix (input : CompactionInput) :
    input.summarized ++ input.turnPrefix =
      segment input.pathEntries input.boundaryStart input.cutPoint.firstKeptEntryIndex := by
  obtain ⟨hstart, hcut⟩ := historyEnd_le input
  rw [CompactionInput.summarized, CompactionInput.turnPrefix]
  split
  · next hsplit =>
    have hend : input.historyEnd = input.cutPoint.turnStartIndex.getD 0 := by
      rw [CompactionInput.historyEnd, if_pos hsplit]
    rw [← hend]
    exact segment_append_segment hstart hcut
  next hsplit =>
  rw [CompactionInput.historyEnd, if_neg hsplit, append_nil]

theorem covered_eq (hids : (input.pathEntries.map (·.id)).Nodup)
    (hprepared : input.prepareCompaction = some preparation) (hrecords : Records appended preparation)
    (hfresh : appended.id ∉ input.pathEntries.map (·.id)) :
    input.covered appended = input.pathEntries.drop input.boundaryStart := by
  obtain ⟨compaction, hbody, hkept, hpayload⟩ := hrecords.body
  rw [CompactionInput.prepareCompaction] at hprepared
  split at hprepared
  · cases hprepared
  split at hprepared
  · cases hprepared
  next hentry =>
  dsimp only at hprepared
  split at hprepared
  · cases hprepared
  split at hprepared
  · cases hprepared
  cases hprepared
  obtain ⟨hstart, hcut⟩ := historyEnd_le input
  rw [CompactionInput.covered, emittedEntries_concat hbody hfresh hpayload, hkept,
    dropWhile_id_ne hids hentry, summarized_append_turnPrefix,
    segment_append_drop _ (hstart.trans hcut)]

/-- An entry behind a marker or a readable compaction, and from the boundary on. -/
theorem mem_after_of_mem_drop {before after : List SessionEntry} {boundary entry : SessionEntry}
    (hpath : input.pathEntries = before ++ boundary :: after)
    (hboundary : IsBoundary input.readable boundary)
    (hentry : entry ∈ input.pathEntries.drop input.boundaryStart) : entry ∈ after := by
  have hlt : before.length < input.boundaryStart := by
    refine lt_boundaryStart ?_ hboundary
    rw [hpath, getElem?_append_right le_rfl, Nat.sub_self, getElem?_cons_zero]
  obtain ⟨k, hk⟩ := Nat.exists_eq_add_of_lt hlt
  rw [hk, hpath, drop_append] at hentry
  have hnil : before.drop (before.length + k + 1) = [] := drop_of_length_le (by omega)
  have hsub : before.length + k + 1 - before.length = k + 1 := by omega
  rw [hnil, nil_append, hsub, drop_succ_cons] at hentry
  exact mem_of_mem_drop hentry

theorem sublist_drop_of_mem {α : Type} {l xs : List α} {n : ℕ} (h : l.Sublist xs) (hnodup : xs.Nodup)
    (hmem : ∀ a ∈ l, a ∈ xs.drop n) : l.Sublist (xs.drop n) := by
  have hall : l.Sublist (xs.take n ++ xs.drop n) := by rwa [take_append_drop]
  obtain ⟨l₁, l₂, rfl, h₁, h₂⟩ := sublist_append_iff.mp hall
  have hdisjoint := disjoint_take_drop hnodup (le_refl n)
  have hnil : l₁ = [] := by
    refine eq_nil_iff_forall_not_mem.mpr fun a ha => ?_
    exact hdisjoint (h₁.subset ha) (hmem a (mem_append_left _ ha))
  rw [hnil]
  exact h₂

/-- A compaction loses nothing exactly where no live message lies before its boundary. -/
theorem losesNothing_iff (input : CompactionInput) (appended : SessionEntry)
    (preparation : CompactionPreparation) (hids : (input.pathEntries.map (·.id)).Nodup)
    (hprepared : input.prepareCompaction = some preparation) (hrecords : Records appended preparation)
    (hfresh : appended.id ∉ input.pathEntries.map (·.id)) :
    LosesNothing input appended ↔ TailCovered input := by
  have hcovered := covered_eq hids hprepared hrecords hfresh
  have hnodup : input.pathEntries.Nodup := List.Nodup.of_map _ hids
  constructor
  · intro hloses before boundary after hpath hboundary entry hentry hlive
    have hmem := hloses.live.subset (mem_filter.mpr ⟨hentry, hlive⟩)
    rw [hcovered] at hmem
    exact mem_after_of_mem_drop hpath hboundary hmem
  intro htail
  refine ⟨?_, ?_, ?_, ?_⟩
  · rw [hcovered]
    refine sublist_drop_of_mem (filter_sublist.trans (emittedEntries_sublist _)) hnodup ?_
    intro entry hentry
    obtain ⟨hentry, hlive⟩ := mem_filter.mp hentry
    rcases boundaryStart_cases input.readable input.pathEntries with h | ⟨k, boundary, h, hk, hb⟩
    · rw [CompactionInput.boundaryStart, h]
      exact (emittedEntries_sublist _).subset hentry
    obtain ⟨hlt, rfl⟩ := List.getElem?_eq_some_iff.mp hk
    rw [CompactionInput.boundaryStart, h]
    refine htail (input.pathEntries.take k) _ _ ?_ hb entry hentry hlive
    rw [getElem_cons_drop, take_append_drop]
  · rw [hcovered]
    exact hnodup.sublist (drop_sublist _ _)
  · rw [hcovered]
    exact drop_sublist _ _
  intro before boundary after hpath hboundary entry hentry
  rw [hcovered] at hentry
  exact mem_after_of_mem_drop hpath hboundary hentry

end Covered

/-! ### The tail of an earlier compaction -/

section Examples

def userEntry (id text : String) : SessionEntry := noteEntry id (.message (.user text))

def assistantEntry (id text : String) : SessionEntry :=
  noteEntry id (.message (.assistant ⟨"p", "m", .stop, false, [.text text]⟩))

def compactionEntry (id firstKeptEntryId : String) : SessionEntry :=
  noteEntry id (.compaction ⟨"summary", none, firstKeptEntryId, 0, none, none, none, none, none, none⟩)

def sampleCompaction (pathEntries : List SessionEntry) : CompactionInput :=
  ⟨pathEntries, fun _ => true, fun _ => 1, 1, none⟩

/-- A session that has not been compacted. -/
def plainPath : List SessionEntry :=
  [userEntry "e1" "one", assistantEntry "e2" "two", userEntry "e3" "three", assistantEntry "e4" "four"]

/-- A session whose compaction has kept `e3`. -/
def compactedPath : List SessionEntry :=
  [userEntry "e1" "one", assistantEntry "e2" "two", userEntry "e3" "three", compactionEntry "e4" "e3",
    userEntry "e5" "five", assistantEntry "e6" "six"]

theorem losesNothing_plainPath :
    LosesNothing (sampleCompaction plainPath) (compactionEntry "e5" "e4") := by
  have hprep : (sampleCompaction plainPath).prepareCompaction.map (·.firstKeptEntryId) =
      some "e4" := by decide +kernel
  obtain ⟨preparation, hprepared, hkept⟩ := map_eq_some_iff.mp hprep
  refine (losesNothing_iff (sampleCompaction plainPath) (compactionEntry "e5" "e4") preparation
    (by decide) hprepared ⟨_, rfl, hkept.symm, rfl⟩ (by decide)).mpr ?_
  intro before boundary after hpath hboundary
  have hnone : ∀ e ∈ plainPath, ¬ (e.isResetBoundary = true ∨ isReadable (fun _ => true) e = true) := by
    decide
  have hmem : boundary ∈ plainPath := by
    rw [show plainPath = before ++ boundary :: after from hpath]
    simp
  exact absurd hboundary (hnone boundary hmem)

/-- The next compaction loses the message that the one before it has kept. -/
theorem not_losesNothing_compactedPath : ¬ ∀ (input : CompactionInput) (appended : SessionEntry)
    (preparation : CompactionPreparation), (input.pathEntries.map (·.id)).Nodup →
    input.prepareCompaction = some preparation → Records appended preparation →
      appended.id ∉ input.pathEntries.map (·.id) → LosesNothing input appended := by
  intro hall
  have hprep : (sampleCompaction compactedPath).prepareCompaction.map (·.firstKeptEntryId) =
      some "e6" := by decide +kernel
  obtain ⟨preparation, hprepared, hkept⟩ := map_eq_some_iff.mp hprep
  have hloses := hall (sampleCompaction compactedPath) (compactionEntry "e7" "e6") preparation
    (by decide) hprepared ⟨_, rfl, hkept.symm, rfl⟩ (by decide)
  have hlive : userEntry "e3" "three" ∈ (emittedEntries compactedPath).filter isLive := by
    decide +kernel
  have hnot : userEntry "e3" "three" ∉
      (sampleCompaction compactedPath).covered (compactionEntry "e7" "e6") := by
    decide +kernel
  exact hnot (hloses.live.subset hlive)

end Examples

end Compaction

end BreadboardTui
