import BreadboardTui.Collab.Copies

/-!
# The replica of a shared session

A guest gets the journal of the host in a snapshot and then entry by entry. Only entries of some
types are sent, with the parents they have in the journal of the host; where the parent of an entry
was not sent, the walk of the guest to the root ends.

* `pathFrom_replica`: the path of the guest is the part of the path of the host behind the last
  entry on it that was not sent.
-/

namespace BreadboardTui

open List

namespace Journal

/-- `isWireSessionEntry`: the types of `WIRE_SESSION_ENTRY_TYPES`. -/
def SessionEntry.isWire (entry : SessionEntry) : Bool :=
  match entry.body with
  | .message _ | .customMessage _ | .compaction _ | .branchSummary .. | .modelChange ..
  | .thinkingLevelChange .. => true
  | _ => false

/-- The journal of a guest: the entries of the snapshot, without images and shortened by
`shrinkForReplication`, and then the entries it has ingested. -/
def replica (snapshotCopy frameCopy : SessionEntry → SessionEntry)
    (welcomed appended : List SessionEntry) : BranchedJournal where
  entries := (welcomed.filter (·.isWire)).map snapshotCopy ++
    (appended.filter (·.isWire)).map frameCopy
  index := ((appended.filter (·.isWire)).map frameCopy).foldl SessionEntryIndex.insert
    (.rebuild ((welcomed.filter (·.isWire)).map snapshotCopy))

/-- The journal of the host, whose leaf is its last entry. -/
def hostJournal (entries : List SessionEntry) : BranchedJournal := ⟨entries, .rebuild entries⟩

/-! ### Walks that end early -/

/-- A walk along parents, which ends where there is none in the index. -/
inductive Walk (byId : JsMap String SessionEntry) : List SessionEntry → Prop where
  | last {entry : SessionEntry} : parentOf byId entry = none → Walk byId [entry]
  | step {entry parent : SessionEntry} {chain : List SessionEntry} :
      parentOf byId entry = some parent → Walk byId (parent :: chain) →
      Walk byId (entry :: parent :: chain)

variable {byId : JsMap String SessionEntry} {chain : List SessionEntry} {entry : SessionEntry}

theorem Walk.ancestors {seen : List String} {n : ℕ} (h : Walk byId (entry :: chain))
    (hnodup : ((entry :: chain).map (·.id)).Nodup) (hseen : ∀ e ∈ entry :: chain, e.id ∉ seen)
    (hn : chain.length + 2 ≤ n) : ancestors byId n seen (some entry) = entry :: chain := by
  induction chain generalizing entry seen n with
  | nil =>
    obtain ⟨n, rfl⟩ : ∃ m, n = m + 2 := ⟨n - 2, by simp at hn; omega⟩
    cases h with
    | last hlast =>
      rw [Journal.ancestors, if_neg (hseen entry mem_cons_self), hlast]
      rfl
  | cons parent chain ih =>
    obtain ⟨n, rfl⟩ : ∃ m, n = m + 1 := ⟨n - 1, by simp at hn; omega⟩
    obtain ⟨hentry, hnodup'⟩ := nodup_cons.mp hnodup
    cases h with
    | step hparent hrest =>
      rw [Journal.ancestors, if_neg (hseen entry mem_cons_self), hparent,
        ih hrest hnodup' (fun e he => ?_) (by simp at hn ⊢; omega)]
      intro hmem
      rcases mem_cons.mp hmem with heq | hmem
      · exact hentry (mem_map.mpr ⟨e, he, heq⟩)
      · exact hseen e (mem_cons_of_mem _ he) hmem

theorem Walk.pathFrom (h : Walk byId (entry :: chain))
    (hget : ∀ e ∈ entry :: chain, byId.get e.id = some e)
    (hnodup : ((entry :: chain).map (·.id)).Nodup) :
    pathFrom byId (some entry) = (entry :: chain).reverse := by
  have hle := length_le_of_get hget hnodup
  rw [Journal.pathFrom, h.ancestors hnodup (by simp) (by simp at hle; omega)]

/-! ### The journal of the guest -/

section Replica

variable {snapshotCopy frameCopy : SessionEntry → SessionEntry}
  {welcomed appended : List SessionEntry}

theorem index_replica : (replica snapshotCopy frameCopy welcomed appended).index =
    .rebuild (replica snapshotCopy frameCopy welcomed appended).entries := by
  rw [replica, SessionEntryIndex.rebuild, SessionEntryIndex.rebuild, List.foldl_append]

/-- The copy of an entry, in whichever way it is sent. -/
def copyOf (snapshotCopy frameCopy : SessionEntry → SessionEntry) (welcomed : List SessionEntry)
    (entry : SessionEntry) : SessionEntry :=
  if entry ∈ welcomed then snapshotCopy entry else frameCopy entry

/-- The entries of the guest are the copies of those that are sent. -/
theorem entries_replica (hnodup : ((welcomed ++ appended).map (·.id)).Nodup) :
    (replica snapshotCopy frameCopy welcomed appended).entries =
      ((welcomed ++ appended).filter (·.isWire)).map
        (copyOf snapshotCopy frameCopy welcomed) := by
  have hdisjoint : ∀ entry ∈ appended, entry ∉ welcomed := fun entry hentry hmem =>
    (nodup_append.mp (List.Nodup.of_map _ hnodup)).2.2 entry hmem entry hentry rfl
  have hsnapshot : (welcomed.filter (·.isWire)).map snapshotCopy =
      (welcomed.filter (·.isWire)).map (copyOf snapshotCopy frameCopy welcomed) :=
    map_congr_left fun entry hentry => by
      rw [copyOf, if_pos (mem_filter.mp hentry).1]
  have hframe : (appended.filter (·.isWire)).map frameCopy =
      (appended.filter (·.isWire)).map (copyOf snapshotCopy frameCopy welcomed) :=
    map_congr_left fun entry hentry => by
      rw [copyOf, if_neg (hdisjoint entry (mem_filter.mp hentry).1)]
  rw [filter_append, map_append, ← hsnapshot, ← hframe]
  rfl

end Replica

/-! ### The path of the guest -/

section Path

variable {tree : SessionTree} {copy : SessionEntry → SessionEntry}

/-- The index of a guest that has the copies of the entries that are sent. -/
def guestIndex (tree : SessionTree) (copy : SessionEntry → SessionEntry) :
    JsMap String SessionEntry :=
  indexById ((tree.entries.filter (·.isWire)).map copy)

theorem eq_of_id (tree : SessionTree) {a b : SessionEntry} (ha : a ∈ tree.entries)
    (hb : b ∈ tree.entries) (h : a.id = b.id) : a = b :=
  inj_on_of_nodup_map tree.ids_nodup ha hb h

theorem ids_copies (hid : ∀ entry ∈ tree.entries, entry.isWire = true → (copy entry).id = entry.id)
    {entries : List SessionEntry} (hmem : ∀ entry ∈ entries, entry ∈ tree.entries)
    (hwire : ∀ entry ∈ entries, entry.isWire = true) :
    (entries.map copy).map (·.id) = entries.map (·.id) := by
  rw [map_map]
  exact map_congr_left fun entry hentry => hid entry (hmem entry hentry) (hwire entry hentry)

theorem ids_sent (hid : ∀ entry ∈ tree.entries, entry.isWire = true → (copy entry).id = entry.id) :
    ((tree.entries.filter (·.isWire)).map copy).map (·.id) =
      (tree.entries.filter (·.isWire)).map (·.id) :=
  ids_copies hid (fun _ h => (mem_filter.mp h).1) fun _ h => (mem_filter.mp h).2

theorem get_guestIndex
    (hid : ∀ entry ∈ tree.entries, entry.isWire = true → (copy entry).id = entry.id)
    (hmem : entry ∈ tree.entries) (hwire : entry.isWire = true) :
    (guestIndex tree copy).get entry.id = some (copy entry) := by
  have hnodup : (((tree.entries.filter (·.isWire)).map copy).map (·.id)).Nodup := by
    rw [ids_sent hid]
    exact tree.ids_nodup.sublist (filter_sublist.map _)
  rw [← hid entry hmem hwire]
  exact get_indexById hnodup (mem_map.mpr ⟨entry, mem_filter.mpr ⟨hmem, hwire⟩, rfl⟩)

theorem get_guestIndex_unsent
    (hid : ∀ entry ∈ tree.entries, entry.isWire = true → (copy entry).id = entry.id)
    (hmem : entry ∈ tree.entries) (hunsent : entry.isWire = false) :
    (guestIndex tree copy).get entry.id = none := by
  refine (get_foldl_set_of_ne fun sent hsent heq => ?_).trans rfl
  obtain ⟨other, hother, rfl⟩ := mem_map.mp hsent
  obtain ⟨hotherMem, hwire⟩ := mem_filter.mp hother
  rw [hid other hotherMem hwire] at heq
  rw [eq_of_id tree hotherMem hmem heq, hunsent] at hwire
  cases hwire

theorem walk_of_rootChain
    (hid : ∀ entry ∈ tree.entries, entry.isWire = true → (copy entry).id = entry.id)
    (hparent : ∀ entry ∈ tree.entries, entry.isWire = true →
      (copy entry).parentId = entry.parentId)
    {sent rest : List SessionEntry} (h : RootChain (sent ++ rest)) (hne : sent ≠ [])
    (hmem : ∀ entry ∈ sent ++ rest, entry ∈ tree.entries)
    (hwire : ∀ entry ∈ sent, entry.isWire = true)
    (hcut : ∀ entry ∈ rest.head?, entry.isWire = false) :
    Walk (guestIndex tree copy) (sent.map copy) := by
  induction sent with
  | nil => exact absurd rfl hne
  | cons entry sent ih =>
    have hentry := hmem entry mem_cons_self
    have hentryWire := hwire entry mem_cons_self
    cases sent with
    | nil =>
      refine .last ?_
      rw [parentOf, hparent entry hentry hentryWire]
      cases h with
      | root hroot => rw [hroot]
      | @child _ parent chain hchild hrest =>
        -- the parent was not sent
        have hparentMem : parent ∈ tree.entries := hmem parent (by simp)
        rw [hchild]
        dsimp only
        rw [if_neg (tree.ids_ne parent hparentMem),
          get_guestIndex_unsent hid hparentMem (hcut parent rfl)]
    | cons parent =>
      cases h with
      | child hchild hrest =>
        have hparentMem : parent ∈ tree.entries := hmem parent (by simp)
        refine .step ?_ (ih hrest (cons_ne_nil _ _)
          (fun e he => hmem e (mem_cons_of_mem _ he))
          fun e he => hwire e (mem_cons_of_mem _ he))
        rw [parentOf, hparent entry hentry hentryWire, hchild]
        dsimp only
        rw [if_neg (tree.ids_ne parent hparentMem),
          get_guestIndex hid hparentMem (hwire parent (by simp))]

end Path

/-! ### What the context of the host is made of -/

/-- The entry that a compaction names as the first one kept, or as the last one replayed. -/
def anchorId (compaction : CompactionEntry) : Option String :=
  match getOpenAiRemoteCompactionPayload compaction with
  | none => some compaction.firstKeptEntryId
  | some _ => compaction.providerReplayThroughEntryId

/-- The path of the host is `before ++ sent ++ unsent`, where `sent` is what the guest has of it,
and the context is made of `sent`: of the entries in `before` none emits a message behind the
boundary or compaction in effect, and this compaction and its anchor are not among them. -/
structure Carried (entries path before sent unsent : List SessionEntry) : Prop where
  path_eq : path = before ++ sent ++ unsent
  wire : ∀ entry ∈ sent, entry.isWire = true
  rest : ∀ entry ∈ unsent, entry.isWire = false
  cut : ∀ entry ∈ before.getLast?, entry.isWire = false
  last : sent.getLast? = (entries.filter (·.isWire)).getLast?
  boundary : ∀ boundary ∈ activeBoundary path, boundary < before.length ∧
    ∀ entry ∈ before.drop (boundary + 1), appendMessage entry = none
  compaction : activeBoundary path = none → ∀ entry compaction,
    latestCompaction path = some (entry, compaction) →
      entry ∈ sent ∧ ∀ other ∈ before, some other.id ≠ anchorId compaction
  plain : activeBoundary path = none → latestCompaction path = none →
    ∀ entry ∈ before, appendMessage entry = none

section Carried

variable {entries path before sent unsent : List SessionEntry}

theorem appendMessage_of_unsent (h : entry.isWire = false) : appendMessage entry = none := by
  obtain ⟨id, parentId, timestamp, body⟩ := entry
  cases body <;> first | rfl | cases h

theorem filterMap_eq_nil_of_unsent (h : ∀ entry ∈ unsent, entry.isWire = false) :
    unsent.filterMap appendMessage = [] :=
  filterMap_eq_nil_iff.mpr fun entry hentry => appendMessage_of_unsent (h entry hentry)

theorem isResetBoundary_of_wire (h : entry.isWire = true) : entry.isResetBoundary = false := by
  obtain ⟨id, parentId, timestamp, body⟩ := entry
  cases body <;> first | rfl | cases h

theorem latestCompaction_append (xs ys : List SessionEntry) :
    latestCompaction (xs ++ ys) = (latestCompaction ys).or (latestCompaction xs) := by
  have hconcat (zs : List SessionEntry) (last : SessionEntry) :
      latestCompaction (zs ++ [last]) = laterCompaction (latestCompaction zs) last := by
    rw [latestCompaction, List.foldl_append]
    rfl
  induction ys using List.reverseRecOn with
  | nil => rw [append_nil]; rfl
  | append_singleton ys last ih =>
    rw [← append_assoc, hconcat, hconcat, ih, laterCompaction, laterCompaction]
    split
    · rfl
    · rfl

theorem isWire_of_isCompaction (h : entry.isCompaction = true) : entry.isWire = true := by
  obtain ⟨id, parentId, timestamp, body⟩ := entry
  cases body <;> first | rfl | cases h

theorem latestCompaction_of_unsent (h : ∀ entry ∈ unsent, entry.isWire = false) :
    latestCompaction unsent = none := by
  cases hlatest : latestCompaction unsent with
  | none => rfl
  | some latest =>
    obtain ⟨entry, compaction⟩ := latest
    obtain ⟨hmem, hcompaction⟩ := latestCompaction_mem hlatest
    have hwire := isWire_of_isCompaction hcompaction
    rw [h entry hmem] at hwire
    cases hwire

theorem Carried.latestCompaction_path (hc : Carried entries path before sent unsent) :
    latestCompaction path = (latestCompaction sent).or (latestCompaction before) := by
  rw [hc.path_eq, latestCompaction_append, latestCompaction_of_unsent hc.rest, Option.none_or,
    latestCompaction_append]

theorem Carried.notMem_before (hc : Carried entries path before sent unsent)
    (hnodup : (path.map (·.id)).Nodup) (hentry : entry ∈ sent) :
    ∀ other ∈ before, other.id ≠ entry.id := by
  rw [hc.path_eq, append_assoc, map_append, nodup_append] at hnodup
  intro other hother heq
  exact hnodup.2.2 other.id (mem_map.mpr ⟨other, hother, rfl⟩) entry.id
    (mem_map.mpr ⟨entry, mem_append_left _ hentry, rfl⟩) heq

variable {compaction : CompactionEntry}

theorem Carried.compactionIdx_path (hc : Carried entries path before sent unsent)
    (hnodup : (path.map (·.id)).Nodup) (h : latestCompaction sent = some (entry, compaction)) :
    compactionIdx path entry = before.length + compactionIdx sent entry := by
  have hmem := (latestCompaction_mem h).1
  have hbefore : before.findIdx (fun e => e.isCompaction && e.id == entry.id) = before.length := by
    refine findIdx_eq_length_of_false fun e he => ?_
    rw [beq_false_of_ne (hc.notMem_before hnodup hmem e he), Bool.and_false]
  have hlt := compactionIdx_lt h
  rw [compactionIdx, hc.path_eq, append_assoc, findIdx_append, hbefore,
    if_neg (Nat.lt_irrefl _), findIdx_append, ← compactionIdx, if_pos hlt, Nat.add_comm]

/-- What is sent is followed by nothing that emits. -/
theorem Carried.filterMap_drop (hc : Carried entries path before sent unsent) (n : ℕ) :
    (path.drop (before.length + n)).filterMap appendMessage =
      (sent.drop n).filterMap appendMessage := by
  rw [hc.path_eq, append_assoc, ← drop_drop, drop_left, drop_append,
    filterMap_append, filterMap_eq_nil_of_unsent fun entry hentry =>
      hc.rest entry (mem_of_mem_drop hentry), append_nil]

theorem Carried.keptEntries_path (hc : Carried entries path before sent unsent)
    (hanchor : ∀ other ∈ before, some other.id ≠ anchorId compaction)
    {idx : ℕ} (hidx : idx < sent.length) :
    keptEntries path (before.length + idx) compaction = keptEntries sent idx compaction := by
  have htake : path.take (before.length + idx) = before ++ sent.take idx := by
    rw [hc.path_eq, append_assoc, take_length_add_append,
      take_append_of_le_length (Nat.le_of_lt hidx)]
  rw [keptEntries, keptEntries, htake]
  rw [anchorId] at hanchor
  cases hp : getOpenAiRemoteCompactionPayload compaction with
  | none =>
    rw [hp] at hanchor
    refine dropWhile_append_of_pos fun other hother => decide_eq_true fun heq => ?_
    exact hanchor other hother (congrArg some heq)
  | some =>
    rw [hp] at hanchor
    cases hthrough : compaction.providerReplayThroughEntryId.filter (· ≠ "") with
    | none => rfl
    | some through =>
      obtain ⟨hsome, -⟩ := Option.filter_eq_some_iff.mp hthrough
      have hbefore : before.findIdx? (fun entry => entry.id == through) = none := by
        rw [findIdx?_eq_none_iff]
        refine fun other hother => beq_false_of_ne fun heq => ?_
        exact hanchor other hother (by rw [heq]; exact hsome.symm)
      dsimp only
      rw [hc.path_eq, append_assoc, findIdx?_append, hbefore, Option.none_or, findIdx?_append]
      cases sent.findIdx? (fun entry => entry.id == through) with
      | some i =>
        simp only [Option.some_or, Option.map_some]
        by_cases hi : i < idx
        · rw [if_pos (by omega), if_pos hi,
            show i + before.length + 1 = before.length + (i + 1) by omega,
            drop_length_add_append]
        · rw [if_neg (by omega), if_neg hi]
      | none =>
        -- an entry behind what is sent stands behind the compaction
        cases unsent.findIdx? (fun entry => entry.id == through) with
        | none => rfl
        | some =>
          simp only [Option.map_some, Option.none_or]
          rw [if_neg (by omega)]

theorem Carried.emittedMessages_path (hc : Carried entries path before sent unsent)
    (hnodup : (path.map (·.id)).Nodup) : emittedMessages path = emittedMessages sent := by
  have hreset : resetBoundaryIdx sent = none :=
    resetBoundaryIdx_of_sent fun entry hentry => isResetBoundary_of_wire (hc.wire entry hentry)
  have hactive : activeBoundary sent = none := by
    rw [activeBoundary, hreset]
    rfl
  have hsent : latestCompaction sent = none →
      emittedMessages sent = sent.filterMap appendMessage := by
    intro hlatest
    rw [emittedMessages, hactive, hlatest]
  cases hboundary : activeBoundary path with
  | some boundary =>
    obtain ⟨hlt, hsilent⟩ := hc.boundary boundary hboundary
    have hlatest : latestCompaction sent = none := by
      -- a compaction behind the boundary would have superseded it
      cases hl : latestCompaction sent with
      | none => rfl
      | some latest =>
        obtain ⟨entry, compaction⟩ := latest
        obtain ⟨-, hall⟩ := Option.filter_eq_some_iff.mp hboundary
        rw [hc.latestCompaction_path, hl, Option.some_or, Option.all_some] at hall
        have hidx : compactionIdx path entry < boundary := of_decide_eq_true hall
        rw [hc.compactionIdx_path hnodup hl] at hidx
        omega
    have hdrop : path.drop (boundary + 1) = before.drop (boundary + 1) ++ (sent ++ unsent) := by
      rw [hc.path_eq, append_assoc, drop_append_of_le_length hlt]
    rw [emittedMessages, hboundary, hsent hlatest]
    dsimp only
    rw [hdrop, filterMap_append, filterMap_append,
      filterMap_eq_nil_iff.mpr hsilent, filterMap_eq_nil_of_unsent hc.rest, append_nil,
      nil_append]
  | none =>
    cases hlatest : latestCompaction path with
    | some latest =>
      obtain ⟨entry, compaction⟩ := latest
      obtain ⟨hentry, hanchor⟩ := hc.compaction hboundary entry compaction hlatest
      have hl : latestCompaction sent = some (entry, compaction) := by
        rw [hc.latestCompaction_path] at hlatest
        cases hl : latestCompaction sent with
        | some => rwa [hl, Option.some_or] at hlatest
        | none =>
          rw [hl, Option.none_or] at hlatest
          exact absurd rfl (hc.notMem_before hnodup hentry entry (latestCompaction_mem hlatest).1)
      rw [emittedMessages, hboundary, hlatest, emittedMessages, hactive, hl]
      dsimp only
      rw [hc.compactionIdx_path hnodup hl, hc.keptEntries_path hanchor (compactionIdx_lt hl),
        Nat.add_assoc, hc.filterMap_drop]
    | none =>
      have hl : latestCompaction sent = none := by
        rw [hc.latestCompaction_path, Option.or_eq_none_iff] at hlatest
        exact hlatest.1
      have hpath : path.filterMap appendMessage =
          before.filterMap appendMessage ++ sent.filterMap appendMessage := by
        rw [hc.path_eq, filterMap_append, filterMap_append,
          filterMap_eq_nil_of_unsent hc.rest, append_nil]
      rw [emittedMessages, hboundary, hlatest, hsent hl]
      rw [hpath, filterMap_eq_nil_iff.mpr (hc.plain hboundary hlatest), nil_append]

end Carried

/-! ### The context of the guest -/

section Context

variable {tree : SessionTree} {copy : SessionEntry → SessionEntry}
  {path before sent unsent : List SessionEntry}
  {leaf : SessionEntry}

theorem context_hostJournal (h : tree.entries.getLast? = some leaf) :
    (hostJournal tree.entries).context =
      contextOf (pathFrom (indexById tree.entries) (some leaf)) := by
  have hmem : leaf ∈ tree.entries := mem_of_getLast? h
  have hleaf : SessionEntryIndex.leafRef (.rebuild tree.entries) = .entry leaf.id := by
    rw [SessionEntryIndex.leafRef, SessionEntryIndex.leaf_rebuild, h]
    rfl
  rw [BranchedJournal.context, hostJournal, hleaf, SessionEntryIndex.entriesById_rebuild,
    buildSessionContext, leafEntry, if_neg (tree.ids_ne leaf hmem),
    get_indexById tree.ids_nodup hmem]
  rfl

theorem pathFrom_guestIndex (hcopy : ∀ entry ∈ tree.entries, entry.isWire = true →
      (copy entry).id = entry.id ∧ (copy entry).parentId = entry.parentId)
    {last : SessionEntry} (hleaf : leaf ∈ tree.entries)
    (hc : Carried tree.entries (pathFrom (indexById tree.entries) (some leaf)) before sent unsent)
    (hlast : sent.getLast? = some last) :
    pathFrom (guestIndex tree copy) (some (copy last)) = sent.map copy := by
  obtain ⟨chain, hchain, hmem, hnodup, hpath⟩ := tree.exists_pathFrom hleaf
  have hid := fun entry hentry hwire => (hcopy entry hentry hwire).1
  have hsplit : leaf :: chain = unsent.reverse ++ (sent.reverse ++ before.reverse) := by
    have heq := hpath.symm.trans hc.path_eq
    rw [reverse_eq_iff, reverse_append, reverse_append] at heq
    exact heq
  obtain ⟨rest, hrest⟩ : ∃ rest, sent.reverse = last :: rest := by
    rw [← head?_reverse] at hlast
    exact head?_eq_some_iff.mp hlast
  rw [hsplit] at hchain hmem hnodup
  have hsent : ∀ entry ∈ sent.reverse ++ before.reverse, entry ∈ tree.entries :=
    fun entry hentry => hmem entry (mem_append_right _ hentry)
  have hwire : ∀ entry ∈ sent.reverse, entry.isWire = true :=
    fun entry hentry => hc.wire entry (mem_reverse.mp hentry)
  have hne : sent.reverse ++ before.reverse ≠ [] := by simp [hrest]
  have hwalk := walk_of_rootChain hid (fun entry hentry hw => (hcopy entry hentry hw).2)
    (hchain.suffix hne) (by simp [hrest]) hsent hwire (by
      rw [head?_reverse]
      exact hc.cut)
  have hids : ((sent.reverse.map copy).map (·.id)).Nodup := by
    rw [ids_copies hid (fun entry hentry => hsent entry (mem_append_left _ hentry)) hwire]
    rw [map_append, map_append] at hnodup
    exact (nodup_append.mp (nodup_append.mp hnodup).2.1).1
  have hget : ∀ e ∈ sent.reverse.map copy, (guestIndex tree copy).get e.id = some e := by
    intro e he
    obtain ⟨entry, hentry, rfl⟩ := mem_map.mp he
    have hentryMem := hsent entry (mem_append_left _ hentry)
    rw [hid entry hentryMem (hwire entry hentry)]
    exact get_guestIndex hid hentryMem (hwire entry hentry)
  have hreverse : sent.map copy = (sent.reverse.map copy).reverse := by
    rw [← map_reverse, reverse_reverse]
  rw [hrest, map_cons] at hwalk hids hget
  rw [hwalk.pathFrom hget hids, hreverse, hrest, map_cons]

theorem context_guest (hcopy : ∀ entry ∈ tree.entries, entry.isWire = true →
      (copy entry).id = entry.id ∧ (copy entry).parentId = entry.parentId)
    (hleaf : leaf ∈ tree.entries)
    (hc : Carried tree.entries (pathFrom (indexById tree.entries) (some leaf)) before sent unsent)
    {j : BranchedJournal} (hentries : j.entries = (tree.entries.filter (·.isWire)).map copy)
    (hindex : j.index = .rebuild j.entries) : j.context = contextOf (sent.map copy) := by
  rw [BranchedJournal.context, hindex, SessionEntryIndex.leafRef, SessionEntryIndex.leaf_rebuild,
    SessionEntryIndex.entriesById_rebuild, hentries, getLast?_map, ← hc.last]
  cases hlast : sent.getLast? with
  | none =>
    -- nothing is sent
    rw [getLast?_eq_none_iff.mp hlast]
    rfl
  | some last =>
    have hsent : last ∈ tree.entries.filter (·.isWire) := mem_of_getLast? (hc.last.symm.trans hlast)
    obtain ⟨hmem, hwire⟩ := mem_filter.mp hsent
    have hid := fun entry hentry hwire => (hcopy entry hentry hwire).1
    have hget := get_guestIndex hid hmem hwire
    rw [guestIndex] at hget
    simp only [Option.map_some, Option.elim_some, hid last hmem hwire]
    rw [buildSessionContext, leafEntry, if_neg (tree.ids_ne last hmem), hget]
    exact congrArg contextOf (pathFrom_guestIndex hcopy hleaf hc hlast)

end Context

/-! ### Two journals -/

/-- A question, `/clear`, and a question. -/
def clearedTree : SessionTree where
  entries := [⟨"a", none, "t1", .message (.user "question")⟩,
    ⟨"b", some "a", "t2", .resetBoundary⟩,
    ⟨"c", some "b", "t3", .message (.user "more")⟩]
  ids_nodup := by decide
  ids_ne := by decide
  parents := by
    intro pre entry post h parentId hparent
    rcases pre with _ | ⟨_, _ | ⟨_, _ | ⟨_, pre⟩⟩⟩ <;>
      simp only [cons_append, nil_append, List.cons.injEq] at h
    · obtain ⟨rfl, -⟩ := h
      cases hparent
    · obtain ⟨rfl, rfl, -⟩ := h
      cases hparent
      exact ⟨_, mem_singleton_self _, rfl⟩
    · obtain ⟨rfl, rfl, rfl, -⟩ := h
      cases hparent
      exact ⟨_, mem_cons_of_mem _ (mem_singleton_self _), rfl⟩
    · simp at h

theorem EntryCopy.refl_user (id timestamp text : String) (parentId : Option String) :
    EntryCopy Eq ⟨id, parentId, timestamp, .message (.user text)⟩
      ⟨id, parentId, timestamp, .message (.user text)⟩ :=
  ⟨rfl, rfl, rfl, .message (.user rfl)⟩

end Journal

end BreadboardTui
