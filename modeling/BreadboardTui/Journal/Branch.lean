import BreadboardTui.Journal.Index

/-!
# Branched sessions

`createBranchedSession` keeps the path to an entry as a new journal. Label entries are dropped from
the path and the labels in effect are written again behind it, but the entries that stay keep
their `parentId`.

`branchKeeps_iff` says when the new journal is the same conversation: exactly when no entry of the
path that is kept hangs below a label, that is, when the labels of the path stand at its end.
-/

namespace BreadboardTui

open List Option Bool

namespace Journal

/-- What `createBranchedSession` changes: the entries and their index. -/
structure BranchedJournal where
  entries : List SessionEntry
  index : SessionEntryIndex

/-- The loop over `labelsToCarry`: a label entry for each, chained behind `parentId`. -/
def carryLabels (generateId : List String → String) (timestamp : String) :
    List String → Option String → List (String × String) → List SessionEntry
  | _, _, [] => []
  | used, parentId, (targetId, label) :: labels =>
    let id := generateId used
    ⟨id, parentId, timestamp, .label targetId (some label)⟩ ::
      carryLabels generateId timestamp (used ++ [id]) (some id) labels

def entriesToKeep (path : List SessionEntry) : List SessionEntry := path.filter (!·.isLabel)

/-- `createBranchedSession`; `none` where it throws because the entry is not found. -/
def createBranchedSession (generateId : List String → String) (timestamp : String)
    (index : SessionEntryIndex) (leafId : String) : Option BranchedJournal :=
  let branchPath := index.pathTo leafId
  if branchPath = [] then none
  else
    let kept := entriesToKeep branchPath
    let keptIds := kept.map (·.id)
    let labelsToCarry := index.labels.filter (·.1 ∈ keptIds)
    let labels := carryLabels generateId timestamp keptIds (kept.getLast?.map (·.id)) labelsToCarry
    let entries := kept ++ labels
    some ⟨entries, .rebuild entries⟩

/-- The active leaf as `buildSessionContext` is given it. -/
def SessionEntryIndex.leafRef (index : SessionEntryIndex) : LeafRef :=
  index.leaf.elim .root .entry

/-- `SessionManager.buildSessionContext`. -/
def BranchedJournal.context (j : BranchedJournal) : SessionContext :=
  buildSessionContext j.entries j.index.leafRef j.index.entriesById

/-! ### The promise and the condition -/

/-- A branched journal keeps the conversation of a path. -/
structure BranchKeeps (tree : SessionTree) (leafId : String) (j : BranchedJournal) : Prop where
  context : j.context = buildSessionContext tree.entries (.entry leafId) (indexById tree.entries)
  /-- The parent of an entry is an entry of the new journal before it; only the root has none. -/
  resolves : ∀ pre entry post, j.entries = pre ++ entry :: post →
    match entry.parentId with
    | none => pre = []
    | some parentId => ∃ parent ∈ pre, parent.id = parentId
  labels : ∀ entry ∈ entriesToKeep ((SessionEntryIndex.rebuild tree.entries).pathTo leafId),
    j.index.labelFor entry.id = (SessionEntryIndex.rebuild tree.entries).labelFor entry.id

/-- The labels of a path stand at its end. -/
def LabelsLast (path : List SessionEntry) : Prop :=
  ∀ pre entry post, path = pre ++ entry :: post → entry.isLabel = true →
    ∀ later ∈ post, later.isLabel = true

/-! ### Labels do not show in a context -/

section Context

variable {path labels : List SessionEntry}

theorem appendMessage_of_isLabel {entry : SessionEntry} (h : entry.isLabel = true) :
    appendMessage entry = none ∧ ∀ settings, ContextSettings.apply settings entry = settings := by
  unfold SessionEntry.isLabel at h
  split at h
  · next hbody => exact ⟨by rw [appendMessage, hbody], fun s => by rw [ContextSettings.apply, hbody]⟩
  · cases h

theorem isLabel_disjoint {entry : SessionEntry} (h : entry.isLabel = true) :
    entry.isCompaction = false ∧ entry.isResetBoundary = false := by
  unfold SessionEntry.isLabel at h
  split at h
  · next hbody => exact ⟨by rw [SessionEntry.isCompaction, hbody],
      by rw [SessionEntry.isResetBoundary, hbody]⟩
  · cases h

theorem filterMap_labels (h : ∀ entry ∈ labels, entry.isLabel = true) :
    labels.filterMap appendMessage = [] :=
  filterMap_eq_nil_iff.mpr fun entry hentry => (appendMessage_of_isLabel (h entry hentry)).1

theorem foldl_apply_labels (h : ∀ entry ∈ labels, entry.isLabel = true)
    (settings : ContextSettings) : labels.foldl ContextSettings.apply settings = settings := by
  induction labels with
  | nil => rfl
  | cons entry labels ih =>
    rw [foldl_cons, (appendMessage_of_isLabel (h entry mem_cons_self)).2]
    exact ih fun e he => h e (mem_cons_of_mem _ he)

theorem latestCompaction_append_labels (h : ∀ entry ∈ labels, entry.isLabel = true) :
    latestCompaction (path ++ labels) = latestCompaction path := by
  rw [latestCompaction, List.foldl_append, ← latestCompaction]
  generalize latestCompaction path = latest
  induction labels with
  | nil => rfl
  | cons entry labels ih =>
    have hentry := h entry mem_cons_self
    unfold SessionEntry.isLabel at hentry
    split at hentry
    · next hbody =>
      rw [foldl_cons, hbody]
      exact ih fun e he => h e (mem_cons_of_mem _ he)
    · cases hentry

variable {compaction : CompactionEntry}

theorem latestCompaction_mem {entry : SessionEntry}
    (h : latestCompaction path = some (entry, compaction)) :
    entry ∈ path ∧ entry.isCompaction = true := by
  induction path using List.reverseRecOn with
  | nil => cases h
  | append_singleton path last ih =>
    rw [latestCompaction, List.foldl_append, ← latestCompaction] at h
    simp only [foldl_cons, foldl_nil] at h
    split at h
    · next hbody =>
      cases h
      exact ⟨by simp, by rw [SessionEntry.isCompaction, hbody]⟩
    · exact ⟨mem_append_left _ (ih h).1, (ih h).2⟩

theorem compactionIdx_lt {entry : SessionEntry}
    (h : latestCompaction path = some (entry, compaction)) :
    compactionIdx path entry < path.length := by
  obtain ⟨hmem, hcompaction⟩ := latestCompaction_mem h
  exact findIdx_lt_length_of_exists ⟨entry, hmem, by simp [hcompaction]⟩

theorem compactionIdx_append {entry : SessionEntry}
    (h : latestCompaction path = some (entry, compaction)) :
    compactionIdx (path ++ labels) entry = compactionIdx path entry := by
  have hlt := compactionIdx_lt h
  rw [compactionIdx, findIdx_append, ← compactionIdx, if_pos hlt]

theorem resetBoundaryIdx_append_labels (h : ∀ entry ∈ labels, entry.isLabel = true) :
    resetBoundaryIdx (path ++ labels) = resetBoundaryIdx path := by
  have hnone : labels.reverse.findIdx? (·.isResetBoundary) = none := by
    rw [findIdx?_eq_none_iff]
    exact fun entry hentry => (isLabel_disjoint (h entry (mem_reverse.mp hentry))).2
  rw [resetBoundaryIdx, reverse_append, findIdx?_append, hnone, none_or,
    Option.map_map, resetBoundaryIdx]
  refine Option.map_congr fun i _ => ?_
  simp only [Function.comp_apply, length_append, length_reverse]
  omega

theorem activeBoundary_append_labels (h : ∀ entry ∈ labels, entry.isLabel = true) :
    activeBoundary (path ++ labels) = activeBoundary path := by
  rw [activeBoundary, activeBoundary, resetBoundaryIdx_append_labels h,
    latestCompaction_append_labels h]
  cases hlatest : latestCompaction path with
  | none => rfl
  | some => simp [compactionIdx_append hlatest]

theorem keptEntries_append {idx : ℕ} (hidx : idx < path.length) :
    keptEntries (path ++ labels) idx compaction = keptEntries path idx compaction := by
  have htake : (path ++ labels).take idx = path.take idx :=
    take_append_of_le_length (Nat.le_of_lt hidx)
  rw [keptEntries, keptEntries, htake]
  cases getOpenAiRemoteCompactionPayload compaction with
  | none => rfl
  | some =>
    cases compaction.providerReplayThroughEntryId.filter (· ≠ "") with
    | none => rfl
    | some through =>
      simp only [findIdx?_append]
      cases hfound : path.findIdx? (fun entry => entry.id == through) with
      | some => rfl
      | none =>
        -- an entry among the labels stands behind the compaction
        cases labels.findIdx? (fun entry => entry.id == through) with
        | none => rfl
        | some =>
          simp only [map_some, none_or]
          rw [if_neg (by omega)]

theorem emittedMessages_append_labels (h : ∀ entry ∈ labels, entry.isLabel = true) :
    emittedMessages (path ++ labels) = emittedMessages path := by
  have hdrop : ∀ n, ((path ++ labels).drop n).filterMap appendMessage =
      (path.drop n).filterMap appendMessage := by
    intro n
    have hlabels : ∀ entry ∈ labels.drop (n - path.length), entry.isLabel = true :=
      fun entry hentry => h entry (mem_of_mem_drop hentry)
    rw [drop_append, filterMap_append, filterMap_labels hlabels, append_nil]
  rw [emittedMessages, emittedMessages, activeBoundary_append_labels h,
    latestCompaction_append_labels h]
  cases activeBoundary path with
  | some => exact hdrop _
  | none =>
    cases hlatest : latestCompaction path with
    | none => simpa using hdrop 0
    | some =>
      simp [compactionIdx_append hlatest, keptEntries_append (compactionIdx_lt hlatest), hdrop]

theorem contextOf_append_labels (h : ∀ entry ∈ labels, entry.isLabel = true) :
    contextOf (path ++ labels) = contextOf path := by
  rw [contextOf, contextOf, emittedMessages_append_labels h, List.foldl_append,
    foldl_apply_labels h]

end Context

/-! ### The labels that are written again -/

variable {entry : SessionEntry}

theorem isLabel_of_mem_carryLabels {generateId : List String → String} {timestamp : String}
    {labels : List (String × String)} {used : List String} {parentId : Option String}
    (h : entry ∈ carryLabels generateId timestamp used parentId labels) :
    entry.isLabel = true ∧ ∃ used', entry.id = generateId used' := by
  induction labels generalizing used parentId with
  | nil => cases h
  | cons label labels ih =>
    rcases mem_cons.mp h with rfl | h
    · exact ⟨rfl, used, rfl⟩
    · exact ih h

section Carry

variable {generateId : List String → String} {timestamp : String}
  {labels : List (String × String)}

variable {used : List String}

variable {parentId : Option String}

/-- The labels get ids that are not in use, all different. -/
theorem carryLabels_ids (hfresh : ∀ used, generateId used ∉ used) (hused : used.Nodup) :
    (used ++ (carryLabels generateId timestamp used parentId labels).map (·.id)).Nodup := by
  induction labels generalizing used parentId with
  | nil => simpa [carryLabels] using hused
  | cons label labels ih =>
    have hnext : (used ++ [generateId used]).Nodup := nodup_append.mpr ⟨hused, nodup_singleton _, by
        intro a ha b hb heq
        rw [mem_singleton.mp hb] at heq
        exact hfresh used (heq ▸ ha)⟩
    have h := @ih (used ++ [generateId used]) (some (generateId used)) hnext
    rwa [append_assoc] at h

/-- The labels continue a chain of parents. -/
theorem RootChain.carryLabels {chain : List SessionEntry} (h : RootChain (entry :: chain)) :
    RootChain ((carryLabels generateId timestamp used (some entry.id) labels).reverse ++
      entry :: chain) := by
  induction labels generalizing used entry chain with
  | nil => exact h
  | cons label labels ih =>
    obtain ⟨targetId, text⟩ := label
    have hchild : RootChain (⟨generateId used, some entry.id, timestamp,
        .label targetId (some text)⟩ :: entry :: chain) := .child rfl h
    rw [Journal.carryLabels, reverse_cons, append_assoc]
    exact ih hchild

theorem get_foldl_carryLabels {m : JsMap String String} (hkeys : JsMap.KeysNodup labels)
    (hne : ∀ entry ∈ labels, entry.2 ≠ "") (k : String) :
    ((Journal.carryLabels generateId timestamp used parentId labels).foldl
      SessionEntryIndex.applyLabel m).get k = (JsMap.get labels k <|> m.get k) := by
  induction labels generalizing used parentId m with
  | nil => rfl
  | cons first labels ih =>
    obtain ⟨hfirst, hkeys'⟩ := nodup_cons.mp hkeys
    obtain ⟨targetId, label⟩ := first
    have hlabel : label ≠ "" := hne _ mem_cons_self
    rw [Journal.carryLabels, foldl_cons, ih hkeys' fun e he => hne e (mem_cons_of_mem _ he),
      JsMap.get_cons]
    simp only [SessionEntryIndex.applyLabel, filter_some, hlabel, ne_eq, not_false_eq_true,
      decide_true, if_true]
    by_cases hk : k = targetId
    · subst hk
      have hnone : JsMap.get labels k = none := JsMap.get_eq_none_of_forall_ne fun e he heq =>
        hfirst (mem_map.mpr ⟨e, he, heq⟩)
      rw [hnone, if_pos rfl, JsMap.get_set_self]
      rfl
    · rw [if_neg hk, JsMap.get_set_of_ne hk]

end Carry

variable {m : JsMap String String} {entries : List SessionEntry}

theorem labels_foldl_ok (hm : m.KeysNodup ∧ ∀ entry ∈ m, entry.2 ≠ "") :
    (entries.foldl SessionEntryIndex.applyLabel m).KeysNodup ∧
      ∀ entry ∈ entries.foldl SessionEntryIndex.applyLabel m, entry.2 ≠ "" := by
  induction entries generalizing m with
  | nil => exact hm
  | cons entry entries ih =>
    refine ih ?_
    unfold SessionEntryIndex.applyLabel
    split
    · next label hbody =>
      cases hlabel : label.filter (· ≠ "") with
      | none => exact ⟨hm.1.delete, fun e he => hm.2 e (mem_of_mem_filter he)⟩
      | some =>
        refine ⟨hm.1.set, fun e he => ?_⟩
        rcases JsMap.mem_set he with rfl | he
        · exact of_decide_eq_true (Option.filter_eq_some_iff.mp hlabel).2
        · exact hm.2 e he
    · exact hm

theorem labels_rebuild_ok (entries : List SessionEntry) :
    (SessionEntryIndex.rebuild entries).labels.KeysNodup ∧
      ∀ entry ∈ (SessionEntryIndex.rebuild entries).labels, entry.2 ≠ "" := by
  rw [SessionEntryIndex.labels_rebuild]
  exact labels_foldl_ok ⟨nodup_nil, fun _ h => nomatch h⟩

theorem foldl_applyLabel_kept (h : ∀ entry ∈ entries, entry.isLabel = false) :
    entries.foldl SessionEntryIndex.applyLabel m = m := by
  induction entries with
  | nil => rfl
  | cons entry entries ih =>
    have hentry : SessionEntryIndex.applyLabel m entry = m := by
      have hno := h entry mem_cons_self
      unfold SessionEntry.isLabel at hno
      unfold SessionEntryIndex.applyLabel
      cases hbody : entry.body with
      | label =>
        rw [hbody] at hno
        cases hno
      | _ => rfl
    rw [foldl_cons, hentry]
    exact ih fun e he => h e (mem_cons_of_mem _ he)

/-! ### The new journal -/

theorem mem_entriesToKeep {path : List SessionEntry} :
    entry ∈ entriesToKeep path ↔ entry ∈ path ∧ entry.isLabel = false := by
  simp [entriesToKeep]

theorem LabelsLast.split {path : List SessionEntry} (h : LabelsLast path) :
    path = entriesToKeep path ++ path.filter (·.isLabel) := by
  induction path with
  | nil => rfl
  | cons entry path ih =>
    have hrest : LabelsLast path := fun pre e post heq =>
      h (entry :: pre) e post (by rw [heq, cons_append])
    rw [entriesToKeep, filter_cons, filter_cons]
    by_cases hlabel : entry.isLabel = true
    · have hall := h [] entry path rfl hlabel
      have hnone : path.filter (!·.isLabel) = [] :=
        filter_eq_nil_iff.mpr fun e he => by simp [hall e he]
      simp [hlabel, hnone, filter_eq_self.mpr hall]
    simp only [hlabel, Bool.not_false, if_true, Bool.false_eq_true, if_false, cons_append]
    exact congrArg (entry :: ·) (ih hrest)

theorem RootChain.resolves {chain : List SessionEntry} (h : RootChain chain)
    {pre post : List SessionEntry} (heq : chain.reverse = pre ++ entry :: post) :
    match entry.parentId with
    | none => pre = []
    | some parentId => ∃ parent ∈ pre, parent.id = parentId := by
  induction h generalizing post with
  | root hroot =>
    rw [reverse_singleton] at heq
    obtain ⟨rfl, rfl, -⟩ : pre = [] ∧ entry = _ ∧ post = [] := by
      cases pre with
      | nil => simpa [eq_comm] using heq
      | cons => simp at heq
    rw [hroot]
  | child hparent hrest ih =>
    rename_i leaf parent chain
    rcases eq_nil_or_concat post with rfl | ⟨init, last, rfl⟩
    · rw [reverse_cons] at heq
      obtain ⟨rfl, hlast⟩ := append_inj' heq rfl
      obtain rfl := (List.cons.inj hlast).1
      rw [hparent]
      exact ⟨parent, by simp, rfl⟩
    rw [reverse_cons, concat_eq_append, ← cons_append, ← append_assoc] at heq
    exact ih (append_inj' heq rfl).1

/-- Where a kept entry has a kept parent, the labels of the path stand at its end. -/
theorem RootChain.labelsLast {chain : List SessionEntry} (h : RootChain chain)
    (hstep : ∀ child ∈ chain, ∀ parent ∈ chain, child.parentId = some parent.id →
      child.isLabel = false → parent.isLabel = false) : LabelsLast chain.reverse := by
  induction h with
  | root =>
    intro pre entry post heq _ later hlater
    rw [reverse_singleton] at heq
    cases pre with
    | nil =>
      obtain ⟨-, rfl⟩ := List.cons.inj heq
      cases hlater
    | cons => simp at heq
  | child hparent hrest ih =>
    rename_i leaf parent chain
    have hlast := ih fun c hc p hp =>
      hstep c (mem_cons_of_mem _ hc) p (mem_cons_of_mem _ hp)
    intro pre entry post heq hlabel later hlater
    rcases eq_nil_or_concat post with rfl | ⟨init, last, rfl⟩
    · cases hlater
    rw [reverse_cons, concat_eq_append, ← cons_append, ← append_assoc] at heq
    obtain ⟨hinit, hleaf⟩ := append_inj' heq rfl
    obtain rfl := (List.cons.inj hleaf).1
    have hbefore := hlast pre entry init hinit hlabel
    rw [concat_eq_append, mem_append, mem_singleton] at hlater
    rcases hlater with hlater | rfl
    · exact hbefore later hlater
    -- the parent of the leaf is the last entry before it, and so a label itself
    by_contra hkept
    have hparentKept := hstep later mem_cons_self parent (by simp) hparent
      (eq_false_iff.mpr hkept)
    have hmem : parent = entry ∨ parent ∈ init := by
      rw [reverse_cons] at hinit
      rcases eq_nil_or_concat init with rfl | ⟨init', last', rfl⟩
      · obtain ⟨-, hentry⟩ := append_inj' hinit rfl
        exact .inl (List.cons.inj hentry).1
      rw [concat_eq_append, ← cons_append, ← append_assoc] at hinit
      obtain ⟨-, hentry⟩ := append_inj' hinit rfl
      exact .inr (by simp [(List.cons.inj hentry).1])
    rcases hmem with rfl | hmem
    · exact false_ne_true (hparentKept.symm.trans hlabel)
    · exact false_ne_true (hparentKept.symm.trans (hbefore parent hmem))

/-- The context of a journal that is one chain is the context of its entries. -/
theorem RootChain.context {chain : List SessionEntry} (h : RootChain chain)
    (hnodup : (chain.map (·.id)).Nodup) (hne : ∀ entry ∈ chain, entry.id ≠ "") :
    BranchedJournal.context ⟨chain.reverse, .rebuild chain.reverse⟩ = contextOf chain.reverse := by
  obtain ⟨leaf, rest, rfl⟩ : ∃ leaf rest, chain = leaf :: rest := by
    cases h <;> exact ⟨_, _, rfl⟩
  have hnodup' : ((leaf :: rest).reverse.map (·.id)).Nodup := by
    rwa [map_reverse, nodup_reverse]
  have hget : ∀ entry ∈ leaf :: rest,
      entry.id ≠ "" ∧ (indexById (leaf :: rest).reverse).get entry.id = some entry :=
    fun entry hentry => ⟨hne entry hentry, get_indexById hnodup' (mem_reverse.mpr hentry)⟩
  have hleaf : SessionEntryIndex.leafRef (.rebuild (leaf :: rest).reverse) = .entry leaf.id := by
    simp [SessionEntryIndex.leafRef, SessionEntryIndex.leaf_rebuild]
  obtain ⟨hleafNe, hleafGet⟩ := hget leaf mem_cons_self
  rw [BranchedJournal.context, hleaf, SessionEntryIndex.entriesById_rebuild, buildSessionContext,
    leafEntry, if_neg hleafNe, hleafGet]
  exact congrArg contextOf (h.pathFrom hget hnodup)

section Branch

variable {generateId : List String → String} {timestamp : String} {path : List SessionEntry}
  {index : SessionEntryIndex}

/-- The label entries that `createBranchedSession` writes behind the kept ones. -/
def carriedLabels (generateId : List String → String) (timestamp : String)
    (index : SessionEntryIndex) (path : List SessionEntry) : List SessionEntry :=
  carryLabels generateId timestamp ((entriesToKeep path).map (·.id))
    ((entriesToKeep path).getLast?.map (·.id))
    (index.labels.filter (·.1 ∈ (entriesToKeep path).map (·.id)))

theorem createBranchedSession_eq {leafId : String} (hpath : index.pathTo leafId = path)
    (hne : path ≠ []) :
    createBranchedSession generateId timestamp index leafId =
      some ⟨entriesToKeep path ++ carriedLabels generateId timestamp index path,
        .rebuild (entriesToKeep path ++ carriedLabels generateId timestamp index path)⟩ := by
  rw [createBranchedSession, hpath, if_neg hne]
  rfl

/-- The labels of the kept entries stay in effect. -/
theorem labelFor_branched (hkeys : JsMap.KeysNodup index.labels)
    (htexts : ∀ entry ∈ index.labels, entry.2 ≠ "") (hentry : entry ∈ entriesToKeep path) :
    (SessionEntryIndex.rebuild (entriesToKeep path ++
      carriedLabels generateId timestamp index path)).labelFor entry.id =
      index.labelFor entry.id := by
  have hkept : ∀ e ∈ entriesToKeep path, e.isLabel = false := fun e he =>
    (mem_entriesToKeep.mp he).2
  have hkeys' : JsMap.KeysNodup
      (index.labels.filter (·.1 ∈ (entriesToKeep path).map (·.id))) :=
    hkeys.sublist (filter_sublist.map _)
  have hmem : decide (entry.id ∈ (entriesToKeep path).map (·.id)) = true :=
    decide_eq_true (mem_map_of_mem hentry)
  rw [SessionEntryIndex.labelFor, SessionEntryIndex.labels_rebuild, List.foldl_append,
    foldl_applyLabel_kept hkept, carriedLabels,
    get_foldl_carryLabels hkeys' fun e he => htexts e (mem_of_mem_filter he),
    JsMap.get_filter_key (p := fun key => decide (key ∈ (entriesToKeep path).map (·.id))) hmem,
    JsMap.get_nil, SessionEntryIndex.labelFor]
  cases index.labels.get entry.id <;> rfl

/-- The new journal is one chain where the kept entries are one. -/
theorem rootChain_branched (h : RootChain (entriesToKeep path).reverse) :
    RootChain (entriesToKeep path ++ carriedLabels generateId timestamp index path).reverse := by
  rw [reverse_append, carriedLabels]
  rcases eq_nil_or_concat (entriesToKeep path) with hnil | ⟨init, last, hlast⟩
  · rw [hnil] at h
    cases h
  rw [hlast] at h ⊢
  simp only [concat_eq_append, reverse_append, reverse_singleton,
    singleton_append, getLast?_append, getLast?_singleton, some_or,
    map_some] at h ⊢
  exact h.carryLabels

theorem ids_branched (hfresh : ∀ used, generateId used ∉ used) (hnodup : (path.map (·.id)).Nodup) :
    ((entriesToKeep path ++ carriedLabels generateId timestamp index path).map (·.id)).Nodup := by
  rw [map_append]
  exact carryLabels_ids hfresh (hnodup.sublist (filter_sublist.map _))

theorem branched_id_ne (hgenerated : ∀ used, generateId used ≠ "")
    (hne : ∀ entry ∈ path, entry.id ≠ "")
    (hentry : entry ∈ entriesToKeep path ++ carriedLabels generateId timestamp index path) :
    entry.id ≠ "" := by
  rcases mem_append.mp hentry with hentry | hentry
  · exact hne entry (mem_entriesToKeep.mp hentry).1
  obtain ⟨-, used, hid⟩ := isLabel_of_mem_carryLabels hentry
  exact hid ▸ hgenerated used

end Branch

/-! ### When the conversation is kept -/

theorem eq_of_id_eq {path : List SessionEntry} (hnodup : (path.map (·.id)).Nodup)
    {e e' : SessionEntry} (he : e ∈ path) (he' : e' ∈ path) (hid : e.id = e'.id) : e = e' :=
  inj_on_of_nodup_map hnodup he he' hid

/-- Where all parents resolve, a kept entry of the path hangs below a kept one. -/
theorem parent_kept {chain labels : List SessionEntry} (hnodup : (chain.map (·.id)).Nodup)
    (hresolves : ∀ pre entry post, entriesToKeep chain.reverse ++ labels = pre ++ entry :: post →
      match entry.parentId with
      | none => pre = []
      | some parentId => ∃ parent ∈ pre, parent.id = parentId)
    {child parent : SessionEntry} (hchild : child ∈ chain) (hparent : parent ∈ chain)
    (hid : child.parentId = some parent.id) (hkept : child.isLabel = false) :
    parent.isLabel = false := by
  obtain ⟨pre, post, hsplit⟩ := append_of_mem
    (mem_entriesToKeep.mpr ⟨mem_reverse.mpr hchild, hkept⟩)
  have h := hresolves pre child (post ++ labels) (by rw [hsplit]; simp)
  rw [hid] at h
  obtain ⟨found, hfound, hfoundId⟩ := h
  have hmem : found ∈ entriesToKeep chain.reverse := by
    rw [hsplit]
    exact mem_append_left _ hfound
  obtain ⟨hchain, hlabel⟩ := mem_entriesToKeep.mp hmem
  rwa [← eq_of_id_eq hnodup (mem_reverse.mp hchain) hparent hfoundId]

/-- Where the labels stand at the end, the kept entries are one chain, or there are none. -/
theorem rootChain_entriesToKeep {chain : List SessionEntry} (h : RootChain chain)
    (hlast : LabelsLast chain.reverse) (hne : entriesToKeep chain.reverse ≠ []) :
    RootChain (entriesToKeep chain.reverse).reverse := by
  have hchain : chain = (chain.reverse.filter (·.isLabel)).reverse ++
      (entriesToKeep chain.reverse).reverse := by
    rw [← reverse_append, ← hlast.split, reverse_reverse]
  rw [hchain] at h
  exact h.suffix fun hnil => hne (reverse_eq_nil_iff.mp hnil)

section LabelsLast

variable {generateId : List String → String} {timestamp : String} {index : SessionEntryIndex}
  {chain : List SessionEntry}

theorem context_branched (hfresh : ∀ used, generateId used ∉ used)
    (hgenerated : ∀ used, generateId used ≠ "") (h : RootChain chain)
    (hnodup : (chain.map (·.id)).Nodup) (hne : ∀ entry ∈ chain, entry.id ≠ "")
    (hlast : LabelsLast chain.reverse) :
    BranchedJournal.context
        ⟨entriesToKeep chain.reverse ++ carriedLabels generateId timestamp index chain.reverse,
          .rebuild (entriesToKeep chain.reverse ++
            carriedLabels generateId timestamp index chain.reverse)⟩ =
      contextOf chain.reverse := by
  have hcontext : contextOf chain.reverse = contextOf (entriesToKeep chain.reverse) := by
    conv_lhs => rw [hlast.split]
    exact contextOf_append_labels fun entry hentry => of_mem_filter hentry
  rw [hcontext]
  by_cases hkept : entriesToKeep chain.reverse = []
  · -- without a kept entry there is no label to carry either
    have hcarried : carriedLabels generateId timestamp index chain.reverse = [] := by
      simp [carriedLabels, hkept, carryLabels]
    rw [hcarried, hkept]
    rfl
  have hentries : RootChain (entriesToKeep chain.reverse ++
      carriedLabels generateId timestamp index chain.reverse).reverse :=
    rootChain_branched (rootChain_entriesToKeep h hlast hkept)
  have hids : ((entriesToKeep chain.reverse ++
      carriedLabels generateId timestamp index chain.reverse).map (·.id)).Nodup :=
    ids_branched hfresh (by rwa [map_reverse, nodup_reverse])
  have hcontext := hentries.context (by rwa [map_reverse, nodup_reverse])
    fun entry hentry => branched_id_ne hgenerated (fun e he => hne e (mem_reverse.mp he))
      (mem_reverse.mp hentry)
  rw [reverse_reverse] at hcontext
  rw [hcontext]
  exact contextOf_append_labels fun entry hentry => (isLabel_of_mem_carryLabels hentry).1

theorem resolves_branched (h : RootChain chain) (hlast : LabelsLast chain.reverse)
    {pre post : List SessionEntry}
    (heq : entriesToKeep chain.reverse ++ carriedLabels generateId timestamp index chain.reverse =
      pre ++ entry :: post) : match entry.parentId with
    | none => pre = []
    | some parentId => ∃ parent ∈ pre, parent.id = parentId := by
  by_cases hkept : entriesToKeep chain.reverse = []
  · rw [carriedLabels, hkept] at heq
    simp [carryLabels] at heq
  exact (rootChain_branched (rootChain_entriesToKeep h hlast hkept)).resolves
    (by rw [reverse_reverse, heq])

end LabelsLast

/-- `createBranchedSession` keeps the conversation of the path to an entry exactly when the labels
of the path stand at its end. The generated ids are not empty and not in use. -/
theorem branchKeeps_iff (tree : SessionTree) {generateId : List String → String}
    (timestamp : String) (hfresh : ∀ used, generateId used ∉ used)
    (hgenerated : ∀ used, generateId used ≠ "") {leaf : SessionEntry}
    (hleaf : leaf ∈ tree.entries) :
    ∃ j, createBranchedSession generateId timestamp (.rebuild tree.entries) leaf.id = some j ∧
      (BranchKeeps tree leaf.id j ↔
        LabelsLast ((SessionEntryIndex.rebuild tree.entries).pathTo leaf.id)) := by
  obtain ⟨chain, hchain, hmem, hnodup, hpathFrom⟩ := tree.exists_pathFrom hleaf
  have hget : (indexById tree.entries).get leaf.id = some leaf := get_indexById tree.ids_nodup hleaf
  have hpath : (SessionEntryIndex.rebuild tree.entries).pathTo leaf.id =
      (leaf :: chain).reverse := by
    rw [SessionEntryIndex.pathTo, SessionEntryIndex.entriesById_rebuild,
      if_neg (tree.ids_ne leaf hleaf), hget, hpathFrom]
  have hcontext : buildSessionContext tree.entries (.entry leaf.id) (indexById tree.entries) =
      contextOf (leaf :: chain).reverse := by
    rw [buildSessionContext, leafEntry, if_neg (tree.ids_ne leaf hleaf), hget, ← hpathFrom]
    rfl
  have hpathNodup : (((leaf :: chain).reverse).map (·.id)).Nodup := by
    rwa [map_reverse, nodup_reverse]
  refine ⟨_, createBranchedSession_eq hpath (by simp), fun hkeeps => ?_, fun hlast => ?_⟩
  · rw [hpath]
    exact hchain.labelsLast fun child hchild parent hparent hid hkept =>
      parent_kept hnodup hkeeps.resolves hchild hparent hid hkept
  rw [hpath] at hlast
  obtain ⟨hkeys, htexts⟩ := labels_rebuild_ok tree.entries
  refine ⟨?_, fun pre entry post => resolves_branched hchain hlast, fun entry hentry => ?_⟩
  · rw [hcontext]
    exact context_branched hfresh hgenerated hchain hnodup
      (fun e he => tree.ids_ne e (hmem e he)) hlast
  rw [hpath] at hentry
  exact labelFor_branched hkeys htexts hentry

section Examples

/-- Ids longer than all in use. -/
def longerId (used : List String) : String := String.join used ++ "+"

theorem length_le_join {used : List String} {id : String} (h : id ∈ used) :
    id.length ≤ (String.join used).length := by
  induction used with
  | nil => cases h
  | cons first used ih =>
    rw [String.join_cons, String.length_append]
    rcases mem_cons.mp h with rfl | h
    · exact Nat.le_add_right ..
    · exact Nat.le_trans (ih h) (Nat.le_add_left ..)

theorem longerId_fresh (used : List String) : longerId used ∉ used := by
  intro h
  have hle := length_le_join h
  rw [longerId, String.length_append] at hle
  exact absurd hle (by simp only [show "+".length = 1 by decide]; omega)

theorem longerId_ne (used : List String) : longerId used ≠ "" := by
  intro h
  have hlength := congrArg String.length h
  rw [longerId, String.length_append] at hlength
  exact absurd hlength (by simp only [show "+".length = 1 by decide, String.length_empty]; omega)

/-- A question, a label on it, and a question below what was the leaf: the label. -/
def labelledTree : SessionTree where
  entries := [⟨"a", none, "t1", .message (.user "question")⟩,
    ⟨"b", some "a", "t2", .label "a" (some "start")⟩,
    ⟨"c", some "b", "t3", .message (.user "more")⟩]
  ids_nodup := by decide
  ids_ne := by decide
  parents := by
    intro pre entry post h parentId hparent
    rcases pre with _ | ⟨_, _ | ⟨_, _ | ⟨_, pre⟩⟩⟩ <;>
      simp only [cons_append, nil_append, List.cons.injEq] at h
    · obtain ⟨rfl, -⟩ := h
      cases hparent
    · obtain ⟨rfl, rfl, -⟩ := h
      cases hparent
      exact ⟨_, mem_singleton_self _, rfl⟩
    · obtain ⟨rfl, rfl, rfl, -⟩ := h
      cases hparent
      exact ⟨_, mem_cons_of_mem _ (mem_singleton_self _), rfl⟩
    · simp at h

/-- At the label itself the labels of the path stand at its end. -/
theorem branchKeeps_labelledTree :
    ∃ j, createBranchedSession longerId "t4" (.rebuild labelledTree.entries) "b" = some j ∧
      BranchKeeps labelledTree "b" j := by
  have hleaf : (⟨"b", some "a", "t2", .label "a" (some "start")⟩ : SessionEntry) ∈
      labelledTree.entries := by decide
  obtain ⟨j, hj, hiff⟩ := branchKeeps_iff labelledTree "t4" longerId_fresh longerId_ne hleaf
  refine ⟨j, hj, hiff.mpr ?_⟩
  have hpath : (SessionEntryIndex.rebuild labelledTree.entries).pathTo "b" =
      [⟨"a", none, "t1", .message (.user "question")⟩,
        ⟨"b", some "a", "t2", .label "a" (some "start")⟩] := by decide +kernel
  rw [hpath]
  intro pre entry post h hlabel later hlater
  rcases pre with _ | ⟨_, _ | ⟨_, pre⟩⟩ <;>
    simp only [cons_append, nil_append, List.cons.injEq] at h
  · obtain ⟨rfl, -⟩ := h
    cases hlabel
  · obtain ⟨-, -, rfl⟩ := h
    cases hlater
  · simp at h

/-- Below the label the first question is lost: the entry that is kept hangs below the label that is
not. -/
theorem not_branchKeeps_labelledTree :
    ∃ j, createBranchedSession longerId "t4" (.rebuild labelledTree.entries) "c" = some j ∧
      j.context.messages = [.user "more"] ∧
      (∃ entry ∈ j.entries, ∃ parentId ∈ entry.parentId,
        ∀ parent ∈ j.entries, parent.id ≠ parentId) ∧
      ¬BranchKeeps labelledTree "c" j := by
  refine ⟨_, rfl, by decide +kernel, ⟨⟨"c", some "b", "t3", .message (.user "more")⟩,
    by decide +kernel, "b", rfl, by decide +kernel⟩, fun h => ?_⟩
  exact absurd h.context (by decide +kernel)

end Examples

end Journal

end BreadboardTui
