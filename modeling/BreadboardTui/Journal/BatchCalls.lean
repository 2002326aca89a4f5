import BreadboardTui.Journal.Batch

/-!
# Calls on a journal

Every call on the journal does one of five things (`Effect`), and `Consistent.call` says which: it
changes nothing, moves the leaf, adds an entry, adds an entry to another branch, or renames the
session. What holds of a journal between calls, `Consistent`, follows from these.
-/

namespace BreadboardTui

open List Option

namespace Journal

open Loader (SessionTitleSource)

namespace SessionManager

/-! ### What a call does -/

/-- The kinds of calls, as they take effect. -/
inductive Effect where
  | none
  | leaf
  | append
  | toBranch
  | title
  deriving DecidableEq, Repr

def effect (m : SessionManager) : JournalCall → Effect
  | .append _ (.label targetId _) => if m.has targetId then .append else .none
  | .append .. => .append
  | .appendMessageToBranch _ _ parentId => if parentId.all m.has then .toBranch else .none
  | .branch branchFromId => if m.has branchFromId then .leaf else .none
  | .resetLeaf => .leaf
  | .branchWithSummary _ branchFromId _ => if branchFromId.all m.has then .append else .none
  | .setSessionName _ name source =>
    if m.titleSource = some .user ∧ source = .auto then .none
    else if cleanTitle name = "" then .none
    else .title

/-- The effects of calls, one after the other. -/
def effects (generateId : List String → String) : SessionManager → List JournalCall → List Effect
  | _, [] => []
  | m, c :: cs => m.effect c :: effects generateId (m.call generateId c) cs

/-- The state of a manager between two batches, as far as the journal goes. -/
structure Consistent (m : SessionManager) : Prop where
  nodup : (m.entries.map (·.id)).Nodup
  ne : ∀ entry ∈ m.entries, entry.id ≠ ""
  parents : ∀ pre entry post, m.entries = pre ++ entry :: post → ∀ parentId ∈ entry.parentId,
    ∃ parent ∈ pre, parent.id = parentId
  used : m.usedIds = m.entries.map (·.id)
  get : ∀ entry ∈ m.entries, m.index.entriesById.get entry.id = some entry
  leaf : ∀ id ∈ m.index.leaf, id ∈ m.usedIds

/-- An entry that may be added. -/
structure Addable (m : SessionManager) (entry : SessionEntry) : Prop where
  fresh : entry.id ∉ m.usedIds
  ne : entry.id ≠ ""
  parent : ∀ parentId ∈ entry.parentId, parentId ∈ m.usedIds

theorem Consistent.has_iff {m : SessionManager} (h : m.Consistent) {id : String} :
    m.has id = true ↔ id ∈ m.usedIds := by
  rw [has, JsMap.has]
  constructor
  · intro hsome
    obtain ⟨entry, hget⟩ := isSome_iff_exists.mp hsome
    exact JsMap.mem_keys_of_get hget
  intro hmem
  rw [h.used] at hmem
  obtain ⟨entry, hentry, rfl⟩ := mem_map.mp hmem
  rw [h.get entry hentry]
  rfl

theorem setLeaf_recordEntry (m : SessionManager) (id : Option String) (entry : SessionEntry) :
    (m.setLeaf id).recordEntry entry = m.recordEntry entry := by
  rw [recordEntry, recordEntry]
  cases hbatch : m.atomicEntryBatch with
  | none => simp [setLeaf, setIndexLeaf, hbatch, SessionEntryIndex.insert]
  | some batch =>
    cases hcollecting : batch.collecting <;>
      simp [setLeaf, setIndexLeaf, hbatch, hcollecting, SessionEntryIndex.insert,
        AtomicEntryBatch.record]

/-- The leaf that a call of kind `leaf` sets. -/
def leafTarget : JournalCall → Option String
  | .branch branchFromId => some branchFromId
  | _ => none

/-- What a renaming sets. -/
def titleOf : JournalCall → Option String × Option SessionTitleSource
  | .setSessionName _ name source => (some (cleanTitle name), some source)
  | _ => (none, none)

/-- A journal with a title entry, as `setSessionName` leaves it. -/
def titled (m : SessionManager) (entry : SessionEntry)
    (title : Option String × Option SessionTitleSource) : SessionManager :=
  { m with
    sessionName := title.1
    titleSource := title.2
    entries := m.entries ++ [entry]
    index := m.index.insert entry
    notified := m.notified ++ [entry] }

section Calls

variable {generateId : List String → String} {m : SessionManager}

theorem Consistent.addable (h : m.Consistent) (hfresh : ∀ used, generateId used ∉ used)
    (hne : ∀ used, generateId used ≠ "") (timestamp : String) (body : EntryBody) :
    m.Addable ⟨generateId m.usedIds, m.index.leaf, timestamp, body⟩ :=
  ⟨hfresh _, hne _, h.leaf⟩

theorem Consistent.addable_below (h : m.Consistent) (hfresh : ∀ used, generateId used ∉ used)
    (hne : ∀ used, generateId used ≠ "") {parentId : Option String}
    (hparent : parentId.all m.has = true) (timestamp : String) (body : EntryBody) :
    m.Addable ⟨generateId m.usedIds, parentId, timestamp, body⟩ := by
  refine ⟨hfresh _, hne _, fun p hp => h.has_iff.mp ?_⟩
  obtain rfl := mem_def.mp hp
  exact hparent

theorem Consistent.call (h : m.Consistent) (hfresh : ∀ used, generateId used ∉ used)
    (hne : ∀ used, generateId used ≠ "") (c : JournalCall) :
    match m.effect c with
    | .none => m.call generateId c = m
    | .leaf => (∀ id ∈ leafTarget c, id ∈ m.usedIds) ∧
        m.call generateId c = m.setLeaf (leafTarget c)
    | .append => ∃ entry, m.Addable entry ∧ entry.id = generateId m.usedIds ∧
        m.call generateId c = m.recordEntry entry
    | .toBranch => ∃ entry, m.Addable entry ∧ entry.id = generateId m.usedIds ∧
        m.call generateId c = (m.recordEntry entry).setIndexLeaf m.index.leaf
    | .title => ∃ entry, m.Addable entry ∧ entry.id = generateId m.usedIds ∧
        m.call generateId c = m.titled entry (titleOf c) := by
  have hadd := h.addable hfresh hne
  cases c with
  | append timestamp body =>
    cases body with
    | label targetId =>
      by_cases hhas : m.has targetId = true
      · simp only [effect, hhas, if_true, SessionManager.call, append]
        exact ⟨_, hadd _ _, rfl, rfl⟩
      simp only [effect, hhas, SessionManager.call, append]
      rfl
    | _ => exact ⟨_, hadd _ _, rfl, rfl⟩
  | appendMessageToBranch timestamp message parentId =>
    by_cases hhas : parentId.all m.has = true
    · simp only [effect, hhas, if_true, SessionManager.call, appendMessageToBranch]
      exact ⟨_, h.addable_below hfresh hne hhas _ _, rfl, rfl⟩
    simp only [effect, hhas, SessionManager.call, appendMessageToBranch]
    rfl
  | branch branchFromId =>
    by_cases hhas : m.has branchFromId = true
    · have heffect : m.effect (.branch branchFromId) = .leaf := by rw [effect, if_pos hhas]
      rw [heffect]
      refine ⟨fun id hid => ?_, ?_⟩
      · cases hid
        exact h.has_iff.mp hhas
      rw [SessionManager.call, branch, if_pos hhas]
      rfl
    simp only [effect, hhas, SessionManager.call, branch]
    rfl
  | resetLeaf => exact ⟨fun id hid => (nomatch hid), rfl⟩
  | branchWithSummary timestamp branchFromId =>
    by_cases hhas : branchFromId.all m.has = true
    · simp only [effect, hhas, if_true, SessionManager.call, branchWithSummary, setLeaf_recordEntry]
      exact ⟨_, h.addable_below hfresh hne hhas _ _, rfl, rfl⟩
    simp only [effect, hhas, SessionManager.call, branchWithSummary]
    rfl
  | setSessionName timestamp name source =>
    by_cases hauto : m.titleSource = some .user ∧ source = .auto
    · simp [effect, if_pos hauto, SessionManager.call, setSessionName]
    by_cases hblank : cleanTitle name = ""
    · simp [effect, if_pos hblank, SessionManager.call, setSessionName]
    simp only [effect, if_neg hauto, if_neg hblank, SessionManager.call, setSessionName]
    exact ⟨_, hadd _ _, rfl, rfl⟩

end Calls

/-! ### Calls keep the journal consistent -/

section Keeps

variable {m m' : SessionManager} {entry : SessionEntry}

theorem Consistent.snoc (h : m.Consistent) (hadd : m.Addable entry)
    (hentries : m'.entries = m.entries ++ [entry])
    (hbyId : m'.index.entriesById = (m.index.insert entry).entriesById)
    (hleaf : ∀ id ∈ m'.index.leaf, id = entry.id ∨ id ∈ m.usedIds) : m'.Consistent := by
  have hused : m'.usedIds = m.usedIds ++ [entry.id] := by
    have hnew : entry.id ∉ m.index.entriesById.map Prod.fst := hadd.fresh
    rw [usedIds, hbyId, SessionEntryIndex.insert, JsMap.set_of_notMem hnew, map_append]
    rfl
  have hfresh : entry.id ∉ m.entries.map (·.id) := h.used ▸ hadd.fresh
  refine ⟨?_, ?_, ?_, ?_, ?_, ?_⟩
  · rw [hentries, map_append, nodup_append]
    refine ⟨h.nodup, nodup_singleton _, fun a ha b hb heq => ?_⟩
    rw [map_singleton, mem_singleton] at hb
    exact hfresh (hb ▸ heq ▸ ha)
  · intro e he
    rw [hentries, mem_append, mem_singleton] at he
    rcases he with he | rfl
    · exact h.ne e he
    · exact hadd.ne
  · intro pre e post heq parentId hparent
    rw [hentries] at heq
    rcases eq_nil_or_concat post with rfl | ⟨init, last, rfl⟩
    · obtain ⟨rfl, hlast⟩ := append_inj' heq rfl
      obtain rfl := (List.cons.inj hlast).1
      have hmem := hadd.parent parentId hparent
      rw [h.used] at hmem
      obtain ⟨parent, hp, hid⟩ := mem_map.mp hmem
      exact ⟨parent, hp, hid⟩
    rw [concat_eq_append, ← cons_append, ← append_assoc] at heq
    exact h.parents pre e init (append_inj' heq rfl).1 parentId hparent
  · rw [hused, hentries, map_append, h.used]
    rfl
  · intro e he
    rw [hentries, mem_append, mem_singleton] at he
    rw [hbyId, SessionEntryIndex.insert]
    rcases he with he | rfl
    · have hne : e.id ≠ entry.id := fun heq => hfresh (heq ▸ mem_map_of_mem he)
      rw [JsMap.get_set_of_ne hne, h.get e he]
    · exact JsMap.get_set_self
  intro id hid
  rw [hused, mem_append, mem_singleton]
  exact (hleaf id hid).symm

theorem Addable.usedIds_recordEntry (hadd : m.Addable entry) :
    (m.recordEntry entry).usedIds = m.usedIds ++ [entry.id] := by
  have hnew : entry.id ∉ m.index.entriesById.map Prod.fst := hadd.fresh
  rw [SessionManager.recordEntry, usedIds, SessionEntryIndex.insert, JsMap.set_of_notMem hnew,
    map_append]
  rfl

theorem Consistent.of_leaf (h : m.Consistent) (hentries : m'.entries = m.entries)
    (hbyId : m'.index.entriesById = m.index.entriesById)
    (hleaf : ∀ id ∈ m'.index.leaf, id ∈ m.usedIds) : m'.Consistent := by
  have hused : m'.usedIds = m.usedIds := by rw [usedIds, usedIds, hbyId]
  refine ⟨hentries ▸ h.nodup, hentries ▸ h.ne, hentries ▸ h.parents, ?_, ?_, ?_⟩
  · rw [hused, hentries, h.used]
  · rw [hentries, hbyId]
    exact h.get
  rw [hused]
  exact hleaf

theorem Consistent.recordEntry (h : m.Consistent) (hadd : m.Addable entry) :
    (m.recordEntry entry).Consistent :=
  h.snoc hadd rfl rfl fun _ hid => .inl (some.inj hid).symm

theorem Consistent.toBranch (h : m.Consistent) (hadd : m.Addable entry) :
    ((m.recordEntry entry).setIndexLeaf m.index.leaf).Consistent :=
  h.snoc hadd rfl rfl fun id hid => .inr (h.leaf id hid)

theorem Consistent.titled (h : m.Consistent) (hadd : m.Addable entry)
    (title : Option String × Option SessionTitleSource) : (m.titled entry title).Consistent :=
  h.snoc hadd rfl rfl fun _ hid => .inl (some.inj hid).symm

theorem Consistent.setLeaf (h : m.Consistent) {id : Option String}
    (hid : ∀ i ∈ id, i ∈ m.usedIds) : (m.setLeaf id).Consistent :=
  h.of_leaf rfl rfl hid

theorem Consistent.keeps_call {generateId : List String → String} (h : m.Consistent)
    (hfresh : ∀ used, generateId used ∉ used) (hne : ∀ used, generateId used ≠ "")
    (c : JournalCall) : (m.call generateId c).Consistent := by
  have hcall := h.call hfresh hne c
  cases heffect : m.effect c <;> simp only [heffect] at hcall
  · rwa [hcall]
  · rw [hcall.2]
    exact h.setLeaf hcall.1
  · obtain ⟨entry, hadd, -, heq⟩ := hcall
    rw [heq]
    exact h.recordEntry hadd
  · obtain ⟨entry, hadd, -, heq⟩ := hcall
    rw [heq]
    exact h.toBranch hadd
  obtain ⟨entry, hadd, -, heq⟩ := hcall
  rw [heq]
  exact h.titled hadd _

end Keeps

/-! ### The index -/

/-- A call, or a batch of calls that is rolled back. -/
inductive JournalStep where
  | call (c : JournalCall)
  | failedBatch (callback outside : List JournalCall)

def step (generateId : List String → String) (m : SessionManager) : JournalStep → SessionManager
  | .call c => m.call generateId c
  | .failedBatch callback outside => m.failedBatch generateId callback outside

/-- A journal as it is loaded. -/
def loaded (entries : List SessionEntry) : SessionManager :=
  ⟨entries, .rebuild entries, none, none, none, [], []⟩

/-- But for the leaf, the index is the one that the entries rebuild. -/
def Indexed (m : SessionManager) : Prop :=
  m.index.entriesById = (SessionEntryIndex.rebuild m.entries).entriesById ∧
    m.index.labels = (SessionEntryIndex.rebuild m.entries).labels

variable {m m' : SessionManager} {generateId : List String → String}

theorem Indexed.snoc (h : m.Indexed) {entry : SessionEntry}
    (hentries : m'.entries = m.entries ++ [entry])
    (hindex : m'.index.entriesById = m.index.entriesById.set entry.id entry ∧
      m'.index.labels = SessionEntryIndex.applyLabel m.index.labels entry) : m'.Indexed := by
  have hrebuild : SessionEntryIndex.rebuild (m.entries ++ [entry]) =
      (SessionEntryIndex.rebuild m.entries).insert entry := foldl_concat ..
  rw [Indexed, hentries, hrebuild, hindex.1, hindex.2, h.1, h.2]
  exact ⟨rfl, rfl⟩

theorem Indexed.call (h : m.Indexed) (c : JournalCall) : (m.call generateId c).Indexed := by
  have hif {p : Prop} [Decidable p] {a b : SessionManager} (ha : a.Indexed) (hb : b.Indexed) :
      (if p then a else b).Indexed := by
    split
    · exact ha
    · exact hb
  cases c with
  | append timestamp body =>
    cases body with
    | label => exact hif (h.snoc rfl ⟨rfl, rfl⟩) h
    | _ => exact h.snoc rfl ⟨rfl, rfl⟩
  | appendMessageToBranch => exact hif (h.snoc rfl ⟨rfl, rfl⟩) h
  | branch => exact hif h h
  | resetLeaf => exact h
  | branchWithSummary => exact hif (h.snoc rfl ⟨rfl, rfl⟩) h
  | setSessionName => exact hif h (hif h (h.snoc rfl ⟨rfl, rfl⟩))

theorem Indexed.calls (h : m.Indexed) (cs : List JournalCall) :
    (SessionManager.calls generateId m cs).Indexed :=
  foldlRecOn cs _ h fun _ h c _ => h.call c

theorem Indexed.failedBatch (h : m.Indexed) (callback outside : List JournalCall) :
    (m.failedBatch generateId callback outside).Indexed := by
  have hstaged : (m.staged generateId callback).Indexed := by
    refine Indexed.calls ?_ callback
    exact h
  have hlate : (m.published generateId callback outside).Indexed := by
    refine Indexed.calls ?_ outside
    exact hstaged
  unfold SessionManager.failedBatch
  dsimp only
  split
  · exact hlate
  · exact ⟨rfl, rfl⟩

end SessionManager

end Journal

end BreadboardTui
