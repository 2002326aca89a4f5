import BreadboardTui.Journal.BatchCalls

/-!
# Rollback of a batch

The entries of a batch leave the journal, and what hangs below them moves up to the nearest ancestor
that stays (`NearestRetained`). `Consistent.parent_rollback` and `Consistent.leaf_rollback` are what
the rollback keeps.
-/

namespace BreadboardTui

open List

namespace Journal

/-- The nearest ancestor that is not an entry of the batch. -/
inductive NearestRetained (byId : JsMap String SessionEntry) (batchIds : List String) :
    Option String → Option String → Prop where
  | root : NearestRetained byId batchIds none none
  | retained {id : String} (h : id ∉ batchIds) : NearestRetained byId batchIds (some id) (some id)
  | up {id : String} {entry : SessionEntry} {ancestor : Option String} (h : id ∈ batchIds)
      (hget : byId.get id = some entry)
      (rest : NearestRetained byId batchIds entry.parentId ancestor) :
      NearestRetained byId batchIds (some id) ancestor

namespace SessionManager

/-! ### The nearest ancestor -/

section Nearest

variable {m : SessionManager} {batchIds : List String} {entry : SessionEntry}

theorem Consistent.nearestRetained (h : m.Consistent) {n : ℕ} {seen : List String}
    {pre post : List SessionEntry} (heq : m.entries = pre ++ entry :: post) (hn : pre.length < n)
    (hseen : ∀ e ∈ pre ++ [entry], e.id ∉ seen) :
    NearestRetained m.index.entriesById batchIds (some entry.id)
      (retainedAncestor m.index batchIds n seen (some entry.id)) := by
  induction n generalizing seen pre post entry with
  | zero => omega
  | succ n ih =>
    have hentry : entry ∈ m.entries := by simp [heq]
    rw [retainedAncestor]
    by_cases hbatch : entry.id ∈ batchIds
    · have hnew := hseen entry (by simp)
      rw [if_pos ⟨h.ne entry hentry, hbatch, hnew⟩, h.get entry hentry, Option.bind_some]
      refine .up hbatch (h.get entry hentry) ?_
      cases hparent : entry.parentId with
      | none =>
        cases n <;> exact .root
      | some parentId =>
        obtain ⟨parent, hmem, rfl⟩ := h.parents pre entry post heq parentId hparent
        obtain ⟨pre', post', rfl⟩ := append_of_mem hmem
        have hsplit : m.entries = pre' ++ parent :: (post' ++ entry :: post) := by
          rw [heq, append_assoc, cons_append]
        refine ih hsplit (by simp at hn; omega) fun e he hmem => ?_
        rcases mem_cons.mp hmem with hid | hmem
        · -- an id is used once, so the entry is not among its own ancestors
          have hnodup := h.nodup
          rw [heq, map_append, nodup_append] at hnodup
          refine hnodup.2.2 e.id (mem_map_of_mem ?_) entry.id (by simp) hid
          rcases mem_append.mp he with he | he
          · exact mem_append_left _ he
          · exact mem_append_right _ (by simp [mem_singleton.mp he])
        refine hseen e ?_ hmem
        rcases mem_append.mp he with he | he
        · simp [he]
        · simp [mem_singleton.mp he]
    rw [if_neg fun hcond => hbatch hcond.2.1]
    exact .retained hbatch

variable {id : Option String}

theorem Consistent.nearestRetained_of_mem (h : m.Consistent) (hid : ∀ i ∈ id, i ∈ m.usedIds) :
    NearestRetained m.index.entriesById batchIds id
      (retainedAncestor m.index batchIds (m.index.entriesById.length + 1) [] id) := by
  cases id with
  | none => exact .root
  | some id =>
    have hmem := hid id rfl
    rw [h.used] at hmem
    obtain ⟨entry, hentry, rfl⟩ := mem_map.mp hmem
    obtain ⟨pre, post, heq⟩ := append_of_mem hentry
    have hlength : m.index.entriesById.length = m.entries.length := by
      have hused := congrArg List.length h.used
      rwa [usedIds, length_map, length_map] at hused
    refine h.nearestRetained heq ?_ fun _ _ => not_mem_nil
    rw [hlength, heq, length_append, length_cons]
    omega

theorem Consistent.mem_of_get (h : m.Consistent) {id : String}
    (hget : m.index.entriesById.get id = some entry) : entry ∈ m.entries := by
  have hmem : id ∈ m.usedIds := JsMap.mem_keys_of_get hget
  rw [h.used] at hmem
  obtain ⟨found, hfound, rfl⟩ := mem_map.mp hmem
  rw [h.get found hfound] at hget
  exact Option.some.inj hget ▸ hfound

theorem Consistent.parent_used (h : m.Consistent) (he : entry ∈ m.entries) :
    ∀ parentId ∈ entry.parentId, parentId ∈ m.usedIds := by
  intro parentId hparent
  obtain ⟨pre, post, heq⟩ := append_of_mem he
  obtain ⟨parent, hmem, rfl⟩ := h.parents pre entry post heq parentId hparent
  rw [h.used, heq]
  exact mem_map_of_mem (mem_append_left _ hmem)

variable {r : Option String}

theorem NearestRetained.unique {byId : JsMap String SessionEntry} {r' : Option String}
    (h : NearestRetained byId batchIds id r) (h' : NearestRetained byId batchIds id r') : r = r' := by
  induction h with
  | root => cases h'; rfl
  | retained hid =>
    cases h' with
    | retained => rfl
    | up hmem => exact absurd hmem hid
  | up hmem hget _ ih =>
    cases h' with
    | retained hid => exact absurd hmem hid
    | up _ hget' rest' =>
      obtain rfl := Option.some.inj (hget.symm.trans hget')
      exact ih rest'

/-- What is found is an entry of the journal and not of the batch. -/
theorem NearestRetained.mem (h : m.Consistent)
    (hid : ∀ i ∈ id, i ∈ m.usedIds) (hr : NearestRetained m.index.entriesById batchIds id r) :
    ∀ i ∈ r, i ∈ m.usedIds ∧ i ∉ batchIds := by
  induction hr with
  | root =>
    intro i hi
    cases hi
  | retained hnot =>
    intro i hi
    cases hi
    exact ⟨hid _ rfl, hnot⟩
  | up _ hget _ ih => exact ih (h.parent_used (h.mem_of_get hget))

/-- The last entry of the journal is an ancestor of itself only. -/
theorem NearestRetained.eq_last (h : m.Consistent) {init : List SessionEntry} {last : SessionEntry}
    (hlast : m.entries = init ++ [last])
    (hr : NearestRetained m.index.entriesById batchIds id r) (hr' : r = some last.id) :
    id = some last.id := by
  induction hr with
  | root => exact hr'
  | retained => exact hr'
  | up _ hget _ ih =>
    -- the parent stands before its child, and nothing stands behind the last entry
    obtain ⟨pre, post, heq⟩ := append_of_mem (h.mem_of_get hget)
    obtain ⟨parent, hmem, hid⟩ := h.parents pre _ post heq _ (ih hr')
    have hinit : parent ∈ init := by
      rcases eq_nil_or_concat post with rfl | ⟨post', last', rfl⟩
      · obtain ⟨rfl, -⟩ := append_inj' (heq.symm.trans hlast) rfl
        exact hmem
      rw [hlast, concat_eq_append, ← cons_append, ← append_assoc] at heq
      obtain ⟨rfl, -⟩ := append_inj' heq rfl
      exact mem_append_left _ hmem
    have hnodup := h.nodup
    rw [hlast, map_append, nodup_append] at hnodup
    exact absurd hid (hnodup.2.2 parent.id (mem_map_of_mem hinit) last.id (by simp))

end Nearest

/-! ### After the rollback -/

theorem countP_notifyOnce (k : String) (seen : List String) (entries : List SessionEntry) :
    (notifyOnce seen entries).countP (·.id = k) =
      if k ∉ seen ∧ ∃ entry ∈ entries, entry.id = k then 1 else 0 := by
  induction entries generalizing seen with
  | nil => simp [notifyOnce]
  | cons entry entries ih =>
    rw [notifyOnce]
    by_cases hseen : entry.id ∈ seen
    · rw [if_pos hseen, ih]
      have hiff : (k ∉ seen ∧ ∃ e ∈ entries, e.id = k) ↔
          k ∉ seen ∧ ∃ e ∈ entry :: entries, e.id = k := by
        refine and_congr_right fun hk => ?_
        rw [exists_mem_cons_iff, or_iff_right]
        rintro rfl
        exact hk hseen
      exact if_congr hiff rfl rfl
    rw [if_neg hseen, countP_cons, ih]
    by_cases hk : entry.id = k
    · subst hk
      simp [hseen]
    · simp [hk, Ne.symm hk]

theorem filter_of_forall {id : Option String} {p : String → Bool} (h : ∀ i ∈ id, p i = true) :
    id.filter p = id := by
  cases id with
  | none => rfl
  | some i => exact Option.filter_some_pos (h i rfl)

theorem filter_batch {pre batch post : List SessionEntry}
    (hnodup : ((pre ++ batch ++ post).map (·.id)).Nodup) :
    (pre ++ batch ++ post).filter (·.id ∉ batch.map (·.id)) = pre ++ post := by
  rw [map_append, map_append, nodup_append, nodup_append] at hnodup
  obtain ⟨⟨-, -, hpre⟩, -, hpost⟩ := hnodup
  rw [filter_append, filter_append]
  have hkeep : pre.filter (·.id ∉ batch.map (·.id)) = pre := by
    refine filter_eq_self.mpr fun entry he => decide_eq_true fun hmem => ?_
    exact hpre entry.id (mem_map_of_mem he) entry.id hmem rfl
  have hdrop : batch.filter (·.id ∉ batch.map (·.id)) = [] := by
    refine filter_eq_nil_iff.mpr fun entry he hnot => ?_
    exact of_decide_eq_true hnot (mem_map_of_mem he)
  have hkeep' : post.filter (·.id ∉ batch.map (·.id)) = post := by
    refine filter_eq_self.mpr fun entry he => decide_eq_true fun hmem => ?_
    exact hpost entry.id (mem_append_right _ hmem) entry.id (mem_map_of_mem he) rfl
  rw [hkeep, hdrop, hkeep', append_nil]

theorem map_id_of_forall₂ {entries entries' : List SessionEntry}
    (h : List.Forall₂ (fun old new => old.id = new.id) entries entries') :
    entries.map SessionEntry.id = entries'.map SessionEntry.id := by
  induction h with
  | nil => rfl
  | cons hid _ ih => rw [map_cons, map_cons, hid, ih]

/-- The leaf that a rollback restores, before the walk to what is retained. -/
def keptLeaf (batch : AtomicEntryBatch) : Option String :=
  if batch.externalLeafChanged then batch.externalLeafId else batch.preBatchLeafId

section Rollback

variable {m : SessionManager} {batch : AtomicEntryBatch}

theorem entries_rollback : (m.rollbackAtomicEntryBatch batch).entries =
    (m.entries.filter (·.id ∉ batch.entryIds)).map (reparent m.index batch.entryIds) := rfl

theorem Consistent.mem_rollback (h : m.Consistent) {id : String} (hid : id ∈ m.usedIds)
    (hnot : id ∉ batch.entryIds) :
    ∃ entry ∈ (m.rollbackAtomicEntryBatch batch).entries, entry.id = id := by
  rw [h.used] at hid
  obtain ⟨entry, hentry, rfl⟩ := mem_map.mp hid
  refine ⟨reparent m.index batch.entryIds entry, mem_map_of_mem ?_, rfl⟩
  exact mem_filter.mpr ⟨hentry, decide_eq_true hnot⟩

theorem Consistent.nodup_rollback (h : m.Consistent) :
    ((m.rollbackAtomicEntryBatch batch).entries.map (·.id)).Nodup := by
  rw [entries_rollback, map_map]
  exact h.nodup.sublist ((filter_sublist).map _)

/-- What is retained resolves in the rebuilt index. -/
theorem Consistent.resolves_rollback (h : m.Consistent) {id : String} (hid : id ∈ m.usedIds)
    (hnot : id ∉ batch.entryIds) :
    ((m.rollbackAtomicEntryBatch batch).index.entriesById.get id).isSome = true := by
  obtain ⟨entry, hentry, rfl⟩ := h.mem_rollback hid hnot
  have hget : (m.rollbackAtomicEntryBatch batch).index.entriesById.get entry.id = some entry := by
    rw [show (m.rollbackAtomicEntryBatch batch).index.entriesById =
        indexById (m.rollbackAtomicEntryBatch batch).entries from
      SessionEntryIndex.entriesById_rebuild _]
    exact get_indexById h.nodup_rollback hentry
  rw [hget]
  rfl

theorem Consistent.parent_rollback (h : m.Consistent) {entry : SessionEntry}
    (he : entry ∈ (m.rollbackAtomicEntryBatch batch).entries) :
    ∀ parentId ∈ entry.parentId,
      ((m.rollbackAtomicEntryBatch batch).index.entriesById.get parentId).isSome = true := by
  obtain ⟨old, hold, rfl⟩ := mem_map.mp he
  have hused := h.parent_used (mem_filter.mp hold).1
  intro parentId hparent
  obtain ⟨hmem, hnot⟩ := NearestRetained.mem h hused (h.nearestRetained_of_mem hused) parentId hparent
  exact h.resolves_rollback hmem hnot

/-- The restored leaf is the nearest retained ancestor of the leaf that the batch kept. -/
theorem Consistent.leaf_rollback (h : m.Consistent) (hkept : ∀ id ∈ keptLeaf batch, id ∈ m.usedIds) :
    NearestRetained m.index.entriesById batch.entryIds (keptLeaf batch)
      (m.rollbackAtomicEntryBatch batch).index.leaf := by
  have hnearest : NearestRetained m.index.entriesById batch.entryIds (keptLeaf batch)
      (retainedAncestor m.index batch.entryIds (m.index.entriesById.length + 1) []
        (keptLeaf batch)) := h.nearestRetained_of_mem hkept
  have hleaf : (m.rollbackAtomicEntryBatch batch).index.leaf =
      retainedAncestor m.index batch.entryIds (m.index.entriesById.length + 1) []
        (keptLeaf batch) := by
    refine filter_of_forall fun id hid => ?_
    obtain ⟨hmem, hnot⟩ := NearestRetained.mem h hkept hnearest id hid
    have hne : id ≠ "" := by
      rw [h.used] at hmem
      obtain ⟨entry, hentry, rfl⟩ := mem_map.mp hmem
      exact h.ne entry hentry
    have hhas := h.resolves_rollback hmem hnot
    rw [Bool.and_eq_true]
    exact ⟨decide_eq_true hne, hhas⟩
  rw [hleaf]
  exact hnearest

end Rollback

end SessionManager

end Journal

end BreadboardTui
