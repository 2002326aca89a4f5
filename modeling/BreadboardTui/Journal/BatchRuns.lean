import BreadboardTui.Journal.BatchRollback

/-!
# The journal during a batch

What holds while the callback of a batch runs is `Collecting`, what holds of the calls of others is
`Outside`. The latter follows two runs: the one over the batch and the one that would have been, had
the batch not been staged. Both take the same ids, so they stay comparable.
-/

namespace BreadboardTui

open List

namespace Journal

namespace SessionManager

/-! ### The callback -/

section Callback

variable {generateId : List String → String} {m a : SessionManager}
  {added deferred : List SessionEntry} {ids : List String} {renamed : Bool}

/-- A journal while the callback runs. -/
structure Collecting (m a : SessionManager) (added deferred : List SessionEntry)
    (ids : List String) (renamed : Bool) : Prop where
  consistent : a.Consistent
  entries : a.entries = m.entries ++ added
  batch : a.atomicEntryBatch = some ⟨true, ids, deferred, m.index.leaf, false, none⟩
  pending : a.pendingDurabilityNotifications = m.pendingDurabilityNotifications
  notified : renamed = false → a.notified = m.notified
  whole : renamed = false → ids = added.map (·.id) ∧ deferred = added
  escaped : renamed = true → ∃ entry ∈ added, entry.id ∉ ids
  used : ∀ id ∈ ids, id ∈ a.usedIds

theorem Collecting.initial (h : m.Consistent) :
    Collecting m { m with atomicEntryBatch := some ⟨true, [], [], m.index.leaf, false, none⟩ }
      [] [] [] false :=
  ⟨h.of_leaf rfl rfl h.leaf, (append_nil _).symm, rfl, rfl, fun _ => rfl,
    fun _ => ⟨rfl, rfl⟩, fun h => (nomatch h), fun _ h => nomatch h⟩

theorem Collecting.notMem (h : Collecting m a added deferred ids renamed) {entry : SessionEntry}
    (hadd : a.Addable entry) : ∀ e ∈ added, e.id ≠ entry.id := by
  intro e he heq
  refine hadd.fresh ?_
  rw [h.consistent.used, h.entries, ← heq]
  exact mem_map_of_mem (mem_append_right _ he)

theorem Collecting.record (h : Collecting m a added deferred ids renamed) {entry : SessionEntry}
    (hadd : a.Addable entry) {a' : SessionManager} (hconsistent : a'.Consistent)
    (hentries : a'.entries = a.entries ++ [entry])
    (hbatch : a'.atomicEntryBatch = a.atomicEntryBatch.map (AtomicEntryBatch.record · entry))
    (hpending : a'.pendingDurabilityNotifications = a.pendingDurabilityNotifications)
    (hnotified : a'.notified = a.notified) (hused : a'.usedIds = a.usedIds ++ [entry.id]) :
    Collecting m a' (added ++ [entry]) (deferred ++ [entry]) (ids ++ [entry.id]) renamed := by
  refine ⟨hconsistent, ?_, ?_, hpending.trans h.pending, fun hr => hnotified.trans (h.notified hr),
    fun hr => ?_, fun hr => ?_, fun id hid => ?_⟩
  · rw [hentries, h.entries, append_assoc]
  · rw [hbatch, h.batch]
    rfl
  · obtain ⟨rfl, rfl⟩ := h.whole hr
    exact ⟨by rw [map_append]; rfl, rfl⟩
  · obtain ⟨e, he, hnot⟩ := h.escaped hr
    refine ⟨e, mem_append_left _ he, fun hmem => ?_⟩
    rcases mem_append.mp hmem with hmem | hmem
    · exact hnot hmem
    · exact h.notMem hadd e he (mem_singleton.mp hmem)
  rw [hused]
  rcases mem_append.mp hid with hid | hid
  · exact mem_append_left _ (h.used id hid)
  · exact mem_append_right _ hid

theorem Collecting.call (h : Collecting m a added deferred ids renamed)
    (hfresh : ∀ used, generateId used ∉ used) (hne : ∀ used, generateId used ≠ "")
    (c : JournalCall) :
    ∃ added' deferred' ids', Collecting m (a.call generateId c) added' deferred' ids'
      (renamed || a.effect c == .title) := by
  have hcall := h.consistent.call hfresh hne c
  have hconsistent := h.consistent.keeps_call hfresh hne c
  have hbatch : a.atomicEntryBatch.isSome = true := by rw [h.batch]; rfl
  have hsame : ∀ k : Effect, k ≠ .title → (renamed || k == .title) = renamed := by
    intro k hk
    rw [beq_false_of_ne hk, Bool.or_false]
  cases heffect : a.effect c <;> simp only [heffect] at hcall
  · rw [hcall, hsame _ (by decide)]
    exact ⟨_, _, _, h⟩
  · rw [hcall.2] at hconsistent ⊢
    rw [hsame _ (by decide)]
    refine ⟨added, deferred, ids, hconsistent, h.entries, ?_, h.pending, h.notified, h.whole,
      h.escaped, h.used⟩
    rw [SessionManager.setLeaf, h.batch]
    rfl
  · obtain ⟨entry, hadd, -, heq⟩ := hcall
    rw [heq] at hconsistent ⊢
    rw [hsame _ (by decide)]
    exact ⟨_, _, _, h.record hadd hconsistent rfl rfl rfl (if_pos hbatch) hadd.usedIds_recordEntry⟩
  · obtain ⟨entry, hadd, -, heq⟩ := hcall
    rw [heq] at hconsistent ⊢
    rw [hsame _ (by decide)]
    exact ⟨_, _, _, h.record hadd hconsistent rfl rfl rfl (if_pos hbatch) hadd.usedIds_recordEntry⟩
  obtain ⟨entry, hadd, -, heq⟩ := hcall
  rw [heq] at hconsistent ⊢
  have hused : (a.titled entry (titleOf c)).usedIds = a.usedIds ++ [entry.id] :=
    hadd.usedIds_recordEntry
  refine ⟨added ++ [entry], deferred, ids, hconsistent, ?_, h.batch, h.pending, ?_, ?_,
    fun _ => ⟨entry, by simp, fun hmem => hadd.fresh (h.used _ hmem)⟩, fun id hid => ?_⟩
  · change a.entries ++ [entry] = _
    rw [h.entries, append_assoc]
  · simp
  · simp
  rw [hused]
  exact mem_append_left _ (h.used id hid)

theorem Collecting.calls (h : Collecting m a added deferred ids renamed)
    (hfresh : ∀ used, generateId used ∉ used) (hne : ∀ used, generateId used ≠ "")
    (cs : List JournalCall) :
    ∃ added' deferred' ids', Collecting m (SessionManager.calls generateId a cs) added' deferred'
      ids' (renamed || (a.effects generateId cs).contains .title) := by
  induction cs generalizing a added deferred ids renamed with
  | nil =>
    refine ⟨added, deferred, ids, ?_⟩
    rw [effects, contains_nil, Bool.or_false]
    exact h
  | cons c cs ih =>
    obtain ⟨added', deferred', ids', hcall⟩ := h.call hfresh hne c
    obtain ⟨added'', deferred'', ids'', hcalls⟩ := ih hcall
    refine ⟨added'', deferred'', ids'', ?_⟩
    have hcontains : (a.effects generateId (c :: cs)).contains .title =
        (a.effect c == .title || ((a.call generateId c).effects generateId cs).contains .title) := by
      rw [effects, contains_cons, BEq.comm]
    rwa [hcontains, ← Bool.or_assoc]

end Callback

/-! ### The calls of others -/

/-- The last call of a run that took effect. -/
def lastEffect (es : List Effect) : Effect :=
  es.foldl (fun last e => if e = .none then last else e) .none

section Outside

variable {generateId : List String → String} {s a u : SessionManager} {ids : List String}
  {deferred : List SessionEntry} {last : Effect}

/-- A run of others over a batch, `a`, next to the same run without one, `u`. -/
structure Outside (s a u : SessionManager) (ids : List String) (deferred : List SessionEntry)
    (last : Effect) (added titles others : List SessionEntry) (batch : AtomicEntryBatch) : Prop where
  consistent : a.Consistent
  unstaged : u.Consistent
  free : u.atomicEntryBatch = none
  used : u.usedIds = a.usedIds
  named : u.sessionName = a.sessionName ∧ u.titleSource = a.titleSource
  entries : a.entries = s.entries ++ added
  active : a.atomicEntryBatch = some batch
  collecting : batch.collecting = false
  entryIds : batch.entryIds = ids
  deferred : batch.deferredNotifications = deferred ++ others
  pending : a.pendingDurabilityNotifications = s.pendingDurabilityNotifications
  notified : a.notified = s.notified ++ titles
  shared : (titles ++ others).Perm added
  kept : ∀ id ∈ keptLeaf batch, id ∈ a.usedIds
  /-- A leaf that went through the batch is the leaf of the other run. -/
  tracked : last ≠ .title → last ≠ .toBranch → keptLeaf batch = u.index.leaf
  /-- A leaf that did not is told apart by the last entry. -/
  missed : last = .title ∨ last = .toBranch → ∃ init entry, added = init ++ [entry] ∧
    ((u.index.leaf = some entry.id ∧ keptLeaf batch ≠ some entry.id) ∨
      (keptLeaf batch = some entry.id ∧ u.index.leaf ≠ some entry.id))

theorem Consistent.has_congr {m m' : SessionManager} (h : m.Consistent) (h' : m'.Consistent)
    (hused : m'.usedIds = m.usedIds) : m'.has = m.has := by
  funext id
  rw [Bool.eq_iff_iff, h.has_iff, h'.has_iff, hused]

/-- A call takes the same effect on a journal with the same ids and the same title. -/
theorem effect_congr {m m' : SessionManager} (hhas : m'.has = m.has)
    (htitle : m'.titleSource = m.titleSource) (c : JournalCall) : m'.effect c = m.effect c := by
  cases c with
  | append timestamp body => cases body <;> simp only [effect, hhas]
  | _ => simp [effect, hhas, htitle]

theorem Consistent.ne_some_of_used {m : SessionManager} {entry : SessionEntry} (hadd : m.Addable entry)
    {id : Option String} (hid : ∀ i ∈ id, i ∈ m.usedIds) : id ≠ some entry.id := by
  intro heq
  exact hadd.fresh (hid entry.id heq)

theorem perm_snoc {titles others added : List SessionEntry} (h : (titles ++ others).Perm added)
    (entry : SessionEntry) : (titles ++ (others ++ [entry])).Perm (added ++ [entry]) := by
  rw [← append_assoc]
  exact h.append_right [entry]

theorem perm_snoc_left {titles others added : List SessionEntry} (h : (titles ++ others).Perm added)
    (entry : SessionEntry) : (titles ++ [entry] ++ others).Perm (added ++ [entry]) := by
  rw [append_assoc, singleton_append]
  exact perm_middle.trans ((h.cons entry).trans (perm_append_singleton entry added).symm)

variable {added titles others : List SessionEntry} {batch : AtomicEntryBatch}

theorem Outside.usedIds_recordEntry (h : Outside s a u ids deferred last added titles others batch)
    {entry entry' : SessionEntry} (hadd : a.Addable entry) (hadd' : u.Addable entry')
    (hid : entry'.id = entry.id) :
    (u.recordEntry entry').usedIds = (a.recordEntry entry).usedIds := by
  rw [hadd.usedIds_recordEntry, hadd'.usedIds_recordEntry, h.used, hid]

/-- An entry that both runs record, wherever they then put the leaf. -/
theorem Outside.record (h : Outside s a u ids deferred last added titles others batch)
    {entry entry' : SessionEntry} (hadd : a.Addable entry) (hadd' : u.Addable entry')
    (hid : entry'.id = entry.id) {leaf leaf' : Option String} {last' : Effect}
    (hconsistent : ((a.recordEntry entry).setIndexLeaf leaf).Consistent)
    (hunstaged : ((u.recordEntry entry').setIndexLeaf leaf').Consistent)
    (htracked : last' ≠ .title → last' ≠ .toBranch → leaf' = some entry.id)
    (hmissed : last' = .title ∨ last' = .toBranch → leaf' ≠ some entry.id) :
    Outside s ((a.recordEntry entry).setIndexLeaf leaf) ((u.recordEntry entry').setIndexLeaf leaf')
      ids deferred last' (added ++ [entry]) titles (others ++ [entry])
      (AtomicEntryBatch.record batch entry) := by
  have hkept : keptLeaf (AtomicEntryBatch.record batch entry) = some entry.id := by
    rw [AtomicEntryBatch.record, h.collecting]
    rfl
  refine ⟨hconsistent, hunstaged, ?_, h.usedIds_recordEntry hadd hadd' hid, h.named, ?_, ?_, ?_, ?_,
    ?_, h.pending, ?_, perm_snoc h.shared entry, ?_, fun htitle hbranch => ?_,
    fun hbad => ⟨added, entry, rfl, .inr ⟨hkept, hmissed hbad⟩⟩⟩
  · rw [SessionManager.recordEntry, h.free]
    rfl
  · change a.entries ++ [entry] = _
    rw [h.entries, append_assoc]
  · rw [SessionManager.recordEntry, h.active]
    rfl
  · rw [AtomicEntryBatch.record, h.collecting]
    rfl
  · rw [AtomicEntryBatch.record, h.collecting]
    exact h.entryIds
  · rw [AtomicEntryBatch.record, h.collecting, h.deferred, append_assoc]
    rfl
  · rw [SessionManager.recordEntry, h.active]
    exact h.notified
  · intro id hid
    rw [hkept] at hid
    cases hid
    change _ ∈ (a.recordEntry entry).usedIds
    rw [hadd.usedIds_recordEntry]
    exact mem_append_right _ (mem_singleton_self _)
  rw [hkept, htracked htitle hbranch]
  rfl

theorem Outside.call (h : Outside s a u ids deferred last added titles others batch)
    (hfresh : ∀ used, generateId used ∉ used) (hne : ∀ used, generateId used ≠ "")
    (c : JournalCall) :
    u.effect c = a.effect c ∧ ∃ added' titles' others' batch',
      Outside s (a.call generateId c) (u.call generateId c) ids deferred
        (if a.effect c = .none then last else a.effect c) added' titles' others' batch' := by
  have heffect : u.effect c = a.effect c :=
    effect_congr (h.consistent.has_congr h.unstaged h.used) h.named.2 c
  have hcall := h.consistent.call hfresh hne c
  have hcall' := h.unstaged.call hfresh hne c
  have hconsistent := h.consistent.keeps_call hfresh hne c
  have hunstaged := h.unstaged.keeps_call hfresh hne c
  refine ⟨heffect, ?_⟩
  rw [heffect] at hcall'
  cases hkind : a.effect c <;> simp only [hkind] at hcall hcall'
  · rw [hcall, hcall', if_pos rfl]
    exact ⟨_, _, _, _, h⟩
  · rw [hcall.2] at hconsistent ⊢
    rw [hcall'.2] at hunstaged ⊢
    rw [if_neg (by decide)]
    refine ⟨added, titles, others,
      { batch with externalLeafChanged := true, externalLeafId := leafTarget c },
      hconsistent, hunstaged, ?_, h.used, h.named, h.entries, ?_, h.collecting, h.entryIds,
      h.deferred, h.pending, h.notified, h.shared, hcall.1, fun _ _ => rfl, ?_⟩
    · rw [SessionManager.setLeaf, h.free]
      rfl
    · rw [SessionManager.setLeaf, h.active, Option.map_some, h.collecting]
      rfl
    · rintro (hbad | hbad) <;> cases hbad
  · obtain ⟨entry, hadd, hid, heq⟩ := hcall
    obtain ⟨entry', hadd', hid', heq'⟩ := hcall'
    have hsame : entry'.id = entry.id := by rw [hid, hid', h.used]
    rw [heq] at hconsistent ⊢
    rw [heq'] at hunstaged ⊢
    rw [if_neg (by decide)]
    refine ⟨_, _, _, _, h.record hadd hadd' hsame hconsistent hunstaged
      (fun _ _ => congrArg some hsame) ?_⟩
    rintro (hbad | hbad) <;> cases hbad
  · obtain ⟨entry, hadd, hid, heq⟩ := hcall
    obtain ⟨entry', hadd', hid', heq'⟩ := hcall'
    have hsame : entry'.id = entry.id := by rw [hid, hid', h.used]
    rw [heq] at hconsistent ⊢
    rw [heq'] at hunstaged ⊢
    rw [if_neg (by decide)]
    refine ⟨_, _, _, _, h.record hadd hadd' hsame hconsistent hunstaged
      (fun _ hnot => absurd rfl hnot) fun _ => ?_⟩
    -- the other run keeps its leaf, which is older than the entry
    rw [← hsame]
    exact Consistent.ne_some_of_used hadd' h.unstaged.leaf
  obtain ⟨entry, hadd, hid, heq⟩ := hcall
  obtain ⟨entry', hadd', hid', heq'⟩ := hcall'
  have hsame : entry'.id = entry.id := by rw [hid, hid', h.used]
  have hused : (u.titled entry' (titleOf c)).usedIds = (a.titled entry (titleOf c)).usedIds :=
    h.usedIds_recordEntry hadd hadd' hsame
  rw [heq] at hconsistent ⊢
  rw [heq'] at hunstaged ⊢
  rw [if_neg (by decide)]
  refine ⟨added ++ [entry], titles ++ [entry], others, batch, hconsistent, hunstaged, h.free,
    hused, ⟨rfl, rfl⟩, ?_, h.active, h.collecting, h.entryIds, h.deferred, h.pending, ?_,
    perm_snoc_left h.shared entry, ?_, fun hnot => absurd rfl hnot,
    fun _ => ⟨added, entry, rfl, .inl ⟨congrArg some hsame, ?_⟩⟩⟩
  · change a.entries ++ [entry] = _
    rw [h.entries, append_assoc]
  · change a.notified ++ [entry] = _
    rw [h.notified, append_assoc]
  · change ∀ id ∈ keptLeaf batch, id ∈ (a.recordEntry entry).usedIds
    rw [hadd.usedIds_recordEntry]
    exact fun id hid => mem_append_left _ (h.kept id hid)
  · exact Consistent.ne_some_of_used hadd h.kept

theorem Outside.calls (h : Outside s a u ids deferred last added titles others batch)
    (hfresh : ∀ used, generateId used ∉ used) (hne : ∀ used, generateId used ≠ "")
    (cs : List JournalCall) :
    ∃ added' titles' others' batch',
      Outside s (SessionManager.calls generateId a cs) (SessionManager.calls generateId u cs) ids
        deferred ((a.effects generateId cs).foldl (fun last e => if e = .none then last else e) last)
        added' titles' others' batch' := by
  induction cs generalizing a u last added titles others batch with
  | nil => exact ⟨added, titles, others, batch, h⟩
  | cons c cs ih =>
    obtain ⟨-, added', titles', others', batch', hcall⟩ := h.call hfresh hne c
    exact ih hcall

end Outside

end SessionManager

end Journal

end BreadboardTui
