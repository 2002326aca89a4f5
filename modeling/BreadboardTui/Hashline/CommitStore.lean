import BreadboardTui.Hashline.Patcher
import BreadboardTui.Hashline.Snapshots

/-!
# The snapshots after a failed commit

A commit calls the filesystem and the snapshot store in turn, and a call on the filesystem may
throw: then the calls behind it are not made. Deleting, writing and leaving a file as it is call
the store last. A move calls it first, and takes the history of the file to a path where the file
does not come to be.
-/

namespace BreadboardTui.Hashline

namespace Patcher

variable {ε : Type}

/-- The call is one on the filesystem. -/
def Call.onFilesystem : Call → Bool
  | .delete _ | .move _ _ _ | .writeText _ _ => true
  | .record _ _ | .relocate _ _ | .invalidate _ => false

/-- What a call does to the snapshot store, at the time `now`. -/
def Call.onStore (o : StoreOptions (List Char)) (now : ℕ) (store : SnapshotStore (List Char)) :
    Call → SnapshotStore (List Char)
  | .record canonicalPath text => o.record canonicalPath text none now store
  | .relocate canonicalPath dest => o.relocate canonicalPath dest store
  | .invalidate canonicalPath => JsMap.delete store canonicalPath
  | .delete _ | .move _ _ _ | .writeText _ _ => store

/-- The calls are made in turn, up to the first one on the filesystem that throws: the store, and
whether a call has thrown. -/
def carryOut (o : StoreOptions (List Char)) (now : ℕ) (throws : Call → Bool)
    (store : SnapshotStore (List Char)) : List Call → SnapshotStore (List Char) × Bool
  | [] => (store, false)
  | call :: calls =>
    if call.onFilesystem && throws call then (store, true)
    else carryOut o now throws (call.onStore o now store) calls

/-- Two stores answer every lookup alike. -/
structure SameAnswers (store store' : SnapshotStore (List Char)) : Prop where
  head : ∀ path, store'.head path = store.head path
  byHash : ∀ path hash, store'.byHash path hash = store.byHash path hash
  byContent : ∀ path text, store'.byContent path text = store.byContent path text
  findByHash : ∀ hash, store'.findByHash hash = store.findByHash hash

/-- The section moves a file that the store has a version of. -/
def MovesKept (store : SnapshotStore (List Char)) (prepared : PreparedSection) : Prop :=
  (∃ dest, prepared.fileOp = some (.move dest)) ∧ (store.head prepared.canonicalPath).isSome

variable {o : StoreOptions (List Char)} {now : ℕ} {throws : Call → Bool}
  {store : SnapshotStore (List Char)} {prepared : PreparedSection}

theorem SameAnswers.refl (store : SnapshotStore (List Char)) : SameAnswers store store :=
  ⟨fun _ => rfl, fun _ _ => rfl, fun _ _ => rfl, fun _ => rfl⟩

/-- Without the entry of an empty history there are the same matches. -/
theorem findByHash_delete {path : String} (hkeys : JsMap.KeysNodup store)
    (hget : JsMap.get store path = some []) (hash : String) :
    SnapshotStore.findByHash (JsMap.delete store path) hash =
      SnapshotStore.findByHash store hash := by
  induction store with
  | nil => cases hget
  | cons entry store ih =>
    obtain ⟨hentry, hstore⟩ := List.nodup_cons.mp hkeys
    rw [JsMap.get_cons] at hget
    by_cases hpath : path = entry.1
    · rw [if_pos hpath] at hget
      have hdelete : JsMap.delete (entry :: store) path = store := by
        rw [JsMap.delete, List.filter_cons, if_neg (by simp [hpath]), ← JsMap.delete,
          Limits.delete_eq_self (hpath ▸ hentry)]
      rw [hdelete]
      simp [SnapshotStore.findByHash, JsMap.values, Option.some.inj hget]
    rw [if_neg hpath] at hget
    have hdelete : JsMap.delete (entry :: store) path = entry :: JsMap.delete store path := by
      rw [JsMap.delete, List.filter_cons, if_pos (by simpa using Ne.symm hpath), ← JsMap.delete]
    have hrest := ih hstore hget
    simp only [SnapshotStore.findByHash, JsMap.values] at hrest
    rw [hdelete]
    simp [SnapshotStore.findByHash, JsMap.values, hrest]

/-- Reading an empty history changes no answer. -/
theorem sameAnswers_touch {path : String} (hkeys : JsMap.KeysNodup store)
    (hget : JsMap.get store path = some []) : SameAnswers store (Limits.touch path store) := by
  refine ⟨?_, ?_, ?_, ?_⟩
  · intro p
    rw [SnapshotStore.head, Limits.get_touch, SnapshotStore.head]
  · intro p hash
    rw [SnapshotStore.byHash, Limits.get_touch, SnapshotStore.byHash]
  · intro p text
    rw [SnapshotStore.byContent, Limits.get_touch, SnapshotStore.byContent]
  intro hash
  rw [← findByHash_delete hkeys hget hash, Limits.touch, hget]
  simp [SnapshotStore.findByHash, JsMap.values]

/-- A move of a path without a version changes no answer. -/
theorem sameAnswers_relocate {source dest : String} (hkeys : JsMap.KeysNodup store)
    (hhead : store.head source = none) : SameAnswers store (o.relocate source dest store) := by
  cases hget : JsMap.get store source with
  | none =>
    rw [StoreOptions.relocate, hget]
    exact SameAnswers.refl store
  | some history =>
    cases history with
    | nil =>
      rw [StoreOptions.relocate, hget]
      exact sameAnswers_touch hkeys hget
    | cons =>
      rw [SnapshotStore.head, hget] at hhead
      cases hhead

/-- A move of a path with a version leaves none at the path. -/
theorem head_relocate {source dest : String} (hhead : (store.head source).isSome) :
    (o.relocate source dest store).head source = none := by
  cases hget : JsMap.get store source with
  | none => simp [SnapshotStore.head, hget] at hhead
  | some history =>
    cases history with
    | nil => simp [SnapshotStore.head, hget] at hhead
    | cons =>
      simp only [StoreOptions.relocate, hget, SnapshotStore.head]
      split
      · rw [JsMap.get_delete_self, Option.bind_none]
      · rw [JsMap.get_delete_self, Option.bind_none]

/-- Where a commit has thrown: in front of its calls on the store, or, when it moves a file, behind
the first of them. -/
theorem store_of_threw {patcher : Patcher ε}
    (h : (carryOut o now throws store (patcher.commit prepared).1).2 = true) :
    match prepared.fileOp with
    | some (.move dest) =>
      (carryOut o now throws store (patcher.commit prepared).1).1 =
        o.relocate prepared.canonicalPath (patcher.canonicalPath dest) store
    | _ => (carryOut o now throws store (patcher.commit prepared).1).1 = store := by
  rw [commit] at h ⊢
  cases hop : prepared.fileOp with
  | none =>
    simp only [hop] at h ⊢
    -- without a change no call is made on the filesystem, so that none throws
    by_cases hsame : prepared.applyResult.text = prepared.normalized
    · simp [hsame, carryOut, Call.onFilesystem] at h
    simp only [hsame, if_false] at h ⊢
    simp only [carryOut, Call.onFilesystem, Bool.true_and, Bool.false_and] at h ⊢
    split at h
    · next hthrows => rw [if_pos hthrows]
    · cases h
  | some op =>
    cases op with
    | rem =>
      simp only [hop] at h ⊢
      simp only [carryOut, Call.onFilesystem, Bool.true_and, Bool.false_and] at h ⊢
      split at h
      · next hthrows => rw [if_pos hthrows]
      · cases h
    | move =>
      simp only [hop] at h ⊢
      simp only [carryOut, Call.onFilesystem, Bool.true_and, Bool.false_and, Bool.false_eq_true,
        if_false] at h ⊢
      split at h
      · next hthrows =>
        rw [if_pos hthrows]
        rfl
      · cases h

/-- A commit that throws leaves the answers of the store as they were if and only if it does not
move a file that the store has a version of. -/
theorem sameAnswers_iff (patcher : Patcher ε) (prepared : PreparedSection)
    (o : StoreOptions (List Char)) (calls : List (StoreOptions.Call (List Char))) (now : ℕ)
    (throws : Call → Bool)
    (hthrew : (carryOut o now throws (o.run [] (fun _ => []) calls).1
      (patcher.commit prepared).1).2 = true) :
    SameAnswers (o.run [] (fun _ => []) calls).1
        (carryOut o now throws (o.run [] (fun _ => []) calls).1 (patcher.commit prepared).1).1 ↔
      ¬MovesKept (o.run [] (fun _ => []) calls).1 prepared := by
  have hempty : JsMap.KeysNodup ([] : SnapshotStore (List Char)) := List.nodup_nil
  have hkeys : JsMap.KeysNodup (o.run [] (fun _ => []) calls).1 :=
    StoreOptions.keys_run hempty _ calls
  generalize (o.run [] (fun _ => []) calls).1 = store at hthrew hkeys
  have hstore := store_of_threw hthrew
  by_cases hmove : ∃ dest, prepared.fileOp = some (.move dest)
  · obtain ⟨dest, hop⟩ := hmove
    simp only [hop] at hstore
    rw [hstore]
    constructor
    · -- the history that was moved away is missing at its path
      rintro hsame ⟨-, hhead⟩
      have hnone := hsame.head prepared.canonicalPath
      rw [head_relocate hhead] at hnone
      rw [← hnone] at hhead
      cases hhead
    intro hnot
    refine sameAnswers_relocate hkeys ?_
    rw [← Option.not_isSome_iff_eq_none]
    exact fun hhead => hnot ⟨⟨dest, hop⟩, hhead⟩
  have hunchanged : (carryOut o now throws store (patcher.commit prepared).1).1 = store := by
    cases hop : prepared.fileOp with
    | none => simpa only [hop] using hstore
    | some op =>
      cases op with
      | rem => simpa only [hop] using hstore
      | move dest => exact (hmove ⟨dest, hop⟩).elim
  rw [hunchanged]
  exact ⟨fun _ hmoves => hmove hmoves.1, fun _ => SameAnswers.refl store⟩

section Examples

/-- A store for a few files, whose tags are all alike. -/
def fewFiles : StoreOptions (List Char) where
  maxPaths := 4
  maxVersionsPerPath := 4
  maxTotalBytes := 100
  textLength := List.length
  computeFileHash _ := "0000"

/-- A write that throws leaves the store as it was. -/
theorem sameAnswers_write :
    SameAnswers (fewFiles.run [] (fun _ => []) [.record "old.txt" "a\nb\nc".toList none 0]).1
      (carryOut fewFiles 1 (fun _ => true)
        (fewFiles.run [] (fun _ => []) [.record "old.txt" "a\nb\nc".toList none 0]).1
        (movingPatcher.commit { movedSection with
          fileOp := none, applyResult := ⟨"a\nb".toList, none, []⟩ }).1).1 :=
  (sameAnswers_iff movingPatcher _ fewFiles [.record "old.txt" "a\nb\nc".toList none 0] 1
    (fun _ => true) (by decide +kernel)).mpr (by
      rintro ⟨⟨dest, hop⟩, -⟩
      exact nomatch hop)

/-- A move that throws takes the history with it all the same. -/
theorem not_sameAnswers_move :
    ¬ ∀ (o : StoreOptions (List Char)) (calls : List (StoreOptions.Call (List Char)))
      (prepared : PreparedSection) (throws : Call → Bool),
      (carryOut o 1 throws (o.run [] (fun _ => []) calls).1
        (movingPatcher.commit prepared).1).2 = true →
          SameAnswers (o.run [] (fun _ => []) calls).1
            (carryOut o 1 throws (o.run [] (fun _ => []) calls).1
              (movingPatcher.commit prepared).1).1 := by
  intro hall
  have hsame := hall fewFiles [.record "old.txt" "a\nb\nc".toList none 0] movedSection
    (fun _ => true) (by decide +kernel)
  exact absurd (hsame.head "old.txt") (by decide +kernel)

end Examples

end Patcher

end BreadboardTui.Hashline
