import BreadboardTui.Lib.LruCache

/-!
# Snapshots of files

A tag names a text of a file that a reader was shown. The store keeps, for each path, the last
few texts that were recorded for it, and finds a text again by its tag. The histories of all paths
stand in one cache, which is limited in the number of paths and in the size of all texts.

The length of a text and its tag are parameters: the store uses the tag as an index only.
-/

namespace BreadboardTui.Hashline

open List

/-- One version of a file. The lines that were shown of it are a set, absent if none were
recorded. -/
structure Snapshot (τ : Type) where
  path : String
  text : τ
  hash : String
  recordedAt : ℕ
  seenLines : Option (List ℕ) := none
  deriving DecidableEq, Repr

def Snapshot.mergeSeenLines {τ : Type} (snapshot : Snapshot τ) :
    Option (List ℕ) → Snapshot τ
  | none => snapshot
  | some lines => { snapshot with seenLines := some ((snapshot.seenLines.getD []).union lines) }

@[simp] theorem Snapshot.text_mergeSeenLines {τ : Type} (snapshot : Snapshot τ)
    (lines : Option (List ℕ)) : (snapshot.mergeSeenLines lines).text = snapshot.text := by
  cases lines <;> rfl

@[simp] theorem Snapshot.hash_mergeSeenLines {τ : Type} (snapshot : Snapshot τ)
    (lines : Option (List ℕ)) : (snapshot.mergeSeenLines lines).hash = snapshot.hash := by
  cases lines <;> rfl

/-- The histories by path, the least recently used one first. -/
abbrev SnapshotStore (τ : Type) : Type := JsMap String (List (Snapshot τ))

namespace SnapshotStore

variable {τ : Type} [DecidableEq τ]

/-! ### Lookups

Beside its answer a lookup has the effect that the path is the most recently used one:
`Call.lookup`. -/

def head (store : SnapshotStore τ) (path : String) : Option (Snapshot τ) :=
  (JsMap.get store path).bind List.head?

def byHash (store : SnapshotStore τ) (path hash : String) : Option (Snapshot τ) :=
  (JsMap.get store path).bind (List.find? fun version => version.hash = hash)

def byContent (store : SnapshotStore τ) (path : String) (fullText : τ) : Option (Snapshot τ) :=
  (JsMap.get store path).bind (List.find? fun version => version.text = fullText)

/-- The matches of all paths, from the most recently used path on. -/
def findByHash (store : SnapshotStore τ) (hash : String) : List (Snapshot τ) :=
  (JsMap.values store).reverse.flatMap (List.filter fun version => version.hash = hash)

end SnapshotStore

structure StoreOptions (τ : Type) where
  maxPaths : ℕ
  maxVersionsPerPath : ℕ
  maxTotalBytes : ℕ
  textLength : τ → ℕ
  computeFileHash : τ → String

namespace StoreOptions

variable {τ : Type} [DecidableEq τ] (o : StoreOptions τ)

/-- The limits of the cache of histories. -/
def limits : Limits (List (Snapshot τ)) where
  max := o.maxPaths
  maxSize := o.maxTotalBytes
  sizeCalculation history := 1 + (history.map fun version => o.textLength version.text).sum

/-- The version has this tag and this text. -/
def sameVersion (fullText : τ) (version : Snapshot τ) : Bool :=
  version.hash = o.computeFileHash fullText && version.text = fullText

def record (path : String) (fullText : τ) (seenLines : Option (List ℕ)) (now : ℕ)
    (store : SnapshotStore τ) : SnapshotStore τ :=
  let touched := Limits.touch path store
  let history := (JsMap.get touched path).getD []
  match history.find? (o.sameVersion fullText) with
  | some existing =>
    let updated := { existing with recordedAt := now }.mergeSeenLines seenLines
    let promoted := updated :: history.eraseP (o.sameVersion fullText)
    -- at the head of its history the version is updated in place
    if history.head?.any (o.sameVersion fullText) then JsMap.set path promoted touched
    else o.limits.set path promoted touched
  | none =>
    let snapshot : Snapshot τ := ⟨path, fullText, o.computeFileHash fullText, now, none⟩
    o.limits.set path ((snapshot.mergeSeenLines seenLines :: history).take o.maxVersionsPerPath)
      touched

/-- Updates the first version with the tag, in place. -/
def markSeen (hash : String) (lines : List ℕ) : List (Snapshot τ) → List (Snapshot τ)
  | [] => []
  | version :: history =>
    if version.hash = hash then version.mergeSeenLines (some lines) :: history
    else version :: markSeen hash lines history

def recordSeenLines (path hash : String) (lines : List ℕ) (store : SnapshotStore τ) :
    SnapshotStore τ :=
  match JsMap.get store path with
  | none => store
  | some history => JsMap.set path (markSeen hash lines history) (Limits.touch path store)

/-- The versions whose tag has not been seen before. -/
def distinctHashes (seen : List String) : List (Snapshot τ) → List (Snapshot τ)
  | [] => []
  | version :: versions =>
    if version.hash ∈ seen then distinctHashes seen versions
    else version :: distinctHashes (version.hash :: seen) versions

def relocate (source dest : String) (store : SnapshotStore τ) : SnapshotStore τ :=
  match JsMap.get store source with
  | none => store
  | some [] => Limits.touch source store
  | some sourceHistory =>
    let touched := Limits.touch dest (Limits.touch source store)
    let relocated := sourceHistory.map fun version => { version with path := dest }
    match JsMap.get touched dest with
    | none => JsMap.delete (o.limits.set dest relocated touched) source
    | some destHistory =>
      JsMap.delete
        (o.limits.set dest
          ((distinctHashes [] (relocated ++ destHistory)).take o.maxVersionsPerPath) touched)
        source

/-- A call on the store. -/
inductive Call (τ : Type) where
  | record (path : String) (fullText : τ) (seenLines : Option (List ℕ)) (now : ℕ)
  | recordSeenLines (path hash : String) (lines : List ℕ)
  | relocate (source dest : String)
  | invalidate (path : String)
  /-- `head`, `byHash` or `byContent`. -/
  | lookup (path : String)
  | findByHash (hash : String)
  | clear

def step (store : SnapshotStore τ) : Call τ → SnapshotStore τ
  | .record path fullText seenLines now => o.record path fullText seenLines now store
  | .recordSeenLines path hash lines => recordSeenLines path hash lines store
  | .relocate source dest => o.relocate source dest store
  | .invalidate path => JsMap.delete store path
  | .lookup path => Limits.touch path store
  | .findByHash _ => store
  | .clear => []

/-! ### Arrivals -/

/-- The texts that have arrived at each path since it was last emptied, each where it arrived
last, the last arrival first. A recorded text arrives; so do the versions that a move takes along,
in their order. -/
def arrive (store : SnapshotStore τ) (arrivals : String → List τ) :
    Call τ → String → List τ
  | .record path fullText _ _ => fun p =>
    if p = path then fullText :: (arrivals path).filter (· ≠ fullText) else arrivals p
  | .relocate source dest => fun p =>
    match JsMap.get store source with
    | none | some [] => arrivals p
    | some history =>
      if p = source then []
      else if p = dest then
        history.map Snapshot.text ++ (arrivals dest).filter (· ∉ history.map Snapshot.text)
      else arrivals p
  | .invalidate path => fun p => if p = path then [] else arrivals p
  | .clear => fun _ => []
  | .recordSeenLines _ _ _ | .lookup _ | .findByHash _ => arrivals

/-- The store after some calls, and what has arrived. -/
def run (store : SnapshotStore τ) (arrivals : String → List τ) :
    List (Call τ) → SnapshotStore τ × (String → List τ)
  | [] => (store, arrivals)
  | call :: calls => run (o.step store call) (arrive store arrivals call) calls

/-! ### What the store keeps -/

/-- A history is that of a path with these arrivals. -/
structure History (arrivals : List τ) (history : List (Snapshot τ)) : Prop where
  length_le : history.length ≤ o.maxVersionsPerPath
  hash : ∀ version ∈ history, version.hash = o.computeFileHash version.text
  arrived : (history.map Snapshot.text).Sublist arrivals

/-- What holds of the store after any calls. -/
structure Kept (arrivals : String → List τ) (store : SnapshotStore τ) : Prop where
  bounded : o.limits.Bounded store
  history : ∀ entry ∈ store, o.History (arrivals entry.1) entry.2
  nodup : ∀ path, (arrivals path).Nodup

variable {o} {arrivals : String → List τ} {store : SnapshotStore τ} {path : String}
  {fullText : τ} {history : List (Snapshot τ)}
  {m : SnapshotStore τ}

omit [DecidableEq τ] in
theorem mem_of_get (h : JsMap.get m path = some history) : (path, history) ∈ m := by
  induction m with
  | nil => cases h
  | cons entry m ih =>
    rw [JsMap.get_cons] at h
    split at h
    · next heq =>
      cases h
      exact heq ▸ mem_cons_self
    · exact mem_cons_of_mem _ (ih h)

omit [DecidableEq τ] in
theorem Kept.history_of_get (h : o.Kept arrivals store) (hget : JsMap.get store path = some history) :
    o.History (arrivals path) history :=
  h.history _ (mem_of_get hget)

omit [DecidableEq τ] in
/-- Also where there is none, the history is one of the path. -/
theorem Kept.history_getD (h : o.Kept arrivals store) (path : String) :
    o.History (arrivals path) ((JsMap.get store path).getD []) := by
  cases hget : JsMap.get store path with
  | none => exact ⟨Nat.zero_le _, fun _ hmem => (not_mem_nil hmem).elim, nil_sublist _⟩
  | some => exact h.history_of_get hget

variable {store' : SnapshotStore τ}

omit [DecidableEq τ] in
theorem Kept.of_perm (h : o.Kept arrivals store)
    (hperm : store'.Perm store) : o.Kept arrivals store' :=
  ⟨h.bounded.of_perm hperm, fun entry hentry => h.history entry (hperm.subset hentry), h.nodup⟩

omit [DecidableEq τ] in
theorem Kept.touch (h : o.Kept arrivals store) (path : String) :
    o.Kept arrivals (Limits.touch path store) :=
  h.of_perm (Limits.touch_perm h.bounded.keys path)

omit [DecidableEq τ] in
/-- A history that is kept is no larger than the cache. -/
theorem Kept.fits (h : o.Kept arrivals store) (hget : JsMap.get store path = some history) :
    o.limits.Fits history := by
  by_cases hmax : o.maxTotalBytes = 0
  · exact .inl hmax
  have hle : o.limits.sizeCalculation history ≤ o.limits.calculatedSize store :=
    le_sum_of_mem (mem_map.mpr ⟨_, mem_of_get hget, rfl⟩)
  exact .inr (hle.trans (h.bounded.size_le hmax))

omit [DecidableEq τ] in
theorem Kept.of_entries {arrivals' : String → List τ}
    (h : o.Kept arrivals store) (path : String) (hbounded : o.limits.Bounded store')
    (hnew : o.History (arrivals' path) history)
    (hentries : ∀ entry ∈ store', entry = (path, history) ∨
      entry.1 ≠ path ∧ entry ∈ store)
    (hothers : ∀ p, p ≠ path → arrivals' p = arrivals p) (hnodup : (arrivals' path).Nodup) :
    o.Kept arrivals' store' := by
  refine ⟨hbounded, ?_, ?_⟩
  · intro entry hentry
    rcases hentries entry hentry with rfl | ⟨hne, hmem⟩
    · exact hnew
    rw [hothers _ hne]
    exact h.history entry hmem
  intro p
  by_cases hp : p = path
  · exact hp ▸ hnodup
  · exact hothers p hp ▸ h.nodup p

/-! ### Recording a text -/

omit [DecidableEq τ] in
theorem Kept.keys_of_mem_set (hkeys : m.KeysNodup)
    {entry : String × List (Snapshot τ)} (h : entry ∈ JsMap.set path history m) :
    entry = (path, history) ∨ entry.1 ≠ path ∧ entry ∈ m := by
  induction m with
  | nil => exact .inl (mem_singleton.mp h)
  | cons first m ih =>
    obtain ⟨hfirst, hm⟩ := nodup_cons.mp hkeys
    rw [JsMap.set] at h
    split at h
    · next heq =>
      rcases mem_cons.mp h with rfl | h
      · exact .inl rfl
      refine .inr ⟨?_, mem_cons_of_mem _ h⟩
      intro hpath
      exact hfirst (mem_map.mpr ⟨entry, h, hpath.trans heq.symm⟩)
    next hne =>
    rcases mem_cons.mp h with rfl | h
    · exact .inr ⟨hne, mem_cons_self⟩
    · exact (ih hm h).imp_right (And.imp_right (mem_cons_of_mem _))

theorem History.sameVersion_iff {version : Snapshot τ}
    (h : o.History (arrivals path) history) (hmem : version ∈ history) :
    o.sameVersion fullText version = true ↔ version.text = fullText := by
  have hhash := h.hash version hmem
  rw [sameVersion, Bool.and_eq_true, decide_eq_true_eq, decide_eq_true_eq]
  constructor
  · exact fun hboth => hboth.2
  intro htext
  exact ⟨by rw [hhash, htext], htext⟩

/-- A text in front of versions with other texts has arrived last. -/
theorem History.cons {l : List τ} {version : Snapshot τ} {rest : List (Snapshot τ)}
    (h : o.History l history) (hsub : rest.Sublist history)
    (hhash : version.hash = o.computeFileHash version.text)
    (hnew : ∀ w ∈ rest, w.text ≠ version.text)
    (hlength : rest.length + 1 ≤ o.maxVersionsPerPath) :
    o.History (version.text :: l.filter (· ≠ version.text)) (version :: rest) where
  length_le := hlength
  hash := by
    intro w hw
    rcases mem_cons.mp hw with rfl | hw
    · exact hhash
    · exact h.hash w (hsub.subset hw)
  arrived := by
    rw [map_cons]
    refine List.Sublist.cons_cons _ ?_
    -- the rest has none of the new text, so that filtering it out leaves it as it is
    have hrest : (rest.map Snapshot.text).filter (· ≠ version.text) = rest.map Snapshot.text := by
      rw [filter_eq_self]
      intro text htext
      obtain ⟨w, hw, rfl⟩ := mem_map.mp htext
      exact decide_eq_true (hnew w hw)
    rw [← hrest]
    exact ((hsub.map _).trans h.arrived).filter _

variable {existing : Snapshot τ}

/-- What is found by its text comes to the front of the other versions. -/
theorem promoted_perm (h : history.find? (o.sameVersion fullText) = some existing) :
    history.Perm (existing :: history.eraseP (o.sameVersion fullText)) ∧
      o.sameVersion fullText existing = true := by
  obtain ⟨hsame, before, after, rfl, hbefore⟩ := find?_eq_some_iff_append.mp h
  refine ⟨?_, hsame⟩
  have herase : (before ++ existing :: after).eraseP (o.sameVersion fullText) =
      before ++ after := by
    rw [eraseP_append_right _ (fun w hw => by simpa using hbefore w hw), eraseP_cons_of_pos hsame]
  rw [herase]
  exact perm_middle

/-- The history of the path before a text is recorded. -/
def pathHistory (store : SnapshotStore τ) (path : String) : List (Snapshot τ) :=
  (JsMap.get store path).getD []

/-- The text of the path is kept already. -/
def Retains (store : SnapshotStore τ) (path : String) (fullText : τ) : Prop :=
  ∃ version ∈ pathHistory store path, version.text = fullText

/-- The size of a history whose versions have these texts. -/
def textsSize (o : StoreOptions τ) (texts : List τ) : ℕ := 1 + (texts.map o.textLength).sum

/-- The texts of the path once a new one has been recorded. -/
def keptTexts (o : StoreOptions τ) (store : SnapshotStore τ) (path : String) (fullText : τ) :
    List τ :=
  (fullText :: (pathHistory store path).map Snapshot.text).take o.maxVersionsPerPath

omit [DecidableEq τ] in
theorem sizeCalculation_eq (o : StoreOptions τ) (history : List (Snapshot τ)) :
    o.limits.sizeCalculation history = o.textsSize (history.map Snapshot.text) := by
  rw [limits, textsSize, map_map]
  rfl

/-- The store can keep the text at the path: it has kept it before, or the new history is no larger
than the whole cache may be. -/
def Keeps (o : StoreOptions τ) (store : SnapshotStore τ) (path : String) (fullText : τ) : Prop :=
  Retains store path fullText ∨ o.maxTotalBytes = 0 ∨
    o.textsSize (o.keptTexts store path fullText) ≤ o.maxTotalBytes

/-- What is found at a path whose history has just been set. -/
def Heads (o : StoreOptions τ) (store : SnapshotStore τ) (path : String) (fullText : τ) : Prop :=
  ∃ version rest, JsMap.get store path = some (version :: rest) ∧ version.text = fullText ∧
    version.hash = o.computeFileHash fullText

/-- Recording a text that is kept: it comes to the front, and the history has its old size. -/
theorem record_retained (h : o.Kept arrivals store)
    (hfind : (pathHistory store path).find? (o.sameVersion fullText) = some existing)
    (seenLines : Option (List ℕ)) (now : ℕ) :
    o.Kept (arrive store arrivals (.record path fullText seenLines now))
        (o.record path fullText seenLines now store) ∧
      Heads o (o.record path fullText seenLines now store) path fullText := by
  have htouched := h.touch path
  have hget : JsMap.get store path = some (pathHistory store path) := by
    cases hstore : JsMap.get store path with
    | none =>
      rw [pathHistory, hstore] at hfind
      cases hfind
    | some => rw [pathHistory, hstore, Option.getD_some]
  have hhistory : o.History (arrivals path) (pathHistory store path) := h.history_of_get hget
  obtain ⟨hperm, hsame⟩ := promoted_perm hfind
  have hmem : existing ∈ pathHistory store path := mem_of_find?_eq_some hfind
  have htext : existing.text = fullText := (hhistory.sameVersion_iff hmem).mp hsame
  have hhash : existing.hash = o.computeFileHash fullText := htext ▸ hhistory.hash existing hmem
  -- what is put in front has the text and the tag of the version that was found
  set updated : Snapshot τ := { existing with recordedAt := now }.mergeSeenLines seenLines
    with hupdated
  have hupdatedText : updated.text = fullText := by
    rw [hupdated, Snapshot.text_mergeSeenLines, htext]
  have hupdatedHash : updated.hash = o.computeFileHash fullText := by
    rw [hupdated, Snapshot.hash_mergeSeenLines, hhash]
  set promoted := updated :: (pathHistory store path).eraseP (o.sameVersion fullText)
    with hpromoted
  have htexts : (promoted.map Snapshot.text).Perm ((pathHistory store path).map Snapshot.text) := by
    have hmapped := (hperm.map Snapshot.text).symm
    rw [map_cons, htext] at hmapped
    rw [hpromoted, map_cons, hupdatedText]
    exact hmapped
  have hsize : o.limits.sizeCalculation promoted =
      o.limits.sizeCalculation (pathHistory store path) := by
    rw [sizeCalculation_eq, sizeCalculation_eq, textsSize, textsSize, (htexts.map _).sum_eq]
  have hnew : o.History (fullText :: (arrivals path).filter (· ≠ fullText)) promoted := by
    rw [← hupdatedText]
    refine hhistory.cons eraseP_sublist (hupdatedText.symm ▸ hupdatedHash) ?_ ?_
    · -- the texts of a history are distinct, so that the others differ from the one erased
      have hnodup : (promoted.map Snapshot.text).Nodup :=
        htexts.nodup_iff.mpr (hhistory.arrived.nodup (h.nodup path))
      rw [hpromoted, map_cons, nodup_cons] at hnodup
      intro w hw heq
      exact hnodup.1 (heq ▸ mem_map_of_mem hw)
    rw [← length_cons (a := existing), ← hperm.length_eq]
    exact hhistory.length_le
  have hnodup : (fullText :: (arrivals path).filter (· ≠ fullText)).Nodup :=
    nodup_cons.mpr ⟨by simp, (h.nodup path).filter _⟩
  have hrecord : o.record path fullText seenLines now store =
      if (pathHistory store path).head?.any (o.sameVersion fullText) then
        JsMap.set path promoted (Limits.touch path store)
      else o.limits.set path promoted (Limits.touch path store) := by
    simp only [record, Limits.get_touch]
    rw [← pathHistory, hfind]
  have hothers : ∀ p, p ≠ path →
      arrive store arrivals (.record path fullText seenLines now) p = arrivals p := by
    intro p hp
    exact if_neg hp
  have hself : arrive store arrivals (.record path fullText seenLines now) path =
      fullText :: (arrivals path).filter (· ≠ fullText) := if_pos rfl
  have hfits : o.limits.Fits promoted := by
    have hold := h.fits hget
    rw [Limits.Fits, ← hsize] at hold
    exact hold
  rw [hrecord]
  split
  · constructor
    · refine htouched.of_entries path
        (htouched.bounded.replace (by rw [Limits.get_touch]; exact hget) hsize) (hself ▸ hnew)
        (fun entry hentry => Kept.keys_of_mem_set htouched.bounded.keys hentry) hothers
        (hself ▸ hnodup)
    · exact ⟨updated, _, JsMap.get_set_self, hupdatedText, hupdatedHash⟩
  constructor
  · exact htouched.of_entries path (htouched.bounded.set path promoted) (hself ▸ hnew)
      (fun entry hentry => Limits.mem_set_imp hentry) hothers (hself ▸ hnodup)
  · exact ⟨updated, _, by rw [Limits.get_set_self, if_pos hfits], hupdatedText, hupdatedHash⟩

/-- Recording a text that is not kept: it comes in front, unless the new history is too large. -/
theorem record_fresh (h : o.Kept arrivals store) (hversions : 1 ≤ o.maxVersionsPerPath)
    (hfind : (pathHistory store path).find? (o.sameVersion fullText) = none)
    (seenLines : Option (List ℕ)) (now : ℕ) :
    o.Kept (arrive store arrivals (.record path fullText seenLines now))
        (o.record path fullText seenLines now store) ∧
      (o.maxTotalBytes = 0 ∨ o.textsSize (o.keptTexts store path fullText) ≤ o.maxTotalBytes →
        Heads o (o.record path fullText seenLines now store) path fullText) ∧
      (¬(o.maxTotalBytes = 0 ∨
          o.textsSize (o.keptTexts store path fullText) ≤ o.maxTotalBytes) →
        JsMap.get (o.record path fullText seenLines now store) path = none) := by
  have htouched := h.touch path
  have hhistory : o.History (arrivals path) (pathHistory store path) := h.history_getD path
  set snapshot : Snapshot τ :=
    (⟨path, fullText, o.computeFileHash fullText, now, none⟩ : Snapshot τ).mergeSeenLines seenLines
    with hsnapshot
  have htext : snapshot.text = fullText := by rw [hsnapshot, Snapshot.text_mergeSeenLines]
  have hhash : snapshot.hash = o.computeFileHash fullText := by
    rw [hsnapshot, Snapshot.hash_mergeSeenLines]
  have hkept : (snapshot :: pathHistory store path).take o.maxVersionsPerPath =
      snapshot :: (pathHistory store path).take (o.maxVersionsPerPath - 1) := by
    obtain ⟨n, hn⟩ := Nat.exists_eq_add_of_le' hversions
    rw [hn, take_succ_cons, Nat.add_sub_cancel]
  have hnew : o.History (fullText :: (arrivals path).filter (· ≠ fullText))
      ((snapshot :: pathHistory store path).take o.maxVersionsPerPath) := by
    rw [hkept, ← htext]
    refine hhistory.cons (take_sublist _ _) (htext.symm ▸ hhash) ?_ ?_
    · -- no version of the path has the text, or it would have been found
      intro w hw heq
      have hmem := mem_of_mem_take hw
      refine find?_eq_none.mp hfind w hmem ?_
      exact (hhistory.sameVersion_iff hmem).mpr (heq.trans htext)
    have hle := length_take_le (o.maxVersionsPerPath - 1) (pathHistory store path)
    omega
  have hnodup : (fullText :: (arrivals path).filter (· ≠ fullText)).Nodup :=
    nodup_cons.mpr ⟨by simp, (h.nodup path).filter _⟩
  have hrecord : o.record path fullText seenLines now store =
      o.limits.set path ((snapshot :: pathHistory store path).take o.maxVersionsPerPath)
        (Limits.touch path store) := by
    simp only [record, Limits.get_touch]
    rw [← pathHistory, hfind]
  have hothers : ∀ p, p ≠ path →
      arrive store arrivals (.record path fullText seenLines now) p = arrivals p := by
    intro p hp
    exact if_neg hp
  have hself : arrive store arrivals (.record path fullText seenLines now) path =
      fullText :: (arrivals path).filter (· ≠ fullText) := if_pos rfl
  have hfits : o.limits.Fits ((snapshot :: pathHistory store path).take o.maxVersionsPerPath) ↔
      o.maxTotalBytes = 0 ∨ o.textsSize (o.keptTexts store path fullText) ≤ o.maxTotalBytes := by
    rw [Limits.Fits, sizeCalculation_eq, map_take, map_cons, htext, keptTexts]
    rfl
  rw [hrecord]
  refine ⟨?_, ?_, ?_⟩
  · exact htouched.of_entries path (htouched.bounded.set path _) (hself ▸ hnew)
      (fun entry hentry => Limits.mem_set_imp hentry) hothers (hself ▸ hnodup)
  · intro hsize
    refine ⟨snapshot, (pathHistory store path).take (o.maxVersionsPerPath - 1), ?_, htext, hhash⟩
    rw [Limits.get_set_self, if_pos (hfits.mpr hsize), hkept]
  intro hsize
  rw [Limits.get_set_self, if_neg (hsize ∘ hfits.mp)]

theorem record_spec (h : o.Kept arrivals store) (hversions : 1 ≤ o.maxVersionsPerPath)
    (path : String) (fullText : τ) (seenLines : Option (List ℕ)) (now : ℕ) :
    o.Kept (arrive store arrivals (.record path fullText seenLines now))
        (o.record path fullText seenLines now store) ∧
      (Keeps o store path fullText →
        Heads o (o.record path fullText seenLines now store) path fullText) ∧
      (¬Keeps o store path fullText →
        JsMap.get (o.record path fullText seenLines now store) path = none) := by
  have hhistory : o.History (arrivals path) (pathHistory store path) := h.history_getD path
  cases hfind : (pathHistory store path).find? (o.sameVersion fullText) with
  | none =>
    have hfresh : ¬Retains store path fullText := by
      rintro ⟨version, hmem, htext⟩
      exact find?_eq_none.mp hfind version hmem ((hhistory.sameVersion_iff hmem).mpr htext)
    obtain ⟨hkept, hheads, hnone⟩ := record_fresh h hversions hfind seenLines now
    rw [Keeps, or_iff_right hfresh]
    exact ⟨hkept, hheads, hnone⟩
  | some existing =>
    obtain ⟨hkept, hheads⟩ := record_retained h hfind seenLines now
    have hmem : existing ∈ pathHistory store path := mem_of_find?_eq_some hfind
    have hretained : Retains store path fullText :=
      ⟨existing, hmem, (hhistory.sameVersion_iff hmem).mp (promoted_perm hfind).2⟩
    exact ⟨hkept, fun _ => hheads, fun hnot => (hnot (.inl hretained)).elim⟩

/-- A store that keeps no versions keeps to its limits. -/
theorem Kept.record_zero (h : o.Kept arrivals store) (hversions : o.maxVersionsPerPath = 0)
    (path : String) (fullText : τ) (seenLines : Option (List ℕ)) (now : ℕ) :
    o.Kept (arrive store arrivals (.record path fullText seenLines now))
      (o.record path fullText seenLines now store) := by
  have hnil : pathHistory store path = [] := by
    refine eq_nil_of_length_eq_zero ?_
    have hlength := (h.history_getD path).length_le
    rw [hversions] at hlength
    exact Nat.le_zero.mp hlength
  have hrecord : o.record path fullText seenLines now store =
      o.limits.set path [] (Limits.touch path store) := by
    simp only [record, Limits.get_touch]
    rw [← pathHistory, hnil, hversions]
    rfl
  have htouched := h.touch path
  rw [hrecord]
  refine htouched.of_entries path (htouched.bounded.set path _) ?_
    (fun entry hentry => Limits.mem_set_imp hentry) (fun p hp => if_neg hp) ?_
  · exact ⟨Nat.zero_le _, fun _ hmem => (not_mem_nil hmem).elim, nil_sublist _⟩
  have hself : arrive store arrivals (.record path fullText seenLines now) path =
      fullText :: (arrivals path).filter (· ≠ fullText) := if_pos rfl
  rw [hself]
  exact nodup_cons.mpr ⟨by simp, (h.nodup path).filter _⟩

/-! ### The other calls -/

omit [DecidableEq τ] in
theorem markSeen_spec (hash : String) (lines : List ℕ) (history : List (Snapshot τ)) :
    (markSeen hash lines history).map Snapshot.text = history.map Snapshot.text ∧
      (markSeen hash lines history).map Snapshot.hash = history.map Snapshot.hash := by
  induction history with
  | nil => exact ⟨rfl, rfl⟩
  | cons version history ih =>
    rw [markSeen]
    split
    · simp
    · simp [ih]

omit [DecidableEq τ] in
/-- A history stands and falls with its texts and its tags. -/
theorem History.congr {l : List τ} {history' : List (Snapshot τ)} (h : o.History l history)
    (htext : history'.map Snapshot.text = history.map Snapshot.text)
    (hhash : history'.map Snapshot.hash = history.map Snapshot.hash) : o.History l history' where
  length_le := by
    rw [← length_map (f := Snapshot.text), htext, length_map]
    exact h.length_le
  hash := by
    have hall : ∀ (xs ys : List (Snapshot τ)), ys.map Snapshot.text = xs.map Snapshot.text →
        ys.map Snapshot.hash = xs.map Snapshot.hash →
          (∀ v ∈ xs, v.hash = o.computeFileHash v.text) →
            ∀ v ∈ ys, v.hash = o.computeFileHash v.text := by
      intro xs
      induction xs with
      | nil =>
        intro ys hys _ _ v hv
        rw [map_eq_nil_iff.mp hys] at hv
        exact (not_mem_nil hv).elim
      | cons x xs ih =>
        intro ys htexts hhashes hxs v hv
        obtain ⟨y, ys, rfl⟩ : ∃ y ys', ys = y :: ys' := by
          cases ys with
          | nil => simp at htexts
          | cons y ys => exact ⟨y, ys, rfl⟩
        simp only [map_cons, List.cons.injEq] at htexts hhashes
        rcases mem_cons.mp hv with rfl | hv
        · rw [hhashes.1, htexts.1]
          exact hxs x mem_cons_self
        · exact ih ys htexts.2 hhashes.2 (fun w hw => hxs w (mem_cons_of_mem _ hw)) v hv
    exact hall history history' htext hhash h.hash
  arrived := htext ▸ h.arrived

omit [DecidableEq τ] in
theorem Kept.recordSeenLines (h : o.Kept arrivals store) (path hash : String) (lines : List ℕ) :
    o.Kept arrivals (StoreOptions.recordSeenLines path hash lines store) := by
  rw [StoreOptions.recordSeenLines]
  split
  · exact h
  next history hget =>
  have htouched := h.touch path
  obtain ⟨htext, hhash⟩ := markSeen_spec hash lines history
  have hsize : o.limits.sizeCalculation (markSeen hash lines history) =
      o.limits.sizeCalculation history := by
    rw [sizeCalculation_eq, sizeCalculation_eq, htext]
  exact htouched.of_entries path
    (htouched.bounded.replace (by rw [Limits.get_touch]; exact hget) hsize)
    ((h.history_of_get hget).congr htext hhash)
    (fun entry hentry => Kept.keys_of_mem_set htouched.bounded.keys hentry)
    (fun _ _ => rfl) (h.nodup path)

omit [DecidableEq τ] in
theorem Kept.delete (h : o.Kept arrivals store) (path : String) :
    o.Kept (fun p => if p = path then [] else arrivals p) (JsMap.delete store path) where
  bounded := h.bounded.delete path
  history := by
    intro entry hentry
    obtain ⟨hmem, hne⟩ := mem_filter.mp hentry
    rw [if_neg (by simpa using hne)]
    exact h.history entry hmem
  nodup := by
    intro p
    split
    · exact nodup_nil
    · exact h.nodup p

omit [DecidableEq τ] in
theorem distinctHashes_sublist (seen : List String) (versions : List (Snapshot τ)) :
    (distinctHashes seen versions).Sublist versions ∧
      ∀ version ∈ distinctHashes seen versions, version.hash ∉ seen := by
  induction versions generalizing seen with
  | nil => exact ⟨List.Sublist.refl _, fun _ h => (not_mem_nil h).elim⟩
  | cons version versions ih =>
    rw [distinctHashes]
    split
    · exact ⟨(ih seen).1.cons version, (ih seen).2⟩
    next hnew =>
    obtain ⟨hsub, hseen⟩ := ih (version.hash :: seen)
    refine ⟨hsub.cons_cons version, ?_⟩
    intro w hw
    rcases mem_cons.mp hw with rfl | hw
    · exact hnew
    · exact fun hmem => hseen w hw (mem_cons_of_mem _ hmem)

omit [DecidableEq τ] in
/-- What is left of two lists: some of the first one, and of the second one versions whose tags do
not occur in the first. -/
theorem distinctHashes_append (seen : List String) (xs ys : List (Snapshot τ)) :
    ∃ xs' ys', distinctHashes seen (xs ++ ys) = xs' ++ ys' ∧ xs'.Sublist xs ∧ ys'.Sublist ys ∧
      ∀ y ∈ ys', ∀ x ∈ xs, y.hash ≠ x.hash := by
  induction xs generalizing seen with
  | nil =>
    exact ⟨[], distinctHashes seen ys, rfl, List.Sublist.refl _, (distinctHashes_sublist seen ys).1,
      fun _ _ _ h => (not_mem_nil h).elim⟩
  | cons x xs ih =>
    rw [cons_append, distinctHashes]
    split
    · next hseen =>
      obtain ⟨xs', ys', heq, hxs, hys, hne⟩ := ih seen
      refine ⟨xs', ys', heq, hxs.cons x, hys, ?_⟩
      intro y hy w hw
      rcases mem_cons.mp hw with rfl | hw
      · -- the tag was seen before, and no version with a seen tag is left
        have hleft := (distinctHashes_sublist seen (xs ++ ys)).2 y
          (heq ▸ mem_append_right _ hy)
        exact fun hyw => hleft (hyw ▸ hseen)
      · exact hne y hy w hw
    obtain ⟨xs', ys', heq, hxs, hys, hne⟩ := ih (x.hash :: seen)
    refine ⟨x :: xs', ys', by rw [heq, cons_append], hxs.cons_cons x, hys, ?_⟩
    intro y hy w hw
    rcases mem_cons.mp hw with rfl | hw
    · have hleft := (distinctHashes_sublist (w.hash :: seen) (xs ++ ys)).2 y
        (heq ▸ mem_append_right _ hy)
      exact fun hyw => hleft (hyw ▸ mem_cons_self)
    · exact hne y hy w hw

/-- The arrivals at the destination of a move. -/
theorem nodup_moved {moved l : List τ} (hmoved : moved.Nodup) (hl : l.Nodup) :
    (moved ++ l.filter (· ∉ moved)).Nodup := by
  rw [nodup_append]
  refine ⟨hmoved, hl.filter _, ?_⟩
  intro a ha b hb heq
  have hnot : b ∉ moved := by simpa using (mem_filter.mp hb).2
  exact hnot (heq ▸ ha)

/-- What a move leaves at its destination: versions of the source in front, and behind them those
of the destination that have other tags. -/
theorem History.merge {l l' : List τ} {moved dest : List (Snapshot τ)} (hmoved : o.History l moved)
    (hdest : o.History l' dest) :
    o.History (moved.map Snapshot.text ++ l'.filter (· ∉ moved.map Snapshot.text))
      ((distinctHashes [] (moved ++ dest)).take o.maxVersionsPerPath) := by
  obtain ⟨xs, ys, heq, hxs, hys, hne⟩ := distinctHashes_append [] moved dest
  have hhash : ∀ v ∈ xs ++ ys, v.hash = o.computeFileHash v.text := by
    intro v hv
    rcases mem_append.mp hv with hv | hv
    · exact hmoved.hash v (hxs.subset hv)
    · exact hdest.hash v (hys.subset hv)
  refine ⟨length_take_le _ _, fun v hv => hhash v (heq ▸ mem_of_mem_take hv), ?_⟩
  refine ((take_sublist _ _).map _).trans ?_
  rw [heq, map_append]
  refine (hxs.map _).append ?_
  -- a text of the source has the tag it has there, so none of the rest is among them
  have hrest : (ys.map Snapshot.text).filter (· ∉ moved.map Snapshot.text) =
      ys.map Snapshot.text := by
    rw [filter_eq_self]
    intro text htext
    obtain ⟨y, hy, rfl⟩ := mem_map.mp htext
    rw [decide_eq_true_eq]
    intro hmem
    obtain ⟨x, hx, hxy⟩ := mem_map.mp hmem
    refine hne y hy x hx ?_
    rw [hdest.hash y (hys.subset hy), hmoved.hash x hx, hxy]
  rw [← hrest]
  exact ((hys.map _).trans hdest.arrived).filter _

/-- The arrivals when the versions `moved` have come to `dest`. -/
def moveTo (dest : String) (moved : List τ) (arrivals : String → List τ) (p : String) : List τ :=
  if p = dest then moved ++ (arrivals dest).filter (· ∉ moved) else arrivals p

theorem Kept.relocate (h : o.Kept arrivals store) (source dest : String) :
    o.Kept (arrive store arrivals (.relocate source dest)) (o.relocate source dest store) := by
  cases hget : JsMap.get store source with
  | none => simpa only [arrive, StoreOptions.relocate, hget] using h
  | some sourceHistory =>
    cases sourceHistory with
    | nil => simpa only [arrive, StoreOptions.relocate, hget] using h.touch source
    | cons first rest =>
      have hsource : o.History (arrivals source) (first :: rest) := h.history_of_get hget
      have htouched := (h.touch source).touch dest
      set relocated := (first :: rest).map fun version => { version with path := dest }
        with hrelocated
      have htext : relocated.map Snapshot.text = (first :: rest).map Snapshot.text := by
        rw [hrelocated, map_map]
        rfl
      have hmoved : o.History (arrivals source) relocated := by
        refine hsource.congr htext ?_
        rw [hrelocated, map_map]
        rfl
      -- whatever history is set at the destination, the move empties the source afterwards
      have hset : ∀ history,
          o.History (moveTo dest ((first :: rest).map Snapshot.text) arrivals dest) history →
            o.Kept (arrive store arrivals (.relocate source dest))
              (JsMap.delete (o.limits.set dest history
                (Limits.touch dest (Limits.touch source store))) source) := by
        intro history hhistory
        have hkept : o.Kept (moveTo dest ((first :: rest).map Snapshot.text) arrivals)
            (o.limits.set dest history (Limits.touch dest (Limits.touch source store))) :=
          htouched.of_entries dest (htouched.bounded.set dest history) hhistory
          (fun entry hentry => Limits.mem_set_imp hentry) (fun p hp => if_neg hp) (by
            rw [moveTo, if_pos rfl]
            exact nodup_moved (hsource.arrived.nodup (h.nodup source)) (h.nodup dest))
        have harrive : arrive store arrivals (.relocate source dest) = fun p =>
            if p = source then []
            else moveTo dest ((first :: rest).map Snapshot.text) arrivals p := by
          funext p
          simp [arrive, hget, moveTo]
        rw [harrive]
        exact hkept.delete source
      have hrelocate : o.relocate source dest store =
          match JsMap.get store dest with
          | none => JsMap.delete (o.limits.set dest relocated
              (Limits.touch dest (Limits.touch source store))) source
          | some destHistory => JsMap.delete (o.limits.set dest
              ((distinctHashes [] (relocated ++ destHistory)).take o.maxVersionsPerPath)
              (Limits.touch dest (Limits.touch source store))) source := by
        simp [StoreOptions.relocate, hget, hrelocated]
      rw [hrelocate]
      cases hdest : JsMap.get store dest with
      | none =>
        refine hset relocated ⟨hmoved.length_le, hmoved.hash, ?_⟩
        rw [moveTo, if_pos rfl, htext]
        exact sublist_append_left _ _
      | some =>
        refine hset _ ?_
        have hmerge := hmoved.merge (h.history_of_get hdest)
        rw [htext] at hmerge
        rw [moveTo, if_pos rfl]
        exact hmerge

/-! ### Runs -/

theorem kept_step (h : o.Kept arrivals store) (call : Call τ) :
    o.Kept (arrive store arrivals call) (o.step store call) := by
  cases call with
  | record path fullText seenLines now =>
    rcases eq_zero_or_pos o.maxVersionsPerPath with hversions | hversions
    · exact h.record_zero hversions path fullText seenLines now
    · exact (record_spec h hversions path fullText seenLines now).1
  | recordSeenLines path hash lines => exact h.recordSeenLines path hash lines
  | relocate source dest => exact h.relocate source dest
  | invalidate path =>
    have harrive : arrive store arrivals (.invalidate path) =
        fun p => if p = path then [] else arrivals p := rfl
    rw [harrive]
    exact h.delete path
  | lookup path => exact h.touch path
  | findByHash => exact h
  | clear =>
    refine ⟨⟨nodup_nil, fun _ => Nat.zero_le _, fun _ => Nat.zero_le _⟩, ?_, ?_⟩
    · exact fun _ hentry => (not_mem_nil hentry).elim
    · exact fun _ => nodup_nil

theorem kept_run (h : o.Kept arrivals store) (calls : List (Call τ)) :
    o.Kept (o.run store arrivals calls).2 (o.run store arrivals calls).1 := by
  induction calls generalizing store arrivals with
  | nil => exact h
  | cons call calls ih => exact ih (kept_step h call)

/-- Whatever the limits are, no path has two histories. -/
theorem keys_step (h : JsMap.KeysNodup store) (call : Call τ) :
    JsMap.KeysNodup (o.step store call) := by
  have htouch : ∀ {m : SnapshotStore τ} (path : String), JsMap.KeysNodup m →
      JsMap.KeysNodup (Limits.touch path m) := by
    intro m path hm
    exact ((Limits.touch_perm hm path).map Prod.fst).nodup_iff.mpr hm
  cases call with
  | record path =>
    simp only [step, record]
    split
    · split
      · exact (htouch path h).set
      · exact Limits.keysNodup_set (htouch path h) _ _
    · exact Limits.keysNodup_set (htouch path h) _ _
  | recordSeenLines path =>
    simp only [step, recordSeenLines]
    split
    · exact h
    · exact (htouch path h).set
  | relocate source dest =>
    simp only [step, relocate]
    split
    · exact h
    · exact htouch source h
    split
    · exact (Limits.keysNodup_set (htouch dest (htouch source h)) _ _).delete
    · exact (Limits.keysNodup_set (htouch dest (htouch source h)) _ _).delete
  | invalidate => exact h.delete
  | lookup path => exact htouch path h
  | findByHash => exact h
  | clear => exact nodup_nil

theorem keys_run (h : JsMap.KeysNodup store) (arrivals : String → List τ) (calls : List (Call τ)) :
    JsMap.KeysNodup (o.run store arrivals calls).1 := by
  induction calls generalizing store arrivals with
  | nil => exact h
  | cons call calls ih => exact ih (keys_step h call) _

omit [DecidableEq τ] in
theorem kept_empty (o : StoreOptions τ) : o.Kept (fun _ => []) [] where
  bounded := ⟨nodup_nil, fun _ => Nat.zero_le _, fun _ => Nat.zero_le _⟩
  history := fun _ h => (not_mem_nil h).elim
  nodup := fun _ => nodup_nil

/-! ### Tags resolve -/

/-- The tag of a text resolves at a path, and the text is the latest one there. -/
def Resolves (o : StoreOptions τ) (store : SnapshotStore τ) (path : String) (fullText : τ) : Prop :=
  (store.head path).map Snapshot.text = some fullText ∧
    (store.byHash path (o.computeFileHash fullText)).map Snapshot.text = some fullText ∧
      (store.byContent path fullText).isSome

theorem Heads.resolves (h : Heads o store path fullText) : Resolves o store path fullText := by
  obtain ⟨version, rest, hget, htext, hhash⟩ := h
  refine ⟨?_, ?_, ?_⟩
  · rw [SnapshotStore.head, hget, Option.bind_some, head?_cons, Option.map_some, htext]
  · rw [SnapshotStore.byHash, hget, Option.bind_some, find?_cons_of_pos (by simpa using hhash),
      Option.map_some, htext]
  rw [SnapshotStore.byContent, hget, Option.bind_some, find?_cons_of_pos (by simpa using htext)]
  rfl

theorem not_resolves_of_none (h : JsMap.get store path = none) :
    ¬Resolves o store path fullText := by
  rintro ⟨hhead, -, -⟩
  rw [SnapshotStore.head, h] at hhead
  cases hhead

/-- A store within the limits of its options. -/
structure WithinLimits (o : StoreOptions τ) (arrivals : String → List τ) (store : SnapshotStore τ) :
    Prop where
  versions_le : ∀ path, (pathHistory store path).length ≤ o.maxVersionsPerPath
  distinct : ∀ path, ((pathHistory store path).map Snapshot.text).Nodup
  newest_first : ∀ path, ((pathHistory store path).map Snapshot.text).Sublist (arrivals path)
  size_le : (store.map fun entry =>
    (entry.2.map fun version => o.textLength version.text).sum).sum ≤ o.maxTotalBytes

omit [DecidableEq τ] in
theorem Kept.withinLimits (h : o.Kept arrivals store) (hmax : o.maxTotalBytes ≠ 0) :
    WithinLimits o arrivals store where
  versions_le path := (h.history_getD path).length_le
  distinct path := (h.history_getD path).arrived.nodup (h.nodup path)
  newest_first path := (h.history_getD path).arrived
  size_le := by
    refine le_trans (sum_le_sum fun entry _ => ?_) (h.bounded.size_le hmax)
    exact Nat.le_add_left _ _

/-- After any calls the store is within its limits. The tag of a text recorded then resolves if
and only if the store keeps the text already or its new history, with the older versions of the
path, is no larger than the whole cache may be. -/
theorem resolves_iff (o : StoreOptions τ) (calls : List (Call τ)) (path : String) (fullText : τ)
    (seenLines : Option (List ℕ)) (now : ℕ) (hversions : 1 ≤ o.maxVersionsPerPath)
    (htext : o.textLength fullText + 1 ≤ o.maxTotalBytes) :
    WithinLimits o (o.run [] (fun _ => []) calls).2 (o.run [] (fun _ => []) calls).1 ∧
      (Resolves o
          (o.step (o.run [] (fun _ => []) calls).1 (.record path fullText seenLines now)) path
          fullText ↔
        Retains (o.run [] (fun _ => []) calls).1 path fullText ∨
          o.textsSize (o.keptTexts (o.run [] (fun _ => []) calls).1 path fullText) ≤
            o.maxTotalBytes) := by
  have hmax : o.maxTotalBytes ≠ 0 := by omega
  have hkept := kept_run (kept_empty o) calls
  refine ⟨hkept.withinLimits hmax, ?_⟩
  obtain ⟨-, hheads, hnone⟩ := record_spec hkept hversions path fullText seenLines now
  rw [Keeps, or_iff_right hmax] at hheads hnone
  constructor
  · intro hresolves
    by_contra hnot
    exact not_resolves_of_none (hnone hnot) hresolves
  · exact fun hkeeps => (hheads hkeeps).resolves

section Examples

/-- A small store of texts, tagged by their lengths. -/
def smallStore : StoreOptions String where
  maxPaths := 4
  maxVersionsPerPath := 2
  maxTotalBytes := 10
  textLength := String.length
  computeFileHash text := Nat.repr text.length

/-- Two texts that fit together. -/
theorem resolves_small : Resolves smallStore
      (smallStore.step (smallStore.run [] (fun _ => []) [.record "a" "one" none 0]).1
        (.record "a" "four" none 1)) "a" "four" :=
  (resolves_iff smallStore [.record "a" "one" none 0] "a" "four" none 1 (by decide)
    (by decide)).2.mpr (.inr (by decide))

/-- Each of two texts fits, but not both: the second one is not found. -/
theorem not_resolves_small :
    ¬ ∀ (o : StoreOptions String) (calls : List (Call String)) (path fullText : String)
      (seenLines : Option (List ℕ)) (now : ℕ), 1 ≤ o.maxPaths → 1 ≤ o.maxVersionsPerPath →
        o.textLength fullText + 1 ≤ o.maxTotalBytes →
          Resolves o (o.step (o.run [] (fun _ => []) calls).1
            (.record path fullText seenLines now)) path fullText := by
  intro hall
  have hresolves := hall smallStore [.record "a" "before" none 0] "a" "after." none 1 (by decide)
    (by decide) (by decide)
  refine absurd hresolves ?_
  rintro ⟨hhead, -, -⟩
  exact absurd hhead (by decide)

end Examples

end StoreOptions

end BreadboardTui.Hashline
