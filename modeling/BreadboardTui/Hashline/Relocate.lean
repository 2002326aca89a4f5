import BreadboardTui.Hashline.Snapshots

/-!
# Moving a history

When a file is moved, the versions of its path are put in front of those of the destination. The
two histories may share texts, which should be one version that has been seen as far as either has,
and they may hold different texts with one tag, which should stay apart.
-/

namespace BreadboardTui.Hashline

open List

/-- The lines that were shown of a version. -/
def Snapshot.seen {τ : Type} (version : Snapshot τ) : List ℕ := version.seenLines.getD []

namespace StoreOptions

variable {τ : Type} [DecidableEq τ] {o : StoreOptions τ} {arrivals : String → List τ}
  {store : SnapshotStore τ} {source dest : String}

/-- The texts of both histories, those of the source in front. -/
def mergedTexts (sourceHistory destHistory : List (Snapshot τ)) : List τ :=
  sourceHistory.map Snapshot.text ++
    (destHistory.map Snapshot.text).filter (· ∉ sourceHistory.map Snapshot.text)

/-- What a move from one path to another should leave. -/
structure Relocated (o : StoreOptions τ) (before after : SnapshotStore τ) (source dest : String) :
    Prop where
  texts : (pathHistory after dest).map Snapshot.text =
    (mergedTexts (pathHistory before source) (pathHistory before dest)).take o.maxVersionsPerPath
  nodup : ((pathHistory after dest).map Snapshot.text).Nodup
  seen : ∀ version ∈ pathHistory after dest, ∀ line, line ∈ version.seen ↔
    ∃ old ∈ pathHistory before source ++ pathHistory before dest,
      old.text = version.text ∧ line ∈ old.seen
  source : pathHistory after source = []

/-- Where both paths have a history, the versions that should be kept have different tags, and
no version of the source has been seen further at the destination. -/
def MergesCleanly (o : StoreOptions τ) (store : SnapshotStore τ) (source dest : String) : Prop :=
  pathHistory store source ≠ [] → JsMap.get store dest ≠ none →
    (((mergedTexts (pathHistory store source) (pathHistory store dest)).take
        o.maxVersionsPerPath).map o.computeFileHash).Nodup ∧
      ∀ version ∈ pathHistory store source, ∀ old ∈ pathHistory store dest,
        old.text = version.text → ∀ line ∈ old.seen, line ∈ version.seen

/-! ### Merging -/

omit [DecidableEq τ] in
/-- The first versions are kept as long as their tags differ. -/
theorem distinctHashes_append_of_nodup {seen : List String} {xs : List (Snapshot τ)}
    (h : (xs.map Snapshot.hash).Nodup) (hseen : ∀ x ∈ xs, x.hash ∉ seen)
    (ys : List (Snapshot τ)) :
    ∃ seen', distinctHashes seen (xs ++ ys) = xs ++ distinctHashes seen' ys ∧
      ∀ hash, hash ∈ seen' ↔ hash ∈ seen ∨ hash ∈ xs.map Snapshot.hash := by
  induction xs generalizing seen with
  | nil => exact ⟨seen, rfl, fun hash => by simp⟩
  | cons x xs ih =>
    rw [map_cons, nodup_cons] at h
    have hrest : ∀ w ∈ xs, w.hash ∉ x.hash :: seen := by
      intro w hw hmem
      rcases mem_cons.mp hmem with heq | hmem
      · exact h.1 (heq ▸ mem_map_of_mem hw)
      · exact hseen w (mem_cons_of_mem _ hw) hmem
    obtain ⟨seen', heq, hmem⟩ := ih h.2 hrest
    refine ⟨seen', ?_, ?_⟩
    · rw [cons_append, distinctHashes, if_neg (hseen x mem_cons_self), heq, cons_append]
    intro hash
    rw [hmem, mem_cons, map_cons, mem_cons, or_assoc, or_left_comm]

omit [DecidableEq τ] in
theorem distinctHashes_nodup (seen : List String) (versions : List (Snapshot τ)) :
    ((distinctHashes seen versions).map Snapshot.hash).Nodup := by
  induction versions generalizing seen with
  | nil => exact nodup_nil
  | cons version versions ih =>
    rw [distinctHashes]
    split
    · exact ih seen
    rw [map_cons, nodup_cons]
    refine ⟨?_, ih _⟩
    intro hmem
    obtain ⟨w, hw, heq⟩ := mem_map.mp hmem
    exact (distinctHashes_sublist _ versions).2 w hw (heq ▸ mem_cons_self)

omit [DecidableEq τ] in
/-- The tags of the first versions have been seen when the others are looked at. -/
theorem distinctHashes_append_eq (seen : List String) (xs : List (Snapshot τ)) :
    ∃ seen', (∀ x ∈ xs, x.hash ∈ seen') ∧ (∀ hash ∈ seen, hash ∈ seen') ∧
      ∀ ys, distinctHashes seen (xs ++ ys) = distinctHashes seen xs ++ distinctHashes seen' ys := by
  induction xs generalizing seen with
  | nil => exact ⟨seen, fun _ h => (not_mem_nil h).elim, fun _ h => h, fun _ => rfl⟩
  | cons x xs ih =>
    by_cases hx : x.hash ∈ seen
    · obtain ⟨seen', hxs, hseen, heq⟩ := ih seen
      refine ⟨seen', forall_mem_cons.mpr ⟨hseen _ hx, hxs⟩, hseen, fun ys => ?_⟩
      rw [cons_append, distinctHashes, if_pos hx, heq, distinctHashes, if_pos hx]
    obtain ⟨seen', hxs, hseen, heq⟩ := ih (x.hash :: seen)
    refine ⟨seen', forall_mem_cons.mpr ⟨hseen _ mem_cons_self, hxs⟩,
      fun hash hhash => hseen _ (mem_cons_of_mem _ hhash), fun ys => ?_⟩
    rw [cons_append, distinctHashes, if_neg hx, heq, distinctHashes, if_neg hx, cons_append]

omit [DecidableEq τ] in
/-- Versions whose tags have been seen are passed over. -/
theorem distinctHashes_filter {seen : List String} {keep : Snapshot τ → Bool}
    {versions : List (Snapshot τ)}
    (h : ∀ version ∈ versions, keep version = false → version.hash ∈ seen) :
    distinctHashes seen (versions.filter keep) = distinctHashes seen versions := by
  induction versions generalizing seen with
  | nil => rfl
  | cons version versions ih =>
    obtain ⟨hfirst, hrest⟩ := forall_mem_cons.mp h
    rw [filter_cons]
    cases hkeep : keep version with
    | false =>
      rw [if_neg Bool.false_ne_true, ih hrest, distinctHashes, if_pos (hfirst hkeep)]
    | true =>
      rw [if_pos rfl, distinctHashes, distinctHashes]
      split
      · exact ih hrest
      · rw [ih fun w hw hdropped => mem_cons_of_mem _ (hrest w hw hdropped)]

/-- The versions of both histories, without those of the destination that have a text of the
source. -/
def mergedVersions (moved dest : List (Snapshot τ)) : List (Snapshot τ) :=
  moved ++ dest.filter fun version => version.text ∉ moved.map Snapshot.text

theorem text_mergedVersions (moved dest : List (Snapshot τ)) :
    (mergedVersions moved dest).map Snapshot.text = mergedTexts moved dest := by
  rw [mergedVersions, mergedTexts, map_append, filter_map]
  rfl

/-- A version of the destination with a text of the source has its tag as well. -/
theorem distinctHashes_mergedVersions {l l' : List τ} {moved dest : List (Snapshot τ)}
    (hmoved : o.History l moved) (hdest : o.History l' dest) :
    distinctHashes [] (moved ++ dest) = distinctHashes [] (mergedVersions moved dest) := by
  obtain ⟨seen, hseen, -, happend⟩ := distinctHashes_append_eq [] moved
  rw [happend, mergedVersions, happend, distinctHashes_filter]
  intro version hversion hdropped
  have hmem : version.text ∈ moved.map Snapshot.text := by simpa using hdropped
  obtain ⟨w, hw, htext⟩ := mem_map.mp hmem
  have hhash : version.hash = w.hash := by
    rw [hdest.hash version hversion, hmoved.hash w hw, htext]
  rw [hhash]
  exact hseen w hw

omit [DecidableEq τ] in
theorem map_hash_eq {versions : List (Snapshot τ)}
    (h : ∀ version ∈ versions, version.hash = o.computeFileHash version.text) :
    versions.map Snapshot.hash = (versions.map Snapshot.text).map o.computeFileHash := by
  rw [map_map]
  exact map_congr_left h

omit [DecidableEq τ] in
/-- Versions with different tags are all kept, and only these are. -/
theorem take_distinctHashes {versions : List (Snapshot τ)} {count : ℕ}
    (h : ∀ version ∈ versions, version.hash = o.computeFileHash version.text) :
    ((((versions.map Snapshot.text).take count).map o.computeFileHash).Nodup →
        (distinctHashes [] versions).take count = versions.take count) ∧
      (((distinctHashes [] versions).take count).map Snapshot.text =
          (versions.map Snapshot.text).take count →
        (((versions.map Snapshot.text).take count).map o.computeFileHash).Nodup) := by
  constructor
  · intro hnodup
    rw [← map_take, ← map_hash_eq fun v hv => h v (mem_of_mem_take hv)] at hnodup
    obtain ⟨seen, heq, -⟩ := distinctHashes_append_of_nodup hnodup
      (fun _ _ => not_mem_nil) (versions.drop count)
    rw [take_append_drop] at heq
    rw [heq]
    rcases Nat.le_total count versions.length with hle | hle
    · exact take_left' (length_take_of_le hle)
    · rw [drop_of_length_le hle, distinctHashes, append_nil, take_take, min_self]
  intro heq
  have hsub := (distinctHashes_sublist [] versions).1
  have hhash : ∀ version ∈ (distinctHashes [] versions).take count,
      version.hash = o.computeFileHash version.text := fun version hversion =>
    h version (hsub.subset (mem_of_mem_take hversion))
  rw [← heq, ← map_hash_eq hhash]
  exact (distinctHashes_nodup [] versions).sublist ((take_sublist _ _).map _)

omit [DecidableEq τ] in
/-- A text stands for one version of a history. -/
theorem eq_of_text_eq {versions : List (Snapshot τ)} (h : (versions.map Snapshot.text).Nodup)
    {v w : Snapshot τ} (hv : v ∈ versions) (hw : w ∈ versions) (htext : v.text = w.text) : v = w :=
  inj_on_of_nodup_map h hv hw htext

/-! ### What a move leaves -/

/-- The versions of the source, as they come to the destination. -/
def movedTo (dest : String) (history : List (Snapshot τ)) : List (Snapshot τ) :=
  history.map fun version => { version with path := dest }

omit [DecidableEq τ] in
theorem text_movedTo (dest : String) (history : List (Snapshot τ)) :
    (movedTo dest history).map Snapshot.text = history.map Snapshot.text := by
  rw [movedTo, map_map]
  rfl

omit [DecidableEq τ] in
theorem History.movedTo {l : List τ} {history : List (Snapshot τ)} (h : o.History l history)
    (dest : String) : o.History l (movedTo dest history) := by
  refine h.congr (text_movedTo dest history) ?_
  rw [StoreOptions.movedTo, map_map]
  rfl

omit [DecidableEq τ] in
/-- Two histories are no larger together than the whole cache may be. -/
theorem Kept.fits_append {sourceHistory destHistory history : List (Snapshot τ)}
    (h : o.Kept arrivals store) (hne : source ≠ dest)
    (hsource : JsMap.get store source = some sourceHistory)
    (hdest : JsMap.get store dest = some destHistory)
    (hsub : (history.map Snapshot.text).Sublist
      (sourceHistory.map Snapshot.text ++ destHistory.map Snapshot.text)) :
    o.limits.Fits history := by
  by_cases hmax : o.maxTotalBytes = 0
  · exact .inl hmax
  refine .inr ?_
  have hsize := h.bounded.size_le hmax
  have hperm := Limits.delete_append_perm h.bounded.keys hsource
  have hdeleted : JsMap.get (JsMap.delete store source) dest = some destHistory := by
    rw [JsMap.get_delete_of_ne (Ne.symm hne), hdest]
  have hle : o.limits.sizeCalculation destHistory ≤
      o.limits.calculatedSize (JsMap.delete store source) :=
    le_sum_of_mem (mem_map.mpr ⟨_, mem_of_get hdeleted, rfl⟩)
  have hsum := (hperm.map fun entry : String × List (Snapshot τ) =>
    o.limits.sizeCalculation entry.2).sum_eq
  rw [map_append, sum_append, map_singleton, sum_singleton] at hsum
  have htexts := (hsub.map o.textLength).sum_le_sum fun _ _ => Nat.zero_le _
  rw [map_append, sum_append] at htexts
  rw [sizeCalculation_eq, textsSize]
  rw [sizeCalculation_eq, textsSize] at hle hsum
  have hcalculated : o.limits.calculatedSize (JsMap.delete store source) +
      (1 + ((sourceHistory.map Snapshot.text).map o.textLength).sum) ≤ o.maxTotalBytes := by
    rw [← Limits.calculatedSize] at hsum
    rw [hsum]
    exact hsize
  have hlimit : 1 + ((history.map Snapshot.text).map o.textLength).sum ≤ o.maxTotalBytes := by
    omega
  exact hlimit

omit [DecidableEq τ] in
theorem pathHistory_eq_of_get {history : List (Snapshot τ)} {path : String}
    (h : JsMap.get store path = some history) : pathHistory store path = history := by
  rw [pathHistory, h]
  rfl

omit [DecidableEq τ] in
/-- A path without a history has nothing to move. -/
theorem pathHistory_relocate_of_nil (hsource : pathHistory store source = []) (path : String) :
    pathHistory (o.relocate source dest store) path = pathHistory store path := by
  rw [pathHistory, relocate]
  split
  · rfl
  · rw [Limits.get_touch]
    rfl
  next hne hget =>
  rw [pathHistory_eq_of_get hget] at hsource
  exact absurd hsource hne

omit [DecidableEq τ] in
theorem pathHistory_relocate (h : o.Kept arrivals store) (hne : source ≠ dest)
    (hsource : pathHistory store source ≠ []) :
    pathHistory (o.relocate source dest store) source = [] ∧
      (JsMap.get store dest = none → pathHistory (o.relocate source dest store) dest =
        movedTo dest (pathHistory store source)) ∧
      (JsMap.get store dest ≠ none → pathHistory (o.relocate source dest store) dest =
        (distinctHashes [] (movedTo dest (pathHistory store source) ++
          pathHistory store dest)).take o.maxVersionsPerPath) := by
  obtain ⟨first, rest, hget⟩ : ∃ first rest, JsMap.get store source = some (first :: rest) := by
    cases hget : JsMap.get store source with
    | none => exact absurd (by rw [pathHistory, hget]; rfl) hsource
    | some =>
      rw [pathHistory_eq_of_get hget] at hsource
      obtain ⟨first, rest, rfl⟩ := exists_cons_of_ne_nil hsource
      exact ⟨first, rest, rfl⟩
  have hself : pathHistory store source = first :: rest := pathHistory_eq_of_get hget
  have hset (history : List (Snapshot τ)) (hfits : o.limits.Fits history) :
      pathHistory (JsMap.delete (o.limits.set dest history
        (Limits.touch dest (Limits.touch source store))) source) dest = history := by
    rw [pathHistory, JsMap.get_delete_of_ne (Ne.symm hne), Limits.get_set_self, if_pos hfits]
    rfl
  have hdeleted (m : SnapshotStore τ) : pathHistory (JsMap.delete m source) source = [] := by
    rw [pathHistory, JsMap.get_delete_self]
    rfl
  rw [hself]
  cases hdest : JsMap.get store dest with
  | none =>
    have hrelocate : o.relocate source dest store =
        JsMap.delete (o.limits.set dest (movedTo dest (first :: rest))
          (Limits.touch dest (Limits.touch source store))) source := by
      simp only [relocate, hget, Limits.get_touch, hdest]
      rfl
    rw [hrelocate]
    refine ⟨hdeleted _, fun _ => hset _ ?_, fun hnone => absurd rfl hnone⟩
    have hfits := h.fits hget
    rw [Limits.Fits, sizeCalculation_eq] at hfits
    rw [Limits.Fits, sizeCalculation_eq, text_movedTo]
    exact hfits
  | some destHistory =>
    have hrelocate : o.relocate source dest store = JsMap.delete (o.limits.set dest
          ((distinctHashes [] (movedTo dest (first :: rest) ++ destHistory)).take
            o.maxVersionsPerPath) (Limits.touch dest (Limits.touch source store))) source := by
      simp only [relocate, hget, Limits.get_touch, hdest]
      rfl
    rw [hrelocate, pathHistory_eq_of_get hdest]
    refine ⟨hdeleted _, fun hnone => absurd hnone (Option.some_ne_none _), fun _ => hset _ ?_⟩
    refine h.fits_append hne hget hdest ?_
    have hsub := ((take_sublist o.maxVersionsPerPath _).trans
      (distinctHashes_sublist [] (movedTo dest (first :: rest) ++ destHistory)).1).map Snapshot.text
    rw [map_append, text_movedTo] at hsub
    exact hsub

/-! ### Moves -/

theorem nodup_mergedTexts {sourceHistory destHistory : List (Snapshot τ)}
    (hsource : (sourceHistory.map Snapshot.text).Nodup)
    (hdest : (destHistory.map Snapshot.text).Nodup) :
    (mergedTexts sourceHistory destHistory).Nodup := nodup_moved hsource hdest

omit [DecidableEq τ] in
theorem mem_movedTo {history : List (Snapshot τ)} {version : Snapshot τ}
    (h : version ∈ movedTo dest history) :
    ∃ old ∈ history, old.text = version.text ∧ old.seen = version.seen := by
  obtain ⟨old, hold, rfl⟩ := mem_map.mp h
  exact ⟨old, hold, rfl, rfl⟩

omit [DecidableEq τ] in
/-- What is seen of the versions of a history, each text being that of one version. -/
theorem seen_iff {history : List (Snapshot τ)} (hnodup : (history.map Snapshot.text).Nodup)
    {version : Snapshot τ} (h : version ∈ history) (line : ℕ) :
    line ∈ version.seen ↔ ∃ old ∈ history, old.text = version.text ∧ line ∈ old.seen := by
  constructor
  · exact fun hline => ⟨version, h, rfl, hline⟩
  rintro ⟨old, hold, htext, hline⟩
  rwa [← eq_of_text_eq hnodup hold h htext]

theorem mergedTexts_movedTo (dest : String) (sourceHistory destHistory : List (Snapshot τ)) :
    mergedTexts (movedTo dest sourceHistory) destHistory =
      mergedTexts sourceHistory destHistory := by
  rw [mergedTexts, mergedTexts, text_movedTo]

/-- What is seen of the texts of two histories, where the source has seen all that the destination
has. -/
theorem seen_mergedVersions {sourceHistory destHistory : List (Snapshot τ)}
    (hsource : (sourceHistory.map Snapshot.text).Nodup)
    (hdest : (destHistory.map Snapshot.text).Nodup)
    (hseen : ∀ version ∈ sourceHistory, ∀ old ∈ destHistory, old.text = version.text →
      ∀ line ∈ old.seen, line ∈ version.seen) {version : Snapshot τ}
    (h : version ∈ mergedVersions (movedTo dest sourceHistory) destHistory) (line : ℕ) :
    line ∈ version.seen ↔ ∃ old ∈ sourceHistory ++ destHistory,
      old.text = version.text ∧ line ∈ old.seen := by
  rcases mem_append.mp h with hmoved | hkept
  · obtain ⟨moved, hmem, htext, hsame⟩ := mem_movedTo hmoved
    rw [← htext, ← hsame]
    constructor
    · exact fun hline => ⟨moved, mem_append_left _ hmem, rfl, hline⟩
    rintro ⟨old, hold, holdText, hline⟩
    rcases mem_append.mp hold with hold | hold
    · rwa [← eq_of_text_eq hsource hold hmem holdText]
    · exact hseen moved hmem old hold holdText line hline
  obtain ⟨hmem, hfresh⟩ := mem_filter.mp hkept
  rw [text_movedTo, decide_eq_true_eq] at hfresh
  constructor
  · exact fun hline => ⟨version, mem_append_right _ hmem, rfl, hline⟩
  rintro ⟨old, hold, holdText, hline⟩
  rcases mem_append.mp hold with hold | hold
  · exact absurd (holdText ▸ mem_map_of_mem hold) hfresh
  · rwa [← eq_of_text_eq hdest hold hmem holdText]

/-- After any calls, a move from one path to another leaves each text of both histories once, as
far as it has been seen at either, exactly if no version is taken for another one. -/
theorem relocated_iff (o : StoreOptions τ) (calls : List (Call τ)) (hne : source ≠ dest) :
    Relocated o (o.run [] (fun _ => []) calls).1
        (o.relocate source dest (o.run [] (fun _ => []) calls).1) source dest ↔
      MergesCleanly o (o.run [] (fun _ => []) calls).1 source dest := by
  have h := kept_run (kept_empty o) calls
  generalize (o.run [] (fun _ => []) calls).1 = store at *
  generalize (o.run [] (fun _ => []) calls).2 = arrivals at *
  have hsourceHistory := h.history_getD source
  have hdestHistory := h.history_getD dest
  rw [← pathHistory] at hsourceHistory hdestHistory
  have hsourceNodup := hsourceHistory.arrived.nodup (h.nodup source)
  have hdestNodup := hdestHistory.arrived.nodup (h.nodup dest)
  have hmovedNodup : ((movedTo dest (pathHistory store source)).map Snapshot.text).Nodup := by
    rw [text_movedTo]
    exact hsourceNodup
  have hmoved := hsourceHistory.movedTo dest
  by_cases hsource : pathHistory store source = []
  · -- nothing is moved
    have hsame := @pathHistory_relocate_of_nil τ o store source dest hsource
    refine iff_of_true ⟨?_, ?_, ?_, ?_⟩ fun hsome => absurd hsource hsome
    · rw [hsame, hsource, mergedTexts, map_nil, nil_append, filter_eq_self.mpr]
      · rw [take_of_length_le]
        rw [length_map]
        exact hdestHistory.length_le
      · exact fun _ _ => decide_eq_true not_mem_nil
    · rw [hsame]
      exact hdestNodup
    · intro version hversion line
      rw [hsame] at hversion
      rw [hsource, nil_append]
      exact seen_iff hdestNodup hversion line
    · rw [hsame, hsource]
  obtain ⟨hempty, hfresh, hmerged⟩ := pathHistory_relocate (o := o) h hne hsource
  by_cases hdest : JsMap.get store dest = none
  · -- the versions of the source are put where there were none
    have hnil : pathHistory store dest = [] := by
      rw [pathHistory, hdest]
      rfl
    refine iff_of_true ⟨?_, ?_, ?_, hempty⟩ fun _ hsome => absurd hdest hsome
    · rw [hfresh hdest, text_movedTo, hnil, mergedTexts, map_nil, filter_nil,
        append_nil, take_of_length_le]
      rw [length_map]
      exact hsourceHistory.length_le
    · rw [hfresh hdest]
      exact hmovedNodup
    intro version hversion line
    rw [hfresh hdest] at hversion
    obtain ⟨old, hold, htext, hseen⟩ := mem_movedTo hversion
    rw [hnil, append_nil, ← htext, ← hseen]
    exact seen_iff hsourceNodup hold line
  have htexts : (mergedVersions (movedTo dest (pathHistory store source))
      (pathHistory store dest)).map Snapshot.text =
      mergedTexts (pathHistory store source) (pathHistory store dest) := by
    rw [text_mergedVersions, mergedTexts_movedTo]
  have hhash : ∀ version ∈ mergedVersions (movedTo dest (pathHistory store source))
      (pathHistory store dest), version.hash = o.computeFileHash version.text := by
    intro version hversion
    rcases mem_append.mp hversion with hversion | hversion
    · exact hmoved.hash version hversion
    · exact hdestHistory.hash version (mem_of_mem_filter hversion)
  have hresult := hmerged hdest
  rw [distinctHashes_mergedVersions hmoved hdestHistory] at hresult
  obtain ⟨hkept, hdistinct⟩ := @take_distinctHashes τ o _ o.maxVersionsPerPath hhash
  rw [htexts] at hkept hdistinct
  constructor
  · rintro ⟨hall, -, hseen, -⟩ - -
    rw [hresult] at hall hseen
    have hnodup := hdistinct hall
    rw [hkept hnodup] at hseen
    refine ⟨hnodup, ?_⟩
    intro version hversion old hold htext line hline
    -- the version is among those that are kept
    have hmem : ({ version with path := dest } : Snapshot τ) ∈
        (mergedVersions (movedTo dest (pathHistory store source))
          (pathHistory store dest)).take o.maxVersionsPerPath := by
      have hlength : (movedTo dest (pathHistory store source)).length ≤
        o.maxVersionsPerPath := hmoved.length_le
      rw [mergedVersions, take_append, take_of_length_le hlength]
      exact mem_append_left _ (mem_map.mpr ⟨version, hversion, rfl⟩)
    exact (hseen _ hmem line).mpr ⟨old, mem_append_right _ hold, htext, hline⟩
  intro hclean
  obtain ⟨hnodup, hseen⟩ := hclean hsource hdest
  rw [hkept hnodup] at hresult
  refine ⟨?_, ?_, ?_, hempty⟩
  · rw [hresult, map_take, htexts]
  · rw [hresult, map_take, htexts]
    exact (nodup_mergedTexts hsourceNodup hdestNodup).sublist (take_sublist _ _)
  intro version hversion line
  rw [hresult] at hversion
  exact seen_mergedVersions hsourceNodup hdestNodup hseen
    (mem_of_mem_take hversion) line

/-- Two texts with different tags come together. -/
theorem relocated_small : Relocated smallStore
      (smallStore.run [] (fun _ => []) [.record "a" "one" none 0, .record "b" "four" none 1]).1
      (smallStore.relocate "a" "b"
        (smallStore.run [] (fun _ => []) [.record "a" "one" none 0, .record "b" "four" none 1]).1)
      "a" "b" := by
  refine (relocated_iff smallStore [.record "a" "one" none 0, .record "b" "four" none 1]
    (by decide)).mpr ?_
  intro _ _
  decide

/-- What was seen of a text at the destination is forgotten when the same text is moved there. -/
theorem not_relocated_small : ¬Relocated smallStore
      (smallStore.run [] (fun _ => [])
        [.record "a" "one" (some [1]) 0, .record "b" "one" (some [2]) 1]).1
      (smallStore.relocate "a" "b" (smallStore.run [] (fun _ => [])
        [.record "a" "one" (some [1]) 0, .record "b" "one" (some [2]) 1]).1) "a" "b" := by
  intro h
  have hseen := h.seen ⟨"b", "one", "3", 0, some [1]⟩ (by decide) 2
  exact absurd (hseen.mpr ⟨⟨"b", "one", "3", 1, some [2]⟩, by decide⟩) (by decide)

end StoreOptions

end BreadboardTui.Hashline
