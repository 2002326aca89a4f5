import BreadboardTui.Hashline.BlockEdits
import BreadboardTui.Js.Collections
import Mathlib.Data.List.Sort

/-!
# Splicing edits into a file

The applier has inserts and deletes only, each anchored on a line of the original file, or at its
head or tail. `materializeEdits` puts the edits of each line together and splices line after line
from the bottom up, so that the lines above keep their numbers.

A row is anything with an empty one among them: the rows of a file are texts, and to say where the
rows of a result come from they are labels.
-/

namespace BreadboardTui.Hashline.Apply

open List

open BlockEdits (Cursor)

/-! ### Edits -/

/-- An insert or a delete. Its place in the list stands for its `index`. -/
inductive AppliedEdit (α : Type) where
  | insert (cursor : Cursor) (text : α) (lineNum : ℕ) (replacement : Bool)
      (blockStart : Option ℕ)
  | delete (line lineNum : ℕ)
  deriving DecidableEq, Repr

namespace AppliedEdit

variable {α β : Type}

/-- The lines an edit is anchored on. -/
def anchors : AppliedEdit α → List ℕ
  | .insert (.beforeAnchor line) _ _ _ _ => [line]
  | .insert (.afterAnchor line) _ _ _ _ => [line]
  | .insert _ _ _ _ _ => []
  | .delete line _ => [line]

def isAnchored (edit : AppliedEdit α) : Bool := edit.anchors ≠ []

def isDelete : AppliedEdit α → Bool
  | .delete _ _ => true
  | _ => false

def map (f : α → β) : AppliedEdit α → AppliedEdit β
  | .insert cursor text lineNum replacement blockStart =>
    .insert cursor (f text) lineNum replacement blockStart
  | .delete line lineNum => .delete line lineNum

/-- The row of an insert that is no replacement, before its anchor. -/
def beforeRow : AppliedEdit α → Option α
  | .insert (.afterAnchor _) _ _ _ _ => none
  | .insert _ text _ false _ => some text
  | _ => none

def replacementRow : AppliedEdit α → Option α
  | .insert _ text _ true _ => some text
  | _ => none

/-- The row of an insert that is no replacement, after its anchor. -/
def afterRow : AppliedEdit α → Option α
  | .insert (.afterAnchor _) text _ false _ => some text
  | _ => none

def bofRow : AppliedEdit α → Option α
  | .insert .bof text _ _ _ => some text
  | _ => none

def eofRow : AppliedEdit α → Option α
  | .insert .eof text _ _ _ => some text
  | _ => none

end AppliedEdit

/-! ### Splicing -/

section Splicing

variable {α : Type}

/-- The line an anchored edit is kept under. -/
def bucketLine (edit : AppliedEdit α) : ℕ := edit.anchors.headD 0

/-- The edits by their lines, each bucket in the order of the list. -/
def bucketAnchorEditsByLine (edits : List (AppliedEdit α)) : JsMap ℕ (List (AppliedEdit α)) :=
  edits.foldl (fun byLine edit => JsMap.set (bucketLine edit)
    (((JsMap.get byLine (bucketLine edit)).getD []) ++ [edit]) byLine) []

/-- What stands in the place of a line. -/
def replaceLine (bucket : List (AppliedEdit α)) (currentLine : α) : List α :=
  bucket.filterMap AppliedEdit.beforeRow ++ bucket.filterMap AppliedEdit.replacementRow ++
    (if bucket.any AppliedEdit.isDelete then [] else [currentLine]) ++
    bucket.filterMap AppliedEdit.afterRow

/-- One round of the loop over the lines. -/
def spliceLine [Inhabited α] (fileLines : List α) (entry : ℕ × List (AppliedEdit α)) : List α :=
  let idx := entry.1 - 1
  fileLines.take idx ++ replaceLine entry.2 (fileLines.getD idx default) ++
    fileLines.drop (idx + 1)

/-- The buckets, the one of the last line first. -/
def bottomUp (byLine : JsMap ℕ (List (AppliedEdit α))) : List (ℕ × List (AppliedEdit α)) :=
  byLine.mergeSort fun a b => b.1 ≤ a.1

/-- `""` is the row that is `default`. -/
def insertAtStart [Inhabited α] [DecidableEq α] (fileLines lines : List α) : List α :=
  if lines = [] then fileLines
  else if fileLines = [default] then lines
  else lines ++ fileLines

/-- The rows, and the line that has changed first. -/
def insertAtEnd [Inhabited α] [DecidableEq α] (fileLines lines : List α) : List α × Option ℕ :=
  if lines = [] then (fileLines, none)
  else if fileLines = [default] then (lines, some 1)
  else
    let insertIndex :=
      if fileLines.getLast? = some default then fileLines.length - 1 else fileLines.length
    (fileLines.take insertIndex ++ lines ++ fileLines.drop insertIndex, some (insertIndex + 1))

/-- The rows of the result; its text is what they join to. -/
structure Materialized (α : Type) where
  lines : List α
  firstChangedLine : Option ℕ
  deriving DecidableEq, Repr

def trackFirstChanged (firstChangedLine : Option ℕ) (line : ℕ) : Option ℕ :=
  match firstChangedLine with
  | none => some line
  | some first => if line < first then some line else some first

/-- Splices the edits into the lines. Every bucket has an edit, which changes its line. -/
def materializeEdits [Inhabited α] [DecidableEq α] (originalLines : List α)
    (edits : List (AppliedEdit α)) : Materialized α :=
  let bofLines := edits.filterMap AppliedEdit.bofRow
  let eofLines := edits.filterMap AppliedEdit.eofRow
  let buckets := bottomUp (bucketAnchorEditsByLine (edits.filter AppliedEdit.isAnchored))
  let anchored := buckets.foldl spliceLine originalLines
  let firstAnchored := (buckets.map Prod.fst).foldl trackFirstChanged none
  let firstStart := if bofLines = [] then firstAnchored else trackFirstChanged firstAnchored 1
  let (lines, eofChangedLine) := insertAtEnd (insertAtStart anchored bofLines) eofLines
  ⟨lines, match eofChangedLine with
    | none => firstStart
    | some line => trackFirstChanged firstStart line⟩

end Splicing

/-! ### One pass -/

section OnePass

variable {α β : Type}

/-- The edits of a line. -/
def editsAt (edits : List (AppliedEdit α)) (line : ℕ) : List (AppliedEdit α) :=
  edits.filter fun edit => line ∈ edit.anchors

/-- For each line its rows: what is inserted before it, what replaces it, the line itself unless it
is deleted, and what is inserted after it. -/
def onePass (lines : List α) (edits : List (AppliedEdit α)) : List α :=
  (lines.zipIdx 1).flatMap fun entry => replaceLine (editsAt edits entry.2) entry.1

/-- All edits are anchored on lines of the file. -/
def InBounds (count : ℕ) (edits : List (AppliedEdit α)) : Prop :=
  ∀ edit ∈ edits, ∀ line ∈ edit.anchors, 1 ≤ line ∧ line ≤ count

/-- The rows of the lines from `start` on, where `bucket` has the edits of each line. -/
def pieces (bucket : ℕ → List (AppliedEdit α)) (start : ℕ) (lines : List α) : List α :=
  (lines.zipIdx start).flatMap fun entry => replaceLine (bucket entry.2) entry.1

theorem onePass_eq_pieces (lines : List α) (edits : List (AppliedEdit α)) :
    onePass lines edits = pieces (editsAt edits) 1 lines := rfl

variable (bucket : ℕ → List (AppliedEdit α)) (start : ℕ)

theorem pieces_append (lines lines' : List α) : pieces bucket start (lines ++ lines') =
      pieces bucket start lines ++ pieces bucket (start + lines.length) lines' := by
  rw [pieces, zipIdx_append, flatMap_append]
  rfl

theorem replaceLine_nil (line : α) : replaceLine [] line = [line] := rfl

theorem pieces_nil : pieces bucket start [] = [] := rfl

theorem pieces_cons (line : α) (lines : List α) : pieces bucket start (line :: lines) =
      replaceLine (bucket start) line ++ pieces bucket (start + 1) lines := by
  rw [pieces, zipIdx_cons, flatMap_cons]
  rfl

theorem pieces_congr {bucket bucket' : ℕ → List (AppliedEdit α)} {start : ℕ} {lines : List α}
    (h : ∀ line, start ≤ line → line < start + lines.length → bucket line = bucket' line) :
    pieces bucket start lines = pieces bucket' start lines := by
  induction lines generalizing start with
  | nil => rfl
  | cons line lines ih =>
    have hrest : pieces bucket (start + 1) lines = pieces bucket' (start + 1) lines := by
      refine ih fun n hn hn' => h n (by omega) ?_
      rw [length_cons]
      omega
    have hhead : bucket start = bucket' start := by
      refine h start le_rfl ?_
      rw [length_cons]
      omega
    rw [pieces_cons, pieces_cons, hrest, hhead]

theorem pieces_of_nil {bucket : ℕ → List (AppliedEdit α)} {start : ℕ} {lines : List α}
    (h : ∀ line, start ≤ line → line < start + lines.length → bucket line = []) :
    pieces bucket start lines = lines := by
  induction lines generalizing start with
  | nil => rfl
  | cons line lines ih =>
    have hrest : pieces bucket (start + 1) lines = lines := by
      refine ih fun n hn hn' => h n (by omega) ?_
      rw [length_cons]
      omega
    have hhead : bucket start = [] := by
      refine h start le_rfl ?_
      rw [length_cons]
      omega
    rw [pieces_cons, hrest, hhead, replaceLine_nil, singleton_append]

/-! ### Buckets -/

/-- The edits that are kept under a line. -/
def bucketOf (edits : List (AppliedEdit α)) (line : ℕ) : List (AppliedEdit α) :=
  edits.filter fun edit => bucketLine edit = line

variable (edits : List (AppliedEdit α))

theorem bucketAnchorEditsByLine_concat (edit : AppliedEdit α) :
    bucketAnchorEditsByLine (edits ++ [edit]) =
      JsMap.set (bucketLine edit)
        (((JsMap.get (bucketAnchorEditsByLine edits) (bucketLine edit)).getD []) ++ [edit])
        (bucketAnchorEditsByLine edits) := by
  rw [bucketAnchorEditsByLine, List.foldl_append]
  rfl

variable (line : ℕ)

/-- A bucket holds the edits of its line, in the order of the list. -/
theorem get_bucketAnchorEditsByLine :
    (JsMap.get (bucketAnchorEditsByLine edits) line).getD [] = bucketOf edits line := by
  induction edits using List.reverseRecOn with
  | nil => rfl
  | append_singleton edits edit ih =>
    rw [bucketAnchorEditsByLine_concat, bucketOf, filter_append, ← bucketOf]
    by_cases hline : bucketLine edit = line
    · subst hline
      rw [JsMap.get_set_self, Option.getD_some, ih]
      simp
    rw [JsMap.get_set_of_ne (Ne.symm hline), ih]
    simp [hline]

theorem bucketAnchorEditsByLine_keysNodup : (bucketAnchorEditsByLine edits).KeysNodup := by
  induction edits using List.reverseRecOn with
  | nil => exact nodup_nil
  | append_singleton edits edit ih =>
    rw [bucketAnchorEditsByLine_concat]
    exact ih.set

theorem mem_keys_bucketAnchorEditsByLine : line ∈ (bucketAnchorEditsByLine edits).map Prod.fst ↔
      ∃ edit ∈ edits, bucketLine edit = line := by
  induction edits using List.reverseRecOn with
  | nil => simp [bucketAnchorEditsByLine]
  | append_singleton edits edit ih =>
    rw [bucketAnchorEditsByLine_concat]
    by_cases hkey : bucketLine edit ∈ (bucketAnchorEditsByLine edits).map Prod.fst
    · rw [JsMap.keys_set_of_mem hkey, ih]
      constructor
      · rintro ⟨other, hother, hline⟩
        exact ⟨other, mem_append_left _ hother, hline⟩
      rintro ⟨other, hother, hline⟩
      rcases mem_append.mp hother with hother | hother
      · exact ⟨other, hother, hline⟩
      rw [mem_singleton.mp hother] at hline
      rwa [← ih, ← hline]
    rw [JsMap.set_of_notMem hkey, map_append, mem_append, ih]
    simp only [map_cons, map_nil, mem_singleton, mem_append]
    constructor
    · rintro (⟨other, hother, hline⟩ | rfl)
      · exact ⟨other, .inl hother, hline⟩
      · exact ⟨edit, .inr rfl, rfl⟩
    rintro ⟨other, hother | rfl, hline⟩
    · exact .inl ⟨other, hother, hline⟩
    · exact .inr hline.symm

/-! ### From the bottom up -/

/-- Splicing the lines from the last one on replaces each of the first `count` lines. -/
theorem foldl_spliceLine [Inhabited α] {lines : List α} {bucket : ℕ → List (AppliedEdit α)}
    {entries : List (ℕ × List (AppliedEdit α))}
    (hsorted : entries.Pairwise fun a b => b.1 < a.1) {count : ℕ} (hcount : count ≤ lines.length)
    (hentries : ∀ entry ∈ entries, entry.2 = bucket entry.1 ∧ 1 ≤ entry.1 ∧ entry.1 ≤ count)
    (hnil : ∀ line, 1 ≤ line → line ≤ count → line ∉ entries.map Prod.fst → bucket line = [])
    (below : List α) :
    entries.foldl spliceLine (lines.take count ++ below) =
      pieces bucket 1 (lines.take count) ++ below := by
  induction entries generalizing count below with
  | nil =>
    rw [foldl_nil, pieces_of_nil]
    intro line hline hline'
    rw [length_take] at hline'
    exact hnil line hline (by omega) not_mem_nil
  | cons entry entries ih =>
    obtain ⟨line, edits⟩ := entry
    obtain ⟨hfirst, hrest⟩ := pairwise_cons.mp hsorted
    obtain ⟨hedits, hline, hline'⟩ := hentries _ mem_cons_self
    dsimp only at hedits hline hline'
    subst hedits
    obtain ⟨above, rfl⟩ : ∃ above, line = above + 1 := ⟨line - 1, by omega⟩
    obtain ⟨current, between, hdrop⟩ : ∃ current between,
        (lines.take count).drop above = current :: between := by
      refine exists_cons_of_ne_nil ?_
      intro hnil
      have hlength := congrArg List.length hnil
      rw [length_drop, length_take, length_nil] at hlength
      omega
    have htake : lines.take count = lines.take above ++ current :: between := by
      have hsplit := take_append_drop above (lines.take count)
      rw [take_take, min_eq_left (by omega), hdrop] at hsplit
      exact hsplit.symm
    have hlength : (lines.take above).length = above := by
      rw [length_take]
      omega
    have hsplice : spliceLine (lines.take count ++ below) (above + 1, bucket (above + 1)) =
        lines.take above ++
          (replaceLine (bucket (above + 1)) current ++ (between ++ below)) := by
      have hfile : lines.take count ++ below =
          lines.take above ++ current :: (between ++ below) := by
        rw [htake, append_assoc, cons_append]
      have hget : (lines.take above ++ current :: (between ++ below)).getD above default =
          current := by
        rw [getD_eq_getElem?_getD, getElem?_append_right hlength.le, hlength, Nat.sub_self]
        rfl
      have hafter : (lines.take above ++ current :: (between ++ below)).drop (above + 1) =
          between ++ below := by
        rw [← drop_drop, drop_left' hlength]
        rfl
      rw [spliceLine, hfile]
      simp only [Nat.add_sub_cancel, hget, hafter, take_left' hlength, append_assoc]
    have hkeys : ∀ entry ∈ entries, entry.2 = bucket entry.1 ∧ 1 ≤ entry.1 ∧ entry.1 ≤ above := by
      intro entry hentry
      obtain ⟨hbucket, hpos, -⟩ := hentries entry (mem_cons_of_mem _ hentry)
      have hlt := hfirst entry hentry
      exact ⟨hbucket, hpos, Nat.lt_succ_iff.mp hlt⟩
    have hnotMem : ∀ other, other ≠ above + 1 → other ∉ entries.map Prod.fst →
        other ∉ (((above + 1, bucket (above + 1)) :: entries).map Prod.fst) := by
      intro other hne hother
      rw [map_cons, mem_cons, not_or]
      exact ⟨hne, hother⟩
    have hnone : ∀ other, 1 ≤ other → other ≤ above → other ∉ entries.map Prod.fst →
        bucket other = [] := fun other hpos hle hother =>
      hnil other hpos (by omega) (hnotMem other (by omega) hother)
    have hbetween : pieces bucket (1 + above + 1) between = between := by
      refine pieces_of_nil fun other hpos hlt => ?_
      have hcountLength := congrArg List.length htake
      rw [length_append, length_cons, length_take, length_take] at hcountLength
      refine hnil other (by omega) (by omega) (hnotMem other (by omega) ?_)
      intro hmem
      obtain ⟨entry, hentry, rfl⟩ := mem_map.mp hmem
      have hle := (hkeys entry hentry).2.2
      omega
    rw [foldl_cons, hsplice, ih hrest (by omega) hkeys hnone, htake, pieces_append,
      pieces_cons, hlength, hbetween, Nat.add_comm 1 above, append_assoc, append_assoc]

theorem pairwise_bottomUp {byLine : JsMap ℕ (List (AppliedEdit α))} (h : byLine.KeysNodup) :
    (bottomUp byLine).Pairwise fun a b => b.1 < a.1 := by
  have hsorted : (bottomUp byLine).Pairwise fun a b => decide (b.1 ≤ a.1) = true := by
    refine pairwise_mergeSort ?_ ?_ byLine
    · intro a b c hab hbc
      simp only [decide_eq_true_eq] at hab hbc ⊢
      omega
    intro a b
    simp only [Bool.or_eq_true, decide_eq_true_eq]
    omega
  have hperm : (bottomUp byLine).Perm byLine := mergeSort_perm _ _
  have hnodup : (bottomUp byLine).Pairwise fun a b => a.1 ≠ b.1 := by
    have hkeys : ((bottomUp byLine).map Prod.fst).Nodup := (hperm.map Prod.fst).nodup_iff.mpr h
    exact pairwise_map.mp hkeys
  refine (hsorted.and hnodup).imp ?_
  rintro a b ⟨hle, hne⟩
  exact lt_of_le_of_ne (of_decide_eq_true hle) (Ne.symm hne)

theorem bucketLine_of_mem {edit : AppliedEdit α} {line : ℕ} (h : line ∈ edit.anchors) :
    bucketLine edit = line := by
  rcases edit with ⟨(_ | _ | _ | _), _, _, _, _⟩ | ⟨_, _⟩ <;>
    simp_all [AppliedEdit.anchors, bucketLine]

theorem anchors_of_isAnchored {edit : AppliedEdit α} (h : edit.isAnchored = true) :
    edit.anchors = [bucketLine edit] := by
  rcases edit with ⟨(_ | _ | _ | _), _, _, _, _⟩ | ⟨_, _⟩ <;>
    simp_all [AppliedEdit.anchors, AppliedEdit.isAnchored, bucketLine]

theorem bucketOf_filter :
    bucketOf (edits.filter AppliedEdit.isAnchored) line = editsAt edits line := by
  rw [bucketOf, editsAt, filter_filter]
  refine filter_congr fun edit _ => ?_
  rw [Bool.eq_iff_iff, Bool.and_eq_true, decide_eq_true_eq, decide_eq_true_eq]
  constructor
  · rintro ⟨rfl, hanchored⟩
    rw [anchors_of_isAnchored hanchored]
    exact mem_singleton_self _
  intro hmem
  exact ⟨bucketLine_of_mem hmem, decide_eq_true (ne_nil_of_mem hmem)⟩

theorem mem_bottomUp {edits : List (AppliedEdit α)} {entry : ℕ × List (AppliedEdit α)}
    (h : entry ∈ bottomUp (bucketAnchorEditsByLine edits)) :
    entry.2 = bucketOf edits entry.1 ∧ ∃ edit ∈ edits, bucketLine edit = entry.1 := by
  have hmem : entry ∈ bucketAnchorEditsByLine edits := (mergeSort_perm _ _).mem_iff.mp h
  have hget := JsMap.get_of_mem (bucketAnchorEditsByLine_keysNodup edits) hmem
  refine ⟨?_, (mem_keys_bucketAnchorEditsByLine edits entry.1).mp
    (mem_map_of_mem (f := Prod.fst) hmem)⟩
  rw [← get_bucketAnchorEditsByLine, hget, Option.getD_some]

theorem mem_keys_bottomUp :
    line ∈ (bottomUp (bucketAnchorEditsByLine (edits.filter AppliedEdit.isAnchored))).map
        Prod.fst ↔ line ∈ edits.flatMap AppliedEdit.anchors := by
  have hperm : (bottomUp (bucketAnchorEditsByLine (edits.filter AppliedEdit.isAnchored))).Perm
      (bucketAnchorEditsByLine (edits.filter AppliedEdit.isAnchored)) := mergeSort_perm _ _
  rw [(hperm.map Prod.fst).mem_iff, mem_keys_bucketAnchorEditsByLine, mem_flatMap]
  constructor
  · rintro ⟨edit, hedit, rfl⟩
    obtain ⟨hmem, hanchored⟩ := mem_filter.mp hedit
    refine ⟨edit, hmem, ?_⟩
    rw [anchors_of_isAnchored hanchored]
    exact mem_singleton_self _
  rintro ⟨edit, hedit, hline⟩
  have hanchored : edit.isAnchored = true := decide_eq_true (ne_nil_of_mem hline)
  exact ⟨edit, mem_filter.mpr ⟨hedit, hanchored⟩, bucketLine_of_mem hline⟩

/-- The rows that the loop over the lines leaves. -/
theorem foldl_bottomUp [Inhabited α] {lines : List α} {edits : List (AppliedEdit α)}
    (hbounds : InBounds lines.length edits) :
    (bottomUp (bucketAnchorEditsByLine (edits.filter AppliedEdit.isAnchored))).foldl spliceLine
      lines = onePass lines edits := by
  have hsorted := pairwise_bottomUp
    (bucketAnchorEditsByLine_keysNodup (edits.filter AppliedEdit.isAnchored))
  have hentries : ∀ entry ∈ bottomUp
      (bucketAnchorEditsByLine (edits.filter AppliedEdit.isAnchored)),
      entry.2 = editsAt edits entry.1 ∧ 1 ≤ entry.1 ∧ entry.1 ≤ lines.length := by
    intro entry hentry
    obtain ⟨hbucket, edit, hedit, hline⟩ := mem_bottomUp hentry
    obtain ⟨hmem, hanchored⟩ := mem_filter.mp hedit
    have hanchor : entry.1 ∈ edit.anchors := by
      rw [anchors_of_isAnchored hanchored, hline]
      exact mem_singleton_self _
    exact ⟨hbucket.trans (bucketOf_filter edits entry.1), hbounds edit hmem entry.1 hanchor⟩
  have hnil : ∀ line, 1 ≤ line → line ≤ lines.length →
      line ∉ (bottomUp (bucketAnchorEditsByLine (edits.filter AppliedEdit.isAnchored))).map
        Prod.fst → editsAt edits line = [] := by
    intro line _ _ hline
    rw [mem_keys_bottomUp] at hline
    rw [editsAt, filter_eq_nil_iff]
    intro edit hedit
    rw [decide_eq_true_eq]
    exact fun hanchor => hline (mem_flatMap.mpr ⟨edit, hedit, hanchor⟩)
  have hsplice := foldl_spliceLine hsorted le_rfl hentries hnil []
  rw [take_length, append_nil, append_nil] at hsplice
  exact hsplice

/-! ### The line that has changed first -/

theorem foldl_trackFirstChanged (first : ℕ) (lines : List ℕ) :
    lines.foldl trackFirstChanged (some first) = some (lines.foldl min first) := by
  induction lines generalizing first with
  | nil => rfl
  | cons line lines ih =>
    have hmin : trackFirstChanged (some first) line = some (min first line) := by
      rw [trackFirstChanged]
      split
      · next h => rw [min_eq_right h.le]
      · next h => rw [min_eq_left (not_lt.mp h)]
    rw [foldl_cons, hmin, ih, foldl_cons]

theorem foldl_trackFirstChanged_none (lines : List ℕ) :
    lines.foldl trackFirstChanged none = lines.min? := by
  cases lines with
  | nil => rfl
  | cons line lines =>
    rw [foldl_cons, min?_cons']
    exact foldl_trackFirstChanged line lines

theorem min?_congr {lines lines' : List ℕ} (h : ∀ line, line ∈ lines ↔ line ∈ lines') :
    lines.min? = lines'.min? := by
  cases hmin : lines'.min? with
  | none =>
    rw [min?_eq_none_iff] at hmin ⊢
    rw [eq_nil_iff_forall_not_mem]
    intro line hline
    rw [h, hmin] at hline
    exact not_mem_nil hline
  | some first =>
    rw [min?_eq_some_iff] at hmin ⊢
    exact ⟨(h first).mpr hmin.1, fun line hline => hmin.2 line ((h line).mp hline)⟩

theorem filterMap_bofRow {edits : List (AppliedEdit α)}
    (h : ∀ edit ∈ edits, edit.isAnchored = true) : edits.filterMap AppliedEdit.bofRow = [] := by
  rw [filterMap_eq_nil_iff]
  intro edit hedit
  have hanchored := h edit hedit
  rcases edit with ⟨(_ | _ | _ | _), _, _, _, _⟩ | ⟨_, _⟩ <;>
    first | rfl | exact Bool.noConfusion hanchored

theorem filterMap_eofRow {edits : List (AppliedEdit α)}
    (h : ∀ edit ∈ edits, edit.isAnchored = true) : edits.filterMap AppliedEdit.eofRow = [] := by
  rw [filterMap_eq_nil_iff]
  intro edit hedit
  have hanchored := h edit hedit
  rcases edit with ⟨(_ | _ | _ | _), _, _, _, _⟩ | ⟨_, _⟩ <;>
    first | rfl | exact Bool.noConfusion hanchored

theorem materializeEdits_anchored [Inhabited α] [DecidableEq α] {lines : List α}
    {edits : List (AppliedEdit α)} (hanchored : ∀ edit ∈ edits, edit.isAnchored = true)
    (hbounds : InBounds lines.length edits) :
    materializeEdits lines edits =
      ⟨onePass lines edits, (edits.flatMap AppliedEdit.anchors).min?⟩ := by
  have hfirst : ((bottomUp (bucketAnchorEditsByLine (edits.filter AppliedEdit.isAnchored))).map
      Prod.fst).foldl trackFirstChanged none = (edits.flatMap AppliedEdit.anchors).min? :=
    (foldl_trackFirstChanged_none _).trans (min?_congr (mem_keys_bottomUp edits))
  rw [materializeEdits, filterMap_bofRow hanchored, filterMap_eofRow hanchored,
    foldl_bottomUp hbounds, hfirst]
  rfl

end OnePass

/-! ### Where the rows come from -/

section Sources

variable {α β : Type}

/-- What a row is: a line of the file, or the row of the edit at a place of the list. -/
inductive Source where
  | original (line : ℕ)
  | inserted (index : ℕ)
  deriving DecidableEq, Inhabited, Repr

def Source.isOriginal : Source → Bool
  | .original _ => true
  | .inserted _ => false

/-- The lines with their numbers. -/
def numberedLines (lines : List α) : List (Source × α) :=
  (lines.zipIdx 1).map fun entry => (.original entry.2, entry.1)

/-- The edits, their rows with their places in the list. -/
def numberedEdits (edits : List (AppliedEdit α)) : List (AppliedEdit (Source × α)) :=
  edits.zipIdx.map fun entry => entry.1.map fun text => (.inserted entry.2, text)

def AppliedEdit.text : AppliedEdit α → Option α
  | .insert _ text _ _ _ => some text
  | .delete _ _ => none

/-- An edit of the list deletes the line. -/
def isDeleted (edits : List (AppliedEdit α)) (line : ℕ) : Bool :=
  (editsAt edits line).any AppliedEdit.isDelete

variable (f : α → β) (edit : AppliedEdit α)

@[simp]
theorem anchors_map : (edit.map f).anchors = edit.anchors := by
  rcases edit with ⟨(_ | _ | _ | _), _, _, _, _⟩ | ⟨_, _⟩ <;> rfl

@[simp]
theorem isDelete_map : (edit.map f).isDelete = edit.isDelete := by
  cases edit <;> rfl

theorem beforeRow_map : (edit.map f).beforeRow = edit.beforeRow.map f := by
  rcases edit with ⟨(_ | _ | _ | _), _, _, (_ | _), _⟩ | ⟨_, _⟩ <;> rfl

theorem replacementRow_map : (edit.map f).replacementRow = edit.replacementRow.map f := by
  rcases edit with ⟨(_ | _ | _ | _), _, _, (_ | _), _⟩ | ⟨_, _⟩ <;> rfl

theorem afterRow_map : (edit.map f).afterRow = edit.afterRow.map f := by
  rcases edit with ⟨(_ | _ | _ | _), _, _, (_ | _), _⟩ | ⟨_, _⟩ <;> rfl

theorem filterMap_map_of_commutes {row : AppliedEdit α → Option α}
    {row' : AppliedEdit β → Option β} {f : α → β}
    (h : ∀ edit, row' (edit.map f) = (row edit).map f) (bucket : List (AppliedEdit α)) :
    (bucket.map (AppliedEdit.map f)).filterMap row' = (bucket.filterMap row).map f := by
  rw [filterMap_map, map_filterMap]
  exact filterMap_congr fun edit _ => h edit

theorem replaceLine_map (bucket : List (AppliedEdit α)) (line : α) :
    replaceLine (bucket.map (AppliedEdit.map f)) (f line) = (replaceLine bucket line).map f := by
  have hany : (bucket.map (AppliedEdit.map f)).any AppliedEdit.isDelete =
      bucket.any AppliedEdit.isDelete := by
    rw [any_map]
    exact congrArg bucket.any (funext (isDelete_map f))
  rw [replaceLine, replaceLine, filterMap_map_of_commutes (beforeRow_map f),
    filterMap_map_of_commutes (replacementRow_map f), filterMap_map_of_commutes (afterRow_map f),
    hany, map_append, map_append, map_append]
  split <;> rfl

theorem editsAt_map (edits : List (AppliedEdit α)) (line : ℕ) :
    editsAt (edits.map (AppliedEdit.map f)) line =
      (editsAt edits line).map (AppliedEdit.map f) := by
  rw [editsAt, editsAt, filter_map]
  refine congrArg _ (filter_congr fun edit _ => ?_)
  rw [Function.comp_apply, anchors_map]

variable (lines : List α)

/-- The rows are moved, and never looked at. -/
theorem onePass_map (edits : List (AppliedEdit α)) :
    onePass (lines.map f) (edits.map (AppliedEdit.map f)) = (onePass lines edits).map f := by
  rw [onePass, onePass, zipIdx_map, flatMap_map, map_flatMap]
  refine congrArg (fun row => List.flatMap row _) (funext fun entry => ?_)
  rw [← replaceLine_map, ← editsAt_map]
  rfl

theorem map_numberedLines : (numberedLines lines).map Prod.snd = lines := by
  rw [numberedLines, map_map]
  exact zipIdx_map_fst 1 lines

theorem map_numberedEdits (edits : List (AppliedEdit α)) :
    (numberedEdits edits).map (AppliedEdit.map Prod.snd) = edits := by
  rw [numberedEdits, map_map]
  have hback : (AppliedEdit.map Prod.snd ∘ fun entry : AppliedEdit α × ℕ =>
      entry.1.map fun text => (Source.inserted entry.2, text)) = Prod.fst := by
    funext entry
    obtain ⟨edit, index⟩ := entry
    cases edit <;> rfl
  rw [hback]
  exact zipIdx_map_fst 0 edits

theorem length_numberedLines : (numberedLines lines).length = lines.length := by
  rw [numberedLines, length_map, length_zipIdx]

theorem mem_numberedEdits {edits : List (AppliedEdit α)} {edit : AppliedEdit (Source × α)}
    (h : edit ∈ numberedEdits edits) :
    (∃ authored ∈ edits, edit.anchors = authored.anchors) ∧
      ∀ row, edit.text = some row → row.1.isOriginal = false := by
  obtain ⟨⟨authored, index⟩, hmem, rfl⟩ := mem_map.mp h
  refine ⟨⟨authored, (mem_zipIdx' hmem).2 ▸ getElem_mem _, anchors_map _ _⟩, ?_⟩
  cases authored with
  | insert cursor text =>
    rintro row hrow
    obtain rfl : (Source.inserted index, text) = row := Option.some.inj hrow
    rfl
  | delete =>
    intro row hrow
    exact absurd hrow (Option.some_ne_none row).symm

theorem isDeleted_numberedEdits (edits : List (AppliedEdit α)) (line : ℕ) :
    isDeleted (numberedEdits edits) line = isDeleted edits line := by
  have h := map_numberedEdits edits
  rw [isDeleted, isDeleted]
  conv_rhs => rw [← h, editsAt_map, any_map]
  exact congrArg _ (funext fun edit => (isDelete_map Prod.snd edit).symm)

/-- The inserts of a bucket, as they are put around the line. -/
def insertedRows (bucket : List (AppliedEdit α)) : List α :=
  bucket.filterMap AppliedEdit.beforeRow ++ bucket.filterMap AppliedEdit.replacementRow ++
    bucket.filterMap AppliedEdit.afterRow

theorem insertedRows_perm (bucket : List (AppliedEdit α)) :
    (insertedRows bucket).Perm (bucket.filterMap AppliedEdit.text) := by
  induction bucket with
  | nil => exact .refl _
  | cons edit bucket ih =>
    have hcons (text : α) (rows : List α) (h : rows.Perm (text :: insertedRows bucket)) :
        rows.Perm (text :: bucket.filterMap AppliedEdit.text) := h.trans (ih.cons text)
    have hmiddle (text : α) (above below : List α) :
        (above ++ text :: below).Perm (text :: (above ++ below)) := perm_middle
    rcases edit with ⟨(_ | _ | _ | _), text, _, (_ | _), _⟩ | ⟨_, _⟩
    case delete => exact ih
    case insert.afterAnchor.false =>
      refine hcons text _ ?_
      exact hmiddle text _ _
    all_goals
      refine hcons text _ ?_
      first
        | exact .refl _
        | exact ((hmiddle text _ _).append_right _)

/-- The rows of the inserts in the places of the lines, each edit in its own. -/
theorem flatMap_editsAt_perm {edits : List (AppliedEdit α)} {count : ℕ}
    (hanchored : ∀ edit ∈ edits, edit.isAnchored = true) (hbounds : InBounds count edits) :
    ((List.range' 1 count).flatMap fun line =>
        (editsAt edits line).filterMap AppliedEdit.text).Perm
      (edits.filterMap AppliedEdit.text) := by
  induction edits with
  | nil =>
    have hnil : ((List.range' 1 count).flatMap fun line =>
        (editsAt ([] : List (AppliedEdit α)) line).filterMap AppliedEdit.text) = [] := by
      rw [flatMap_eq_nil_iff]
      exact fun _ _ => rfl
    rw [hnil]
    exact .refl _
  | cons edit edits ih =>
    have hanchors := anchors_of_isAnchored (hanchored edit mem_cons_self)
    obtain ⟨hpos, hle⟩ := hbounds edit mem_cons_self (bucketLine edit)
      (hanchors ▸ mem_singleton_self _)
    have hsplit : ∀ line, (editsAt (edit :: edits) line).filterMap AppliedEdit.text =
        (if line = bucketLine edit then edit.text.toList else []) ++
          (editsAt edits line).filterMap AppliedEdit.text := by
      intro line
      rw [editsAt, filter_cons, hanchors]
      by_cases hline : line = bucketLine edit
      · rw [if_pos hline, if_pos (by simp [hline]), filterMap_cons]
        cases edit.text <;> rfl
      rw [if_neg hline, if_neg (by simp [hline])]
      rfl
    have hone : ((List.range' 1 count).flatMap fun line =>
        if line = bucketLine edit then edit.text.toList else []) = edit.text.toList := by
      have hat : List.range' 1 count = List.range' 1 (bucketLine edit - 1) ++
          bucketLine edit :: List.range' (bucketLine edit + 1) (count - bucketLine edit) := by
        have happend : List.range' 1 (bucketLine edit - 1) ++
            List.range' (1 + (bucketLine edit - 1)) (count - bucketLine edit + 1) =
            List.range' 1 (bucketLine edit - 1 + (count - bucketLine edit + 1)) :=
          range'_append_1
        rw [range'_succ, Nat.add_sub_cancel' hpos] at happend
        rw [happend]
        congr 1
        omega
      have hnone (start size : ℕ) (h : ∀ line ∈ List.range' start size, line ≠ bucketLine edit) :
          ((List.range' start size).flatMap fun line =>
            if line = bucketLine edit then edit.text.toList else []) = [] := by
        rw [flatMap_eq_nil_iff]
        exact fun line hline => if_neg (h line hline)
      rw [hat, flatMap_append, flatMap_cons, if_pos rfl, hnone, hnone, nil_append, append_nil]
      · intro line hline
        rw [mem_range'_1] at hline
        omega
      intro line hline
      rw [mem_range'_1] at hline
      omega
    have hrest := ih (fun other hother => hanchored other (mem_cons_of_mem _ hother))
      fun other hother => hbounds other (mem_cons_of_mem _ hother)
    rw [funext hsplit]
    refine (flatMap_append_perm ..).symm.trans ?_
    rw [hone]
    refine (hrest.append_left _).trans ?_
    rw [filterMap_cons]
    cases edit.text <;> exact .refl _

/-- The edits insert rows that are no lines of the file. -/
def InsertsRows (edits : List (AppliedEdit (Source × α))) : Prop :=
  ∀ edit ∈ edits, ∀ row, edit.text = some row → row.1.isOriginal = false

theorem mem_insertedRows {bucket : List (AppliedEdit α)} {row : α}
    (h : row ∈ insertedRows bucket) : ∃ edit ∈ bucket, edit.text = some row := by
  have hmem := (insertedRows_perm bucket).mem_iff.mp h
  exact mem_filterMap.mp hmem

/-- A line is kept or deleted, and what is put around it is inserted. -/
theorem filter_replaceLine {bucket : List (AppliedEdit (Source × α))} {line : Source × α}
    (hbucket : InsertsRows bucket) (hline : line.1.isOriginal = true) :
    (replaceLine bucket line).filter (fun row => row.1.isOriginal) =
        (if bucket.any AppliedEdit.isDelete then [] else [line]) ∧
      (replaceLine bucket line).filter (fun row => !row.1.isOriginal) = insertedRows bucket := by
  have hinserted : ∀ row ∈ insertedRows bucket, row.1.isOriginal = false := by
    intro row hrow
    obtain ⟨edit, hedit, htext⟩ := mem_insertedRows hrow
    exact hbucket edit hedit row htext
  have habove : ∀ row ∈ bucket.filterMap AppliedEdit.beforeRow ++
      bucket.filterMap AppliedEdit.replacementRow, row.1.isOriginal = false :=
    fun row hrow => hinserted row (mem_append_left _ hrow)
  have hbelow : ∀ row ∈ bucket.filterMap AppliedEdit.afterRow, row.1.isOriginal = false :=
    fun row hrow => hinserted row (mem_append_right _ hrow)
  have hnone (rows : List (Source × α)) (h : ∀ row ∈ rows, row.1.isOriginal = false) :
      rows.filter (fun row => row.1.isOriginal) = [] ∧
        rows.filter (fun row => !row.1.isOriginal) = rows := by
    refine ⟨filter_eq_nil_iff.mpr fun row hrow => ?_, filter_eq_self.mpr fun row hrow => ?_⟩
    · rw [h row hrow]
      exact Bool.false_ne_true
    rw [h row hrow]
    rfl
  constructor
  · rw [replaceLine, filter_append, filter_append, (hnone _ habove).1,
      (hnone _ hbelow).1, nil_append, append_nil]
    split
    · rfl
    rw [filter_cons, if_pos hline]
    rfl
  rw [replaceLine, filter_append, filter_append, (hnone _ habove).2,
    (hnone _ hbelow).2, insertedRows]
  refine congrArg (· ++ _) ?_
  rw [append_right_eq_self]
  split
  · rfl
  rw [filter_cons, hline]
  rfl

theorem insertsRows_numberedEdits (edits : List (AppliedEdit α)) :
    InsertsRows (numberedEdits edits) := fun _ hedit => (mem_numberedEdits hedit).2

/-- The lines of the file that no edit deletes, with their numbers. -/
def undeletedLines (lines : List α) (edits : List (AppliedEdit α)) : List (Source × α) :=
  ((lines.zipIdx 1).filter fun entry => !isDeleted edits entry.2).map fun entry =>
    (.original entry.2, entry.1)

theorem filter_onePass {edits : List (AppliedEdit (Source × α))} (hedits : InsertsRows edits) :
    (onePass (numberedLines lines) edits).filter (fun row => row.1.isOriginal) =
        ((lines.zipIdx 1).filter fun entry => !isDeleted edits entry.2).map (fun entry =>
          (.original entry.2, entry.1)) ∧
      (onePass (numberedLines lines) edits).filter (fun row => !row.1.isOriginal) =
        (List.range' 1 lines.length).flatMap fun line => insertedRows (editsAt edits line) := by
  have hbucket (line : ℕ) : InsertsRows (editsAt edits line) := fun edit hedit =>
    hedits edit (mem_of_mem_filter hedit)
  have hzip : (numberedLines lines).zipIdx 1 =
      (lines.zipIdx 1).map fun entry => ((Source.original entry.2, entry.1), entry.2) := by
    refine ext_getElem ?_ ?_
    · rw [length_zipIdx, length_map, length_zipIdx, length_numberedLines]
    intro i _ _
    simp [numberedLines]
  have hpieces (keep : Source × α → Bool) : (onePass (numberedLines lines) edits).filter keep =
      (lines.zipIdx 1).flatMap fun entry =>
        (replaceLine (editsAt edits entry.2) (.original entry.2, entry.1)).filter keep := by
    rw [onePass, hzip, flatMap_map, filter_flatMap]
  constructor
  · rw [hpieces]
    have hone (entry : α × ℕ) := (filter_replaceLine (hbucket entry.2)
      (show (Source.original entry.2, entry.1).1.isOriginal = true from rfl)).1
    rw [funext hone]
    induction lines.zipIdx 1 with
    | nil => rfl
    | cons entry entries ih =>
      rw [flatMap_cons, ih, filter_cons, isDeleted]
      cases (editsAt edits entry.2).any AppliedEdit.isDelete <;> rfl
  rw [hpieces]
  have hone (entry : α × ℕ) := (filter_replaceLine (hbucket entry.2)
    (show (Source.original entry.2, entry.1).1.isOriginal = true from rfl)).2
  rw [funext hone, ← zipIdx_map_snd 1 lines, flatMap_map]

/-- Anchored edits are spliced in one pass over the lines: for each line what is inserted before
it, what replaces it, the line itself unless it is deleted, and what is inserted after it. The
lines that are not deleted are in the result once, in their order; each insert is in it once; and
the least anchor is what changes first. -/
theorem materializeEdits_onePass [Inhabited α] [DecidableEq α] {lines : List α}
    {edits : List (AppliedEdit α)} (hanchored : ∀ edit ∈ edits, edit.isAnchored = true)
    (hbounds : InBounds lines.length edits) :
    materializeEdits lines edits =
        ⟨onePass lines edits, (edits.flatMap AppliedEdit.anchors).min?⟩ ∧
      (materializeEdits (numberedLines lines) (numberedEdits edits)).lines.map Prod.snd =
        onePass lines edits ∧
      (materializeEdits (numberedLines lines) (numberedEdits edits)).lines.filter
        (fun row => row.1.isOriginal) = undeletedLines lines edits ∧
      ((materializeEdits (numberedLines lines) (numberedEdits edits)).lines.filter
        (fun row => !row.1.isOriginal)).Perm
          ((numberedEdits edits).filterMap AppliedEdit.text) := by
  have hanchored' : ∀ edit ∈ numberedEdits edits, edit.isAnchored = true := by
    intro edit hedit
    obtain ⟨⟨authored, hmem, hanchors⟩, -⟩ := mem_numberedEdits hedit
    rw [AppliedEdit.isAnchored, hanchors]
    exact hanchored authored hmem
  have hbounds' : InBounds (numberedLines lines).length (numberedEdits edits) := by
    intro edit hedit line hline
    obtain ⟨⟨authored, hmem, hanchors⟩, -⟩ := mem_numberedEdits hedit
    rw [length_numberedLines]
    exact hbounds authored hmem line (hanchors ▸ hline)
  have hnumbered : (materializeEdits (numberedLines lines) (numberedEdits edits)).lines =
      onePass (numberedLines lines) (numberedEdits edits) := by
    rw [materializeEdits_anchored hanchored' hbounds']
  obtain ⟨horiginal, hinserted⟩ := filter_onePass lines (insertsRows_numberedEdits edits)
  rw [hnumbered]
  refine ⟨materializeEdits_anchored hanchored hbounds, ?_, ?_, ?_⟩
  · rw [← onePass_map, map_numberedLines, map_numberedEdits]
  · rw [horiginal, undeletedLines]
    refine congrArg (List.map _) (filter_congr fun entry _ => ?_)
    rw [isDeleted_numberedEdits]
  rw [hinserted]
  have hperm : ((List.range' 1 lines.length).flatMap fun line =>
      insertedRows (editsAt (numberedEdits edits) line)).Perm
      ((List.range' 1 lines.length).flatMap fun line =>
        (editsAt (numberedEdits edits) line).filterMap AppliedEdit.text) :=
    List.Perm.flatMap_left _ fun line _ => insertedRows_perm _
  rw [length_numberedLines] at hbounds'
  exact hperm.trans (flatMap_editsAt_perm hanchored' hbounds')

/-- The second of three lines is replaced by two rows, with another after it. -/
theorem materializeEdits_onePass_replace :
    materializeEdits ["a", "b", "c"] [.insert (.afterAnchor 2) "z" 2 false none,
        .insert (.beforeAnchor 2) "x" 1 true none, .insert (.beforeAnchor 2) "y" 1 true none,
        .delete 2 1] =
      ⟨["a", "x", "y", "z", "c"], some 2⟩ := by
  refine (materializeEdits_onePass (by decide) ?_).1.trans (by decide)
  rw [InBounds]
  decide

end Sources

end BreadboardTui.Hashline.Apply
