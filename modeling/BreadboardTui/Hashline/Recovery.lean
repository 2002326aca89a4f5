import BreadboardTui.Hashline.BlockEdits
import BreadboardTui.Hashline.Patcher
import BreadboardTui.Hashline.Snapshots

/-!
# Recovery of a stale section

The tag of a section names the text that its author has read, and the file may have changed since.
`Recovery.tryRecover` diffs the two texts, follows every line that the edits touch to the live
text, and applies the edits there. The lines must all have moved by one offset, and their context
with them; where they have not, there is no recovery.

The diff and the applier are arbitrary functions. Of the diff it is assumed that its script is
valid: what it calls unchanged is unchanged.
-/

namespace BreadboardTui.Hashline

open List Option

open BlockEdits (Edit Cursor PasteTarget spanLines)

/-! ### The diff of two texts -/

/-- A run of lines in a line diff. -/
structure DiffRun where
  count : ℕ
  added : Bool := false
  removed : Bool := false
  deriving DecidableEq, Repr

def textLines (text : List Char) : List (List Char) := text.splitOn '\n'

/-- The line with a number, counted from one. -/
def lineAt (lines : List (List Char)) (line : ℤ) : Option (List Char) :=
  if 1 ≤ line then lines[(line - 1).toNat]? else none

/-- The runs lead from the one text to the other, from the places `i` and `j` on: each consumes
lines that are there, and a run that is neither added nor removed consumes equal ones. -/
def ValidScript (previousLines currentLines : List (List Char)) : ℕ → ℕ → List DiffRun → Prop
  | _, _, [] => True
  | i, j, change :: changes =>
    if change.added then
      j + change.count ≤ currentLines.length ∧
        ValidScript previousLines currentLines i (j + change.count) changes
    else if change.removed then
      i + change.count ≤ previousLines.length ∧
        ValidScript previousLines currentLines (i + change.count) j changes
    else
      i + change.count ≤ previousLines.length ∧ j + change.count ≤ currentLines.length ∧
        (∀ k < change.count, previousLines[i + k]? = currentLines[j + k]?) ∧
        ValidScript previousLines currentLines (i + change.count) (j + change.count) changes

/-- Maps `count` lines from `previousLine` on to the lines from `currentLine` on. -/
def mapRun (previousLine currentLine count : ℕ) (map : JsMap ℕ ℕ) : JsMap ℕ ℕ :=
  (List.range count).foldl
    (fun map offset => JsMap.set (previousLine + offset) (currentLine + offset) map) map

/-- The loop of `buildLineMap`. -/
def buildLineMapLoop (previousLine currentLine : ℕ) (map : JsMap ℕ ℕ) : List DiffRun → JsMap ℕ ℕ
  | [] => map
  | change :: changes =>
    if change.added then
      buildLineMapLoop previousLine (currentLine + change.count) map changes
    else if change.removed then
      buildLineMapLoop (previousLine + change.count) currentLine map changes
    else
      buildLineMapLoop (previousLine + change.count) (currentLine + change.count)
        (mapRun previousLine currentLine change.count map) changes

def buildLineMap (changes : List DiffRun) : JsMap ℕ ℕ := buildLineMapLoop 1 1 [] changes

/-! ### The context of the anchors -/

/-- The nearest lines outside an anchor's run, absent at the edge of the file. -/
structure AnchorNeighbors where
  before : Option ℕ
  after : Option ℕ
  deriving DecidableEq, Repr

def collectAnchorLines (edits : List Edit) : List ℕ := edits.flatMap Edit.anchorLines

/-- The neighbors of a run of anchors. -/
def runNeighbors (lineCount : ℕ) (run : List ℕ) : AnchorNeighbors :=
  let start := run.headD 0
  let stop := run.getLastD 0
  { before := if 1 ≤ start - 1 ∧ start - 1 ≤ lineCount then some (start - 1) else none
    after := if stop + 1 ≤ lineCount then some (stop + 1) else none }

def computeAnchorNeighbors (anchorLines : List ℕ) (lineCount : ℕ) : JsMap ℕ AnchorNeighbors :=
  let sorted := anchorLines.dedup.insertionSort (· ≤ ·)
  (sorted.splitBy fun line next => next == line + 1).flatMap fun run =>
    run.map fun line => (line, runNeighbors lineCount run)

/-- The neighbor moves by `offset`. -/
def movesBy (lineMap : JsMap ℕ ℕ) (offset : ℤ) (line : ℕ) : Bool :=
  (JsMap.get lineMap line).any fun mapped => (mapped : ℤ) = line + offset

def validateDuplicateAnchorContext (lineMap : JsMap ℕ ℕ) (line mapped : ℕ)
    (neighbors : AnchorNeighbors) : Bool :=
  neighbors.before.all (movesBy lineMap (mapped - line)) &&
    neighbors.after.all (movesBy lineMap (mapped - line)) &&
    (neighbors.before.isSome || neighbors.after.isSome)

def validateUniqueAnchorContext (lineMap : JsMap ℕ ℕ) (line mapped : ℕ)
    (neighbors : AnchorNeighbors) : Bool :=
  neighbors.after.any (movesBy lineMap (mapped - line)) ||
    neighbors.before.any (movesBy lineMap (mapped - line))

/-- The line's text occurs again in its file. -/
def duplicatedLine (lines : List (List Char)) (line : ℕ) : Bool :=
  (lineAt lines line).any fun value => 2 ≤ lines.count value

def validateRemappedAnchorContext (previousLines currentLines : List (List Char))
    (lineMap : JsMap ℕ ℕ) (edits : List Edit) : Bool :=
  (computeAnchorNeighbors (collectAnchorLines edits) previousLines.length).all
    fun (line, neighbors) =>
      match JsMap.get lineMap line with
      | none => false
      | some mapped =>
        -- a line that occurs again needs both neighbors, any other needs one
        if !duplicatedLine previousLines line && !duplicatedLine currentLines mapped then
          validateUniqueAnchorContext lineMap line mapped neighbors
        else validateDuplicateAnchorContext lineMap line mapped neighbors

/-! ### Mapping the edits -/

/-- A computation that maps lines: it fails on a line that is not mapped, and its state are the
offsets so far. -/
abbrev Mapping (α : Type) : Type := StateT (List ℤ) Option α

def mapLine (lineMap : JsMap ℕ ℕ) (line : ℕ) : Mapping ℕ := fun offsets =>
  (JsMap.get lineMap line).map fun mapped => (mapped, offsets ++ [(mapped : ℤ) - line])

/-- Maps lines in turn; the answer is the last one, or `last` where there are none. -/
def mapInterior (lineMap : JsMap ℕ ℕ) (last : ℕ) : List ℕ → Mapping ℕ
  | [] => pure last
  | line :: lines => do mapInterior lineMap (← mapLine lineMap line) lines

/-- Maps every line of a span. -/
def mapSpan (lineMap : JsMap ℕ ℕ) (start stop : ℕ) : Mapping (ℕ × ℕ) := do
  let first ← mapLine lineMap start
  let last ← mapInterior lineMap first (List.range' (start + 1) (stop - start))
  pure (first, last)

def mapBlockStart (lineMap : JsMap ℕ ℕ) : Option ℕ → Mapping (Option ℕ)
  | none => pure none
  | some line => do pure (some (← mapLine lineMap line))

def mapCursor (lineMap : JsMap ℕ ℕ) : Cursor → Mapping Cursor
  | .beforeAnchor line => do pure (.beforeAnchor (← mapLine lineMap line))
  | .afterAnchor line => do pure (.afterAnchor (← mapLine lineMap line))
  | cursor => pure cursor

/-- The body of the loop of `remapEditsToCurrent`. -/
def remapEdit (lineMap : JsMap ℕ ℕ) : Edit → Mapping Edit
  | .delete line lineNum => do pure (.delete (← mapLine lineMap line) lineNum)
  | .block line payloads op register lineNum => do
    pure (.block (← mapLine lineMap line) payloads op register lineNum)
  | .cut start stop register lineNum => do
    let range ← mapSpan lineMap start stop
    pure (.cut range.1 range.2 register lineNum)
  | .paste (.span start stop) register lineNum blockStart => do
    let blockStart ← mapBlockStart lineMap blockStart
    let range ← mapSpan lineMap start stop
    pure (.paste (.span range.1 range.2) register lineNum blockStart)
  | .paste (.gap cursor) register lineNum blockStart => do
    let blockStart ← mapBlockStart lineMap blockStart
    let cursor ← mapCursor lineMap cursor
    pure (.paste (.gap cursor) register lineNum blockStart)
  | .insert cursor text lineNum replacement blockStart => do
    let blockStart ← mapBlockStart lineMap blockStart
    let cursor ← mapCursor lineMap cursor
    pure (.insert cursor text lineNum replacement blockStart)

def remapEdits (lineMap : JsMap ℕ ℕ) : List Edit → Mapping (List Edit)
  | [] => pure []
  | edit :: edits => do
    let edit ← remapEdit lineMap edit
    let edits ← remapEdits lineMap edits
    pure (edit :: edits)

/-- The one offset of all lines. -/
def uniformOffset : List ℤ → Option ℤ
  | [] => none
  | offset :: offsets => if offsets.all (· = offset) then some offset else none

/-- `remapEditsToCurrent`, with the diff of the two texts: the edits and their offset. -/
def remapEditsToCurrent (changes : List DiffRun) (previousLines currentLines : List (List Char))
    (edits : List Edit) : Option (List Edit × ℤ) :=
  let lineMap := buildLineMap changes
  if validateRemappedAnchorContext previousLines currentLines lineMap edits then
    match remapEdits lineMap edits [] with
    | none => none
    | some (remapped, offsets) => (uniformOffset offsets).map fun offset => (remapped, offset)
  else none

/-! ### Recovery -/

/-- The arguments of a recovery. `γ` are the clipboards. -/
structure RecoveryArgs (γ : Type) where
  path : String
  currentText : List Char
  fileHash : String
  edits : List Edit
  clipboard : Option γ

/-- A recovery driver with what it calls; the applier may throw. -/
structure Recovery (γ : Type) where
  store : SnapshotStore (List Char)
  diffLineRuns : List Char → List Char → List DiffRun
  applyEdits : List Char → List Edit → Option γ → String → Option ApplyResult

def recoveryExternalWarning : String :=
  "Recovered from a stale file hash using a previous read snapshot (file changed externally " ++
    "between read and edit)."

def recoverySessionChainWarning : String :=
  "Recovered from a stale file hash using an earlier in-session snapshot (a prior edit in this " ++
    "session advanced the hash)."

def recoveryLineRemapWarning : String :=
  "Recovered by remapping stale line anchors to unchanged current lines (file changed since the " ++
    "tagged read). Verify the diff matches your intent."

namespace Recovery

variable {γ : Type} (r : Recovery γ)

def replayRemappedAnchorsOnCurrent (previousText : List Char) (args : RecoveryArgs γ)
    (recoveryWarning : String) : Option ApplyResult :=
  match remapEditsToCurrent (r.diffLineRuns previousText args.currentText)
      (textLines previousText) (textLines args.currentText) args.edits with
  | none => none
  | some (edits, offset) =>
    match r.applyEdits args.currentText edits args.clipboard args.path with
    | none => none
    | some applied =>
      -- a replay that changes nothing is no recovery
      if applied.text = args.currentText then none
      else some
        { text := applied.text
          firstChangedLine := applied.firstChangedLine
          warnings :=
            (if offset = 0 then recoveryWarning else recoveryLineRemapWarning) ::
              applied.warnings }

def tryRecover (args : RecoveryArgs γ) : Option ApplyResult :=
  match r.store.byHash args.path args.fileHash with
  | none => none
  | some snapshot =>
    r.replayRemappedAnchorsOnCurrent snapshot.text args
      (if r.store.head args.path = some snapshot then recoveryExternalWarning
        else recoverySessionChainWarning)

end Recovery

/-! ### The line map is sound -/

/-- Every line is mapped to an equal one. -/
def SoundMap (previousLines currentLines : List (List Char)) (lineMap : JsMap ℕ ℕ) : Prop :=
  ∀ line mapped : ℕ, JsMap.get lineMap line = some mapped →
    (lineAt currentLines mapped).isSome ∧ lineAt currentLines mapped = lineAt previousLines line

variable {previousLines currentLines : List (List Char)} {lineMap : JsMap ℕ ℕ}

theorem lineAt_succ (lines : List (List Char)) (i : ℕ) :
    lineAt lines ((i + 1 : ℕ) : ℤ) = lines[i]? := by
  rw [lineAt, if_pos (by omega)]
  congr 1
  omega

theorem SoundMap.set {i j : ℕ} (h : SoundMap previousLines currentLines lineMap)
    (hj : j < currentLines.length) (heq : previousLines[i]? = currentLines[j]?) :
    SoundMap previousLines currentLines (JsMap.set (i + 1) (j + 1) lineMap) := by
  intro line mapped hget
  by_cases hline : line = i + 1
  · subst hline
    rw [JsMap.get_set_self] at hget
    obtain rfl := some.inj hget
    rw [lineAt_succ, lineAt_succ, heq]
    exact ⟨by simpa using hj, rfl⟩
  rw [JsMap.get_set_of_ne hline] at hget
  exact h line mapped hget

theorem SoundMap.mapRun {i j count : ℕ} (h : SoundMap previousLines currentLines lineMap)
    (hj : j + count ≤ currentLines.length)
    (heq : ∀ k < count, previousLines[i + k]? = currentLines[j + k]?) :
    SoundMap previousLines currentLines (mapRun (i + 1) (j + 1) count lineMap) := by
  induction count with
  | zero => exact h
  | succ count ih =>
    have hrun := ih (by omega) fun k hk => heq k (by omega)
    have hset := hrun.set (i := i + count) (j := j + count) (by omega) (heq count (by omega))
    have hi : i + 1 + count = i + count + 1 := by omega
    have hj : j + 1 + count = j + count + 1 := by omega
    rw [Hashline.mapRun, range_succ, List.foldl_append, foldl_cons, foldl_nil, hi, hj]
    exact hset

variable {changes : List DiffRun}

/-- The loop keeps the map sound: the runs consume lines from where it stands in both texts. -/
theorem SoundMap.loop {i j : ℕ} (h : SoundMap previousLines currentLines lineMap)
    (hvalid : ValidScript previousLines currentLines i j changes) :
    SoundMap previousLines currentLines (buildLineMapLoop (i + 1) (j + 1) lineMap changes) := by
  induction changes generalizing i j lineMap with
  | nil => exact h
  | cons change changes ih =>
    rw [ValidScript] at hvalid
    rw [buildLineMapLoop]
    have hi : i + 1 + change.count = i + change.count + 1 := by omega
    have hj : j + 1 + change.count = j + change.count + 1 := by omega
    rw [hi, hj]
    -- an added run is in the current text only, a removed one in the previous text only
    split at hvalid
    · next hadded =>
      rw [if_pos hadded]
      exact ih h hvalid.2
    next hadded =>
    rw [if_neg hadded]
    split at hvalid
    · next hremoved =>
      rw [if_pos hremoved]
      exact ih h hvalid.2
    next hremoved =>
    rw [if_neg hremoved]
    obtain ⟨-, hcount, heq, hrest⟩ := hvalid
    exact ih (h.mapRun hcount heq) hrest

theorem buildLineMap_sound (hvalid : ValidScript previousLines currentLines 0 0 changes) :
    SoundMap previousLines currentLines (buildLineMap changes) := by
  have hempty : SoundMap previousLines currentLines [] := fun line mapped hget => nomatch hget
  exact hempty.loop hvalid

/-! ### What a mapping has read -/

/-- The line, moved by an offset. -/
def shiftLine (d : ℤ) (line : ℕ) : ℕ := (line + d).toNat

def shiftCursor (d : ℤ) : Cursor → Cursor
  | .bof => .bof
  | .eof => .eof
  | .beforeAnchor line => .beforeAnchor (shiftLine d line)
  | .afterAnchor line => .afterAnchor (shiftLine d line)

/-- The edit with each of its lines moved. -/
def shiftEdit (d : ℤ) : Edit → Edit
  | .insert cursor text lineNum replacement blockStart =>
    .insert (shiftCursor d cursor) text lineNum replacement (blockStart.map (shiftLine d))
  | .delete line lineNum => .delete (shiftLine d line) lineNum
  | .cut start stop register lineNum =>
    .cut (shiftLine d start) (shiftLine d stop) register lineNum
  | .paste (.gap cursor) register lineNum blockStart =>
    .paste (.gap (shiftCursor d cursor)) register lineNum (blockStart.map (shiftLine d))
  | .paste (.span start stop) register lineNum blockStart =>
    .paste (.span (shiftLine d start) (shiftLine d stop)) register lineNum
      (blockStart.map (shiftLine d))
  | .block line payloads op register lineNum =>
    .block (shiftLine d line) payloads op register lineNum

def blockStartLines : Edit → List ℕ
  | .insert _ _ _ _ blockStart => blockStart.toList
  | .paste _ _ _ blockStart => blockStart.toList
  | _ => []

/-- The lines that an edit anchors on or spans. -/
def touchedLines (edit : Edit) : List ℕ := blockStartLines edit ++ edit.anchorLines

/-- The span of the edit, if it has one, does not end before it starts. The parser rejects one
that does. -/
def Ordered : Edit → Prop
  | .cut start stop _ _ => start ≤ stop
  | .paste (.span start stop) _ _ _ => start ≤ stop
  | _ => True

/-- The computation adds offsets to the state, and if these are all the same then it has mapped
each of the lines by this offset, and its answer is the one of the offset. -/
def Explains {α : Type} (lineMap : JsMap ℕ ℕ) (act : Mapping α) (lines : List ℕ)
    (value : ℤ → α) : Prop :=
  ∀ offsets a offsets', act offsets = some (a, offsets') →
    ∃ more, offsets' = offsets ++ more ∧ ∀ d, (∀ offset ∈ more, offset = d) →
      a = value d ∧
        ∀ line ∈ lines, ∃ mapped, JsMap.get lineMap line = some mapped ∧ (mapped : ℤ) = line + d

section Explains

variable {α β : Type} {act : Mapping α} {lines lines' : List ℕ}

theorem explains_pure (a : α) : Explains lineMap (pure a) [] fun _ => a := by
  intro offsets a' offsets' h
  cases h
  refine ⟨[], (append_nil _).symm, fun d _ => ⟨rfl, ?_⟩⟩
  intro line hline
  cases hline

theorem explains_mapLine (line : ℕ) :
    Explains lineMap (mapLine lineMap line) [line] fun d => shiftLine d line := by
  intro offsets a offsets' h
  obtain ⟨mapped, hget, hmapped⟩ := map_eq_some_iff.mp h
  obtain ⟨rfl, rfl⟩ := Prod.mk.inj hmapped
  refine ⟨[(mapped : ℤ) - line], rfl, fun d hd => ?_⟩
  have hoffset : (mapped : ℤ) - line = d := hd _ mem_cons_self
  have hshift : (mapped : ℤ) = line + d := by omega
  refine ⟨?_, fun l hl => ?_⟩
  · change mapped = ((line : ℤ) + d).toNat
    rw [← hshift, Int.toNat_natCast]
  obtain rfl := mem_singleton.mp hl
  exact ⟨mapped, hget, hshift⟩

variable {value : ℤ → α}

/-- Two computations in turn, where the second one may look at the answer of the first. -/
theorem Explains.bind {next : α → Mapping β} {value' : α → ℤ → β}
    (h : Explains lineMap act lines value)
    (hnext : ∀ a, Explains lineMap (next a) lines' (value' a)) :
    Explains lineMap (act >>= next) (lines ++ lines') fun d => value' (value d) d := by
  intro offsets b offsets' hrun
  obtain ⟨⟨a, between⟩, hact, hrest⟩ := bind_eq_some_iff.mp hrun
  obtain ⟨more, rfl, hmore⟩ := h offsets a between hact
  obtain ⟨more', rfl, hmore'⟩ := hnext a _ b offsets' hrest
  refine ⟨more ++ more', append_assoc .., fun d hd => ?_⟩
  obtain ⟨rfl, hlines⟩ := hmore d fun o ho => hd o (mem_append_left _ ho)
  obtain ⟨rfl, hlines'⟩ := hmore' d fun o ho => hd o (mem_append_right _ ho)
  refine ⟨rfl, fun line hline => ?_⟩
  rcases mem_append.mp hline with hline | hline
  · exact hlines line hline
  · exact hlines' line hline

theorem Explains.congr {value' : ℤ → α} (h : Explains lineMap act lines value)
    (hlines : ∀ line ∈ lines', line ∈ lines) (hvalue : ∀ d, value d = value' d) :
    Explains lineMap act lines' value' := by
  intro offsets a offsets' hrun
  obtain ⟨more, hoffsets, hmore⟩ := h offsets a offsets' hrun
  refine ⟨more, hoffsets, fun d hd => ?_⟩
  obtain ⟨ha, hmapped⟩ := hmore d hd
  exact ⟨ha.trans (hvalue d), fun line hline => hmapped line (hlines line hline)⟩

theorem Explains.pure (h : Explains lineMap act lines value) (f : α → β) :
    Explains lineMap (act >>= fun a => Pure.pure (f a)) lines fun d => f (value d) :=
  (h.bind fun a => explains_pure (f a)).congr
    (fun _ hline => mem_append_left _ hline) fun _ => rfl

theorem explains_mapInterior (last : ℕ) (lines : List ℕ) :
    Explains lineMap (mapInterior lineMap last lines) lines fun d =>
      (lines.getLast?.map (shiftLine d)).getD last := by
  induction lines generalizing last with
  | nil => exact explains_pure last
  | cons line lines ih =>
    refine ((explains_mapLine line).bind fun mapped => ih mapped).congr
      (fun l hl => hl) fun d => ?_
    rw [getLast?_cons]
    cases lines.getLast? <;> rfl

theorem explains_mapSpan {start stop : ℕ} (h : start ≤ stop) :
    Explains lineMap (mapSpan lineMap start stop) (spanLines start stop) fun d =>
      (shiftLine d start, shiftLine d stop) := by
  have hinterior := fun first =>
    (@explains_mapInterior lineMap first (List.range' (start + 1) (stop - start))).pure
      fun last => (first, last)
  refine ((explains_mapLine start).bind hinterior).congr (fun line hline => ?_) fun d => ?_
  · rw [spanLines, mem_range'_1] at hline
    rw [singleton_append, mem_cons, mem_range'_1]
    omega
  -- the answer of the loop is the last line, which the span of one line never enters
  rcases eq_or_lt_of_le h with rfl | hlt
  · simp
  have hlast : (List.range' (start + 1) (stop - start)).getLast? = some stop := by
    rw [getLast?_range', if_neg (by omega)]
    congr 1
    omega
  rw [hlast]
  rfl

theorem explains_mapBlockStart (blockStart : Option ℕ) :
    Explains lineMap (mapBlockStart lineMap blockStart) blockStart.toList fun d =>
      blockStart.map (shiftLine d) := by
  cases blockStart with
  | none => exact explains_pure none
  | some line => exact (explains_mapLine line).pure some

theorem explains_mapCursor (cursor : Cursor) (register : Option String) (lineNum : ℕ) :
    Explains lineMap (mapCursor lineMap cursor)
      (Edit.paste (.gap cursor) register lineNum none).anchorLines fun d =>
        shiftCursor d cursor := by
  cases cursor with
  | bof => exact explains_pure Cursor.bof
  | eof => exact explains_pure Cursor.eof
  | beforeAnchor line => exact (explains_mapLine line).pure Cursor.beforeAnchor
  | afterAnchor line => exact (explains_mapLine line).pure Cursor.afterAnchor

/-- An edit is mapped to itself, shifted, whichever of the six shapes it has. -/
theorem explains_remapEdit {edit : Edit} (h : Ordered edit) :
    Explains lineMap (remapEdit lineMap edit) (touchedLines edit) fun d => shiftEdit d edit := by
  match edit with
  | .delete line lineNum => exact (explains_mapLine line).pure fun line => Edit.delete line lineNum
  | .block line payloads op register lineNum =>
    exact (explains_mapLine line).pure fun line => Edit.block line payloads op register lineNum
  | .cut start stop register lineNum =>
    exact (explains_mapSpan h).pure fun range => Edit.cut range.1 range.2 register lineNum
  | .paste (.span start stop) register lineNum blockStart =>
    exact (explains_mapBlockStart blockStart).bind fun blockStart =>
      (explains_mapSpan h).pure fun range =>
        Edit.paste (.span range.1 range.2) register lineNum blockStart
  | .paste (.gap cursor) register lineNum blockStart =>
    refine ((explains_mapBlockStart blockStart).bind fun blockStart =>
      (explains_mapCursor cursor register lineNum).pure fun cursor =>
        Edit.paste (.gap cursor) register lineNum blockStart).congr
          (fun line hline => ?_) fun d => ?_
    · cases cursor <;> exact hline
    · rfl
  | .insert cursor text lineNum replacement blockStart =>
    refine ((explains_mapBlockStart blockStart).bind fun blockStart =>
      (explains_mapCursor cursor none lineNum).pure fun cursor =>
        Edit.insert cursor text lineNum replacement blockStart).congr
          (fun line hline => ?_) fun d => ?_
    · cases cursor <;> exact hline
    · rfl

theorem explains_remapEdits {edits : List Edit} (h : ∀ edit ∈ edits, Ordered edit) :
    Explains lineMap (remapEdits lineMap edits) (edits.flatMap touchedLines) fun d =>
      edits.map (shiftEdit d) := by
  induction edits with
  | nil => exact explains_pure []
  | cons edit edits ih =>
    have hedits := ih fun edit hedit => h edit (mem_cons_of_mem _ hedit)
    exact (explains_remapEdit (h edit mem_cons_self)).bind fun edit =>
      hedits.pure fun edits => edit :: edits

end Explains

theorem uniformOffset_spec {offsets : List ℤ} {d : ℤ} (h : uniformOffset offsets = some d) :
    ∀ offset ∈ offsets, offset = d := by
  match offsets with
  | [] => cases h
  | first :: offsets =>
    rw [uniformOffset] at h
    split at h
    · next hall =>
      obtain rfl := some.inj h
      intro offset hoffset
      rcases mem_cons.mp hoffset with rfl | hoffset
      · rfl
      · simpa using all_eq_true.mp hall offset hoffset
    · cases h

/-- What the remapping has found: the edits are shifted by the offset, on lines that are equal. -/
theorem remapEditsToCurrent_spec {edits remapped : List Edit} {d : ℤ}
    (hvalid : ValidScript previousLines currentLines 0 0 changes)
    (hordered : ∀ edit ∈ edits, Ordered edit)
    (h : remapEditsToCurrent changes previousLines currentLines edits = some (remapped, d)) :
    remapped = edits.map (shiftEdit d) ∧
      ∀ edit ∈ edits, ∀ line ∈ touchedLines edit,
        (lineAt currentLines (line + d)).isSome ∧
          lineAt currentLines (line + d) = lineAt previousLines line := by
  simp only [remapEditsToCurrent] at h
  split at h
  · split at h
    · cases h
    · next found offsets hrun =>
      obtain ⟨offset, hoffset, heq⟩ := map_eq_some_iff.mp h
      obtain ⟨rfl, rfl⟩ := Prod.mk.inj heq
      obtain ⟨more, hmore, hspec⟩ := explains_remapEdits hordered [] found offsets hrun
      rw [nil_append] at hmore
      obtain ⟨hshift, hlines⟩ := hspec offset (hmore ▸ uniformOffset_spec hoffset)
      refine ⟨hshift, fun edit hedit line hline => ?_⟩
      obtain ⟨mapped, hget, hmapped⟩ := hlines line (mem_flatMap.mpr ⟨edit, hedit, hline⟩)
      rw [← hmapped]
      exact buildLineMap_sound hvalid line mapped hget
  · cases h

/-! ### Recovery is sound -/

namespace Recovery

variable {γ : Type}

/-- The lines that the edits touch are, moved by `d`, in the live text as they were read. -/
def MovedBy (snapshotText currentText : List Char) (edits : List Edit) (d : ℤ) : Prop :=
  ∀ edit ∈ edits, ∀ line ∈ touchedLines edit,
    (lineAt (textLines currentText) (line + d)).isSome ∧
      lineAt (textLines currentText) (line + d) = lineAt (textLines snapshotText) line

/-- A recovery applies the edits to the live text, shifted by an offset by which every line they
touch has moved unchanged. Where there is no such offset there is no recovery. -/
theorem tryRecover_sound (r : Recovery γ) (args : RecoveryArgs γ) (snapshot : Snapshot (List Char))
    (hsnapshot : r.store.byHash args.path args.fileHash = some snapshot)
    (hdiff : ∀ previousText currentText, ValidScript (textLines previousText)
      (textLines currentText) 0 0 (r.diffLineRuns previousText currentText))
    (hordered : ∀ edit ∈ args.edits, Ordered edit) :
    (∀ result, r.tryRecover args = some result →
      ∃ d, MovedBy snapshot.text args.currentText args.edits d ∧
        ∃ applied, r.applyEdits args.currentText (args.edits.map (shiftEdit d)) args.clipboard
            args.path = some applied ∧ result.text = applied.text) ∧
    ((¬ ∃ d, MovedBy snapshot.text args.currentText args.edits d) → r.tryRecover args = none) := by
  have hsound : ∀ result, r.tryRecover args = some result →
      ∃ d, MovedBy snapshot.text args.currentText args.edits d ∧
        ∃ applied, r.applyEdits args.currentText (args.edits.map (shiftEdit d)) args.clipboard
            args.path = some applied ∧ result.text = applied.text := by
    intro result hresult
    simp only [tryRecover, hsnapshot, replayRemappedAnchorsOnCurrent] at hresult
    split at hresult
    · cases hresult
    next d hremap =>
    obtain ⟨rfl, hmoved⟩ := remapEditsToCurrent_spec (hdiff _ _) hordered hremap
    split at hresult
    · cases hresult
    next applied happlied =>
    split at hresult
    · cases hresult
    obtain rfl := some.inj hresult
    exact ⟨d, hmoved, applied, happlied, rfl⟩
  refine ⟨hsound, fun hnone => ?_⟩
  rw [eq_none_iff_forall_ne_some]
  intro result hresult
  obtain ⟨d, hmoved, -⟩ := hsound result hresult
  exact hnone ⟨d, hmoved⟩

/-- A line has been put in front of a file that was read, and the author deletes its second one. -/
def drifted : Recovery Unit where
  store := [("f.ts", [⟨"f.ts", "a\nb\nc".toList, "1A2B", 0, none⟩])]
  diffLineRuns previousText currentText :=
    if previousText = "a\nb\nc".toList ∧ currentText = "x\na\nb\nc".toList then
      [{ count := 1, added := true }, { count := 3 }]
    else
      [{ count := (textLines previousText).length, removed := true },
        { count := (textLines currentText).length, added := true }]
  applyEdits currentText edits _ _ :=
    some ⟨(['\n'].intercalate (((textLines currentText).zipIdx 1).filterMap fun (line, i) =>
      if i ∈ collectAnchorLines edits then none else some line)),
      (collectAnchorLines edits).head?, []⟩

def driftedArgs : RecoveryArgs Unit :=
  ⟨"f.ts", "x\na\nb\nc".toList, "1A2B", [.delete 2 1], none⟩

theorem drifted_validScript (previousText currentText : List Char) :
    ValidScript (textLines previousText) (textLines currentText) 0 0
      (drifted.diffLineRuns previousText currentText) := by
  simp only [drifted]
  split
  · next h =>
    obtain ⟨rfl, rfl⟩ := h
    exact ⟨by decide +kernel, by decide +kernel, by decide +kernel, by decide +kernel, trivial⟩
  · exact ⟨by simp, by simp, trivial⟩

theorem tryRecover_sound_drifted :
    ∃ d, MovedBy "a\nb\nc".toList "x\na\nb\nc".toList [.delete 2 1] d ∧
      ∃ applied, drifted.applyEdits "x\na\nb\nc".toList ([.delete 2 1].map (shiftEdit d)) none
          "f.ts" = some applied ∧ "x\na\nc".toList = applied.text :=
  (tryRecover_sound drifted driftedArgs ⟨"f.ts", "a\nb\nc".toList, "1A2B", 0, none⟩
    (by decide +kernel) drifted_validScript (by simp [driftedArgs, Ordered])).1
    ⟨"x\na\nc".toList, some 3, [recoveryLineRemapWarning]⟩ (by decide +kernel)

end Recovery

end BreadboardTui.Hashline
