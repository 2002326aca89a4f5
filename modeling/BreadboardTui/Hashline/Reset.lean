import BreadboardTui.Hashline.ExecutorSteps

/-!
# Resetting the executor

An executor that is reset is to be a new one. The rows of an older text that it has recovered
before are kept over the reset, so that a later row for one of their lines is taken for a
repetition.
-/

namespace BreadboardTui.Hashline

open List

namespace Executor

variable {shapes : RowShapes}

/-- A row for the line is recovered from the text. -/
def RecoversRow (shapes : RowShapes) (text : Units) (line : ℕ) : Prop :=
  shapes.isReadMetadataLine text = false ∧ shapes.detectApplyPatchContamination text = false ∧
    trim text ≠ [] ∧ shapes.parseTopLevelBareRangeHeader text = none ∧
      ∃ row, shapes.parseTopLevelSnapshotRow text = some (line, row)

/-- The text names none of the lines. -/
def NamesNone (shapes : RowShapes) (old : List ℕ) (text : Units) : Prop :=
  ∀ line, RecoversRow shapes text line → line ∉ old

/-- The executor with more recovered lines. -/
def recovering (old : List ℕ) (ex : Executor) : Executor :=
  { ex with recoveredSnapshotLines := old ++ ex.recoveredSnapshotLines }

variable {old : List ℕ} {ex : Executor}

/-! ### The lines are not looked at -/

@[simp]
theorem pending_recovering (old : List ℕ) (ex : Executor) :
    (ex.recovering old).pending = ex.pending := rfl

@[simp]
theorem fileOp_recovering (old : List ℕ) (ex : Executor) :
    (ex.recovering old).fileOp = ex.fileOp := rfl

@[simp]
theorem warnings_recovering (old : List ℕ) (ex : Executor) :
    (ex.recovering old).warnings = ex.warnings := rfl

@[simp]
theorem edits_recovering (old : List ℕ) (ex : Executor) :
    (ex.recovering old).edits = ex.edits := rfl

@[simp]
theorem warn_recovering (old : List ℕ) (ex : Executor) (warning : ParseWarning) :
    (ex.recovering old).warn warning = (ex.warn warning).recovering old := rfl

@[simp]
theorem warnOnce_recovering (old : List ℕ) (ex : Executor) (warning : ParseWarning) :
    (ex.recovering old).warnOnce warning = (ex.warnOnce warning).recovering old := by
  rw [warnOnce, warnOnce, warnings_recovering]
  split
  · rfl
  · rw [warn_recovering]

theorem commitDeferredBlanks_recovering (old : List ℕ) (ex : Executor) (pending : Pending) :
    (ex.recovering old).commitDeferredBlanks pending =
      (((ex.commitDeferredBlanks pending).1).recovering old,
        (ex.commitDeferredBlanks pending).2) := by
  rw [commitDeferredBlanks, commitDeferredBlanks]
  split
  · rfl
  · rw [warnOnce_recovering]

theorem handleLiteralPayload_recovering (old : List ℕ) (ex : Executor) (text : Units)
    (lineNum : ℕ) :
    (ex.recovering old).handleLiteralPayload text lineNum =
      (ex.handleLiteralPayload text lineNum).map (recovering old) := by
  rw [handleLiteralPayload, handleLiteralPayload, pending_recovering, fileOp_recovering]
  cases ex.pending with
  | none =>
    dsimp only
    split <;> rfl
  | some pending =>
    dsimp only
    cases bodylessTargetMessage pending.target pending.hadColon lineNum with
    | some => rfl
    | none =>
      dsimp only
      rw [commitDeferredBlanks_recovering]
      split <;> rfl

theorem handleBlank_recovering (old : List ℕ) (ex : Executor) (text : Units) (lineNum : ℕ) :
    (ex.recovering old).handleBlank text lineNum =
      (ex.handleBlank text lineNum).recovering old := by
  rw [handleBlank, handleBlank, pending_recovering]
  cases ex.pending with
  | none => rfl
  | some =>
    dsimp only
    split <;> rfl

theorem handleBareRow_recovering (old : List ℕ) (ex : Executor) (pending : Pending) (text : Units)
    (lineNum : ℕ) :
    (ex.recovering old).handleBareRow pending text lineNum =
      (ex.handleBareRow pending text lineNum).map (recovering old) := by
  rw [handleBareRow, handleBareRow]
  split
  · rw [handleBlank_recovering]
    rfl
  cases bodylessTargetMessage pending.target pending.hadColon lineNum with
  | some => rfl
  | none =>
    dsimp only
    split
    · rw [commitDeferredBlanks_recovering]
      rfl
    rw [warnOnce_recovering, commitDeferredBlanks_recovering]
    rfl

variable {text : Units}

theorem handleTopLevelRow_recovering (hmetadata : shapes.isReadMetadataLine text = false)
    (hcontamination : shapes.detectApplyPatchContamination text = false)
    (h : NamesNone shapes old text) (ex : Executor) (lineNum : ℕ) :
    (ex.recovering old).handleTopLevelRow shapes text lineNum =
      (ex.handleTopLevelRow shapes text lineNum).map (recovering old) := by
  rw [handleTopLevelRow, handleTopLevelRow]
  split
  · rfl
  next hblank =>
  cases hrange : shapes.parseTopLevelBareRangeHeader text with
  | some range =>
    dsimp only
    cases validateRange range.1 range.2 lineNum with
    | error => rfl
    | ok =>
      rw [warnOnce_recovering]
      rfl
  | none =>
    cases hsnapshot : shapes.parseTopLevelSnapshotRow text with
    | none => rfl
    | some found =>
      obtain ⟨line, row⟩ := found
      have hnew : line ∉ old := h line ⟨hmetadata, hcontamination, hblank, hrange, row, hsnapshot⟩
      dsimp only
      have hmem : line ∈ (ex.recovering old).recoveredSnapshotLines ↔
          line ∈ ex.recoveredSnapshotLines := by
        rw [recovering, mem_append, or_iff_right hnew]
      by_cases hline : line ∈ ex.recoveredSnapshotLines
      · rw [if_pos hline, if_pos (hmem.mpr hline)]
        rfl
      rw [if_neg hline, if_neg (mt hmem.mp hline)]
      cases validateRange line line lineNum with
      | error => rfl
      | ok _ =>
        rw [warnOnce_recovering]
        exact congrArg (fun lines => Except.ok { ex.warnOnce .snapshotRowsAutoPut with
          recoveredSnapshotLines := lines
          edits := ex.edits ++ (insertRows (.beforeAnchor line) [row] lineNum true ++
            deleteRows line line lineNum) }) (append_assoc ..)

theorem handleRaw_recovering (h : NamesNone shapes old text) (ex : Executor) (lineNum : ℕ) :
    (ex.recovering old).handleRaw shapes text lineNum =
      (ex.handleRaw shapes text lineNum).map (recovering old) := by
  rw [handleRaw, handleRaw, pending_recovering, fileOp_recovering, warnOnce_recovering]
  split
  · rfl
  next hmetadata =>
  split
  · rfl
  next hcontamination =>
  split
  · rfl
  cases hpending : ex.pending with
  | some pending => exact handleBareRow_recovering old ex pending text lineNum
  | none =>
    rw [hpending, Option.isNone_none, Bool.true_and, Bool.not_eq_true] at hmetadata
    exact handleTopLevelRow_recovering hmetadata (Bool.not_eq_true _ ▸ hcontamination) h ex
      lineNum

/-- The comments that are held back name none of the lines. -/
def CommentsNameNone (shapes : RowShapes) (old : List ℕ) (ex : Executor) : Prop :=
  ∀ comment ∈ ex.skippableComments, NamesNone shapes old comment.2

/-- Steps that each go the same way go the same way in turn. -/
theorem bind_recovering {first : Except ParseError Executor}
    {step : Executor → Except ParseError Executor}
    (h : ∀ ex, first = .ok ex → step (ex.recovering old) = (step ex).map (recovering old)) :
    (first.map (recovering old)).bind step = (first.bind step).map (recovering old) := by
  cases first with
  | error => rfl
  | ok ex => exact h ex rfl

theorem foldlM_recovering {comments : List (ℕ × Units)}
    (h : ∀ comment ∈ comments, NamesNone shapes old comment.2) (ex : Executor) :
    comments.foldlM (fun (ex : Executor) comment => ex.handleRaw shapes comment.2 comment.1)
        (ex.recovering old) =
      (comments.foldlM (fun (ex : Executor) comment => ex.handleRaw shapes comment.2 comment.1)
        ex).map (recovering old) := by
  induction comments generalizing ex with
  | nil => rfl
  | cons comment comments ih =>
    obtain ⟨hfirst, hrest⟩ := forall_mem_cons.mp h
    rw [foldlM_cons, foldlM_cons, handleRaw_recovering hfirst]
    exact bind_recovering fun ex' _ => ih hrest ex'

theorem consume_recovering (h : CommentsNameNone shapes old ex) :
    (ex.recovering old).consumePendingSkippableComments shapes =
      (ex.consumePendingSkippableComments shapes).map (recovering old) := by
  have hfold := foldlM_recovering h ex
  have hcomments : (ex.recovering old).skippableComments = ex.skippableComments := rfl
  rw [consumePendingSkippableComments, consumePendingSkippableComments, hcomments]
  simp only [hfold, bind]
  exact @bind_recovering old _ (fun ex => .ok { ex with skippableComments := [] })
    fun _ _ => rfl

theorem resolveMinusRows_recovering (old : List ℕ) (ex : Executor) (payloads : List PayloadRow) :
    (ex.recovering old).resolveMinusRows shapes payloads =
      (ex.resolveMinusRows shapes payloads).map fun result =>
        (result.1, result.2.recovering old) := by
  rw [resolveMinusRows, resolveMinusRows]
  cases payloads.find? PayloadRow.minus with
  | none => rfl
  | some =>
    dsimp only
    split
    · rw [warnOnce_recovering]
      rfl
    split
    · rw [warnOnce_recovering]
      rfl
    · rfl

theorem flushPending_recovering (old : List ℕ) (ex : Executor) :
    (ex.recovering old).flushPending shapes =
      (ex.flushPending shapes).map (recovering old) := by
  rw [flushPending, flushPending, pending_recovering]
  cases ex.pending with
  | none => rfl
  | some pending =>
    simp only [resolveMinusRows_recovering, bind]
    cases ex.resolveMinusRows shapes pending.payloads with
    | error => rfl
    | ok result =>
      obtain ⟨payloads, resolved⟩ := result
      simp only [Except.map, Except.bind]
      cases emit pending.target pending.hadColon pending.lineNum
          ((stripBarePrefixesIfUniform shapes payloads).map PayloadRow.text) with
      | error e => rfl
      | ok edits =>
        dsimp only
        split
        · rw [warnOnce_recovering]
          rfl
        · rfl

theorem setFileOp_recovering (old : List ℕ) (ex : Executor) (fileOp : PatchFileOp) (lineNum : ℕ) :
    (ex.recovering old).setFileOp fileOp lineNum =
      (ex.setFileOp fileOp lineNum).map (recovering old) := by
  rw [setFileOp, setFileOp, fileOp_recovering, edits_recovering]
  split
  · rfl
  · split <;> rfl

theorem feedOp_recovering (old : List ℕ) (ex : Executor) (target : BlockTarget) (hadColon : Bool)
    (lineNum : ℕ) :
    (ex.recovering old).feedOp shapes target hadColon lineNum =
      (ex.feedOp shapes target hadColon lineNum).map (recovering old) := by
  rw [feedOp, feedOp]
  cases target.validate lineNum with
  | error => rfl
  | ok _ =>
    have hwarned : (if (hadColon && target.isCut) = true then
        (ex.recovering old).warnOnce .cutColonIgnored else ex.recovering old) =
        (if (hadColon && target.isCut) = true then ex.warnOnce .cutColonIgnored else ex).recovering
          old := by
      rw [warnOnce_recovering]
      split <;> rfl
    simp only [bind, Except.bind]
    rw [hwarned]
    split
    · rfl
    rw [flushPending_recovering]
    cases (if (hadColon && target.isCut) = true then
        ex.warnOnce .cutColonIgnored else ex).flushPending shapes with
    | error e => rfl
    | ok flushed =>
      cases target with
      | rem => exact setFileOp_recovering old flushed .rem lineNum
      | move dest => exact setFileOp_recovering old flushed (.move dest) lineNum
      | _ => rfl

/-- A token that names none of the lines. -/
def TokenNamesNone (shapes : RowShapes) (old : List ℕ) (token : Token) : Prop :=
  ∀ text, token.kind = .raw text → NamesNone shapes old text

variable {token : Token}

theorem feed_recovering (h : CommentsNameNone shapes old ex)
    (htoken : TokenNamesNone shapes old token) :
    (ex.recovering old).feed shapes token = (ex.feed shapes token).map (recovering old) := by
  have hterminated : (ex.recovering old).terminated = ex.terminated := rfl
  have hconsume := consume_recovering h
  rw [feed, feed, hterminated]
  split
  · rfl
  cases hkind : token.kind with
  | envelopeBegin => exact hconsume
  | envelopeEnd =>
    simp only [hconsume, bind]
    exact @bind_recovering old _ (fun ex => .ok { ex with terminated := true }) fun _ _ => rfl
  | abort => rfl
  | header _ _ =>
    simp only [hconsume, bind]
    exact bind_recovering fun ex' _ => flushPending_recovering old ex'
  | blank =>
    simp only [hconsume, bind]
    refine @bind_recovering old _ (fun ex => .ok (ex.handleBlank [] token.lineNum))
      fun ex' _ => ?_
    rw [handleBlank_recovering]
    rfl
  | payloadLiteral text =>
    simp only [hconsume, bind]
    exact bind_recovering fun ex' _ => handleLiteralPayload_recovering old ex' text token.lineNum
  | raw text =>
    dsimp only
    rw [pending_recovering]
    split
    · rfl
    simp only [hconsume, bind]
    refine bind_recovering fun ex' _ => ?_
    exact handleRaw_recovering (htoken text hkind) ex' token.lineNum
  | opBlock target hadColon =>
    exact feedOp_recovering old { ex with skippableComments := [] } target hadColon token.lineNum

theorem CommentsNameNone.feed {ex' : Executor} (h : CommentsNameNone shapes old ex)
    (htoken : TokenNamesNone shapes old token) (hfeed : ex.feed shapes token = .ok ex') :
    CommentsNameNone shapes old ex' := by
  intro comment hcomment
  rcases comments_of_feed hfeed comment hcomment with hmem | hkind
  · exact h comment hmem
  · exact htoken comment.2 hkind

/-! ### The end -/

theorem flushComplete_recovering (old : List ℕ) (ex : Executor) :
    (ex.recovering old).flushComplete shapes =
      (ex.flushComplete shapes).map (recovering old) := by
  rw [flushComplete, flushComplete, pending_recovering]
  cases ex.pending with
  | none => rfl
  | some =>
    dsimp only
    split
    · exact flushPending_recovering old ex
    · rfl

theorem flushed_recovering (h : CommentsNameNone shapes old ex) (streaming : Bool) :
    (ex.recovering old).flushed shapes streaming =
      (ex.flushed shapes streaming).map (recovering old) := by
  rw [flushed, flushed, consume_recovering h]
  refine bind_recovering fun ex' _ => ?_
  cases streaming with
  | false => exact flushPending_recovering old ex'
  | true => exact flushComplete_recovering old ex'

theorem normalize_recovering (old : List ℕ) (ex : Executor) :
    (ex.recovering old).normalizeOverlappingRanges =
      ex.normalizeOverlappingRanges.map (recovering old) := by
  rw [normalizeOverlappingRanges, normalizeOverlappingRanges, edits_recovering, warnOnce_recovering]
  split <;> rfl

/-! ### A recovered row -/

/-- What a row is taken for that names a line, outside of any hunk. -/
theorem handleRaw_recovers {line : ℕ} (h : RecoversRow shapes text line)
    (hpending : ex.pending = none) (hfileOp : ex.fileOp = none) (lineNum : ℕ) :
    (line ∈ ex.recoveredSnapshotLines →
        ex.handleRaw shapes text lineNum = .error (.repeatedSnapshotRow lineNum line)) ∧
      (line ∉ ex.recoveredSnapshotLines → ∀ e,
        ex.handleRaw shapes text lineNum = .error e → e ≠ .repeatedSnapshotRow lineNum line) ∧
      ∀ ex', ex.handleRaw shapes text lineNum = .ok ex' → ex'.pending = none := by
  obtain ⟨hmetadata, hcontamination, hblank, hrange, row, hsnapshot⟩ := h
  have hraw : ex.handleRaw shapes text lineNum =
      if line ∈ ex.recoveredSnapshotLines then .error (.repeatedSnapshotRow lineNum line)
      else (validateRange line line lineNum).bind fun _ =>
        .ok { ex.warnOnce .snapshotRowsAutoPut with
          recoveredSnapshotLines := ex.recoveredSnapshotLines ++ [line]
          edits := ex.edits ++
            (insertRows (.beforeAnchor line) [row] lineNum true ++
              deleteRows line line lineNum) } := by
    simp only [handleRaw, hmetadata, hcontamination, hpending, hfileOp, handleTopLevelRow, hblank,
      hrange, hsnapshot]
    rfl
  rw [hraw]
  refine ⟨fun hline => if_pos hline, ?_, ?_⟩
  · intro hline e he
    rw [if_neg hline, validateRange] at he
    split at he
    · cases he
      exact ParseError.noConfusion
    split at he
    · cases he
      exact ParseError.noConfusion
    split at he
    · cases he
      exact ParseError.noConfusion
    · cases he
  intro ex' hex'
  split at hex'
  · cases hex'
  cases hvalid : validateRange line line lineNum with
  | error =>
    rw [hvalid] at hex'
    cases hex'
  | ok _ =>
    rw [hvalid] at hex'
    cases hex'
    exact (pending_warnOnce ex _).trans hpending

end Executor

/-! ### Indices -/

/-- An executor, and the indices of its edits. Every edit that is pushed takes the next index. -/
structure Counted where
  executor : Executor := {}
  indices : List ℕ := []
  editIndex : ℕ := 0
  deriving DecidableEq, Repr

/-- What is returned: the edits with their indices, the file operation and the warnings. -/
structure SectionOutcome where
  edits : List (RowEdit × ℕ)
  fileOp : Option PatchFileOp
  warnings : List ParseWarning
  deriving DecidableEq, Repr

namespace Counted

open Executor (RecoversRow NamesNone CommentsNameNone TokenNamesNone)

/-- The edits that a step has pushed are counted. -/
def count (c : Counted) (executor : Executor) : Counted where
  executor := executor
  indices := c.indices ++ List.range' c.editIndex (executor.edits.length - c.executor.edits.length)
  editIndex := c.editIndex + (executor.edits.length - c.executor.edits.length)

def feed (shapes : RowShapes) (c : Counted) (token : Token) : Except ParseError Counted :=
  (c.executor.feed shapes token).map c.count

def feedAll (shapes : RowShapes) (c : Counted) (tokens : List Token) : Except ParseError Counted :=
  tokens.foldlM (feed shapes) c

/-- The checks at the end. The edits of the hunks that are dropped go with their indices. -/
def close (c : Counted) (executor : Executor) : Except ParseError SectionOutcome := do
  executor.validateFileOp
  let normalized ← executor.normalizeOverlappingRanges
  .ok {
    edits := (executor.edits.zip (c.count executor).indices).filter fun entry =>
      normalized.edits.any fun edit => edit.lineNum = entry.1.lineNum
    fileOp := normalized.fileOp
    warnings := normalized.warnings }

/-- `end`, or `endStreaming`. -/
def finish (shapes : RowShapes) (streaming : Bool) (c : Counted) :
    Except ParseError SectionOutcome :=
  (c.executor.flushed shapes streaming).bind c.close

def reset (c : Counted) : Counted where
  executor := c.executor.reset
  indices := []
  editIndex := 0

/-- Some tokens, and the end. -/
def outcome (shapes : RowShapes) (streaming : Bool) (c : Counted) (tokens : List Token) :
    Except ParseError SectionOutcome :=
  (c.feedAll shapes tokens).bind (finish shapes streaming)

/-- Before and after a reset the executor makes the same of some tokens as a new one. -/
def Same (shapes : RowShapes) (c : Counted) (tokens : List Token) : Prop :=
  ∀ streaming, c.reset.outcome shapes streaming tokens =
    outcome shapes streaming {} tokens

/-! ### The run after a reset -/

def recovering (old : List ℕ) (c : Counted) : Counted :=
  { c with executor := c.executor.recovering old }

variable {shapes : RowShapes} {old : List ℕ} {c : Counted}

theorem reset_eq (c : Counted) :
    c.reset = ({} : Counted).recovering c.executor.recoveredSnapshotLines := by
  rw [reset, Executor.reset, recovering, Executor.recovering, append_nil]

theorem feed_recovering {token : Token} (h : CommentsNameNone shapes old c.executor)
    (htoken : TokenNamesNone shapes old token) :
    (c.recovering old).feed shapes token = (c.feed shapes token).map (recovering old) := by
  have hfeed := Executor.feed_recovering h htoken
  rw [feed, feed]
  change (Executor.feed shapes (c.executor.recovering old) token).map (c.recovering old).count = _
  rw [hfeed]
  cases c.executor.feed shapes token with
  | error => rfl
  | ok => rfl

variable {tokens : List Token}

theorem feedAll_recovering (h : CommentsNameNone shapes old c.executor)
    (htokens : ∀ token ∈ tokens, TokenNamesNone shapes old token) :
    (c.recovering old).feedAll shapes tokens =
        (c.feedAll shapes tokens).map (recovering old) ∧
      ∀ c', c.feedAll shapes tokens = .ok c' → CommentsNameNone shapes old c'.executor := by
  induction tokens generalizing c with
  | nil =>
    refine ⟨rfl, fun c' hc' => ?_⟩
    cases hc'
    exact h
  | cons token tokens ih =>
    obtain ⟨hfirst, hrest⟩ := forall_mem_cons.mp htokens
    have hstep := feed_recovering h hfirst
    rw [feedAll, feedAll, foldlM_cons, foldlM_cons, hstep]
    cases hfeed : c.feed shapes token with
    | error => exact ⟨rfl, fun c' hc' => nomatch hc'⟩
    | ok c' =>
      have hcomments : CommentsNameNone shapes old c'.executor := by
        rw [feed] at hfeed
        cases hexecutor : c.executor.feed shapes token with
        | error =>
          rw [hexecutor] at hfeed
          cases hfeed
        | ok =>
          rw [hexecutor] at hfeed
          cases hfeed
          exact h.feed hfirst hexecutor
      exact ih hcomments hrest

theorem close_recovering (old : List ℕ) (c : Counted) (executor : Executor) :
    (c.recovering old).close (executor.recovering old) = c.close executor := by
  have hfileOp : (executor.recovering old).validateFileOp = executor.validateFileOp := rfl
  simp only [close, hfileOp, Executor.normalize_recovering, bind]
  cases executor.validateFileOp with
  | error => rfl
  | ok =>
    cases executor.normalizeOverlappingRanges with
    | error => rfl
    | ok => rfl

theorem finish_recovering (h : CommentsNameNone shapes old c.executor) (streaming : Bool) :
    (c.recovering old).finish shapes streaming = c.finish shapes streaming := by
  have hflushed := Executor.flushed_recovering h streaming
  rw [finish, finish]
  change (Executor.flushed shapes streaming (c.executor.recovering old)).bind _ = _
  rw [hflushed]
  cases c.executor.flushed shapes streaming with
  | error => rfl
  | ok executor => exact close_recovering old c executor

/-- Rows that name no old line are read as by a new executor. -/
theorem same_of_namesNone (h : ∀ token ∈ tokens,
      TokenNamesNone shapes c.executor.recoveredSnapshotLines token) : Same shapes c tokens := by
  intro streaming
  have hcomments : CommentsNameNone shapes c.executor.recoveredSnapshotLines
      ({} : Counted).executor := fun _ hcomment => absurd hcomment not_mem_nil
  obtain ⟨hfeed, hleft⟩ := feedAll_recovering hcomments h
  rw [reset_eq, outcome, outcome, hfeed]
  cases hfresh : feedAll shapes {} tokens with
  | error => rfl
  | ok c' => exact finish_recovering (hleft c' hfresh) streaming

/-! ### A row that names an old line -/

variable {executor : Executor}

theorem close_error {e : ParseError} (h : c.close executor = .error e) :
    e = .remWithLineOps ∨ e = .alreadyTargeted := by
  simp only [close, bind, Executor.validateFileOp, Executor.normalizeOverlappingRanges] at h
  split at h
  · exact .inl (Except.error.inj h).symm
  cases hnormalize : BlockEdits.normalize [] [] (hunksOf executor.edits) with
  | none =>
    rw [hnormalize] at h
    exact .inr (Except.error.inj h).symm
  | some dropped =>
    rw [hnormalize] at h
    cases dropped <;> cases h

/-- Without a hunk there is nothing to lower at the end. -/
theorem flushed_of_pending_none (hpending : executor.pending = none)
    (hcomments : executor.skippableComments = []) (streaming : Bool) :
    executor.flushed shapes streaming = .ok executor := by
  simp only [Executor.flushed, Executor.consume_of_no_comments hcomments, bind, Except.bind]
  cases streaming with
  | false => simp [Executor.flushPending, hpending]
  | true => simp [Executor.flushComplete, hpending]

/-- The only row of a section is read once, at the end if it is a comment. -/
theorem outcome_raw (shapes : RowShapes) (old : List ℕ) (text : Units) (streaming : Bool) :
    ∃ (executor : Executor) (rest : Executor → Except ParseError SectionOutcome),
      executor.pending = none ∧ executor.fileOp = none ∧ executor.recoveredSnapshotLines = old ∧
        outcome shapes streaming (({} : Counted).recovering old) [⟨0, .raw text⟩] =
          (executor.handleRaw shapes text 0).bind rest ∧
        ∀ read, executor.handleRaw shapes text 0 = .ok read → read.pending = none →
          ∃ (c : Counted) (closed : Executor), rest read = c.close closed := by
  set start : Executor := { recoveredSnapshotLines := old } with hstart
  have hrecovering : ({} : Counted).recovering old = { executor := start } := by
    rw [recovering, Executor.recovering, append_nil]
  rw [hrecovering]
  by_cases hcomment : isSkippableCommentLine text = true
  · set held : Executor := { start with skippableComments := [(0, text)] } with hheld
    have hfeed : feedAll shapes { executor := start } [⟨0, .raw text⟩] =
        .ok (count { executor := start } held) := by
      simp [feedAll, feed, Executor.feed, hcomment, hstart, hheld]
      rfl
    refine ⟨held, fun read => (if streaming then
      ({ read with skippableComments := [] } : Executor).flushComplete shapes else
      ({ read with skippableComments := [] } : Executor).flushPending shapes).bind
        (count { executor := start } held).close, rfl, rfl, rfl, ?_, ?_⟩
    · rw [outcome, hfeed]
      change ((Executor.flushed shapes streaming held).bind _) = _
      simp only [Executor.flushed, Executor.consumePendingSkippableComments, hheld,
        foldlM_cons, foldlM_nil, bind]
      cases Executor.handleRaw shapes held text 0 with
      | error => rfl
      | ok => rfl
    intro read _ hpending
    refine ⟨count { executor := start } held, { read with skippableComments := [] }, ?_⟩
    cases streaming with
    | false => simp [Executor.flushPending, hpending]; rfl
    | true => simp [Executor.flushComplete, hpending]; rfl
  have hfeed : feedAll shapes { executor := start } [⟨0, .raw text⟩] =
      (start.handleRaw shapes text 0).map (count { executor := start }) := by
    have hstep : start.feed shapes ⟨0, .raw text⟩ = start.handleRaw shapes text 0 := by
      simp [Executor.feed, hcomment, hstart, Executor.consumePendingSkippableComments]
      rfl
    simp only [feedAll, foldlM_cons, foldlM_nil, feed, hstep, bind]
    cases start.handleRaw shapes text 0 with
    | error => rfl
    | ok => rfl
  refine ⟨start, fun read => (count { executor := start } read).finish shapes streaming, rfl, rfl,
    rfl, ?_, ?_⟩
  · rw [outcome, hfeed]
    cases start.handleRaw shapes text 0 with
    | error => rfl
    | ok => rfl
  intro read hread hpending
  have hcomments : read.skippableComments = [] := (Executor.handleRaw_effect hread).comments
  refine ⟨count { executor := start } read, read, ?_⟩
  dsimp only
  rw [finish]
  change (Executor.flushed shapes streaming read).bind _ = _
  rw [flushed_of_pending_none hpending hcomments]
  rfl

/-- After a reset the executor reads what names no row recovered before as a new one does; and it is
a new one for all tokens exactly if none of the rows recovered before can be named again. -/
theorem reset_iff (shapes : RowShapes) (c : Counted) : (∀ tokens, (∀ token ∈ tokens,
        TokenNamesNone shapes c.executor.recoveredSnapshotLines token) → Same shapes c tokens) ∧
      ((∀ tokens, Same shapes c tokens) ↔
        ∀ text line, RecoversRow shapes text line →
          line ∉ c.executor.recoveredSnapshotLines) := by
  refine ⟨fun tokens h => same_of_namesNone h, ?_, ?_⟩
  · intro hsame text line hrow hline
    have heq := hsame [⟨0, .raw text⟩] false
    rw [reset_eq] at heq
    obtain ⟨old, rest, hpending, hfileOp, hlines, houtcome, -⟩ :=
      outcome_raw shapes c.executor.recoveredSnapshotLines text false
    obtain ⟨new, rest', hpending', hfileOp', hlines', houtcome', hclose⟩ :=
      outcome_raw shapes [] text false
    change outcome shapes false {} _ = _ at houtcome'
    obtain ⟨hrepeated, -, -⟩ := Executor.handleRaw_recovers hrow hpending hfileOp 0
    obtain ⟨-, hother, hread⟩ := Executor.handleRaw_recovers hrow hpending' hfileOp' 0
    rw [houtcome, houtcome', hrepeated (hlines ▸ hline)] at heq
    cases hnew : new.handleRaw shapes text 0 with
    | error e =>
      rw [hnew] at heq
      exact hother (hlines' ▸ not_mem_nil) e hnew (Except.error.inj heq).symm
    | ok read =>
      obtain ⟨c', closed, hrest⟩ := hclose read hnew (hread read hnew)
      rw [hnew] at heq
      change Except.error _ = rest' read at heq
      rw [hrest] at heq
      rcases close_error heq.symm with he | he <;> exact ParseError.noConfusion he
  intro h tokens
  exact same_of_namesNone fun token _ text _ line hrow => h text line hrow

end Counted

/-! ### A row that was recovered before -/

/-- A line number, a colon or a bar, and the text of the line. -/
def parseTopLevelSnapshotRow (text : Units) : Option (ℕ × Units) :=
  match scanLineNumber (text.dropWhile isTrimmedCode) with
  | some (line, mark :: row) => if mark = 58 ∨ mark = 124 then some (line, row) else none
  | _ => none

/-- The shapes of rows of older texts only. -/
def snapshotShapes : RowShapes where
  isReadMetadataLine _ := false
  detectApplyPatchContamination _ := false
  parseTopLevelBareRangeHeader _ := none
  parseTopLevelSnapshotRow := parseTopLevelSnapshotRow
  mdBulletRow _ := false
  bareLiteralValue _ := false
  stripOneLeadingHashlinePrefix text := text

/-- The executor that has read one row of an older text. -/
def afterRow : Counted where
  executor :=
    { edits := [.insert (.beforeAnchor 1) (units "x") 1 true, .delete 1 1]
      warnings := [.snapshotRowsAutoPut]
      recoveredSnapshotLines := [1] }
  indices := [0, 1]
  editIndex := 2

/-- The row that was read before the reset is rejected after it. -/
theorem not_same_afterRow :
    Counted.feedAll snapshotShapes {} [⟨1, .raw (units "1:x")⟩] = .ok afterRow ∧
      ¬Counted.Same snapshotShapes afterRow [⟨1, .raw (units "1:x")⟩] := by
  refine ⟨by decide +kernel, fun hsame => ?_⟩
  exact absurd (hsame false) (by decide +kernel)

end BreadboardTui.Hashline
