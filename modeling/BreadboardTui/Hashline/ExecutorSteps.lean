import BreadboardTui.Hashline.Executor

/-!
# What the executor does

Each handler of the executor keeps the edits, the hunk and the comments that are held back, or it
changes them in one way: a row opens a hunk or is lowered at once, and a hunk is lowered whole.
-/

namespace BreadboardTui.Hashline

open BlockEdits (Cursor PasteTarget BlockOp spanLines ConcreteHunk)

namespace Executor

variable {shapes : RowShapes} {ex ex' ex'' : Executor} {lineNum : ℕ}

/-- The hunk that the executor is in, without its rows. -/
def hunk (ex : Executor) : Option (BlockTarget × Bool × ℕ) :=
  ex.pending.map fun pending => (pending.target, pending.hadColon, pending.lineNum)

/-- Edits, hunk and comments are the same. -/
structure Keeps (ex ex' : Executor) : Prop where
  edits : ex'.edits = ex.edits
  hunk : ex'.hunk = ex.hunk
  comments : ex'.skippableComments = ex.skippableComments

theorem Keeps.refl (ex : Executor) : Keeps ex ex := ⟨rfl, rfl, rfl⟩

theorem Keeps.trans (h : Keeps ex ex') (h' : Keeps ex' ex'') : Keeps ex ex'' :=
  ⟨h'.edits.trans h.edits, h'.hunk.trans h.hunk, h'.comments.trans h.comments⟩

theorem keeps_warnOnce (ex : Executor) (warning : ParseWarning) :
    Keeps ex (ex.warnOnce warning) := by
  rw [warnOnce]
  split <;> exact ⟨rfl, rfl, rfl⟩

theorem pending_warnOnce (ex : Executor) (warning : ParseWarning) :
    (ex.warnOnce warning).pending = ex.pending := by
  rw [warnOnce]
  split <;> rfl

/-- The blanks are put behind the rows of the hunk. -/
theorem commitDeferredBlanks_keeps (ex : Executor) (pending : Pending) :
    Keeps ex (ex.commitDeferredBlanks pending).1 ∧
      (ex.commitDeferredBlanks pending).2.target = pending.target ∧
      (ex.commitDeferredBlanks pending).2.hadColon = pending.hadColon ∧
      (ex.commitDeferredBlanks pending).2.lineNum = pending.lineNum := by
  rw [commitDeferredBlanks]
  split
  · exact ⟨.refl ex, rfl, rfl, rfl⟩
  · exact ⟨keeps_warnOnce ex _, rfl, rfl, rfl⟩

theorem Keeps.setPending {pending pending' : Pending} (h : Keeps ex ex')
    (hpending : ex.pending = some pending)
    (hsame : pending'.target = pending.target ∧ pending'.hadColon = pending.hadColon ∧
      pending'.lineNum = pending.lineNum) :
    Keeps ex { ex' with pending := some pending' } := by
  refine ⟨h.edits, ?_, h.comments⟩
  rw [Executor.hunk, Executor.hunk, hpending, Option.map_some, Option.map_some, hsame.1,
    hsame.2.1, hsame.2.2]

variable {text : Units}

theorem handleLiteralPayload_keeps
    (h : ex.handleLiteralPayload text lineNum = .ok ex') : Keeps ex ex' := by
  rw [handleLiteralPayload] at h
  cases hpending : ex.pending with
  | none =>
    rw [hpending] at h
    dsimp only at h
    split at h <;> cases h
  | some pending =>
    rw [hpending] at h
    dsimp only at h
    split at h
    · cases h
    obtain ⟨hcommit, hsame⟩ := commitDeferredBlanks_keeps ex pending
    cases h
    refine Keeps.setPending ?_ hpending hsame
    split
    · exact ⟨hcommit.edits, hcommit.hunk, hcommit.comments⟩
    · exact hcommit

theorem handleBlank_keeps (ex : Executor) (text : Units) (lineNum : ℕ) :
    Keeps ex (ex.handleBlank text lineNum) := by
  rw [handleBlank]
  cases hpending : ex.pending with
  | none => exact .refl ex
  | some =>
    dsimp only
    split
    · exact .refl ex
    · exact (Keeps.refl ex).setPending hpending ⟨rfl, rfl, rfl⟩

theorem handleBareRow_keeps {pending : Pending} (hpending : ex.pending = some pending)
    (h : ex.handleBareRow pending text lineNum = .ok ex') : Keeps ex ex' := by
  rw [handleBareRow] at h
  split at h
  · cases h
    exact handleBlank_keeps ex text lineNum
  split at h
  · cases h
  cases h
  split
  · obtain ⟨hcommit, hsame⟩ := commitDeferredBlanks_keeps ex pending
    exact hcommit.setPending hpending hsame
  obtain ⟨hcommit, hsame⟩ := commitDeferredBlanks_keeps (ex.warnOnce .bareBodyAutoPiped) pending
  exact ((keeps_warnOnce ex _).trans hcommit).setPending hpending hsame

/-! ### Rows -/

/-- What a row without a sigil can do. -/
inductive RowEffect (ex : Executor) (lineNum : ℕ) (ex' : Executor) : Prop where
  | keeps (h : Keeps ex ex')
  /-- The row is a range without its keyword. -/
  | opens (start stop : ℕ) (hpending : ex.hunk = none)
      (hunk : ex'.hunk = some (.replace start stop none, true, lineNum))
      (edits : ex'.edits = ex.edits) (comments : ex'.skippableComments = ex.skippableComments)
  /-- The row is one of an older text. -/
  | recovers (line : ℕ) (row : Units) (hpending : ex.hunk = none) (hunk : ex'.hunk = none)
      (edits : ex'.edits = ex.edits ++
        (insertRows (.beforeAnchor line) [row] lineNum true ++ deleteRows line line lineNum))
      (comments : ex'.skippableComments = ex.skippableComments)

theorem handleTopLevelRow_effect (hpending : ex.pending = none)
    (h : ex.handleTopLevelRow shapes text lineNum = .ok ex') : RowEffect ex lineNum ex' := by
  have hnone : ex.hunk = none := by rw [hunk, hpending, Option.map_none]
  rw [handleTopLevelRow] at h
  split at h
  · cases h
    exact .keeps (.refl ex)
  split at h
  · next start stop _ =>
    cases hrange : validateRange start stop lineNum with
    | error =>
      rw [hrange] at h
      cases h
    | ok _ =>
      rw [hrange] at h
      cases h
      exact .opens start stop hnone rfl (keeps_warnOnce ex _).edits (keeps_warnOnce ex _).comments
  split at h
  · next line row _ =>
    split at h
    · cases h
    cases hrange : validateRange line line lineNum with
    | error =>
      rw [hrange] at h
      cases h
    | ok _ =>
      rw [hrange] at h
      cases h
      refine .recovers line row hnone ?_ rfl (keeps_warnOnce ex _).comments
      exact (keeps_warnOnce ex _).hunk.trans hnone
  · cases h

theorem handleRaw_effect (h : ex.handleRaw shapes text lineNum = .ok ex') :
    RowEffect ex lineNum ex' := by
  rw [handleRaw] at h
  split at h
  · cases h
    exact .keeps (keeps_warnOnce ex _)
  split at h
  · cases h
  split at h
  · cases h
  · split at h
    · next hpending => exact .keeps (handleBareRow_keeps hpending h)
    · next hpending => exact handleTopLevelRow_effect hpending h

theorem RowEffect.comments (h : RowEffect ex lineNum ex') :
    ex'.skippableComments = ex.skippableComments := by
  cases h with
  | keeps h => exact h.comments
  | opens _ _ _ _ _ comments => exact comments
  | recovers _ _ _ _ _ comments => exact comments

/-! ### Hunks -/

theorem resolveMinusRows_keeps {payloads : List PayloadRow} {result : List PayloadRow × Executor}
    (h : ex.resolveMinusRows shapes payloads = .ok result) :
    Keeps ex result.2 ∧ result.2.pending = ex.pending := by
  rw [resolveMinusRows] at h
  split at h
  · cases h
    exact ⟨.refl ex, rfl⟩
  split at h
  · cases h
    exact ⟨keeps_warnOnce ex _, pending_warnOnce ex _⟩
  split at h
  · cases h
    exact ⟨keeps_warnOnce ex _, pending_warnOnce ex _⟩
  · cases h

/-- What is left when the hunk is lowered. -/
structure Flushed (ex ex' : Executor) : Prop where
  hunk : ex'.hunk = none
  comments : ex'.skippableComments = ex.skippableComments
  edits : (ex.hunk = none ∧ ex'.edits = ex.edits) ∨
    ∃ target hadColon lineNum payloads es, ex.hunk = some (target, hadColon, lineNum) ∧
      emit target hadColon lineNum payloads = .ok es ∧ ex'.edits = ex.edits ++ es

theorem flushPending_flushed (h : ex.flushPending shapes = .ok ex') : Flushed ex ex' := by
  rw [flushPending] at h
  cases hpending : ex.pending with
  | none =>
    rw [hpending] at h
    cases h
    have hnone : ex.hunk = none := by rw [hunk, hpending, Option.map_none]
    exact ⟨hnone, rfl, .inl ⟨hnone, rfl⟩⟩
  | some pending =>
    rw [hpending] at h
    simp only [bind] at h
    cases hresolve : ex.resolveMinusRows shapes pending.payloads with
    | error =>
      rw [hresolve] at h
      cases h
    | ok result =>
      obtain ⟨payloads, resolved⟩ := result
      obtain ⟨hkeeps, -⟩ := resolveMinusRows_keeps hresolve
      rw [hresolve] at h
      simp only [Except.bind] at h
      cases hemit : emit pending.target pending.hadColon pending.lineNum
          ((stripBarePrefixesIfUniform shapes payloads).map PayloadRow.text) with
      | error e =>
        rw [hemit] at h
        cases h
      | ok es =>
        rw [hemit] at h
        cases h
        have hwarned : Keeps ex (if isEmptyPut pending.target
            (stripBarePrefixesIfUniform shapes payloads) = true then
              resolved.warnOnce .emptyPutAutoCut else resolved) := by
          split
          · exact hkeeps.trans (keeps_warnOnce resolved _)
          · exact hkeeps
        refine ⟨rfl, hwarned.comments, .inr ⟨pending.target, pending.hadColon, pending.lineNum, _,
          es, ?_, hemit, ?_⟩⟩
        · rw [hunk, hpending, Option.map_some]
        · exact congrArg (· ++ es) hwarned.edits

/-- A hunk that the end of a stream has cut off is dropped. -/
theorem flushComplete_flushed (h : ex.flushComplete shapes = .ok ex') :
    Flushed ex ex' ∨ ex'.hunk = none ∧ ex'.edits = ex.edits ∧
      ex'.skippableComments = ex.skippableComments := by
  rw [flushComplete] at h
  split at h
  · next hpending =>
    cases h
    exact .inr ⟨by rw [hunk, hpending, Option.map_none], rfl, rfl⟩
  split at h
  · exact .inl (flushPending_flushed h)
  cases h
  exact .inr ⟨rfl, rfl, rfl⟩

/-- An op lowers the hunk before it, and opens its own. -/
theorem feedOp_effect {target : BlockTarget} {hadColon : Bool}
    (h : ex.feedOp shapes target hadColon lineNum = .ok ex') :
    ∃ flushed, Flushed ex flushed ∧ ex'.edits = flushed.edits ∧
      ex'.skippableComments = flushed.skippableComments ∧
      (ex'.hunk = none ∨ ex'.hunk = some (target, hadColon, lineNum)) := by
  rw [feedOp] at h
  simp only [bind] at h
  cases hvalid : target.validate lineNum with
  | error =>
    rw [hvalid] at h
    cases h
  | ok _ =>
    rw [hvalid] at h
    have hwarned : Keeps ex (if (hadColon && target.isCut) = true then
        ex.warnOnce .cutColonIgnored else ex) := by
      split
      · exact keeps_warnOnce ex _
      · exact .refl ex
    generalize (if (hadColon && target.isCut) = true then
      ex.warnOnce .cutColonIgnored else ex) = warned at h hwarned
    split at h
    · cases h
    cases hflush : warned.flushPending shapes with
    | error =>
      rw [hflush] at h
      cases h
    | ok flushed =>
      rw [hflush] at h
      have hflushed := flushPending_flushed hflush
      have hfrom : Flushed ex flushed := by
        refine ⟨hflushed.hunk, hflushed.comments.trans hwarned.comments, ?_⟩
        rw [← hwarned.hunk, ← hwarned.edits]
        exact hflushed.edits
      have hsetFileOp (fileOp : PatchFileOp)
          (hset : flushed.setFileOp fileOp lineNum = .ok ex') :
          ex'.edits = flushed.edits ∧ ex'.skippableComments = flushed.skippableComments ∧
            ex'.hunk = none := by
        rw [setFileOp] at hset
        split at hset
        · cases hset
        split at hset
        · cases hset
        cases hset
        exact ⟨rfl, rfl, hflushed.hunk⟩
      refine ⟨flushed, hfrom, ?_⟩
      cases target with
      | rem =>
        obtain ⟨hedits, hcomments, hnone⟩ := hsetFileOp _ h
        exact ⟨hedits, hcomments, .inl hnone⟩
      | move =>
        obtain ⟨hedits, hcomments, hnone⟩ := hsetFileOp _ h
        exact ⟨hedits, hcomments, .inl hnone⟩
      | _ =>
        cases h
        exact ⟨rfl, rfl, .inr rfl⟩

/-- What is known before overlapping hunks are dropped. -/
def flushed (shapes : RowShapes) (streaming : Bool) (ex : Executor) :
    Except ParseError Executor := do
  let ex ← ex.consumePendingSkippableComments shapes
  if streaming then ex.flushComplete shapes else ex.flushPending shapes

/-- When the comments have been read, none is held back. -/
theorem comments_consume (h : ex.consumePendingSkippableComments shapes = .ok ex') :
    ex'.skippableComments = [] := by
  rw [consumePendingSkippableComments] at h
  simp only [bind, Except.bind] at h
  split at h
  · cases h
  cases h
  rfl

theorem comments_of_feed {token : Token} (h : ex.feed shapes token = .ok ex') :
    ∀ comment ∈ ex'.skippableComments,
      comment ∈ ex.skippableComments ∨ token.kind = .raw comment.2 := by
  rw [feed] at h
  split at h
  · cases h
    exact fun comment hcomment => .inl hcomment
  -- once the comments are read, no handler holds one back
  have hread {step : Executor → Except ParseError Executor}
      (hstep : ∀ read, step read = .ok ex' → ex'.skippableComments = read.skippableComments)
      (hbind : (ex.consumePendingSkippableComments shapes).bind step = .ok ex') :
      ex'.skippableComments = [] := by
    cases hconsume : ex.consumePendingSkippableComments shapes with
    | error =>
      rw [hconsume] at hbind
      cases hbind
    | ok read =>
      rw [hconsume] at hbind
      rw [hstep read hbind, comments_consume hconsume]
  have hnone (hnil : ex'.skippableComments = []) : ∀ comment ∈ ex'.skippableComments,
      comment ∈ ex.skippableComments ∨ token.kind = .raw comment.2 := by
    intro comment hcomment
    rw [hnil] at hcomment
    exact absurd hcomment List.not_mem_nil
  cases hkind : token.kind with
  | envelopeBegin =>
    rw [hkind] at h hnone
    exact hnone (comments_consume h)
  | envelopeEnd =>
    rw [hkind] at h hnone
    refine hnone (hread (fun read hread => ?_) h)
    cases hread
    rfl
  | abort =>
    rw [hkind] at h
    cases h
    exact fun comment hcomment => .inl hcomment
  | header =>
    rw [hkind] at h hnone
    exact hnone (hread (fun read hflush => (flushPending_flushed hflush).comments) h)
  | blank =>
    rw [hkind] at h hnone
    refine hnone (hread (fun read hblank => ?_) h)
    cases hblank
    exact (handleBlank_keeps read [] token.lineNum).comments
  | payloadLiteral =>
    rw [hkind] at h hnone
    exact hnone (hread (fun read hliteral => (handleLiteralPayload_keeps hliteral).comments) h)
  | raw =>
    rw [hkind] at h hnone
    dsimp only at h
    split at h
    · cases h
      intro comment hcomment
      rcases List.mem_append.mp hcomment with hcomment | hcomment
      · exact .inl hcomment
      obtain rfl := List.mem_singleton.mp hcomment
      exact .inr rfl
    · exact hnone (hread (fun read hraw => (handleRaw_effect hraw).comments) h)
  | opBlock =>
    rw [hkind] at h hnone
    obtain ⟨flushed, hflushed, -, hcomments, -⟩ := feedOp_effect h
    exact hnone (hcomments.trans hflushed.comments)

end Executor

end BreadboardTui.Hashline
