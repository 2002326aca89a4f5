import BreadboardTui.Disk.Calls

/-!
# The seal and the disk work

Every function of the disk work respects the seal: a call that changes the file comes right after
a check of the seal, without a suspension in between. `Keeps` is the rule for what a function may
find at its start and leaves at its end, `Starts` the one for a function that has just checked.
-/

namespace BreadboardTui

namespace Disk

open Effects Journal
open Loader (SessionTitleSource)

/-- What may be done to the file after the seal. -/
def FileTouch.AfterSeal : FileTouch → Prop
  | updateSessionTitle lineSealed => lineSealed = false
  | cleanUp armed draft entries =>
    armed = true ∧ draft = false ∧ entries.all isDraftOnlyMetadataEntry = true
  | dropSession => True
  | _ => False

/-- The file has only been touched so. -/
def Respected (s : Manager) : Prop := ∀ t ∈ s.sealedTouches, t.AfterSeal

/-- The manager is not sealed, either. -/
def Unsealed (s : Manager) : Prop := Respected s ∧ s.released = false

/-- Every suspended task may find any manager that respects the seal. -/
def sealing (generateId : List String → String) : Contract (machine generateId) where
  inv := Respected
  rely _ _ _ := True
  idle _ _ := True
  pre _ _ _ := True
  allowed _ _ := True

/-- A property that only depends on the seal. -/
def Stable (P : Manager → Prop) : Prop :=
  ∀ {s t : Manager}, t.sealedTouches = s.sealedTouches → t.released = s.released → P s → P t

theorem stable_respected : Stable Respected := by
  intro s t htouches _ h
  rw [Respected, htouches]
  exact h

theorem stable_unsealed : Stable Unsealed := by
  intro s t htouches hreleased h
  exact ⟨stable_respected htouches hreleased h.1, hreleased.trans h.2⟩

section Rules

variable {generateId : List String → String} {P : Manager → Prop} {α β : Type} {i : ℕ} {s : Manager}

/-- Whatever its outcome, the task leaves `P` as it is. -/
def Keeps (generateId : List String → String) (P : Manager → Prop) (p : DiskM α) : Prop :=
  ∀ i s, P s → (sealing generateId).Verifies i p (fun _ => P) s

theorem keeps_pure (a : α) : Keeps generateId P (pure a) := fun _ _ h => h

theorem keeps_throw (e : DiskError) : Keeps generateId P (throw e : DiskM α) := fun _ _ h => h

variable {p : DiskM α}

theorem Keeps.bind {f : α → DiskM β} (hp : Keeps generateId P p)
    (hf : ∀ a, Keeps generateId P (f a)) : Keeps generateId P (p >>= f) := by
  intro i s h
  refine Contract.verifies_bind.mpr ((hp i s h).mono fun r t ht => ?_)
  cases r with
  | ok a => exact hf a i t ht
  | error => exact ht

variable {handler : DiskError → DiskM α}

theorem Keeps.tryCatch (hp : Keeps generateId P p)
    (hhandler : ∀ e, Keeps generateId P (handler e)) :
    Keeps generateId P (tryCatch p handler) := by
  intro i s h
  refine Contract.verifies_tryCatch.mpr ((hp i s h).mono fun r t ht => ?_)
  cases r with
  | ok => exact ht
  | error e => exact hhandler e i t ht

theorem Keeps.always {cleanup : DiskM Unit} (hp : Keeps generateId P p)
    (hcleanup : Keeps generateId P cleanup) : Keeps generateId P (p.always cleanup) := by
  intro i s h
  refine Contract.verifies_always.mpr ((hp i s h).mono fun r t ht => ?_)
  refine (hcleanup i t ht).mono fun c u hu => ?_
  cases c with
  | ok => exact hu
  | error => exact hu

/-- Reading the state, when what is read matters. -/
theorem keeps_get_bind {f : Manager → DiskM β}
    (h : ∀ i s, P s → (sealing generateId).Verifies i (f s) (fun _ => P) s) :
    Keeps generateId P (Fiber.get >>= f) :=
  fun i s hs => Contract.verifies_get_bind.mpr (h i s hs)

theorem keeps_get : Keeps generateId P Fiber.get :=
  fun _ _ h => Contract.verifies_get.mpr h

variable {f : Manager → Manager}

theorem keeps_modify (h : ∀ s, P s → P (f s)) : Keeps generateId P (Fiber.modify f) :=
  fun _ s hs => Contract.verifies_modify.mpr fun _ => ⟨fun _ _ => trivial, h s hs⟩

/-- An update leaves the seal alone. -/
def Frames (f : Manager → Manager) : Prop :=
  ∀ s, (f s).sealedTouches = s.sealedTouches ∧ (f s).released = s.released

theorem keeps_update (hP : Stable P) (h : Frames f) : Keeps generateId P (Fiber.modify f) :=
  keeps_modify fun s hs => hP (h s).1 (h s).2 hs

theorem keeps_set (h : Frames f) : Keeps generateId Respected (Fiber.modify f) :=
  keeps_update stable_respected h

theorem Keeps.ite {c : Prop} [Decidable c] {p q : DiskM α} (hp : c → Keeps generateId P p)
    (hq : ¬ c → Keeps generateId P q) : Keeps generateId P (if c then p else q) := by
  split
  · next h => exact hp h
  · next h => exact hq h

theorem Keeps.ite_pure {c : Prop} [Decidable c] {a : α} {q : DiskM α}
    (hq : ¬ c → Keeps generateId P q) : Keeps generateId P (if c then pure a else q) :=
  .ite (fun _ => keeps_pure a) hq

theorem keeps_call (c : DiskCall) : Keeps generateId Respected (Fiber.call c) :=
  fun _ _ h => Contract.verifies_call.mpr ⟨h, fun _ _ _ _ ht _ => ht⟩

theorem keeps_pause : Keeps generateId Respected Fiber.pause :=
  fun _ _ h => Contract.verifies_pause.mpr ⟨h, fun _ _ ht => ht⟩

/-- Before the seal, a call that changes the file leaves no trace. -/
theorem keeps_touch_unsealed (t : FileTouch) : Keeps generateId Unsealed (touch t) := by
  refine keeps_modify fun s hs => ?_
  rw [hs.2]
  exact hs

theorem keeps_touch {t : FileTouch} (ht : t.AfterSeal) : Keeps generateId Respected (touch t) := by
  refine keeps_modify fun s hs => ?_
  split
  · intro u hu
    rcases List.mem_append.mp hu with hold | hnew
    · exact hs u hold
    rw [List.mem_singleton.mp hnew]
    exact ht
  · exact hs

theorem keeps_spawn {job : DiskJob} : Keeps generateId P (Fiber.spawn job fun _ s => s) :=
  fun _ _ h => Contract.verifies_spawn.mpr fun _ _ _ _ => ⟨⟨trivial, fun _ _ _ => trivial⟩, h⟩

/-- A task that starts before the seal respects it to its end. -/
def Starts (generateId : List String → String) (p : DiskM α) : Prop :=
  ∀ i s, Unsealed s → (sealing generateId).Verifies i p (fun _ => Respected) s

theorem Keeps.starts (hp : Keeps generateId Respected p) : Starts generateId p :=
  fun i s hs => hp i s hs.1

theorem Keeps.starts_of_unsealed (hp : Keeps generateId Unsealed p) : Starts generateId p :=
  fun i s hs => (hp i s hs).mono fun _ _ ht => ht.1

/-- First a block without suspensions, during which nobody can seal the manager. -/
theorem Starts.bind {f : α → DiskM β} (hp : Keeps generateId Unsealed p)
    (hf : ∀ a, Starts generateId (f a)) : Starts generateId (p >>= f) := by
  intro i s hs
  refine Contract.verifies_bind.mpr ((hp i s hs).mono fun r t ht => ?_)
  cases r with
  | ok a => exact hf a i t ht
  | error => exact ht.1

theorem Starts.tryCatch (hp : Starts generateId p)
    (hhandler : ∀ e, Keeps generateId Respected (handler e)) :
    Starts generateId (tryCatch p handler) := by
  intro i s hs
  refine Contract.verifies_tryCatch.mpr ((hp i s hs).mono fun r t ht => ?_)
  cases r with
  | ok => exact ht
  | error e => exact hhandler e i t ht

theorem keeps_guarded {c : Manager → Bool} {p : Manager → DiskM β} {q : Manager → DiskM β}
    (hc : ∀ s, s.released = true → c s = true) (hp : ∀ s, Keeps generateId Respected (p s))
    (hq : ∀ s, c s = false → s.released = false → Starts generateId (q s)) :
    Keeps generateId Respected (Fiber.get >>= fun s => if c s = true then p s else q s) := by
  refine keeps_get_bind fun i s hs => ?_
  split
  · exact hp s i s hs
  next hcs =>
  have hopen : s.released = false := by
    by_contra h
    exact hcs (hc s (eq_true_of_ne_false h))
  exact hq s (eq_false_of_ne_true hcs) hopen i s ⟨hs, hopen⟩

/-- A task without suspensions that asks for the seal first. -/
theorem Keeps.of_unsealed {c : Manager → Bool} {p q : Manager → DiskM β}
    (hc : ∀ s, s.released = true → c s = true) (hp : ∀ s, Keeps generateId Respected (p s))
    (h : Keeps generateId Unsealed (Fiber.get >>= fun s => if c s = true then p s else q s)) :
    Keeps generateId Respected (Fiber.get >>= fun s => if c s = true then p s else q s) := by
  intro i s hs
  by_cases hreleased : s.released = true
  · refine Contract.verifies_get_bind.mpr ?_
    rw [if_pos (hc s hreleased)]
    exact hp s i s hs
  · exact h.starts_of_unsealed i s ⟨hs, eq_false_of_ne_true hreleased⟩

end Rules

/-! ### The functions -/

section Functions

variable {generateId : List String → String} {P : Manager → Prop} {α : Type}

theorem keeps_ask (hP : Stable P) : Keeps generateId P ask :=
  keeps_get.bind fun _ => .bind (keeps_update hP fun _ => ⟨rfl, rfl⟩) fun _ => keeps_pure _

theorem keeps_attemptSync (hP : Stable P) : Keeps generateId P attemptSync :=
  (keeps_ask hP).bind fun _ => .ite_pure fun _ => keeps_throw _

theorem keeps_succeed {answer : DiskM Bool} (h : Keeps generateId P answer) :
    Keeps generateId P (succeed answer) :=
  h.bind fun _ => .ite_pure fun _ => keeps_throw _

theorem keeps_neverAgain : Keeps generateId Respected (neverAgain : DiskM α) :=
  (keeps_call _).bind fun nothing => nothing.elim

theorem keeps_noteDiskFailure (hP : Stable P) (e : DiskError) :
    Keeps generateId P (noteDiskFailure e) :=
  keeps_get.bind fun _ => .bind (keeps_update hP fun _ => ⟨rfl, rfl⟩) fun _ => keeps_pure _

theorem keeps_latchIndeterminate (hP : Stable P) (e : DiskError) (es : List DiskError) :
    Keeps generateId P (latchIndeterminate e es : DiskM α) :=
  .bind (keeps_update hP fun _ => ⟨rfl, rfl⟩) fun _ => keeps_throw _

variable {ignorePriorError ignoreEpoch : Bool}

theorem keeps_queued {work : DiskM Unit} {epoch : ℕ} (h : Keeps generateId Respected work) :
    Keeps generateId Respected (queued work epoch ignorePriorError ignoreEpoch) := by
  refine keeps_get.bind fun s => .ite_pure fun _ => ?_
  split
  · exact keeps_throw _
  · exact h

theorem keeps_settle (hP : Stable P) (ticket : ℕ) :
    Keeps generateId P (Fiber.modify (Manager.settle ticket)) :=
  keeps_update hP fun _ => ⟨rfl, rfl⟩

/-- What is queued may rely on nothing but the seal. -/
theorem keeps_scheduleDiskWork {work : DiskM Unit} {epoch : Option ℕ}
    (h : Keeps generateId Respected work) :
    Keeps generateId Respected (scheduleDiskWork work epoch ignorePriorError ignoreEpoch) := by
  refine keeps_get.bind fun s => .bind (keeps_set fun _ => ⟨rfl, rfl⟩) fun _ =>
    (keeps_call _).bind fun _ => ?_
  refine Keeps.always ((keeps_queued h).tryCatch fun e => ?_) ?_
  · exact keeps_pause.bind fun _ => (keeps_noteDiskFailure stable_respected e).bind
      fun _ => keeps_throw _
  · exact (keeps_settle stable_respected _).bind fun _ => keeps_pause

theorem keeps_withAtomicPersistenceLock {operation : DiskM Unit}
    (h : Keeps generateId Respected operation) :
    Keeps generateId Respected (withAtomicPersistenceLock operation) :=
  keeps_get.bind fun _ => .bind (keeps_set fun _ => ⟨rfl, rfl⟩) fun _ =>
    (keeps_call _).bind fun _ => h.always (keeps_settle stable_respected _)

theorem keeps_closeWriterHandle : Keeps generateId Respected closeWriterHandle :=
  keeps_get.bind fun _ => .ite
    (fun _ => .bind (keeps_set fun _ => ⟨rfl, rfl⟩)
      fun _ => keeps_succeed (keeps_call _))
    fun _ => keeps_pure _

theorem keeps_drainAndCloseWriter : Keeps generateId Respected drainAndCloseWriter :=
  (keeps_scheduleDiskWork keeps_closeWriterHandle).always
    (keeps_set fun _ => ⟨rfl, rfl⟩)

theorem keeps_writerIsOpen (hP : Stable P) (writer : Bool) :
    Keeps generateId P (writerIsOpen writer) :=
  .ite (fun _ => keeps_ask hP) fun _ => keeps_pure _

theorem keeps_writePath (hP : Stable P) (s : Manager) : Keeps generateId P (writePath s) := by
  unfold writePath
  split
  · exact keeps_pure _
  exact (keeps_ask hP).bind fun _ => .ite_pure fun _ =>
    (keeps_ask hP).bind fun _ => .ite_pure fun _ => keeps_pure _

/-- The synchronous rewrite runs without a suspension. -/
theorem keeps_rewriteSynchronously_unsealed : Keeps generateId Unsealed rewriteSynchronously := by
  refine keeps_get.bind fun s => .ite_pure fun _ =>
    .ite_pure fun _ => (keeps_writePath stable_unsealed s).bind fun path => ?_
  split
  · exact keeps_pure _
  refine Keeps.tryCatch ?_ fun e =>
    (keeps_noteDiskFailure stable_unsealed e).bind fun _ => keeps_pure _
  refine (keeps_attemptSync stable_unsealed).bind fun _ =>
    .bind (keeps_update stable_unsealed fun _ => ⟨rfl, rfl⟩) fun _ =>
    (keeps_touch_unsealed _).bind fun _ => (keeps_attemptSync stable_unsealed).bind fun _ =>
    keeps_update stable_unsealed fun s => ?_
  split
  · exact ⟨rfl, rfl⟩
  · exact ⟨rfl, rfl⟩

theorem keeps_rewriteSynchronously : Keeps generateId Respected rewriteSynchronously :=
  keeps_rewriteSynchronously_unsealed.of_unsealed (fun _ h => h) fun _ => keeps_pure _

variable (epoch : ℕ)

theorem frames_relinquishFence : Frames (Manager.relinquishFence epoch) := by
  intro s
  unfold Manager.relinquishFence
  split
  · exact ⟨rfl, rfl⟩
  · exact ⟨rfl, rfl⟩

/-- The commit guard asks for the seal immediately before the staged body becomes visible. -/
theorem keeps_writeTextAtomic : Keeps generateId Respected (writeTextAtomic epoch) := by
  refine (keeps_succeed (keeps_call _)).bind fun _ =>
    keeps_guarded (c := fun s => s.released || s.diskEpoch != epoch) (fun s h => ?_)
      (fun _ => keeps_pause) fun s _ _ => ?_
  · simp [h]
  exact Starts.bind (keeps_touch_unsealed _) fun _ => Starts.bind
    (keeps_attemptSync stable_unsealed) fun _ => keeps_pause.starts

theorem keeps_fencedRounds (epoch n : ℕ) : Keeps generateId Respected (fencedRounds epoch n) := by
  induction n with
  | zero => exact keeps_neverAgain
  | succ n ih =>
    refine .bind (keeps_set fun _ => ⟨rfl, rfl⟩) fun _ =>
      keeps_closeWriterHandle.bind fun _ => keeps_get.bind fun s =>
      .ite_pure fun _ => ?_
    refine (keeps_attemptSync stable_respected).bind fun _ => (keeps_writeTextAtomic epoch).bind
      fun _ => keeps_get.bind fun s => .ite_pure fun _ => ?_
    exact .ite (fun _ => ih) fun _ => keeps_pure _

theorem keeps_runFencedAtomicRewrite :
    Keeps generateId Respected (runFencedAtomicRewrite epoch) := by
  refine keeps_get.bind fun s => .ite_pure fun _ =>
    .bind (keeps_set fun _ => ⟨rfl, rfl⟩) fun _ => ?_
  exact (keeps_fencedRounds epoch _).always
    (keeps_set (frames_relinquishFence epoch))

theorem keeps_rewriteAtomically : Keeps generateId Respected rewriteAtomically := by
  refine keeps_get.bind fun s => .ite_pure fun _ => .ite_pure fun _ => keeps_scheduleDiskWork ?_
  exact (keeps_runFencedAtomicRewrite _).bind fun _ => keeps_pause.bind fun _ =>
    .ite (fun _ => keeps_set fun _ => ⟨rfl, rfl⟩) fun _ => keeps_pure _

variable (e : DiskError)

theorem keeps_repairRounds (epoch n : ℕ) : Keeps generateId Respected (repairRounds e epoch n) := by
  induction n with
  | zero => exact keeps_neverAgain
  | succ n ih =>
    refine .bind (keeps_set fun _ => ⟨rfl, rfl⟩) fun _ => keeps_get.bind fun s =>
      .ite (fun _ => keeps_latchIndeterminate stable_respected _ _) fun _ => ?_
    refine (keeps_attemptSync stable_respected).bind fun _ =>
      ((keeps_writeTextAtomic epoch).tryCatch fun error => ?_).bind fun _ =>
      keeps_get.bind fun s => ?_
    · refine (keeps_call _).bind fun drained => (keeps_call _).bind fun actual => ?_
      split
      · exact keeps_latchIndeterminate stable_respected _ _
      · exact keeps_pure _
      · exact keeps_latchIndeterminate stable_respected _ _
    exact .ite (fun _ => keeps_latchIndeterminate stable_respected _ _) fun _ =>
      .ite (fun _ => ih) fun _ => keeps_pure _

theorem keeps_settleWriter (writer : Bool) :
    Keeps generateId Respected (settleWriter e writer) := by
  have hclose : Keeps generateId Respected (closeWriter writer) :=
    .ite (fun _ => keeps_call _) fun _ => keeps_pure _
  refine hclose.bind fun _ => (keeps_call _).bind fun _ =>
    (keeps_writerIsOpen stable_respected writer).bind fun _ => ?_
  exact .ite (fun _ => keeps_latchIndeterminate stable_respected _ _) fun _ => keeps_pure _

theorem keeps_authoritativelyRewriteCurrentStateLocked :
    Keeps generateId Respected (authoritativelyRewriteCurrentStateLocked e) := by
  refine keeps_get.bind fun s => .ite_pure fun _ => .ite_pure
    fun _ => .bind (keeps_set fun _ => ⟨rfl, rfl⟩) fun _ => ?_
  refine Keeps.always (Keeps.tryCatch ?_ fun error => ?_)
    (keeps_set (frames_relinquishFence _))
  · exact (keeps_call _).bind fun _ => (keeps_settleWriter _ _).bind fun _ =>
      (keeps_repairRounds _ _ _).bind fun _ => keeps_set fun _ => ⟨rfl, rfl⟩
  split
  · exact keeps_throw _
  · exact keeps_latchIndeterminate stable_respected _ _

/-! ### Appending -/

/-- Opening the writer changes the file, but does not wait for it. -/
theorem keeps_appendWriter : Keeps generateId Unsealed appendWriter := by
  refine keeps_get.bind fun s => .ite (fun _ => keeps_throw _) fun _ =>
    (keeps_writerIsOpen stable_unsealed _).bind fun _ => .ite_pure fun _ => ?_
  exact (keeps_touch_unsealed _).bind fun _ => (keeps_attemptSync stable_unsealed).bind fun _ =>
    keeps_update stable_unsealed fun _ => ⟨rfl, rfl⟩

theorem keeps_appendLine : Keeps generateId Unsealed appendLine := by
  refine keeps_appendWriter.bind fun _ => (keeps_attemptSync stable_unsealed).bind fun _ =>
    (keeps_touch_unsealed _).bind fun _ => (keeps_ask stable_unsealed).bind fun _ => ?_
  exact .ite (fun _ => keeps_attemptSync stable_unsealed) fun _ => keeps_spawn.bind
    fun _ => keeps_pure _

theorem keeps_noteDivergence (hP : Stable P) (e : DiskError) :
    Keeps generateId P (noteDivergence e) :=
  .bind (keeps_update hP fun _ => ⟨rfl, rfl⟩) fun _ =>
    (keeps_noteDiskFailure hP e).bind fun _ => keeps_pure _

theorem keeps_appending : Keeps generateId Respected appending :=
  (keeps_call _).bind fun _ =>
    .ite_pure fun _ => keeps_noteDivergence stable_respected _

theorem keeps_appendToSessionFile_unsealed : Keeps generateId Unsealed appendToSessionFile := by
  refine keeps_get.bind fun s => .ite_pure fun _ =>
    .ite (fun _ => keeps_update stable_unsealed fun _ => ⟨rfl, rfl⟩) fun _ =>
    (keeps_update stable_unsealed fun s => ?_).bind fun _ => keeps_get.bind fun s => ?_
  · split
    · exact ⟨rfl, rfl⟩
    · exact ⟨rfl, rfl⟩
  refine .ite (fun _ => keeps_update stable_unsealed fun _ => ⟨rfl, rfl⟩) fun _ =>
    .ite (fun _ => keeps_rewriteSynchronously_unsealed) fun _ => .ite (fun _ => ?_) fun _ =>
    .ite (fun _ => keeps_rewriteSynchronously_unsealed) fun _ => ?_
  · exact .bind (keeps_update stable_unsealed fun _ => ⟨rfl, rfl⟩) fun _ =>
      keeps_rewriteSynchronously_unsealed
  · exact keeps_appendLine.tryCatch fun e => keeps_noteDivergence stable_unsealed e

theorem keeps_appendToSessionFile : Keeps generateId Respected appendToSessionFile :=
  keeps_appendToSessionFile_unsealed.of_unsealed (fun _ h => by simp [h]) fun _ => keeps_pure _

theorem keeps_recordEntry (entry : SessionEntry) : Keeps generateId Respected (recordEntry entry) :=
  keeps_get.bind fun _ => .ite_pure fun _ =>
    .bind (keeps_set fun _ => ⟨rfl, rfl⟩) fun _ => keeps_appendToSessionFile

/-- The task of a title change. Its line is started before the seal; the slot may be written
later. -/
theorem keeps_titleTask : Keeps generateId Respected (titleTask epoch) := by
  refine keeps_guarded (c := Manager.released) (fun _ h => h) (fun _ => keeps_pure _)
    fun s hs _ => ?_
  split
  · exact (keeps_pure _).starts
  refine Starts.tryCatch ?_ fun _ => ?_
  · refine Starts.bind keeps_appendWriter fun _ => Starts.bind (keeps_touch_unsealed _) fun _ => ?_
    refine Keeps.starts ((keeps_succeed (keeps_call _)).bind fun _ =>
      (keeps_touch (t := .updateSessionTitle s.released) hs).bind fun _ =>
      (keeps_succeed (keeps_call _)).bind fun _ => keeps_set fun s => ?_)
    split
    · exact ⟨rfl, rfl⟩
    · exact ⟨rfl, rfl⟩
  exact (keeps_runFencedAtomicRewrite _).bind fun _ => keeps_pause.bind fun _ =>
    .ite (fun _ => keeps_set fun _ => ⟨rfl, rfl⟩) fun _ => keeps_pure _

theorem keeps_throwFailure (s : Manager) : Keeps generateId P (match s.diskFailure with
      | some failure => throw failure
      | none => pure () : DiskM Unit) := by
  split
  · exact keeps_throw _
  · exact keeps_pure _

theorem keeps_persistTitleChangeEntry : Keeps generateId Respected persistTitleChangeEntry := by
  refine keeps_get.bind fun s => .ite_pure fun _ => .ite (fun _ => ?_) fun _ =>
    .ite (fun _ => keeps_set fun _ => ⟨rfl, rfl⟩) fun _ =>
    .ite (fun _ => keeps_rewriteSynchronously) fun _ => .ite (fun _ => keeps_rewriteAtomically)
    fun _ => (keeps_ask stable_respected).bind fun _ => .ite (fun _ => ?_)
    fun _ => keeps_rewriteAtomically
  · exact .bind (keeps_set fun _ => ⟨rfl, rfl⟩) fun _ => keeps_rewriteSynchronously.bind fun _ =>
      keeps_get.bind fun s => keeps_throwFailure s
  exact (keeps_attemptSync stable_respected).bind fun _ =>
    keeps_scheduleDiskWork (keeps_titleTask _)

end Functions

end Disk

end BreadboardTui
