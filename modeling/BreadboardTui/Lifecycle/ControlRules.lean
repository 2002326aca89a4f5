import BreadboardTui.Lifecycle.ControlWorld

/-!
# Rules for the parts of a controlled stop

`Runs` is the weakest precondition of a part of the stop whose requests all have to be `Permitted`,
over the runs whose steps are all `Steady`. `Quiet` parts leave the control file and the local copy of
the attempt alone; the other parts `Ends` in what they promise, or throw with the control file not
ahead of the local copy.
-/

namespace BreadboardTui

open Effects

/-- A hard signal is committed in the control file. -/
def ControlWorld.CommitPending (w : ControlWorld) : Prop :=
  ∃ attempt ∈ w.control, attempt.phase.isCommitPending = true

/-- The promise about single requests: a rollback is not asked for once a hard signal is committed,
unless its authorization has expired, and a signal is sent only then, with a permit for the process of
the record. -/
def ControlCall.Permitted (recorded : ProcessIdentity) (w : ControlWorld) : ControlCall → Prop
  | rollbackDrain _ => w.CommitPending → w.expired = true
  | sendHardSignal control _ =>
    w.CommitPending ∧ w.permit = some recorded ∧ control = recorded
  | _ => True

/-- The condition on one step. -/
def Steady (w : ControlWorld) (op : ControlCall) (c : ControlChoice) : Prop :=
  match op with
  | .advanceControlAttempt _ .hardSignalCommitPending => c.failure.isSome = true → c.applied = 0
  | .controlFor _ true => w.CommitPending → c.failure = none → c.flag = true
  | _ => True

instance (w : ControlWorld) : Decidable w.CommitPending :=
  inferInstanceAs (Decidable (∃ attempt ∈ w.control, _))

instance Steady.decidable (w : ControlWorld) (op : ControlCall) (c : ControlChoice) :
    Decidable (Steady w op c) := by
  unfold Steady
  split <;> infer_instance

/-- Every request of `p` is permitted, and it ends in `Q`. -/
def Runs {α : Type} (recorded : ProcessIdentity) (p : ControlM α)
    (Q : Except ControlError α → ControlWorld → Prop) (w : ControlWorld) : Prop :=
  p.Ensures (fun w op => op.Permitted recorded w)
    (Program.stepEnvironment ControlCall.perform Steady) Q w

section Rules

variable {α β : Type} {recorded : ProcessIdentity} {w : ControlWorld}

variable {Q : Except ControlError α → ControlWorld → Prop}

theorem runs_pure {a : α} : Runs recorded (pure a) Q w ↔ Q (.ok a) w := Iff.rfl

theorem runs_throw {error : ControlError} :
    Runs recorded (throw error : ControlM α) Q w ↔ Q (.error error) w := Iff.rfl

variable {p : ControlM α}

theorem Runs.mono {Q Q' : Except ControlError α → ControlWorld → Prop}
    (h : Runs recorded p Q w) (hQ : ∀ r t, Q r t → Q' r t) : Runs recorded p Q' w :=
  Program.Ensures.mono hQ h

theorem runs_bind {Q : Except ControlError β → ControlWorld → Prop} {f : α → ControlM β} :
    Runs recorded (p >>= f) Q w ↔
      Runs recorded p (fun r t => match r with
        | .ok a => Runs recorded (f a) Q t
        | .error error => Q (.error error) t) w := by
  refine Program.ensures_bind.trans ⟨?_, ?_⟩ <;>
  · refine Program.Ensures.mono fun r t => ?_
    cases r <;> exact id

theorem runs_tryCatch {handler : ControlError → ControlM α} :
    Runs recorded (tryCatch p handler) Q w ↔
      Runs recorded p (fun r t => match r with
        | .ok a => Q (.ok a) t
        | .error error => Runs recorded (handler error) Q t) w := by
  refine Program.ensures_tryCatch.trans ⟨?_, ?_⟩ <;>
  · refine Program.Ensures.mono fun r t => ?_
    cases r <;> exact id

theorem runs_call {op : ControlCall} {Q : Except ControlError op.Value → ControlWorld → Prop} :
    Runs recorded (call op) Q w ↔
      op.Permitted recorded w ∧ ∀ c, Steady w op c → Q (op.perform c w).1 (op.perform c w).2 := by
  rw [call, runs_bind]
  refine Program.ensures_ask.trans (and_congr Iff.rfl ⟨fun h c hc => ?_, ?_⟩)
  · rcases hperform : op.perform c w with ⟨r, t⟩
    have hanswer := h r t ⟨c, hc, hperform⟩
    cases r <;> exact hanswer
  rintro h a t ⟨c, hc, hperform⟩
  have hanswer := h c hc
  rw [hperform] at hanswer
  cases a <;> exact hanswer

/-- Reading the local variables and going on. -/
theorem runs_locals_bind {f : ControlLocals → ControlM α} (h : Runs recorded (f w.locals) Q w) :
    Runs recorded (call .locals >>= f) Q w :=
  runs_bind.mpr (runs_call.mpr ⟨trivial, fun _ _ => h⟩)

theorem runs_modifyLocals_bind {f : ControlLocals → ControlLocals} {g : Unit → ControlM α}
    (h : Runs recorded (g ()) Q { w with locals := f w.locals }) :
    Runs recorded (modifyLocals f >>= g) Q w :=
  runs_bind.mpr (runs_locals_bind (runs_call.mpr ⟨trivial, fun _ _ => h⟩))

end Rules

/-! ### What calls leave alone -/

/-- An answer that the authorization expired is known to the world. -/
def Answered {α : Type} (r : Except ControlError α) (w : ControlWorld) : Prop :=
  ∀ error, r = .error error → error.isAuthorizationExpired = true → w.expired = true

/-- `w'` has the control file, the permit and the local variables of `w`. -/
structure Frame (w w' : ControlWorld) : Prop where
  control : w'.control = w.control
  locals : w'.locals = w.locals
  permit : w'.permit = w.permit
  expired : w.expired = true → w'.expired = true

/-- Calls that touch none of these. -/
def ControlCall.isQuiet : ControlCall → Bool
  | prepareControlAttempt .. | replaceExpiredBeginControlAttempt .. | markControlAttemptDraining ..
  | advanceControlAttempt .. | clearControlAttempt _ | retireObservedExit | commitHardSignal ..
  | assign _ => false
  | _ => true

section Frames

variable {α β : Type} {recorded : ProcessIdentity} {w t u : ControlWorld}

theorem Frame.refl (w : ControlWorld) : Frame w w := ⟨rfl, rfl, rfl, id⟩

theorem Frame.trans (h : Frame w t) (h' : Frame t u) : Frame w u where
  control := h'.control.trans h.control
  locals := h'.locals.trans h.locals
  permit := h'.permit.trans h.permit
  expired hw := h'.expired (h.expired hw)

theorem Frame.commitPending (h : Frame w t) : t.CommitPending ↔ w.CommitPending := by
  rw [ControlWorld.CommitPending, h.control, ControlWorld.CommitPending]

theorem frame_leaseTick (w : ControlWorld) (lease : Option LifecycleStateName) :
    Frame w (w.leaseTick lease) := by
  cases lease <;> exact ⟨rfl, rfl, rfl, id⟩

theorem frame_ask (value : α) (h : Frame w t) (c : ControlChoice) :
    Frame w (t.ask c value).2 ∧ Answered (t.ask c value).1 (t.ask c value).2 := by
  rw [ControlWorld.ask]
  cases c.failure with
  | none => exact ⟨h, fun _ hr => by cases hr⟩
  | some kind =>
    refine ⟨⟨h.control, h.locals, h.permit, fun hw => ?_⟩, ?_⟩
    · exact Bool.or_eq_true_iff.mpr (.inl (h.expired hw))
    rintro error hr hexpired
    obtain rfl := (Except.error.inj hr).symm
    cases kind with
    | hardSignalAuthorizationExpired => exact Bool.or_true _
    | _ => cases hexpired

theorem answered_observe (value : α) (c : ControlChoice) : Answered (t.observe c value).1 u := by
  rintro error hr hexpired
  rw [ControlWorld.observe] at hr
  split at hr
  · obtain rfl := (Except.error.inj hr).symm
    cases hexpired
  · cases hr

theorem answered_transition {name : LifecycleStateName} : Answered (t.transition name).1 u := by
  rintro error hr hexpired
  rw [ControlWorld.transition] at hr
  split at hr
  · cases hr
  obtain rfl := (Except.error.inj hr).symm
  cases hexpired

theorem answered_write {value : α} {written : ControlWorld} (c : ControlChoice) :
    Answered (t.write c value written).1 u := by
  rintro error hr hexpired
  rw [ControlWorld.write] at hr
  split at hr
  · cases hr
  obtain rfl := (Except.error.inj hr).symm
  cases hexpired

variable {op : ControlCall}

theorem ControlCall.perform_quiet (hop : op.isQuiet = true) (c : ControlChoice) (w : ControlWorld) :
    Frame w (op.perform c w).2 ∧ Answered (op.perform c w).1 (op.perform c w).2 := by
  have htick := frame_leaseTick w c.lease
  cases op with
  | transition =>
    refine ⟨?_, answered_transition⟩
    rw [ControlCall.perform, ControlWorld.transition]
    split <;> exact ⟨rfl, rfl, rfl, id⟩
  | ready =>
    refine ⟨?_, answered_transition⟩
    rw [ControlCall.perform, ControlWorld.transition]
    split <;> exact ⟨rfl, rfl, rfl, id⟩
  | readControlAttemptSecret =>
    refine ⟨?_, answered_write c⟩
    rw [ControlCall.perform, ControlWorld.write]
    split
    · exact htick
    split <;> exact htick
  | detachRequester =>
    obtain ⟨hframe, hanswered⟩ := frame_ask () htick c
    refine ⟨⟨hframe.control, hframe.locals, hframe.permit, hframe.expired⟩, ?_⟩
    exact hanswered
  | detach =>
    rw [ControlCall.perform, ControlWorld.detach]
    split
    · exact ⟨.refl w, fun _ hr => by cases hr⟩
    split
    · refine ⟨.refl w, fun error hr hexpired => ?_⟩
      obtain rfl := (Except.error.inj hr).symm
      cases hexpired
    · split <;> exact ⟨⟨rfl, rfl, rfl, id⟩, fun _ hr => by cases hr⟩
  | renewClient | revalidate | beginControlDrain | recordGracefulControl | rollbackDrain
  | prepareHardSignal | recordHardSignalOutcome => exact frame_ask _ htick c
  | controlFor | observe | sendHardSignal | waitForExit | sleep =>
    exact ⟨htick, answered_observe _ c⟩
  | dropContext | setPlanned => exact ⟨⟨rfl, rfl, rfl, id⟩, fun _ hr => by cases hr⟩
  | aborted | locals => exact ⟨.refl w, fun _ hr => by cases hr⟩
  | prepareControlAttempt | replaceExpiredBeginControlAttempt | markControlAttemptDraining
  | advanceControlAttempt | clearControlAttempt | retireObservedExit | commitHardSignal | assign =>
    cases hop

/-- From `w` on, `p` leaves the control file, the permit and the local variables alone. -/
def Quiet (recorded : ProcessIdentity) (p : ControlM α) (w : ControlWorld) : Prop :=
  ∀ t, Frame w t → Runs recorded p (fun r u => Frame t u ∧ Answered r u) t

variable {p : ControlM α}

theorem Quiet.runs (h : Quiet recorded p w) :
    Runs recorded p (fun r t => Frame w t ∧ Answered r t) w :=
  h w (.refl w)

theorem quiet_pure (a : α) : Quiet recorded (pure a) w :=
  fun t _ => runs_pure.mpr ⟨.refl t, fun _ hr => nomatch hr⟩

theorem quiet_call (hop : op.isQuiet = true)
    (hpermitted : ∀ t, Frame w t → op.Permitted recorded t) : Quiet recorded (call op) w :=
  fun t ht => runs_call.mpr ⟨hpermitted t ht, fun c _ => op.perform_quiet hop c t⟩

theorem Quiet.bind {f : α → ControlM β} (hp : Quiet recorded p w)
    (hf : ∀ a, Quiet recorded (f a) w) : Quiet recorded (p >>= f) w := by
  intro t ht
  refine runs_bind.mpr ((hp t ht).mono fun r u hu => ?_)
  cases r with
  | ok a => exact (hf a u (ht.trans hu.1)).mono fun r v hv => ⟨hu.1.trans hv.1, hv.2⟩
  | error error =>
    refine ⟨hu.1, fun error' hr hexpired => hu.2 error ?_ ?_⟩
    · rfl
    · rwa [Except.error.inj hr]

theorem Quiet.tryCatch {handler : ControlError → ControlM α} (hp : Quiet recorded p w)
    (hh : ∀ error t, Frame w t → (error.isAuthorizationExpired = true → t.expired = true) →
      Runs recorded (handler error) (fun r u => Frame t u ∧ Answered r u) t) :
    Quiet recorded (tryCatch p handler) w := by
  intro t ht
  refine runs_tryCatch.mpr ((hp t ht).mono fun r u hu => ?_)
  cases r with
  | ok => exact ⟨hu.1, fun _ hr => nomatch hr⟩
  | error error =>
    exact (hh error u (ht.trans hu.1) (hu.2 error rfl)).mono fun r v hv => ⟨hu.1.trans hv.1, hv.2⟩

theorem Quiet.retryFrom (hp : Quiet recorded p w) (n : ℕ) : Quiet recorded (retryFrom n p) w := by
  induction n with
  | zero => exact hp
  | succ n ih =>
    refine hp.tryCatch fun error t ht hexpired => ?_
    split
    · exact ih t ht
    refine runs_throw.mpr ⟨.refl t, fun error' hr => ?_⟩
    rwa [← Except.error.inj hr]

theorem Quiet.withRevalidatedAuthority (hp : Quiet recorded p w)
    (ignoreAbort : Bool) : Quiet recorded (withRevalidatedAuthority p ignoreAbort) w := by
  have hrevalidate : Quiet recorded (call (.revalidate ignoreAbort)) w :=
    quiet_call rfl fun _ _ => trivial
  refine hrevalidate.bind fun valid => ?_
  cases valid with
  | false => exact quiet_pure none
  | true => exact hp.bind fun a => quiet_pure (some a)

/-- A request that is retried, each time with the authority checked again. -/
theorem quiet_request (hop : op.isQuiet = true)
    (hpermitted : ∀ t, Frame w t → op.Permitted recorded t) (ignoreAbort : Bool) :
    Quiet recorded (retryAmbiguousControlRequest
      (BreadboardTui.withRevalidatedAuthority (call op) ignoreAbort)) w :=
  ((quiet_call hop hpermitted).withRevalidatedAuthority ignoreAbort).retryFrom 2

theorem runs_rollbackDrain (h : w.CommitPending → w.expired = true) (drainGeneration : ℤ) :
    Runs recorded (rollbackDrain drainGeneration) (fun r t => Frame w t ∧ Answered r t) w := by
  have hpermitted : ∀ t, Frame w t → (ControlCall.rollbackDrain drainGeneration).Permitted recorded t :=
    fun t ht hcommit => ht.expired (h (ht.commitPending.mp hcommit))
  refine Quiet.runs (Quiet.tryCatch ?_ fun error t ht _ => ?_)
  · exact (quiet_request rfl hpermitted true).bind fun rollback => quiet_pure rollback.isSome
  · exact runs_pure.mpr ⟨.refl t, fun _ hr => nomatch hr⟩

end Frames

/-! ### Ways out -/

/-- The control file is not ahead of the local copy of the attempt. -/
def NotAhead (w : ControlWorld) : Prop :=
  w.CommitPending → w.locals.controlAttempt.phase.isCommitPending = true

/-- A part of the `try` block ends in `P`, or throws what the `catch` block can deal with. -/
def Ends {α : Type} (P : α → ControlWorld → Prop) : Except ControlError α → ControlWorld → Prop
  | .ok a, t => P a t
  | .error error, t => NotAhead t ∧ (error.isAuthorizationExpired = true → t.expired = true)

/-- The control file holds the local copy of the attempt, and the handle is the recorded process. -/
structure InStep (recorded : ProcessIdentity) (w : ControlWorld) : Prop where
  control : w.control = some w.locals.controlAttempt
  handle : ∀ process ∈ w.locals.control, process = recorded

section Ends

variable {α β : Type} {recorded : ProcessIdentity} {w t u : ControlWorld}

theorem NotAhead.frame (h : NotAhead w) (ht : Frame w t) : NotAhead t := by
  rw [NotAhead, ht.locals]
  exact fun hcommit => h (ht.commitPending.mp hcommit)

theorem InStep.frame (h : InStep recorded w) (ht : Frame w t) : InStep recorded t where
  control := by rw [ht.control, ht.locals, h.control]
  handle := by
    rw [ht.locals]
    exact h.handle

theorem InStep.commitPending (h : InStep recorded w) :
    w.CommitPending ↔ w.locals.controlAttempt.phase.isCommitPending = true := by
  rw [ControlWorld.CommitPending, h.control]
  exact ⟨fun ⟨_, hmem, hcommit⟩ => Option.some.inj hmem ▸ hcommit, fun hcommit => ⟨_, rfl, hcommit⟩⟩

theorem InStep.notAhead (h : InStep recorded w) : NotAhead w := h.commitPending.mp

/-- A rollback may be asked for on a copy whose phase is an earlier one. -/
theorem NotAhead.mayRollback (h : NotAhead w)
    (hphase : w.locals.controlAttempt.phase.isCommitPending = false) :
    w.CommitPending → w.expired = true := by
  intro hcommit
  rw [h hcommit] at hphase
  cases hphase

variable {P : α → ControlWorld → Prop}

theorem ends_pure {a : α} (h : P a w) : Runs recorded (pure a) (Ends P) w := runs_pure.mpr h

theorem ends_throw {message : String} (h : NotAhead w) :
    Runs recorded (throw (.thrown message) : ControlM α) (Ends P) w :=
  runs_throw.mpr ⟨h, fun hexpired => nomatch hexpired⟩

variable {p : ControlM α}

theorem Runs.ends_bind {P' : β → ControlWorld → Prop}
    {f : α → ControlM β} (hp : Runs recorded p (Ends P) w)
    (hf : ∀ a t, P a t → Runs recorded (f a) (Ends P') t) :
    Runs recorded (p >>= f) (Ends P') w := by
  refine runs_bind.mpr (hp.mono fun r t h => ?_)
  cases r with
  | ok a => exact hf a t h
  | error => exact h

theorem Runs.ends_mono {P P' : α → ControlWorld → Prop}
    (hp : Runs recorded p (Ends P) w) (hP : ∀ a t, P a t → P' a t) :
    Runs recorded p (Ends P') w := by
  refine hp.mono fun r t h => ?_
  cases r with
  | ok a => exact hP a t h
  | error => exact h

theorem Quiet.ends (hp : Quiet recorded p w) (h : NotAhead w) :
    Runs recorded p (Ends fun _ t => Frame w t) w := by
  refine hp.runs.mono fun r t ht => ?_
  cases r with
  | ok => exact ht.1
  | error error => exact ⟨h.frame ht.1, ht.2 error rfl⟩

theorem Runs.ends_orReturn {P : ControlWorld → Prop} {p : ControlM (Option ControlResult)}
    {next : ControlM ControlResult}
    (hp : Runs recorded p (Ends fun result t => result = none → P t) w)
    (hnext : ∀ t, P t → Runs recorded next (Ends fun _ _ => True) t) :
    Runs recorded (orReturn p next) (Ends fun _ _ => True) w := by
  refine hp.ends_bind fun result t h => ?_
  cases result with
  | none => exact hnext t (h rfl)
  | some => exact ends_pure trivial

/-- What the ways out do to the control file is to unlink it. -/
theorem ends_unlinking {op : ControlCall} (hpermitted : op.Permitted recorded w)
    (hcontrol : ∀ c, (op.perform c w).2.control = w.control ∨ (op.perform c w).2.control = none)
    (hlocals : ∀ c, (op.perform c w).2.locals = w.locals)
    (herror : ∀ c, Answered (op.perform c w).1 (op.perform c w).2) (h : NotAhead w) :
    Runs recorded (call op) (Ends fun _ t => NotAhead t) w := by
  refine runs_call.mpr ⟨hpermitted, fun c _ => ?_⟩
  have hkeeps : NotAhead (op.perform c w).2 := by
    rintro ⟨attempt, hmem, hcommit⟩
    rw [hlocals c]
    rcases hcontrol c with heq | hnone
    · exact h ⟨attempt, heq ▸ hmem, hcommit⟩
    rw [hnone] at hmem
    cases hmem
  have hanswered := herror c
  cases hr : (op.perform c w).1 with
  | ok => exact hkeeps
  | error error => exact ⟨hkeeps, hanswered error hr⟩

theorem ends_clear (h : NotAhead w) :
    Runs recorded clearControlAttempt' (Ends fun _ t => NotAhead t) w := by
  refine runs_locals_bind (ends_unlinking trivial (fun c => ?_) (fun c => ?_) (fun c => ?_) h)
  all_goals
    have htick := frame_leaseTick w c.lease
    rw [ControlCall.perform, ControlWorld.clearControlAttempt]
    split
  · rw [ControlWorld.write]
    split
    · exact .inr rfl
    split
    · exact .inl htick.control
    · exact .inr rfl
  · exact .inl htick.control
  · rw [ControlWorld.write]
    split
    · exact htick.locals
    dsimp only
    split <;> exact htick.locals
  · exact htick.locals
  · exact answered_write c
  intro error hr hexpired
  obtain rfl := (Except.error.inj hr).symm
  cases hexpired

theorem ends_retireObservedExit (h : NotAhead w) :
    Runs recorded (call .retireObservedExit) (Ends fun _ t => NotAhead t) w := by
  refine ends_unlinking trivial (fun c => ?_) (fun c => ?_) (fun c => answered_write c) h
  all_goals
    have htick := frame_leaseTick w c.lease
    rw [ControlCall.perform, ControlWorld.write]
    cases c.failure <;> cases c.flag <;> by_cases happlied : c.applied = 0 <;>
      simp [happlied, htick.control, htick.locals, ControlWorld.unlink]

theorem quiet_locals : Quiet recorded (call .locals) w := quiet_call rfl fun _ _ => trivial

theorem quiet_unplan : Quiet recorded unplan w := by
  refine quiet_locals.bind fun locals => ?_
  split
  · exact quiet_call rfl fun _ _ => trivial
  · exact quiet_pure ()

variable (session : ControlSession)

theorem quiet_rollbackResult : Quiet recorded (rollbackResult session) w := by
  rw [rollbackResult]
  split
  · exact quiet_call rfl fun _ _ => trivial
  have hready : Quiet recorded (call .ready) w := quiet_call rfl fun _ _ => trivial
  exact hready.bind fun _ => quiet_pure _

theorem ends_rolledBack (h : NotAhead w) :
    Runs recorded (rolledBack session) (Ends fun _ _ => True) w := by
  refine (quiet_unplan.ends h).ends_bind fun _ t ht => ?_
  refine (ends_clear (h.frame ht)).ends_bind fun _ u hu => ?_
  exact ((quiet_rollbackResult session).ends hu).ends_mono fun _ _ _ => trivial

theorem ends_rollbackDrain {P : Bool → ControlWorld → Prop} {g : ℤ} (h : NotAhead w)
    (hphase : w.locals.controlAttempt.phase.isCommitPending = false)
    (hP : ∀ valid t, Frame w t → P valid t) :
    Runs recorded (rollbackDrain g) (Ends P) w := by
  refine (runs_rollbackDrain (h.mayRollback hphase) g).mono fun r t ht => ?_
  cases r with
  | ok valid => exact hP valid t ht.1
  | error error => exact ⟨h.frame ht.1, ht.2 error rfl⟩

variable (process : ProcessIdentity)

theorem quiet_pollExit (polls : ℕ) : Quiet recorded (pollExit process polls) w := by
  induction polls with
  | zero => exact quiet_pure false
  | succ polls ih =>
    have hobserve : Quiet recorded (call (.observe process.pid)) w :=
      quiet_call rfl fun _ _ => trivial
    refine hobserve.bind fun observation => ?_
    cases observation with
    | dead => exact quiet_pure true
    | ambiguous => exact quiet_pure false
    | alive =>
      dsimp only
      split
      · exact quiet_pure false
      have hsleep : Quiet recorded (call (.sleep 25)) w := quiet_call rfl fun _ _ => trivial
      exact hsleep.bind fun _ => ih

theorem quiet_waitForExactExit (timeoutMs : ℤ) :
    Quiet recorded (waitForExactExit process timeoutMs) w := by
  refine quiet_locals.bind fun locals => ?_
  cases locals.control with
  | none => exact quiet_pollExit process _
  | some control =>
    have hwait : Quiet recorded (call (.waitForExit control timeoutMs)) w :=
      quiet_call rfl fun _ _ => trivial
    refine hwait.bind fun exited => ?_
    have hobserve : Quiet recorded (call (.observe process.pid)) w :=
      quiet_call rfl fun _ _ => trivial
    split
    · exact quiet_pure false
    · exact hobserve.bind fun _ => quiet_pure _

theorem ends_finishStop (exited : Bool) (h : NotAhead w) :
    Runs recorded (finishStop session exited) (Ends fun _ _ => True) w := by
  rw [finishStop]
  split
  · exact ends_pure trivial
  refine (ends_retireObservedExit h).ends_bind fun retired t ht => ?_
  split
  · exact ends_pure trivial
  refine (quiet_unplan.ends ht).ends_bind fun _ u hu => ?_
  have hdrop : Quiet recorded (call .dropContext) u := quiet_call rfl fun _ _ => trivial
  refine (hdrop.ends (ht.frame hu)).ends_bind fun _ v hv => ?_
  have htransition : Quiet recorded (call (.transition .stopped)) v :=
    quiet_call rfl fun _ _ => trivial
  split
  · exact (htransition.ends ((ht.frame hu).frame hv)).ends_bind fun _ _ _ => ends_pure trivial
  · exact ends_pure trivial

end Ends

end BreadboardTui
