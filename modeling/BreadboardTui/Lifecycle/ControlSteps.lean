import BreadboardTui.Lifecycle.ControlRules

/-!
# The steps of a controlled stop

One lemma for each part of the stop from the drain to the signal: the advance of the attempt, the
requests for a graceful exit and for the authorization, and the commit of the hard signal.
-/

namespace BreadboardTui

open Effects Option

/-! ### Steps of the attempt -/

section Steps

variable {α β : Type} {recorded : ProcessIdentity} {w t u : ControlWorld}

/-- What is known of a phase that `advanceControlAttempt` has left. -/
def ControlStep.Reached : ControlStep → ControlPhase → Prop
  | gracefulAccepted, phase => phase.isCommitPending = false
  | hardSignalPending, phase => phase.isHardSignalPending = true
  | hardSignalCommitPending, phase => phase.isCommitPending = true

theorem reached_advanceControlAttempt {current : Option LocalControlAttempt}
    {expected attempt : LocalControlAttempt} {step : ControlStep}
    (h : advanceControlAttempt current expected step = some attempt) :
    step.Reached attempt.phase := by
  rw [advanceControlAttempt] at h
  split at h
  · obtain ⟨phase, hphase, rfl⟩ := map_eq_some_iff.mp h
    cases hexpected : expected.phase <;> cases step <;> rw [hexpected] at hphase <;> cases hphase <;>
      rfl
  · cases h

theorem isCommitPending_of_isHardSignalPending {phase : ControlPhase}
    (h : phase.isHardSignalPending = true) : phase.isCommitPending = false := by
  cases phase <;> first | rfl | cases h

theorem ends_rewrite {P : LocalControlAttempt → ControlWorld → Prop} (hw : InStep recorded w)
    {next : Option LocalControlAttempt} {c : ControlChoice}
    (hfailed : ∀ attempt ∈ next, c.failure.isSome = true → c.applied ≠ 0 →
      attempt.phase.isCommitPending = false)
    (hP : ∀ attempt t, next = some attempt → t.control = some attempt → t.locals = w.locals →
      P attempt t) :
    Ends P ((w.leaseTick c.lease).rewriteAttempt c next).1
      ((w.leaseTick c.lease).rewriteAttempt c next).2 := by
  have htick := frame_leaseTick w c.lease
  have hahead := hw.notAhead.frame htick
  cases next with
  | none => exact ⟨hahead, fun hexpired => nomatch hexpired⟩
  | some attempt =>
    change Ends P (ControlWorld.write _ c attempt _).1 (ControlWorld.write _ c attempt _).2
    rw [ControlWorld.write]
    cases hfailure : c.failure with
    | none => exact hP attempt _ rfl rfl htick.locals
    | some =>
      refine ⟨?_, fun hexpired => nomatch hexpired⟩
      change NotAhead (if c.applied = 0 then _ else _)
      split
      · exact hahead
      next happlied =>
      rintro ⟨written, hmem, hcommit⟩
      cases hmem
      rw [hfailed attempt rfl (by rw [hfailure]; rfl) happlied] at hcommit
      cases hcommit

theorem ends_advance (hw : InStep recorded w) (step : ControlStep) :
    Runs recorded (call (.advanceControlAttempt w.locals.controlAttempt step))
      (Ends fun attempt t => t.control = some attempt ∧ t.locals = w.locals ∧
        step.Reached attempt.phase) w := by
  refine runs_call.mpr ⟨trivial, fun c hc => ends_rewrite hw (fun attempt hnext hfailed happlied => ?_)
    fun attempt t hnext hcontrol hlocals => ⟨hcontrol, hlocals, reached_advanceControlAttempt hnext⟩⟩
  have hreached := reached_advanceControlAttempt hnext
  cases step with
  | gracefulAccepted => exact hreached
  | hardSignalPending => exact isCommitPending_of_isHardSignalPending hreached
  | hardSignalCommitPending => exact absurd (hc hfailed) happlied

theorem ends_markDraining (hw : InStep recorded w) (g : ℤ) :
    Runs recorded (call (.markControlAttemptDraining w.locals.controlAttempt g))
      (Ends fun attempt t => t.control = some attempt ∧ t.locals = w.locals) w := by
  refine runs_call.mpr ⟨trivial, fun c _ => ends_rewrite hw (fun attempt hnext _ _ => ?_)
    fun attempt t _ hcontrol hlocals => ⟨hcontrol, hlocals⟩⟩
  rw [mem_def, markControlAttemptDraining] at hnext
  split at hnext
  · split at hnext
    · next hphase =>
      split at hnext
      · cases hnext
        rw [hphase]
        rfl
      · cases hnext
    · cases hnext
      rfl
    · cases hnext
  · cases hnext

theorem InStep.assign {attempt : LocalControlAttempt} {locals : ControlLocals}
    (hhandle : ∀ process ∈ locals.control, process = recorded)
    (hlocals : t.locals = locals) (hcontrol : t.control = some attempt) :
    InStep recorded { t with locals := { t.locals with controlAttempt := attempt } } where
  control := hcontrol
  handle := by
    rw [hlocals]
    exact hhandle

theorem ends_abort (hw : InStep recorded w) (g : ℤ) :
    Runs recorded (abortBeforeHardCommit g) (Ends fun result t => result = none → Frame w t) w := by
  have haborted : Quiet recorded (call .aborted) w := quiet_call rfl fun _ _ => trivial
  refine (haborted.ends hw.notAhead).ends_bind fun aborted t ht => runs_locals_bind ?_
  have hahead := hw.notAhead.frame ht
  split
  · exact ends_pure fun _ => ht
  next hcond =>
  rw [Bool.or_eq_true, not_or, Bool.not_eq_true (ControlPhase.isCommitPending _)] at hcond
  refine (ends_rollbackDrain (P := fun _ u => Frame t u) hahead hcond.2
    fun _ _ hu => hu).ends_bind fun valid u hu => ?_
  split
  · exact ends_pure fun h => nomatch h
  refine (quiet_unplan.ends (hahead.frame hu)).ends_bind fun _ v hv => ?_
  refine (ends_clear ((hahead.frame hu).frame hv)).ends_bind fun _ x _ => ?_
  exact ends_pure fun h => nomatch h

/-- The part that a stop skips to where the engine leaves a rollback. -/
theorem ends_rollback {P : ControlWorld → Prop} (session : ControlSession) (g : ℤ)
    (h : NotAhead w) (hphase : w.locals.controlAttempt.phase.isCommitPending = false) :
    Runs recorded
      (rollbackDrain g >>= fun valid =>
        if (!valid) = true then pure (some drainRecoveryFailed)
        else rolledBack session >>= fun result => pure (some result))
      (Ends fun result t => result = none → P t) w := by
  refine (ends_rollbackDrain (P := fun _ t => Frame w t) h hphase fun _ _ ht => ht).ends_bind
    fun valid t ht => ?_
  split
  · exact ends_pure fun h => nomatch h
  refine (ends_rolledBack session (h.frame ht)).ends_bind fun _ _ _ => ?_
  exact ends_pure fun h => nomatch h

theorem ends_requestGraceful (hw : InStep recorded w) (session : ControlSession) (g : ℤ) :
    Runs recorded (requestGraceful session g)
      (Ends fun result t => result = none → InStep recorded t) w := by
  refine runs_locals_bind ?_
  dsimp only
  split
  · exact ends_pure fun _ => hw
  next hphase =>
  have hcommit : w.locals.controlAttempt.phase.isCommitPending = false := by
    cases hp : w.locals.controlAttempt.phase <;> rw [hp] at hphase <;>
      first | rfl | exact absurd rfl hphase
  have hrequest : Quiet recorded (retryAmbiguousControlRequest (withRevalidatedAuthority
      (call (.recordGracefulControl g "accepted")) false)) w :=
    quiet_request (by rfl) (by intro _ _; trivial) false
  refine (hrequest.ends hw.notAhead).ends_bind fun graceful t ht => ?_
  have hstep := hw.frame ht
  cases graceful with
  | none => exact ends_pure fun h => nomatch h
  | some =>
    dsimp only
    split
    · exact ends_rollback session g hstep.notAhead (by rwa [ht.locals])
    rw [← ht.locals]
    refine (ends_advance hstep .gracefulAccepted).ends_bind fun attempt u hu => ?_
    exact runs_modifyLocals_bind (ends_pure fun _ => .assign hstep.handle hu.2.1 hu.1)

theorem ends_authorizeHardSignal (hw : InStep recorded w)
    (hphase : w.locals.controlAttempt.phase.isCommitPending = false) (session : ControlSession)
    (g : ℤ) :
    Runs recorded (authorizeHardSignal session g)
      (Ends fun result t => result = none → InStep recorded t ∧
        t.locals.controlAttempt.phase.isHardSignalPending = true) w := by
  refine (ends_abort hw g).ends_bind fun result t ht => ?_
  cases result with
  | some => exact ends_pure fun h => nomatch h
  | none =>
    have hstep := hw.frame (ht rfl)
    have hrequest : Quiet recorded (retryAmbiguousControlRequest (withRevalidatedAuthority
        (call (.recordGracefulControl g "timeout")) false)) t :=
      quiet_request (by rfl) (by intro _ _; trivial) false
    refine (hrequest.ends hstep.notAhead).ends_bind fun authorization u hu => ?_
    have hstep' := hstep.frame hu
    cases authorization with
    | none => exact ends_pure fun h => nomatch h
    | some =>
      dsimp only
      split
      · exact ends_rollback session g hstep'.notAhead (by rwa [hu.locals, (ht rfl).locals])
      split
      · exact (ends_throw hstep'.notAhead : Runs recorded (throw (.thrown _) : ControlM Unit)
          (Ends fun _ _ => False) u).ends_bind fun _ _ h => h.elim
      refine runs_locals_bind ?_
      refine (ends_advance hstep' .hardSignalPending).ends_bind fun attempt v hv => ?_
      exact runs_modifyLocals_bind (ends_pure fun _ =>
        ⟨.assign hstep'.handle hv.2.1 hv.1, hv.2.2⟩)

/-! ### The hard signal -/

/-- A request ends in `P`, or has failed and changed nothing. -/
def Asks (P : α → ControlWorld → Prop) (w : ControlWorld) :
    Except ControlError α → ControlWorld → Prop
  | .ok a, t => P a t
  | .error error, t => Frame w t ∧ (error.isAuthorizationExpired = true → t.expired = true)

theorem runs_retryFrom {P : α → ControlWorld → Prop} {p : ControlM α}
    (hp : ∀ t, Frame w t → Runs recorded p (Asks P t) t) (n : ℕ) :
    Runs recorded (retryFrom n p) (Asks P w) w := by
  induction n generalizing w with
  | zero => exact hp w (.refl w)
  | succ n ih =>
    refine runs_tryCatch.mpr ((hp w (.refl w)).mono fun r t h => ?_)
    cases r with
    | ok => exact h
    | error error =>
      dsimp only
      split
      · refine (ih fun u hu => hp u (h.1.trans hu)).mono fun r u hu => ?_
        cases r with
        | ok => exact hu
        | error => exact ⟨h.1.trans hu.1, hu.2⟩
      · exact runs_throw.mpr h

/-- A world in which a signal may be sent. -/
structure Permit (recorded : ProcessIdentity) (t : ControlWorld) : Prop where
  commitPending : t.CommitPending
  permit : t.permit = some recorded
  notAhead : NotAhead t

theorem Permit.frame (h : Permit recorded t) (ht : Frame t u) : Permit recorded u :=
  ⟨ht.commitPending.mpr h.commitPending, ht.permit.trans h.permit, h.notAhead.frame ht⟩

theorem ends_requestPermit (hw : InStep recorded w)
    (hphase : w.locals.controlAttempt.phase.isCommitPending = true) (session : ControlSession)
    (hsession : session.recorded = recorded) (g : ℤ) (authorizationId : String) :
    Runs recorded (requestPermit session g authorizationId) (Ends fun _ t => Permit recorded t) w := by
  have hasked : ∀ t, Frame w t →
      Runs recorded (call (.commitHardSignal g authorizationId session.recorded))
        (Asks (fun _ u => Permit recorded u) t) t := by
    intro t ht
    refine runs_call.mpr ⟨trivial, fun c _ => ?_⟩
    have htick := frame_leaseTick t c.lease
    have hstep := (hw.frame ht).frame htick
    obtain ⟨hframe, hanswered⟩ := frame_ask (⟨c.text, c.number⟩ : HardSignalPermitResponse) htick c
    rw [ControlCall.perform]
    rw [ControlWorld.ask] at hframe hanswered ⊢
    cases hfailure : c.failure with
    | none =>
      have hcommit : (t.leaseTick c.lease).CommitPending := by
        rw [hstep.commitPending, (ht.trans htick).locals]
        exact hphase
      exact ⟨hcommit, congrArg some hsession, hstep.notAhead⟩
    | some =>
      rw [hfailure] at hframe hanswered
      exact ⟨hframe, hanswered _ rfl⟩
  refine runs_tryCatch.mpr ((runs_retryFrom hasked 2).mono fun r t h => ?_)
  cases r with
  | ok => exact h
  | error =>
    have hahead := hw.notAhead.frame h.1
    dsimp only
    split
    · exact runs_modifyLocals_bind (runs_throw.mpr ⟨hahead, h.2⟩)
    · exact runs_throw.mpr ⟨hahead, h.2⟩

/-- The signal goes to the recorded process, with the permit. -/
theorem ends_commitHardSignal (hw : InStep recorded w)
    (hphase : w.locals.controlAttempt.phase.isCommitPending = true) (session : ControlSession)
    (hsession : session.recorded = recorded) (g : ℤ) (authorizationId : String) :
    Runs recorded (commitHardSignal session g authorizationId recorded)
      (Ends fun _ t => NotAhead t) w := by
  have hrevalidate : Quiet recorded (call (.revalidate false)) w :=
    quiet_call rfl fun _ _ => trivial
  refine (hrevalidate.ends hw.notAhead).ends_bind fun valid t ht => ?_
  have hstep := hw.frame ht
  cases valid with
  | false => exact ends_pure hstep.notAhead
  | true =>
    refine Runs.ends_bind (P := fun _ u => NotAhead u) ?_ fun _ u hu => ends_pure hu
    refine (ends_requestPermit hstep (by rwa [ht.locals]) session hsession g authorizationId).ends_bind
      fun permit u hu => ?_
    have hrecord : ∀ outcome v, Permit recorded v → Runs recorded (retryAmbiguousControlRequest
        (call (.recordHardSignalOutcome g permit.authorizationId outcome)))
        (Ends fun _ x => NotAhead x) v := by
      intro outcome v hv
      have hcall : Quiet recorded
          (call (.recordHardSignalOutcome g permit.authorizationId outcome)) v :=
        quiet_call rfl fun _ _ => trivial
      exact ((hcall.retryFrom 2).ends hv.notAhead).ends_mono fun _ x hx => hv.notAhead.frame hx
    have hthrow : ∀ message v, Permit recorded v → Runs recorded
        (throw (.thrown message) : ControlM Unit) (Ends fun _ _ => False) v :=
      fun message v hv => ends_throw hv.notAhead
    have hsignal : Runs recorded
        (do
          let immediateObservation ← call (.observe session.record.pid)
          if immediateObservation ≠ .alive session.record.osProcessStartToken then
            if immediateObservation ≠ .dead then
              throw (.thrown "process identity changed after hard signal commit")
            retryAmbiguousControlRequest
              (call (.recordHardSignalOutcome g permit.authorizationId "process_exited"))
          else
            let outcome ← call (.sendHardSignal recorded permit.expiresAtUnix)
            if outcome = "authorization_expired" ∨ outcome = "abandoned" then
              throw (.thrown "hard signal permit became unusable after commit")
            retryAmbiguousControlRequest
              (call (.recordHardSignalOutcome g permit.authorizationId outcome)))
        (Ends fun _ x => NotAhead x) u := by
      have hobserve : Quiet recorded (call (.observe session.record.pid)) u :=
        quiet_call rfl fun _ _ => trivial
      refine (hobserve.ends hu.notAhead).ends_bind fun observation v hv => ?_
      have hpermit := hu.frame hv
      split
      · split
        · exact (hthrow _ v hpermit).ends_bind fun _ _ h => h.elim
        · exact hrecord _ v hpermit
      have hsend : Quiet recorded (call (.sendHardSignal recorded permit.expiresAtUnix)) v :=
        quiet_call rfl fun x hx =>
          ⟨(hpermit.frame hx).commitPending, (hpermit.frame hx).permit, rfl⟩
      refine (hsend.ends hpermit.notAhead).ends_bind fun outcome x hx => ?_
      split
      · exact (hthrow _ x (hpermit.frame hx)).ends_bind fun _ _ h => h.elim
      · exact hrecord _ x (hpermit.frame hx)
    split
    · exact (hthrow _ u hu).ends_bind fun _ _ h => h.elim
    · exact hsignal

/-- After the preparation the process handle is there, or the engine has rolled back. -/
theorem ends_prepareHardSignal (hw : InStep recorded w) (session : ControlSession)
    (hsession : session.recorded = recorded) (g : ℤ) :
    Runs recorded (prepareHardSignal session g)
      (Ends fun _ t => InStep recorded t ∧ t.locals.controlAttempt = w.locals.controlAttempt) w := by
  have hrevalidate : Quiet recorded (call (.revalidate false)) w :=
    quiet_call rfl fun _ _ => trivial
  refine (hrevalidate.ends hw.notAhead).ends_bind fun valid t ht => ?_
  have hstep := hw.frame ht
  cases valid with
  | false => exact ends_pure ⟨hstep, by rw [ht.locals]⟩
  | true =>
    refine Runs.ends_bind (P := fun _ u => InStep recorded u ∧
      u.locals.controlAttempt = w.locals.controlAttempt) ?_ fun _ u hu => ends_pure hu
    -- the request for the authorization, or the rollback where the process is gone
    have hask : ∀ u, InStep recorded u → u.locals.controlAttempt = w.locals.controlAttempt →
        (u.locals.control = none → u.locals.controlAttempt.phase.isCommitPending = false) →
        Runs recorded
          (do
            if (← call .locals).control.isNone then
              retryAmbiguousControlRequest (call (.rollbackDrain g))
              return none
            return some (← retryAmbiguousControlRequest
              (call (.prepareHardSignal g session.recorded))))
          (Ends fun _ v => InStep recorded v ∧
            v.locals.controlAttempt = w.locals.controlAttempt) u := by
      intro u hu hattempt hnone
      refine runs_locals_bind ?_
      have hframe : ∀ v, Frame u v → InStep recorded v ∧
          v.locals.controlAttempt = w.locals.controlAttempt :=
        fun v hv => ⟨hu.frame hv, by rw [hv.locals, hattempt]⟩
      split
      · next hcontrol =>
        have hphase := hnone (isNone_iff_eq_none.mp hcontrol)
        have hrollback : Quiet recorded (call (.rollbackDrain g)) u :=
          quiet_call rfl fun v hv hcommit =>
            hv.expired (hu.notAhead.mayRollback hphase (hv.commitPending.mp hcommit))
        refine ((hrollback.retryFrom 2).ends hu.notAhead).ends_bind fun _ v hv => ?_
        exact ends_pure (hframe v hv)
      have hprepare : Quiet recorded (call (.prepareHardSignal g session.recorded)) u :=
        quiet_call rfl fun _ _ => trivial
      refine ((hprepare.retryFrom 2).ends hu.notAhead).ends_bind fun _ v hv => ?_
      exact ends_pure (hframe v hv)
    refine runs_locals_bind ?_
    split
    · next hcontrol =>
      refine Runs.ends_bind (P := fun found u => Frame t u ∧
        (found = none → ¬ t.CommitPending) ∧ ∀ process ∈ found, process = recorded) ?_ ?_
      · refine runs_call.mpr ⟨trivial, fun c hc => ?_⟩
        have htick := frame_leaseTick t c.lease
        have hanswered := answered_observe (t := t.leaseTick c.lease) (u := t.leaseTick c.lease)
          (if c.flag then some session.recorded else none) c
        rw [ControlCall.perform]
        rw [ControlWorld.observe] at hanswered ⊢
        cases hfailure : c.failure with
        | none =>
          refine ⟨htick, fun hnone hcommit => ?_, fun process hprocess => ?_⟩
          · rw [if_pos (hc hcommit hfailure)] at hnone
            cases hnone
          split at hprocess
          · rw [← some.inj hprocess, hsession]
          · cases hprocess
        | some => exact ⟨hstep.notAhead.frame htick, fun hexpired => by cases hexpired⟩
      rintro found u ⟨hu, hfound, hprocess⟩
      have hstep' := hstep.frame hu
      refine runs_modifyLocals_bind (hask _ ⟨hstep'.control, hprocess⟩ ?_ fun hnone => ?_)
      · change u.locals.controlAttempt = _
        rw [hu.locals, ht.locals]
      have hnot := hfound hnone
      rw [← hu.commitPending, hstep'.commitPending, Bool.not_eq_true] at hnot
      exact hnot
    next hcontrol =>
    refine hask t hstep (by rw [ht.locals]) fun hnone => absurd ?_ hcontrol
    rw [hnone]
    rfl

theorem ends_hardSignal (hw : InStep recorded w)
    (hphase : w.locals.controlAttempt.phase.isHardSignalPending = true ∨
      w.locals.controlAttempt.phase.isCommitPending = true) (session : ControlSession)
    (hsession : session.recorded = recorded) (g : ℤ) :
    Runs recorded (hardSignal session g) (Ends fun _ _ => True) w := by
  refine (ends_abort hw g).ends_orReturn fun t ht => ?_
  refine (ends_prepareHardSignal (hw.frame ht) session hsession g).ends_bind fun prepared u hu => ?_
  rcases prepared with _ | _ | authorizationId
  · exact ends_pure trivial
  · exact ends_rolledBack session hu.1.notAhead
  refine (ends_abort hu.1 g).ends_orReturn fun v hv => runs_locals_bind ?_
  have hv' := hu.1.frame hv
  -- the rest of the stop, with the commit in the file and in the local copy
  have hcommitted : ∀ x, InStep recorded x → x.locals.controlAttempt.phase.isCommitPending = true →
      Runs recorded (sendHardSignal session g authorizationId) (Ends fun _ _ => True) x := by
    intro x hx hcommit
    refine runs_locals_bind ?_
    cases hcontrol : x.locals.control with
    | none => exact ends_throw hx.notAhead
    | some signalControl =>
      obtain rfl := hx.handle signalControl hcontrol
      have hdecided : InStep signalControl
          { x with locals := { x.locals with hardDecisionRecorded := true } } :=
        ⟨hx.control, hx.handle⟩
      refine runs_modifyLocals_bind ?_
      refine (ends_commitHardSignal hdecided hcommit session hsession g authorizationId).ends_bind
        fun sent y hy => ?_
      cases sent with
      | none => exact ends_pure trivial
      | some _ =>
        refine ((quiet_waitForExactExit _ _).ends hy).ends_bind fun exited z hz => ?_
        exact ends_finishStop session exited (hy.frame hz)
  dsimp only
  split
  · refine (ends_advance hv' .hardSignalCommitPending).ends_bind fun attempt x hx => ?_
    exact runs_modifyLocals_bind (hcommitted _ (.assign hv'.handle hx.2.1 hx.1) hx.2.2)
  next hnot =>
  refine hcommitted v hv' (Or.resolve_left ?_ hnot)
  rw [hv.locals, hu.2, ht.locals]
  exact hphase

theorem ends_exitOrSignal (hw : InStep recorded w) (session : ControlSession)
    (hsession : session.recorded = recorded) (g : ℤ) :
    Runs recorded (exitOrSignal session g) (Ends fun _ _ => True) w := by
  refine runs_locals_bind ?_
  dsimp only
  split
  · next hphase =>
    exact ends_hardSignal hw (Bool.or_eq_true_iff.mp hphase) session hsession g
  next hphase =>
  rw [Bool.or_eq_true, not_or, Bool.not_eq_true (ControlPhase.isCommitPending _)] at hphase
  refine ((quiet_waitForExactExit _ _).ends hw.notAhead).ends_bind fun exited t ht => ?_
  have hstep := hw.frame ht
  split
  · exact ends_finishStop session true hstep.notAhead
  refine (ends_authorizeHardSignal hstep (by rw [ht.locals]; exact hphase.2) session
    g).ends_orReturn fun u hu => ?_
  exact ends_hardSignal hu.1 (.inl hu.2) session hsession g

theorem ends_checkOwner (hw : InStep recorded w) (session : ControlSession) (g : ℤ) :
    Runs recorded (checkOwner session g)
      (Ends fun result t => result = none → InStep recorded t) w := by
  refine runs_locals_bind ?_
  dsimp only
  split
  · exact ends_pure fun _ => hw
  split
  · next hphase =>
    refine (ends_rollbackDrain (P := fun _ t => Frame w t) hw.notAhead
      (isCommitPending_of_isHardSignalPending hphase) fun _ _ ht => ht).ends_bind fun valid t ht => ?_
    have hahead := hw.notAhead.frame ht
    split
    · refine (quiet_unplan.ends hahead).ends_bind fun _ _ _ => ?_
      exact ends_pure fun h => nomatch h
    refine (ends_rolledBack session hahead).ends_bind fun _ _ _ => ?_
    exact ends_pure fun h => nomatch h
  split
  · refine (quiet_unplan.ends hw.notAhead).ends_bind fun _ _ _ => ?_
    exact ends_pure fun h => nomatch h
  · exact ends_pure fun _ => hw

end Steps

end BreadboardTui
