import BreadboardTui.Lifecycle.ControlSteps
import BreadboardTui.Lifecycle.RecordSecrets

/-!
# No rollback after a hard-signal commit

The argument about `#controlledStop`: whenever the control file says that a hard signal is committed,
the local copy of the attempt says so too (`NotAhead`), and no way out of the function asks for a
rollback on such a copy.

Two steps break it. A failed write of that phase can have reached the file; and a resumed stop whose
process has gone when the signal is prepared asks for a rollback without looking at the phase. Runs
without these two (`Steady`) are safe.
-/

namespace BreadboardTui

open Effects Option Bool

section Steps

variable {recorded : ProcessIdentity} {w : ControlWorld}

/-! ### The request for a drain -/

variable {c : ControlChoice} {fresh : LocalControlAttempt}

theorem ends_prepareControlAttempt
    (hfresh : fresh.phase = .beginPending) (operation : ControlOperation) (h : NotAhead w)
    {P : LocalControlAttempt → ControlWorld → Prop}
    (hP : ∀ attempt t, t.control = some attempt → t.locals = w.locals → P attempt t) :
    Ends P ((w.leaseTick c.lease).prepareControlAttempt c fresh operation).1
      ((w.leaseTick c.lease).prepareControlAttempt c fresh operation).2 := by
  have htick := frame_leaseTick w c.lease
  have hahead := h.frame htick
  rw [ControlWorld.prepareControlAttempt]
  split
  · next existing hcontrol =>
    split
    · exact hP existing _ hcontrol htick.locals
    · exact ⟨hahead, fun hexpired => by cases hexpired⟩
  rw [ControlWorld.write]
  cases c.failure with
  | none => exact hP fresh _ rfl htick.locals
  | some =>
    refine ⟨?_, fun hexpired => by cases hexpired⟩
    change NotAhead (if c.applied = 0 then _ else _)
    split
    · exact hahead
    rintro ⟨attempt, hmem, hcommit⟩
    cases hmem
    rw [hfresh] at hcommit
    cases hcommit

theorem ends_replaceExpired (hw : InStep recorded w) (session : ControlSession)
    (expired : LocalControlAttempt) (admissionEpoch : ℤ) :
    Runs recorded (call (.replaceExpiredBeginControlAttempt session.fresh expired session.operation
        admissionEpoch))
      (Ends fun attempt t => t.control = some attempt ∧ t.locals = w.locals) w := by
  refine runs_call.mpr ⟨trivial, fun c _ => ?_⟩
  have htick := frame_leaseTick w c.lease
  have hahead := hw.notAhead.frame htick
  have hfresh := session.fresh_phase c.number admissionEpoch c.text
  have hprepare := ends_prepareControlAttempt (c := c) hfresh session.operation hw.notAhead
    (P := fun attempt t => t.control = some attempt ∧ t.locals = w.locals)
    fun _ _ hcontrol hlocals => ⟨hcontrol, hlocals⟩
  rw [ControlCall.perform, ControlWorld.replaceExpiredBeginControlAttempt]
  split
  · exact hprepare
  split
  · exact hprepare
  split
  · exact ⟨hahead, fun hexpired => by cases hexpired⟩
  split
  · exact ⟨rfl, htick.locals⟩
  refine ⟨?_, fun hexpired => by cases hexpired⟩
  split
  · exact hahead
  split
  · rintro ⟨attempt, hmem, -⟩
    cases hmem
  rintro ⟨attempt, hmem, hcommit⟩
  cases hmem
  rw [hfresh] at hcommit
  cases hcommit

theorem ends_requestDrain (hw : InStep recorded w) (session : ControlSession) (admissionEpoch : ℤ)
    (again : Bool) :
    Runs recorded (requestDrain session admissionEpoch again) (Ends fun drain t => match drain with
      | .began _ => Frame w t
      | .replaced => InStep recorded t
      | .returned _ => True) w := by
  refine runs_locals_bind (runs_tryCatch.mpr ?_)
  have hrequest : Quiet recorded (retryAmbiguousControlRequest (withRevalidatedAuthority
      (call (.beginControlDrain w.locals.controlAttempt)) false)) w :=
    quiet_request (by rfl) (by intro _ _; trivial) false
  refine runs_bind.mpr (hrequest.runs.mono fun r t ht => ?_)
  have hstep := hw.frame ht.1
  rcases r with error | drain
  · dsimp only
    split
    · refine (ends_replaceExpired hstep session _ admissionEpoch).ends_bind fun attempt u hu => ?_
      exact runs_modifyLocals_bind (ends_pure (.assign hstep.handle hu.2 hu.1))
    split
    · refine (ends_clear hstep.notAhead).ends_bind fun _ u hu => ?_
      have hdetach : Quiet recorded (call .detachRequester) u := quiet_call rfl fun _ _ => trivial
      exact (hdetach.ends hu).ends_bind fun _ _ _ => ends_pure trivial
    · exact runs_throw.mpr ⟨hstep.notAhead, ht.2 error rfl⟩
  cases drain with
  | none => trivial
  | some => exact ht.1

theorem ends_beginDrain (hw : InStep recorded w) (session : ControlSession) (admissionEpoch : ℤ)
    (n : ℕ) :
    Runs recorded (beginDrain session admissionEpoch n)
      (Ends fun result t => result = none → InStep recorded t) w := by
  induction n generalizing w with
  | zero => exact ends_pure fun _ => hw
  | succ n ih =>
    refine runs_locals_bind ?_
    have hread : Quiet recorded (call (.readControlAttemptSecret w.locals.controlAttempt)) w :=
      quiet_call rfl fun _ _ => trivial
    refine (hread.ends hw.notAhead).ends_bind fun _ t ht => ?_
    have hstep := hw.frame ht
    refine (ends_requestDrain hstep session admissionEpoch (n == 1)).ends_bind fun drain u hu => ?_
    cases drain with
    | returned => exact ends_pure fun h => nomatch h
    | began g =>
      have hu' := hstep.frame hu
      have hbegan : InStep recorded { u with locals := { u.locals with drainGeneration := some g } } :=
        ⟨hu'.control, hu'.handle⟩
      refine runs_modifyLocals_bind ?_
      rw [← ht.locals, ← hu.locals]
      refine (ends_markDraining hbegan g).ends_bind fun attempt v hv => ?_
      exact runs_modifyLocals_bind (ends_pure fun _ => .assign hbegan.handle hv.2 hv.1)
    | replaced =>
      refine runs_locals_bind ?_
      cases hphase : u.locals.controlAttempt.phase.drainGeneration with
      | none => exact ih hu
      | some => exact runs_modifyLocals_bind (ends_pure fun _ => ⟨hu.control, hu.handle⟩)

/-! ### The whole stop -/

theorem ends_stopDrained (hw : InStep recorded w) (session : ControlSession)
    (hsession : session.recorded = recorded) :
    Runs recorded (stopDrained session) (Ends fun _ _ => True) w := by
  refine runs_locals_bind ?_
  cases w.locals.drainGeneration with
  | none => exact ends_throw hw.notAhead
  | some g =>
    have htransition : Quiet recorded
        (call (.transition (if session.operation = .restart then .restartStopping else .stopping)))
        w := quiet_call rfl fun _ _ => trivial
    refine (htransition.ends hw.notAhead).ends_bind fun _ t ht => runs_locals_bind ?_
    have hstep := hw.frame ht
    have hrest : ∀ u, Frame t u → Runs recorded
        (orReturn (abortBeforeHardCommit g) <| orReturn (checkOwner session g) <|
          orReturn (requestGraceful session g) <|
            orReturn (abortBeforeHardCommit g) (exitOrSignal session g))
        (Ends fun _ _ => True) u := by
      intro u hu
      have hu' := hstep.frame hu
      refine (ends_abort hu' g).ends_orReturn fun v hv => ?_
      refine (ends_checkOwner (hu'.frame hv) session g).ends_orReturn fun x hx => ?_
      refine (ends_requestGraceful hx session g).ends_orReturn fun y hy => ?_
      refine (ends_abort hy g).ends_orReturn fun z hz => ?_
      exact ends_exitOrSignal (hy.frame hz) session hsession g
    split
    · have hplan : Quiet recorded (call (.setPlanned true)) t := quiet_call rfl fun _ _ => trivial
      exact (hplan.ends hstep.notAhead).ends_bind fun _ u hu => hrest u hu
    · exact hrest t (.refl t)

theorem ends_tryStop (hw : InStep recorded w) (session : ControlSession)
    (hsession : session.recorded = recorded) (admissionEpoch : ℤ) :
    Runs recorded (tryStop session admissionEpoch) (Ends fun _ _ => True) w := by
  refine runs_locals_bind ?_
  cases w.locals.controlAttempt.phase.drainGeneration with
  | none =>
    refine (ends_beginDrain hw session admissionEpoch 2).ends_orReturn fun t ht => ?_
    exact ends_stopDrained ht session hsession
  | some g =>
    have hresumed : InStep recorded { w with locals := { w.locals with drainGeneration := some g } } :=
      ⟨hw.control, hw.handle⟩
    exact runs_modifyLocals_bind (ends_stopDrained hresumed session hsession)

variable (session : ControlSession)

/-- The `catch` block asks for a rollback only where that is permitted. -/
theorem runs_catchStop {error : ControlError} (h : NotAhead w)
    (hexpired : error.isAuthorizationExpired = true → w.expired = true) :
    Runs recorded (catchStop session error) (Ends fun _ _ => True) w := by
  have hreturn : ∀ t, NotAhead t → ∀ result : ControlResult,
      Runs recorded (unplan >>= fun _ => pure result) (Ends fun _ _ => True) t :=
    fun t ht result => (quiet_unplan.ends ht).ends_bind fun _ _ _ => ends_pure trivial
  refine runs_locals_bind ?_
  cases w.locals.drainGeneration with
  | none => exact hreturn w h _
  | some g =>
    dsimp only
    split
    · next hcond =>
      rw [and_eq_true, or_eq_true, not_eq_true', not_eq_true'] at hcond
      have hrollback : w.CommitPending → w.expired = true := by
        intro hcommit
        rcases hcond.2 with hphase | herror
        · exact h.mayRollback hphase hcommit
        · exact hexpired herror
      refine runs_bind.mpr ((runs_rollbackDrain hrollback g).mono fun r t ht => ?_)
      have hahead := h.frame ht.1
      rcases r with error' | valid
      · exact ⟨hahead, ht.2 error' rfl⟩
      dsimp only
      split
      · exact ends_pure trivial
      refine (ends_clear hahead).ends_bind fun _ u hu => ?_
      split
      · refine (quiet_unplan.ends hu).ends_bind fun _ v hv => ?_
        exact ((quiet_rollbackResult session).ends (hu.frame hv)).ends_mono fun _ _ _ => trivial
      · exact hreturn u hu _
    · exact hreturn w h _

theorem control_prepareControlAttempt {attempt : LocalControlAttempt}
    {operation : ControlOperation} (h : (w.prepareControlAttempt c fresh operation).1 = .ok attempt) :
    (w.prepareControlAttempt c fresh operation).2.control = some attempt := by
  rw [ControlWorld.prepareControlAttempt] at h ⊢
  split at h
  · next hcontrol =>
    split at h
    · next hcond =>
      simp only [hcontrol, if_pos hcond]
      exact congrArg some (Except.ok.inj h)
    · cases h
  next hcontrol =>
  rw [ControlWorld.write] at h
  split at h
  · next hcond =>
    simp only [ControlWorld.write, if_pos hcond]
    exact congrArg some (Except.ok.inj h)
  · cases h

/-- From any state of the control file on, a stop makes only permitted requests. -/
theorem runs_stopSession {process : Option ProcessIdentity}
    (hsession : session.recorded = recorded) (hprocess : ∀ p ∈ process, p = recorded) :
    Runs recorded (stopSession session process) (fun _ _ => True) w := by
  subst hsession
  have hrest : ∀ (control : Option ProcessIdentity) (t : ControlWorld),
      (∀ p ∈ control, p = session.recorded) → Runs session.recorded
        (do
          call (.transition .draining)
          let admissionEpoch ← call .renewClient
          let controlAttempt ←
            call (.prepareControlAttempt session.fresh session.operation admissionEpoch)
          call (.assign ⟨control, none, false, controlAttempt⟩)
          tryCatch (tryStop session admissionEpoch) (catchStop session))
        (fun _ _ => True) t := by
    intro control t hcontrol
    refine runs_bind.mpr (runs_call.mpr ⟨trivial, fun c _ => ?_⟩)
    generalize (ControlCall.transition .draining).perform c t = answer
    obtain ⟨_ | _, u⟩ := answer
    · trivial
    refine runs_bind.mpr (runs_call.mpr ⟨trivial, fun c' _ => ?_⟩)
    generalize ControlCall.renewClient.perform c' u = answer
    obtain ⟨_ | admissionEpoch, v⟩ := answer
    · trivial
    refine runs_bind.mpr (runs_call.mpr ⟨trivial, fun c'' _ => ?_⟩)
    rw [ControlCall.perform]
    have hprepared : ∀ attempt, ((v.leaseTick c''.lease).prepareControlAttempt c''
        (session.fresh c''.number admissionEpoch c''.text) session.operation).1 = .ok attempt → _ :=
      fun attempt => control_prepareControlAttempt
    generalize (v.leaseTick c''.lease).prepareControlAttempt c''
      (session.fresh c''.number admissionEpoch c''.text) session.operation = answer at hprepared ⊢
    obtain ⟨_ | attempt, x⟩ := answer
    · trivial
    refine runs_bind.mpr (runs_call.mpr ⟨trivial, fun _ _ => ?_⟩)
    have hstep : InStep session.recorded
        { x with locals := ⟨control, none, false, attempt⟩ } := ⟨hprepared attempt rfl, hcontrol⟩
    refine runs_tryCatch.mpr ((ends_tryStop hstep session rfl admissionEpoch).mono fun r y hy => ?_)
    cases r with
    | ok => trivial
    | error => exact (runs_catchStop session hy.1 hy.2).mono fun _ _ _ => trivial
  unfold stopSession
  cases process with
  | some process => exact hrest (some process) w hprocess
  | none =>
    refine runs_bind.mpr (runs_call.mpr ⟨trivial, fun c _ => ?_⟩)
    rw [ControlCall.perform, ControlWorld.observe]
    cases c.failure with
    | some => trivial
    | none =>
      refine hrest _ _ fun p hp => ?_
      split at hp
      · exact (some.inj hp).symm
      · cases hp

end Steps

/-! ### Runs of stops -/

/-- A call of `#controlledStop`, with the environment's part in it. A list of choices that ends
early is a crash. -/
structure ControlStop where
  context : ReadyContext
  restart : Bool
  requestTimeoutMs : ℤ
  requester : ControlAttemptRequester
  choices : List ControlChoice
  /-- The handle of a context is the process of its record. -/
  owned : ∀ process ∈ context.process, ∀ record ∈ context.record,
    process = ⟨record.pid, record.osProcessStartToken⟩

namespace ControlStop

variable (platform : Platform) (stop : ControlStop) (w : ControlWorld)

def program : ControlM ControlResult :=
  controlledStop platform stop.requestTimeoutMs stop.requester stop.context stop.restart

/-- The run of a stop: what is left of it, and the world. -/
def run : ControlM ControlResult × ControlWorld :=
  (stop.program platform).run ControlCall.perform stop.choices { w with permit := none }

/-- Every step of the run meets the condition. -/
def IsSteady : Prop :=
  (stop.program platform).StepsAllowed ControlCall.perform Steady stop.choices
    { w with permit := none }

instance : Decidable (stop.IsSteady platform w) :=
  inferInstanceAs (Decidable (Program.StepsAllowed ..))

end ControlStop

/-- The worlds in which a stop may begin: earlier ones may have ended or crashed, the authority may
have been retired, and a later supervisor has fields of its own. -/
inductive ControlReached (platform : Platform) : ControlWorld → Prop where
  | initial {w : ControlWorld} (hcontrol : w.control = none) (hhistory : w.history = []) :
      ControlReached platform w
  | stop {w : ControlWorld} (stop : ControlStop) (h : ControlReached platform w) :
      ControlReached platform (stop.run platform w).2
  | retire {w : ControlWorld} (h : ControlReached platform w) : ControlReached platform w.unlink
  | adopt {w : ControlWorld} (currentState : Option LifecycleStateName) (contextHeld planned : Bool)
      (h : ControlReached platform w) : ControlReached platform
        { w with currentState := currentState, contextHeld := contextHeld, planned := planned }

section Reached

variable {platform : Platform} {w : ControlWorld}

theorem ControlReached.ordered (h : ControlReached platform w) : w.Ordered := by
  induction h with
  | initial hcontrol hhistory =>
    refine ⟨hhistory ▸ List.Pairwise.nil, fun attempt hattempt => ?_⟩
    rw [hcontrol] at hattempt
    cases hattempt
  | stop stop h ih =>
    exact Program.run_induction (fun op c w hw => hw.perform op c) (ih.same rfl rfl)
  | retire => exact ControlWorld.ordered_unlink _
  | adopt currentState contextHeld planned h ih => exact ih.same rfl rfl

end Reached

section Examples

/-- The record of a running engine. -/
def sampleRecord : LocalAuthorityRecord where
  toAuthorityRecordInput := sampleInput
  schemaVersion := authorityRecordSchemaVersion
  recordRevision := "record-revision-0001"
  ownerCredentialRef := .ownerSecret (endpointKey samplePlatform sampleInput.normalizedEndpoint) 1
    "record-revision-0001"
  ownerCredentialVerifier := credentialVerifier samplePlatform (utf8 "owner-credential-0001")

/-- A stop of the engine, with or without a handle for its process. -/
def sampleStop (handle : Bool) (choices : List ControlChoice) : ControlStop where
  context :=
    { record := some sampleRecord
      ownerCredential := some "owner-credential-0001"
      ownerGeneration := some 1
      process := if handle then some ⟨sampleRecord.pid, sampleRecord.osProcessStartToken⟩ else none
      effectiveExitPolicy := none }
  restart := false
  requestTimeoutMs := 1000
  requester := ⟨"registration-0001", 1, "client-instance-0001", "registration-credential-0001", 0⟩
  choices := choices
  owned := by
    intro process hprocess record hrecord
    cases hrecord
    cases handle with
    | true => exact (some.inj hprocess).symm
    | false => cases hprocess

/-- The answer of an engine and a process that go along. -/
def yes : ControlChoice := ⟨none, 0, none, true, 1, "answer", .alive "linux:1000"⟩

def no : ControlChoice := { yes with flag := false }

/-- The answer that a hard signal may be decided on. -/
def decision : ControlChoice := { yes with text := "hard_signal_decision_pending" }

/-- A supervisor that is ready, before any stop. -/
def readyWorld : ControlWorld where
  control := none
  history := []
  expired := false
  permit := none
  currentState := some .ready
  contextHeld := true
  planned := false
  locals := ⟨none, none, false, newControlAttempt samplePlatform ⟨"", "", 0⟩
    (endpointKey samplePlatform sampleInput.normalizedEndpoint) sampleRecord .stop ""
    ⟨"", 0, "", "", 0⟩⟩

/-- The answers up to the commit in the control file, to a process that does not exit by itself. -/
def untilCommit : List ControlChoice :=
  List.replicate 19 yes ++ no :: List.replicate 8 yes ++ no :: List.replicate 3 yes ++
    [no, no, yes, yes, decision] ++ List.replicate 4 yes ++ no :: List.replicate 5 yes ++
    no :: List.replicate 3 yes

/-- The answers to a later stop whose process has gone when the signal is prepared. -/
def resumedWithoutProcess : List ControlChoice :=
  no :: List.replicate 10 yes ++ no :: List.replicate 3 yes ++ no :: yes :: yes :: no ::
    List.replicate 3 yes ++ no :: List.replicate 3 yes

/-- The world in which a later supervisor resumes the stop of one that has crashed after its commit. -/
def resumedWorld : ControlWorld :=
  { ((sampleStop true untilCommit).run samplePlatform readyWorld).2 with
    currentState := some .ready, contextHeld := true, planned := false }

end Examples

end BreadboardTui
