import BreadboardTui.Lifecycle.LocalAuthorityStore

/-!
# The controlled stop

`#controlledStop` as a program over calls: to the engine, to the store's control file, to the process
adapter, and to the supervisor's own fields. What the calls read and write is a `ControlWorld`; every
call that leaves the supervisor can fail, a call of the store before or after its writes have reached
the file, and the program can stop at any of them for good.

The local variables of the function are part of the world, as its `catch` reads what they are when
something throws.
-/

namespace BreadboardTui

open Effects

inductive LifecycleStateName where
  | off | claiming | starting | connecting | handshaking | acquiringOwner | registeringClient
  | compatibleObserved | ready | reconnecting | backingOff | draining | restartStopping
  | restartStarting | stopping | detachingClient | detached | stopped | failed | restartBlocked
  | drainRecoveryFailed | updateUnavailable | ownershipConflict | ownerLeaseExpired
  | registrationConflict | registrationExpired | incompatibleEngine | authFailed | tlsFailed
  | identityChanged | requestAborted | externalDisconnected | remoteDisconnected | recoveryNeeded
  deriving DecidableEq, Repr

def initialStates : List LifecycleStateName := [.off, .claiming, .connecting, .backingOff]

def allowedTransitions : LifecycleStateName → List LifecycleStateName
  | .claiming => [.starting, .connecting]
  | .starting => [.connecting, .backingOff]
  | .connecting => [.handshaking]
  | .handshaking =>
    [.acquiringOwner, .registeringClient, .compatibleObserved, .reconnecting, .backingOff]
  | .acquiringOwner => [.registeringClient, .reconnecting]
  | .registeringClient => [.ready, .reconnecting]
  | .ready => [.claiming, .draining, .detachingClient, .backingOff, .reconnecting]
  | .draining => [.draining, .stopping, .restartStopping]
  | .restartStopping => [.restartStarting, .ready, .detachingClient]
  | .restartStarting => [.connecting, .backingOff]
  | .stopping => [.stopped, .ready, .detachingClient]
  | .detachingClient => [.detached]
  | .reconnecting => [.connecting, .starting]
  | .backingOff => [.claiming, .starting, .restartStarting]
  | _ => []

/-- The check of `transition`. -/
def transitionAllowed (current : Option LifecycleStateName) (name : LifecycleStateName) : Bool :=
  current.isNone || name ∈ initialStates || current.any (name ∈ allowedTransitions ·)

/-! ### The control file -/

namespace ControlPhase

def isBeginPending : ControlPhase → Bool
  | beginPending => true
  | _ => false

def isDraining : ControlPhase → Bool
  | draining _ => true
  | _ => false

def isHardSignalPending : ControlPhase → Bool
  | hardSignalPending _ => true
  | _ => false

def isCommitPending : ControlPhase → Bool
  | hardSignalCommitPending _ => true
  | _ => false

/-- The place of a phase in a stop. -/
def rank : ControlPhase → ℕ
  | beginPending => 0
  | draining _ => 1
  | gracefulAccepted _ => 2
  | hardSignalPending _ => 3
  | hardSignalCommitPending _ => 4

end ControlPhase

/-- The phases that `advanceControlAttempt` is called with. -/
inductive ControlStep where
  | gracefulAccepted
  | hardSignalPending
  | hardSignalCommitPending
  deriving DecidableEq, Repr

/-- The phase that `advanceControlAttempt` leaves, where it allows the step. -/
def ControlPhase.advance : ControlPhase → ControlStep → Option ControlPhase
  | draining g, .gracefulAccepted => some (gracefulAccepted g)
  | gracefulAccepted g, .hardSignalPending => some (hardSignalPending g)
  | hardSignalPending g, .hardSignalCommitPending => some (hardSignalCommitPending g)
  | gracefulAccepted g, .gracefulAccepted => some (gracefulAccepted g)
  | hardSignalPending g, .hardSignalPending => some (hardSignalPending g)
  | hardSignalCommitPending g, .hardSignalCommitPending => some (hardSignalCommitPending g)
  | _, _ => none

/-- `advanceControlAttempt`: what the control file holds afterwards. -/
def advanceControlAttempt (current : Option LocalControlAttempt) (expected : LocalControlAttempt)
    (phase : ControlStep) : Option LocalControlAttempt :=
  if current = some expected then
    (expected.phase.advance phase).map fun phase => { expected with phase := phase }
  else none

/-- `markControlAttemptDraining`: what the control file holds afterwards. -/
def markControlAttemptDraining (current : Option LocalControlAttempt)
    (expected : LocalControlAttempt) (drainGeneration : ℤ) : Option LocalControlAttempt :=
  if current = some expected then
    match expected.phase with
    | .draining g => if g = drainGeneration then some expected else none
    | .beginPending => some { expected with phase := .draining drainGeneration }
    | _ => none
  else none

/-! ### Calls -/

/-- What `client.recordGracefulControl` answers. -/
structure GracefulControlResponse where
  result : String
  signalPermitted : Bool
  deriving DecidableEq, Repr

/-- What `client.commitHardSignal` answers, as far as it is read. -/
structure HardSignalPermitResponse where
  authorizationId : String
  expiresAtUnix : ℤ
  deriving DecidableEq, Repr

inductive ProcessObservation where
  | alive (startToken : String)
  | dead
  | ambiguous
  deriving DecidableEq, Repr

/-- `error.failure.kind` of a `LifecycleE4ClientError`. -/
inductive ClientFailureKind where
  | timeout
  | callerAbort
  | http (status : ℕ)
  | registrationExpired
  | drainConflict
  | hardSignalAuthorizationExpired
  | other (kind : String)
  deriving DecidableEq, Repr

/-- What a controlled stop can meet. -/
inductive ControlError where
  | client (kind : ClientFailureKind)
  | store
  | process
  | thrown (message : String)
  deriving DecidableEq, Repr

/-- `#isAmbiguousControlRequest`. -/
def ControlError.isAmbiguous : ControlError → Bool
  | client .timeout => true
  | client .callerAbort => true
  | client (.http status) => status == 0
  | _ => false

def ControlError.isAuthorizationExpired : ControlError → Bool
  | client .hardSignalAuthorizationExpired => true
  | _ => false

/-- What a controlled stop returns: `mapped` is `mappedFailure("local-owned", error)`. -/
inductive ControlResult where
  | failure (state : LifecycleStateName) (code : String)
  | mapped (error : ControlError)
  | stopped
  | detached
  | ready
  deriving DecidableEq, Repr

/-- The local variables of `#controlledStop`. -/
structure ControlLocals where
  control : Option ProcessIdentity
  drainGeneration : Option ℤ
  hardDecisionRecorded : Bool
  controlAttempt : LocalControlAttempt
  deriving DecidableEq, Repr

/-- The calls of a controlled stop. -/
inductive ControlCall where
  | transition (name : LifecycleStateName)
  | controlFor (process : ProcessIdentity) (forSignal : Bool)
  | renewClient
  | prepareControlAttempt (fresh : ℤ → ℤ → String → LocalControlAttempt)
      (operation : ControlOperation) (admissionEpoch : ℤ)
  | readControlAttemptSecret (attempt : LocalControlAttempt)
  | replaceExpiredBeginControlAttempt (fresh : ℤ → ℤ → String → LocalControlAttempt)
      (expired : LocalControlAttempt) (operation : ControlOperation) (admissionEpoch : ℤ)
  | markControlAttemptDraining (expected : LocalControlAttempt) (drainGeneration : ℤ)
  | advanceControlAttempt (expected : LocalControlAttempt) (phase : ControlStep)
  | clearControlAttempt (expected : LocalControlAttempt)
  | revalidate (ignoreAbort : Bool)
  | beginControlDrain (attempt : LocalControlAttempt)
  | recordGracefulControl (drainGeneration : ℤ) (outcome : String)
  | rollbackDrain (drainGeneration : ℤ)
  | prepareHardSignal (drainGeneration : ℤ) (process : ProcessIdentity)
  | commitHardSignal (drainGeneration : ℤ) (authorizationId : String) (process : ProcessIdentity)
  | recordHardSignalOutcome (drainGeneration : ℤ) (authorizationId outcome : String)
  | observe (pid : ℤ)
  | sendHardSignal (control : ProcessIdentity) (expiresAtUnix : ℤ)
  | waitForExit (control : ProcessIdentity) (timeoutMs : ℤ)
  | sleep (milliseconds : ℤ)
  | retireObservedExit
  | detachRequester
  | detach
  | ready
  | dropContext
  | aborted
  | setPlanned (planned : Bool)
  | locals
  | assign (locals : ControlLocals)

namespace ControlCall

/-- What a call returns. -/
abbrev Value : ControlCall → Type
  | controlFor _ _ => Option ProcessIdentity
  | renewClient => ℤ
  | prepareControlAttempt _ _ _ => LocalControlAttempt
  | replaceExpiredBeginControlAttempt _ _ _ _ => LocalControlAttempt
  | markControlAttemptDraining _ _ => LocalControlAttempt
  | advanceControlAttempt _ _ => LocalControlAttempt
  | revalidate _ => Bool
  | beginControlDrain _ => ℤ
  | recordGracefulControl _ _ => GracefulControlResponse
  | prepareHardSignal _ _ => String
  | commitHardSignal _ _ _ => HardSignalPermitResponse
  | observe _ => ProcessObservation
  | sendHardSignal _ _ => String
  | waitForExit _ _ => Bool
  | retireObservedExit => Bool
  | detach => ControlResult
  | aborted => Bool
  | locals => ControlLocals
  | _ => Unit

abbrev Answer (op : ControlCall) : Type := Except ControlError op.Value

end ControlCall

/-- A part of a controlled stop. -/
abbrev ControlM := Program ControlCall ControlCall.Answer ControlError

/-- One call, with its error thrown. -/
def call (op : ControlCall) : ControlM op.Value := do
  match ← Program.ask op with
  | .ok value => pure value
  | .error error => throw error

/-! ### The program -/

/-- The fields of a `ReadyContext` that a controlled stop reads. -/
structure ReadyContext where
  record : Option LocalAuthorityRecord
  ownerCredential : Option String
  ownerGeneration : Option ℤ
  process : Option ProcessIdentity
  effectiveExitPolicy : Option OwnerExitPolicy

/-- What a controlled stop has established about its context, with the attempt that it would
write. -/
structure ControlSession where
  record : LocalAuthorityRecord
  ownerGeneration : ℤ
  exitPolicy : OwnerExitPolicy
  requestTimeoutMs : ℤ
  fresh : ℤ → ℤ → String → LocalControlAttempt
  fresh_phase : ∀ now admissionEpoch controlRequestId,
    (fresh now admissionEpoch controlRequestId).phase = .beginPending
  operation : ControlOperation

namespace ControlSession

/-- The process of the record. -/
def recorded (session : ControlSession) : ProcessIdentity :=
  ⟨session.record.pid, session.record.osProcessStartToken⟩

end ControlSession

/-- `if (result) return result`. -/
def orReturn (p : ControlM (Option ControlResult)) (next : ControlM ControlResult) :
    ControlM ControlResult := do
  match ← p with
  | some result => return result
  | none => next

/-- `await operation()`, again while the failure is ambiguous. -/
def retryFrom {α : Type} : ℕ → ControlM α → ControlM α
  | 0, operation => operation
  | n + 1, operation => tryCatch operation fun error =>
    if error.isAmbiguous then retryFrom n operation else throw error

def retryAmbiguousControlRequest {α : Type} (operation : ControlM α) : ControlM α :=
  retryFrom 2 operation

/-- `#withRevalidatedAuthority`; `none` is `{ kind: "invalid" }`. -/
def withRevalidatedAuthority {α : Type} (operation : ControlM α) (ignoreAbort : Bool) :
    ControlM (Option α) := do
  if ← call (.revalidate ignoreAbort) then return some (← operation) else return none

def rollbackDrain (drainGeneration : ℤ) : ControlM Bool :=
  tryCatch
    (do
      let rollback ← retryAmbiguousControlRequest
        (withRevalidatedAuthority (call (.rollbackDrain drainGeneration)) true)
      return rollback.isSome)
    fun _ => pure false

def modifyLocals (f : ControlLocals → ControlLocals) : ControlM Unit := do
  call (.assign (f (← call .locals)))

def clearControlAttempt' : ControlM Unit := do
  call (.clearControlAttempt (← call .locals).controlAttempt)

/-- `if (control) this.#plannedProcesses.delete(control)`. -/
def unplan : ControlM Unit := do
  if (← call .locals).control.isSome then call (.setPlanned false) else pure ()

def drainRecoveryFailed : ControlResult := .failure .drainRecoveryFailed "drain_recovery_failed"

def identityChanged : ControlResult := .failure .identityChanged "identity_changed"

def abortBeforeHardCommit (drainGeneration : ℤ) : ControlM (Option ControlResult) := do
  if !(← call .aborted) || (← call .locals).controlAttempt.phase.isCommitPending then return none
  if !(← rollbackDrain drainGeneration) then return some drainRecoveryFailed
  unplan
  clearControlAttempt'
  return some (.failure .requestAborted "request_aborted")

def rollbackResult (session : ControlSession) : ControlM ControlResult := do
  if session.exitPolicy = .detached then call .detach
  else
    call .ready
    return .ready

/-- The end of the ways out that a rollback by the engine leaves. -/
def rolledBack (session : ControlSession) : ControlM ControlResult := do
  unplan
  clearControlAttempt'
  rollbackResult session

/-- What a request for a drain has come to. -/
inductive DrainAttempt where
  | began (drainGeneration : ℤ)
  | replaced
  | returned (result : ControlResult)

/-- The request for a drain with its `catch`; `again` where the registration may be replaced. -/
def requestDrain (session : ControlSession) (admissionEpoch : ℤ) (again : Bool) :
    ControlM DrainAttempt := do
  let attempt := (← call .locals).controlAttempt
  tryCatch
    (do
      match ← retryAmbiguousControlRequest
        (withRevalidatedAuthority (call (.beginControlDrain attempt)) false) with
      | none => return .returned identityChanged
      | some drainGeneration => return .began drainGeneration)
    fun error => do
      if again ∧ error = .client .registrationExpired then
        let replacement ← call (.replaceExpiredBeginControlAttempt session.fresh attempt
          session.operation admissionEpoch)
        modifyLocals ({ · with controlAttempt := replacement })
        return .replaced
      else if error = .client .drainConflict then
        clearControlAttempt'
        call .detachRequester
        return .returned (.failure .restartBlocked "drain_denied")
      else throw error

/-- The loop over the requests for a drain. -/
def beginDrain (session : ControlSession) (admissionEpoch : ℤ) :
    ℕ → ControlM (Option ControlResult)
  | 0 => return none
  | n + 1 => do
    let attempt := (← call .locals).controlAttempt
    call (.readControlAttemptSecret attempt)
    match ← requestDrain session admissionEpoch (n == 1) with
    | .returned result => return some result
    | .began drainGeneration =>
      modifyLocals ({ · with drainGeneration := some drainGeneration })
      let draining ← call (.markControlAttemptDraining attempt drainGeneration)
      modifyLocals ({ · with controlAttempt := draining })
      return none
    | .replaced =>
      match (← call .locals).controlAttempt.phase.drainGeneration with
      | none => beginDrain session admissionEpoch n
      | some drainGeneration =>
        modifyLocals ({ · with drainGeneration := some drainGeneration })
        return none

/-- The part of a resumed stop whose owner has changed. -/
def checkOwner (session : ControlSession) (drainGeneration : ℤ) :
    ControlM (Option ControlResult) := do
  let attempt := (← call .locals).controlAttempt
  if attempt.ownerGeneration = session.ownerGeneration then return none
  if attempt.phase.isHardSignalPending then
    if !(← rollbackDrain drainGeneration) then
      unplan
      return some drainRecoveryFailed
    return some (← rolledBack session)
  if attempt.phase.isCommitPending then
    unplan
    return some drainRecoveryFailed
  return none

/-- The request for a graceful exit. -/
def requestGraceful (session : ControlSession) (drainGeneration : ℤ) :
    ControlM (Option ControlResult) := do
  let attempt := (← call .locals).controlAttempt
  if !attempt.phase.isDraining then return none
  match ← retryAmbiguousControlRequest
    (withRevalidatedAuthority (call (.recordGracefulControl drainGeneration "accepted")) false) with
  | none => return some identityChanged
  | some graceful =>
    if graceful.result = "rollback_permitted" then
      if !(← rollbackDrain drainGeneration) then return some drainRecoveryFailed
      return some (← rolledBack session)
    let advanced ← call (.advanceControlAttempt attempt .gracefulAccepted)
    modifyLocals ({ · with controlAttempt := advanced })
    return none

/-- The polls of `#waitForExactExit`. -/
def pollExit (process : ProcessIdentity) : ℕ → ControlM Bool
  | 0 => return false
  | polls + 1 => do
    match ← call (.observe process.pid) with
    | .dead => return true
    | .alive startToken =>
      if startToken ≠ process.processStartToken then return false
      call (.sleep 25)
      pollExit process polls
    | .ambiguous => return false

def waitForExactExit (process : ProcessIdentity) (timeoutMs : ℤ) : ControlM Bool := do
  match (← call .locals).control with
  | some control =>
    if !(← call (.waitForExit control timeoutMs)) then return false
    return (← call (.observe process.pid)) = .dead
  | none => pollExit process (max 1 ((timeoutMs + 24) / 25)).toNat

/-- `LOCAL_OWNED_GRACEFUL_EXIT_WAIT_MS`. -/
def gracefulExitWaitMs : ℤ := 2000

def authorizeHardSignal (session : ControlSession) (drainGeneration : ℤ) :
    ControlM (Option ControlResult) := do
  match ← abortBeforeHardCommit drainGeneration with
  | some result => return some result
  | none =>
    match ← retryAmbiguousControlRequest
      (withRevalidatedAuthority (call (.recordGracefulControl drainGeneration "timeout"))
        false) with
    | none => return some identityChanged
    | some authorization =>
      if authorization.result = "rollback_permitted" then
        if !(← rollbackDrain drainGeneration) then return some drainRecoveryFailed
        return some (← rolledBack session)
      if authorization.result ≠ "hard_signal_decision_pending" ∨ !authorization.signalPermitted then
        throw (.thrown "hard signal authorization unavailable")
      let attempt := (← call .locals).controlAttempt
      let advanced ← call (.advanceControlAttempt attempt .hardSignalPending)
      modifyLocals ({ · with controlAttempt := advanced })
      return none

/-- The preparation of a hard signal: the authorization, or `none` after a rollback. -/
def prepareHardSignal (session : ControlSession) (drainGeneration : ℤ) :
    ControlM (Option (Option String)) :=
  withRevalidatedAuthority
    (do
      if (← call .locals).control.isNone then
        let found ← call (.controlFor session.recorded true)
        modifyLocals ({ · with control := found })
      if (← call .locals).control.isNone then
        retryAmbiguousControlRequest (call (.rollbackDrain drainGeneration))
        return none
      return some (← retryAmbiguousControlRequest
        (call (.prepareHardSignal drainGeneration session.recorded))))
    false

def requestPermit (session : ControlSession) (drainGeneration : ℤ) (authorizationId : String) :
    ControlM HardSignalPermitResponse :=
  tryCatch
    (retryAmbiguousControlRequest
      (call (.commitHardSignal drainGeneration authorizationId session.recorded)))
    fun error => do
      if error.isAuthorizationExpired then modifyLocals ({ · with hardDecisionRecorded := false })
      throw error

def commitHardSignal (session : ControlSession) (drainGeneration : ℤ) (authorizationId : String)
    (signalControl : ProcessIdentity) : ControlM (Option Unit) :=
  withRevalidatedAuthority
    (do
      let permit ← requestPermit session drainGeneration authorizationId
      if permit.authorizationId ≠ authorizationId then
        throw (.thrown "hard signal commit authorization mismatch")
      let immediateObservation ← call (.observe session.record.pid)
      if immediateObservation ≠ .alive session.record.osProcessStartToken then
        if immediateObservation ≠ .dead then
          throw (.thrown "process identity changed after hard signal commit")
        retryAmbiguousControlRequest
          (call (.recordHardSignalOutcome drainGeneration permit.authorizationId "process_exited"))
      else
        let outcome ← call (.sendHardSignal signalControl permit.expiresAtUnix)
        if outcome = "authorization_expired" ∨ outcome = "abandoned" then
          throw (.thrown "hard signal permit became unusable after commit")
        retryAmbiguousControlRequest
          (call (.recordHardSignalOutcome drainGeneration permit.authorizationId outcome)))
    false

/-- The end of a stop whose process has exited. -/
def finishStop (session : ControlSession) (exited : Bool) : ControlM ControlResult := do
  if !exited then return drainRecoveryFailed
  if !(← call .retireObservedExit) then return drainRecoveryFailed
  unplan
  call .dropContext
  if session.operation = .stop then call (.transition .stopped)
  return .stopped

/-- The hard signal, for a phase in which it is pending. -/
def hardSignal (session : ControlSession) (drainGeneration : ℤ) : ControlM ControlResult :=
  orReturn (abortBeforeHardCommit drainGeneration) do
    match ← prepareHardSignal session drainGeneration with
    | none => return identityChanged
    | some none => rolledBack session
    | some (some authorizationId) =>
      orReturn (abortBeforeHardCommit drainGeneration) do
        let attempt := (← call .locals).controlAttempt
        if attempt.phase.isHardSignalPending then
          let advanced ← call (.advanceControlAttempt attempt .hardSignalCommitPending)
          modifyLocals ({ · with controlAttempt := advanced })
        match (← call .locals).control with
        | none => throw (.thrown "hard signal process control unavailable after preparation")
        | some signalControl =>
          modifyLocals ({ · with hardDecisionRecorded := true })
          match ← commitHardSignal session drainGeneration authorizationId signalControl with
          | none => return identityChanged
          | some () =>
            let exited ← waitForExactExit session.recorded session.requestTimeoutMs
            finishStop session exited

/-- What `hardSignal` does once its commit is in the file. -/
def sendHardSignal (session : ControlSession) (drainGeneration : ℤ) (authorizationId : String) :
    ControlM ControlResult := do
  match (← call .locals).control with
  | none => throw (.thrown "hard signal process control unavailable after preparation")
  | some signalControl =>
    modifyLocals ({ · with hardDecisionRecorded := true })
    match ← commitHardSignal session drainGeneration authorizationId signalControl with
    | none => return identityChanged
    | some () =>
      let exited ← waitForExactExit session.recorded session.requestTimeoutMs
      finishStop session exited

/-- The stop from the graceful request on. -/
def exitOrSignal (session : ControlSession) (drainGeneration : ℤ) : ControlM ControlResult := do
  let phase := (← call .locals).controlAttempt.phase
  if phase.isHardSignalPending || phase.isCommitPending then hardSignal session drainGeneration
  else
    let exited ← waitForExactExit session.recorded
      (min session.requestTimeoutMs gracefulExitWaitMs)
    if exited then finishStop session true
    else orReturn (authorizeHardSignal session drainGeneration) (hardSignal session drainGeneration)

/-- The stop from the drain on. -/
def stopDrained (session : ControlSession) : ControlM ControlResult := do
  match (← call .locals).drainGeneration with
  | none => throw (.thrown "durable control drain generation is unavailable")
  | some drainGeneration =>
    call (.transition (if session.operation = .restart then .restartStopping else .stopping))
    if (← call .locals).control.isSome then call (.setPlanned true)
    orReturn (abortBeforeHardCommit drainGeneration) <|
      orReturn (checkOwner session drainGeneration) <|
        orReturn (requestGraceful session drainGeneration) <|
          orReturn (abortBeforeHardCommit drainGeneration) (exitOrSignal session drainGeneration)

/-- The `try` block. -/
def tryStop (session : ControlSession) (admissionEpoch : ℤ) : ControlM ControlResult := do
  match (← call .locals).controlAttempt.phase.drainGeneration with
  | some drainGeneration =>
    modifyLocals ({ · with drainGeneration := some drainGeneration })
    stopDrained session
  | none => orReturn (beginDrain session admissionEpoch 2) (stopDrained session)

/-- The `catch` block. -/
def catchStop (session : ControlSession) (error : ControlError) : ControlM ControlResult := do
  let locals ← call .locals
  match locals.drainGeneration with
  | some drainGeneration =>
    if !locals.hardDecisionRecorded &&
        (!locals.controlAttempt.phase.isCommitPending || error.isAuthorizationExpired) then
      if !(← rollbackDrain drainGeneration) then return drainRecoveryFailed
      clearControlAttempt'
      if error.isAuthorizationExpired then
        unplan
        rollbackResult session
      else
        unplan
        return .mapped error
    else
      unplan
      return .mapped error
  | none =>
    unplan
    return .mapped error

/-- The stop of an established context, before the control attempt is known and after. -/
def stopSession (session : ControlSession) (process : Option ProcessIdentity) :
    ControlM ControlResult := do
  let control ← match process with
    | some process => pure (some process)
    | none => call (.controlFor session.recorded false)
  call (.transition .draining)
  let admissionEpoch ← call .renewClient
  let controlAttempt ← call (.prepareControlAttempt session.fresh session.operation admissionEpoch)
  call (.assign ⟨control, none, false, controlAttempt⟩)
  tryCatch (tryStop session admissionEpoch) (catchStop session)

def controlledStop (platform : Platform) (requestTimeoutMs : ℤ)
    (requester : ControlAttemptRequester) (context : ReadyContext) (restart : Bool) :
    ControlM ControlResult :=
  match context.ownerCredential, context.ownerGeneration, context.record with
  | some _, some ownerGeneration, some record =>
    let operation := if restart then ControlOperation.restart else .stop
    stopSession
      { record := record
        ownerGeneration := ownerGeneration
        exitPolicy := context.effectiveExitPolicy.getD record.ownerExitPolicy
        requestTimeoutMs := requestTimeoutMs
        fresh := fun now admissionEpoch controlRequestId =>
          newControlAttempt platform ⟨"", "", now⟩ (endpointKey platform record.normalizedEndpoint)
            record operation controlRequestId { requester with admissionEpoch := admissionEpoch }
        fresh_phase := fun _ _ _ => rfl
        operation := operation }
      context.process
  | _, _, _ => return .failure .ownershipConflict "ownership_conflict"

end BreadboardTui
