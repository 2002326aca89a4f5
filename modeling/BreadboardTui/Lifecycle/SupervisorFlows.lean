import BreadboardTui.Lifecycle.Supervisor

/-!
# The operations of the supervisor

`connect`, `start`, `status`, `stop`, `restart`, `close` and the recovery of a child that has died,
with every call of `transition`.

The loops and the recursion of the connect flows are bounded by `rounds`; a flow that has used it up
never comes back.
-/

namespace BreadboardTui

namespace Supervisor

open Effects

def lifecycleFailure (state : LifecycleStateName) (code : String) : SupervisorM ControlResult :=
  pure (.failure state code)

/-- A loop that goes on. -/
def neverBack {α : Type} : SupervisorM α := do
  let nothing ← Fiber.call SupervisorCall.never
  nothing.elim

def observe : SupervisorM ProcessSight := do
  match ← Fiber.call SupervisorCall.observe with
  | .ok sight => pure sight
  | .error error => throw error

def isRetryableTransport (s : SupervisorState) (error : ControlError) : Bool :=
  !s.aborted && (error == .client .timeout || error == .client (.http 0))

/-- `connecting`, `handshaking`, and the handshake. -/
def connectAndShake : SupervisorM Unit := do
  transition .connecting
  transition .handshaking
  let _ ← step .handshake

/-- `withReconnect`, with the attempts that are left. -/
def withReconnect : ℕ → SupervisorM Unit
  | 0 => connectAndShake
  | n + 1 => tryCatch connectAndShake fun error => do
    let s ← Fiber.get
    if isRetryableTransport s error then
      transition .reconnecting
      let _ ← step .sleep
      withReconnect n
    else throw error

/-- `register`, up to the context that it returns. -/
def register : SupervisorM ReadyContext := do
  transition .registeringClient
  match ← Fiber.call SupervisorCall.registerClient with
  | .ok context => pure context
  | .error error => throw error

/-- `readyResult` of a new context, and `#monitorOwnedChild`. Its process is not planned. -/
def readyResult (context : ReadyContext) : SupervisorM ControlResult := do
  Fiber.modify fun s =>
    { s with
      context := context
      generation := s.generation + 1
      world := { s.world with planned := false } }
  match ← performOwn .ready with
  | .ok () => pure .ready
  | .error error => throw error

def restartAfterConfirmedDeath (connect : SupervisorM ControlResult) :
    SupervisorM ControlResult := do
  let s ← Fiber.get
  let recent := s.restartStarts.dropWhile fun start => 60000 ≤ s.now - start
  if 3 ≤ recent.length then
    Fiber.modify fun s => { s with restartStarts := recent }
    lifecycleFailure .failed "restart_budget_exhausted"
  else
    Fiber.modify fun s => { s with restartStarts := recent ++ [s.now] }
    transition .backingOff
    let _ ← step .sleep
    connect

/-- `#recoverStartupDeath` and `#recoverCommittedStartupDeath`. -/
def recoverStartupDeath (connect : SupervisorM ControlResult) : SupervisorM ControlResult := do
  if ← step .retireDead then restartAfterConfirmedDeath connect
  else lifecycleFailure .recoveryNeeded "endpoint_unreachable"

def abortUnspawnedStart : SupervisorM ControlResult := do
  let _ ← step .abortUnspawnedStart
  lifecycleFailure .requestAborted "request_aborted"

/-- What the handshakes of a start have come to. -/
inductive StartShake where
  | bound
  | unreachable
  | exited
  | returned (result : ControlResult)

/-- The handshakes of a start, against the exit of the child. -/
def shakeStart : ℕ → SupervisorM StartShake
  | 0 => pure .unreachable
  | n + 1 => do
    if !(← step .beforeDeadline) then pure .unreachable
    else
      transition .connecting
      transition .handshaking
      -- `Promise.race` of the handshake and `child.exited`: `false` is the exit.
      match ← (step .handshake).attempt with
      | .ok true => pure .bound
      | .ok false => pure .exited
      | .error error =>
        let s ← Fiber.get
        if s.aborted then
          pure (.returned (.failure .requestAborted "request_aborted"))
        else if !isRetryableTransport s error then pure (.returned (.mapped error))
        else if n = 0 then pure .unreachable
        else
          transition .reconnecting
          let _ ← step .sleep
          shakeStart n

/-- The polls of a child that cannot be told yet. -/
def pollChild : ℕ → ProcessSight → SupervisorM ProcessSight
  | n + 1, .ambiguous => do
    if !(← step .beforeDeadline) then pure .ambiguous
    else if ← step .waitForExit then pure .dead
    else
      let sight ← observe
      pollChild n sight
  | 0, .ambiguous => neverBack
  | _, sight => pure sight

/-- A registration that is given up where the signal has been aborted or the child has exited. -/
def registerStarted (connect : SupervisorM ControlResult) : SupervisorM ControlResult := do
  match ← register.attempt with
  | .error error =>
    let s ← Fiber.get
    if s.aborted then lifecycleFailure .requestAborted "request_aborted"
    else if ← step .waitForExit then recoverStartupDeath connect
    else pure (.mapped error)
  | .ok context =>
    if ← step .waitForExit then recoverStartupDeath connect else readyResult context

/-- `#coldStartWithCredentials`, from the owner on. -/
def ownStarted (connect : SupervisorM ControlResult) : SupervisorM ControlResult := do
  let _ ← step .markOwnerAttempt
  transition .acquiringOwner
  match ← (step .acquireOwner).attempt with
  | .error error =>
    let s ← Fiber.get
    if s.aborted then lifecycleFailure .requestAborted "request_aborted" else pure (.mapped error)
  | .ok _ =>
    match ← (step .commit).attempt with
    | .error error => pure (.mapped error)
    | .ok _ =>
      let s ← Fiber.get
      if s.aborted then lifecycleFailure .requestAborted "request_aborted"
      else registerStarted connect

/-- `#coldStartWithCredentials`, from the spawned child on. -/
def startSpawned (connect : SupervisorM ControlResult) : SupervisorM ControlResult := do
  let s ← Fiber.get
  let sight ← pollChild s.rounds (← observe)
  match sight with
  | .dead => recoverStartupDeath connect
  | .other | .ambiguous => lifecycleFailure .failed "process_identity_unavailable"
  | .asRecorded =>
    match ← shakeStart 5 with
    | .exited => recoverStartupDeath connect
    | .returned result => pure result
    | .unreachable => lifecycleFailure .failed "endpoint_unreachable"
    | .bound =>
      if (← observe) ≠ .asRecorded then lifecycleFailure .identityChanged "identity_changed"
      else if !(← step .bindingMatches) then lifecycleFailure .identityChanged "identity_changed"
      else ownStarted connect

def coldStart (connect : SupervisorM ControlResult) (restart : Bool) :
    SupervisorM ControlResult := do
  transition (if restart then .restartStarting else .starting)
  let s ← Fiber.get
  if s.aborted then abortUnspawnedStart
  else
    let _ ← step .prepareStartClaim
    let s ← Fiber.get
    if s.aborted then abortUnspawnedStart
    else
      match ← (step .spawnVerified).attempt with
      | .ok true => startSpawned connect
      | .ok false =>
        let _ ← step .releaseStartClaim
        restartAfterConfirmedDeath connect
      | .error error =>
        let _ ← step .releaseStartClaim
        pure (.mapped error)

/-- The polls of a process without a handle. -/
def pollDead : ℕ → SupervisorM Bool
  | 0 => neverBack
  | n + 1 => do
    match ← observe with
    | .dead => pure true
    | .asRecorded =>
      if ← step .beforeDeadline then
        let _ ← step .sleep
        pollDead n
      else pure false
    | _ => pure false

/-- `#resumePendingStart`, from the binding on. -/
def resumeBound : SupervisorM ControlResult := do
  if !(← step .bindingMatches) then lifecycleFailure .identityChanged "identity_changed"
  else
    transition .acquiringOwner
    let _ ← step .acquireOwner
    let _ ← step .commit
    match ← register.attempt with
    | .error error =>
      let s ← Fiber.get
      if s.aborted then lifecycleFailure .requestAborted "request_aborted" else throw error
    | .ok context =>
      let s ← Fiber.get
      if s.aborted then lifecycleFailure .requestAborted "request_aborted"
      else readyResult context

/-- `#resumePendingStart`; `bound` is whether a handshake has been made before. -/
def resumePendingStart (connect : SupervisorM ControlResult) (bound : Bool) :
    SupervisorM ControlResult := do
  let s ← Fiber.get
  if s.aborted then lifecycleFailure .requestAborted "request_aborted"
  else if !(← step .claimMatchesArtifact) then
    lifecycleFailure .identityChanged "identity_changed"
  else if !(← step .controlFor) then
    if ← pollDead s.rounds then recoverStartupDeath connect
    else lifecycleFailure .identityChanged "process_identity_unavailable"
  else
    let _ ← step .readSecret
    if bound then resumeBound
    else
      match ← (withReconnect 3).attempt with
      | .ok () => resumeBound
      | .error error =>
        if (← observe) = .dead then recoverStartupDeath connect else throw error

/-- The start that replaces a claim without a process. -/
def replaceUnbound (connect : SupervisorM ControlResult) : SupervisorM ControlResult := do
  if ← step .claimReplacement then coldStart connect false
  else lifecycleFailure .recoveryNeeded "endpoint_unreachable"

/-- The loop of `#resumeUnboundPendingStart`. -/
def resumeUnbound (connect : SupervisorM ControlResult) : ℕ → SupervisorM ControlResult
  | 0 => neverBack
  | n + 1 => do
    if !(← step .beforeDeadline) then replaceUnbound connect
    else
      let s ← Fiber.get
      if s.aborted then lifecycleFailure .requestAborted "request_aborted"
      else
        match ← connectAndShake.attempt with
        | .error error =>
          let s ← Fiber.get
          if !isRetryableTransport s error then pure (.mapped error)
          else
            transition .reconnecting
            if !(← step .beforeDeadline) then replaceUnbound connect
            else
              let _ ← step .sleep
              resumeUnbound connect n
        | .ok () =>
          if !(← step .bindingMatches) then lifecycleFailure .identityChanged "identity_changed"
          else if (← observe) ≠ .asRecorded then
            lifecycleFailure .recoveryNeeded "process_identity_unavailable"
          else
            let _ ← step .bindStartClaimProcess
            resumePendingStart connect true

def resumeUnboundPendingStart (connect : SupervisorM ControlResult) :
    SupervisorM ControlResult := do
  if !(← step .claimMatchesArtifact) then lifecycleFailure .identityChanged "identity_changed"
  else
    let s ← Fiber.get
    resumeUnbound connect s.rounds

/-- `#adoptOrRecover`, from the handle of the process on. -/
def adopt : SupervisorM ControlResult := do
  withReconnect 3
  if !(← step .bindingMatches) then lifecycleFailure .identityChanged "identity_changed"
  else if !(← step .controlFor) then
    lifecycleFailure .identityChanged "process_identity_unavailable"
  else
    let _ ← step .readSecret
    transition .acquiringOwner
    let _ ← step .acquireOwner
    let _ ← step .commit
    let context ← register
    readyResult context

def adoptOrRecover (connect : SupervisorM ControlResult) (recoverDead : Bool) :
    SupervisorM ControlResult := do
  if !(← step .recordMatchesConfig) then lifecycleFailure .identityChanged "identity_changed"
  else
    match ← observe with
    | .dead =>
      if !recoverDead then pure .stopped
      else if ← step .retireDead then connect
      else lifecycleFailure .recoveryNeeded "endpoint_unreachable"
    | .asRecorded => adopt
    | _ => lifecycleFailure .identityChanged "identity_changed"

/-- The loop of `#connectAttempt`. -/
def decideStart (connect : SupervisorM ControlResult) : ℕ → SupervisorM ControlResult
  | 0 => neverBack
  | n + 1 => do
    if !(← step .beforeDeadline) then lifecycleFailure .failed "endpoint_unreachable"
    else
      let s ← Fiber.get
      if s.aborted then lifecycleFailure .requestAborted "request_aborted"
      else
        match ← Fiber.call SupervisorCall.decideStart with
        | .error error => throw error
        | .ok .record => adoptOrRecover connect true
        | .ok .recoverable => resumePendingStart connect false
        | .ok .unbound => resumeUnboundPendingStart connect
        | .ok .deadBound => lifecycleFailure .recoveryNeeded "endpoint_unreachable"
        | .ok .occupied =>
          let _ ← step .sleep
          decideStart connect n
        | .ok .claimed => coldStart connect false

/-- `#connectAttempt`. The recursion goes through the recovery of a dead start. -/
def connectAttempt : ℕ → SupervisorM ControlResult
  | 0 => neverBack
  | n + 1 => do
    let s ← Fiber.get
    if s.held then pure .ready
    else
      tryCatch (do
        transition .claiming
        decideStart (connectAttempt n) s.rounds) fun error => pure (.mapped error)

/-! ### Operations -/

def connect : SupervisorM ControlResult := do
  let s ← Fiber.get
  connectAttempt s.rounds

/-- `status`; nothing where it is `observed`. -/
def status : SupervisorM (Option ControlResult) := do
  let s ← Fiber.get
  if s.held then pure none
  else
    tryCatch (do
      if !(← step .probeCurrent) then pure (some .stopped)
      else if !(← step .recordMatchesConfig) then
        pure (some (.failure .identityChanged "identity_changed"))
      else
        match ← observe with
        | .dead => pure (some .stopped)
        | .asRecorded =>
          connectAndShake
          if ← step .bindingMatches then
            transition .compatibleObserved
            pure none
          else pure (some (.failure .identityChanged "identity_changed"))
        | _ => pure (some (.failure .identityChanged "identity_changed")))
      fun error => pure (some (.mapped error))

section Config

variable (config : SupervisorConfig)

/-- A flow takes over the state. -/
def enter (entry : FlowEntry) : SupervisorM Unit :=
  Fiber.modify fun s => { s with entries := entry :: s.entries }

/-- `#controlledStop` of the context that is held. -/
def stopContext (restart : Bool) : SupervisorM ControlResult := do
  enter .controlledStop
  let s ← Fiber.get
  runControl (controlledStop config.platform config.requestTimeoutMs config.requester s.context
    restart)

/-- What `stop` does without a context, up to the context it adopts. -/
def adoptForStop : SupervisorM ControlResult := do
  if !(← step .probeCurrent) then pure .stopped
  else if !(← step .recordMatchesConfig) then
    lifecycleFailure .identityChanged "identity_changed"
  else
    match ← observe with
    | .dead =>
      match ← (step .retireDead).attempt with
      | .ok true => pure .stopped
      | .ok false => lifecycleFailure .recoveryNeeded "endpoint_unreachable"
      | .error error => pure (.mapped error)
    | _ => adoptOrRecover neverBack false

def stop (consumerClosed : Bool) : SupervisorM ControlResult := do
  if !consumerClosed then lifecycleFailure .restartBlocked "drain_denied"
  else
    let s ← Fiber.get
    if s.held then stopContext config false
    else
      let adopted ← adoptForStop
      if adopted = .ready then stopContext config false else pure adopted

/-- The end of `restart`. -/
def restartContext : SupervisorM ControlResult := do
  let result ← stopContext config true
  if result ≠ .stopped then pure result
  else
    match ← Fiber.call SupervisorCall.decideStart with
    | .error error => throw error
    | .ok .claimed =>
      let s ← Fiber.get
      coldStart (connectAttempt s.rounds) true
    | .ok _ => lifecycleFailure .restartBlocked "drain_denied"

def restart (consumerClosed : Bool) : SupervisorM ControlResult := do
  if !consumerClosed then lifecycleFailure .restartBlocked "drain_denied"
  else
    let s ← Fiber.get
    if s.held then restartContext config
    else
      match ← Fiber.call SupervisorCall.decideStart with
      | .error error => throw error
      | .ok .claimed =>
        enter .restartStart
        let s ← Fiber.get
        coldStart (connectAttempt s.rounds) true
      | .ok _ =>
        let connected ← connect
        if connected ≠ .ready then pure connected
        else
          let s ← Fiber.get
          if s.held then restartContext config
          else lifecycleFailure .failed "endpoint_unreachable"

def clearDetachedClose : SupervisorM Unit :=
  Fiber.modify fun s => { s.dropContext with detachedClosePhase := none }

/-- The `try` block of a `close` that detaches. -/
def finishClose : SupervisorM ControlResult := do
  let s ← Fiber.get
  if s.detachedClosePhase = some .detachPending then
    let _ ← step .detachClient
    Fiber.modify fun s => { s with detachedClosePhase := some .releasePending }
  else pure ()
  if !(← step .releaseOwner) then
    clearDetachedClose
    lifecycleFailure .identityChanged "identity_changed"
  else
    clearDetachedClose
    transition .detached
    pure .detached

/-- A `close` that detaches. -/
def closeDetached : SupervisorM ControlResult := do
  let s ← Fiber.get
  if s.detachedClosePhase.isNone then
    enter .detachedClose
    transition .detachingClient
    Fiber.modify fun s => { s with detachedClosePhase := some .detachPending }
  else enter .detachedCloseAgain
  tryCatch finishClose fun error => do
    if error.isAmbiguous then pure () else clearDetachedClose
    pure (.mapped error)

def close (consumerClosed : Bool) : SupervisorM ControlResult := do
  let s ← Fiber.get
  if s.exitPolicy config ≠ some .detached then stop config consumerClosed
  else if !s.held || s.context.ownerCredential.isNone || s.context.ownerGeneration.isNone then
    lifecycleFailure .failed "endpoint_unreachable"
  else closeDetached

/-! ### Tasks -/

/-- A flow from its first step to its last. -/
def underWay {α : Type} (task : ℕ) (body : SupervisorM α) : SupervisorM Unit := do
  Fiber.modify fun s => { s with busy := some task }
  let _ ← body.attempt
  Fiber.modify fun s => { s with busy := none }

/-- An operation is called after the one before it has settled. -/
def operation (body : SupervisorM Unit) : SupervisorM Unit := do
  let _ ← Fiber.call SupervisorCall.turn
  Fiber.modify fun s => { s with operating := true }
  body
  Fiber.modify fun s => { s with operating := false }

/-- An operation behind `await this.#settleChildRecovery()`. -/
def settled {α : Type} (task : ℕ) (body : SupervisorM α) : SupervisorM Unit :=
  operation do
    let _ ← Fiber.call SupervisorCall.childRecovery
    underWay task body

/-- The recovery of a child that has died, from where its context is dropped. -/
def recoverChild (task : ℕ) : SupervisorM Unit := do
  Fiber.modify fun s => { s.dropContext with childRecovery := true }
  let s ← Fiber.get
  underWay task (restartAfterConfirmedDeath (connectAttempt s.rounds))
  Fiber.modify fun s => { s with childRecovery := false }

/-- What `#monitorOwnedChild` does about an exit. -/
def childExit (task generation : ℕ) (failed : Bool) : SupervisorM Unit := do
  let s ← Fiber.get
  if s.world.planned || !s.held || s.generation ≠ generation then pure ()
  else if failed || !config.restartOnUnexpectedChildExit then
    Fiber.modify SupervisorState.dropContext
  else recoverChild task

def jobBody (task : ℕ) : SupervisorJob → SupervisorM Unit
  | .connect | .start => operation (underWay task connect)
  | .status => operation (underWay task status)
  | .stop consumerClosed => settled task (stop config consumerClosed)
  | .restart consumerClosed => settled task (restart config consumerClosed)
  | .close consumerClosed => settled task (close config consumerClosed)
  | .childExit generation failed => childExit config task generation failed

/-- The supervisor in its environment. -/
def machine : Machine SupervisorState SupervisorJob SupervisorCall.Reply SupervisorChoice
    SupervisorEvent ControlError where
  body job task := jobBody config task job
  reply c choice s := c.reply s choice
  admits _ := true
  happen event s := some (event.happen s)

end Config

end Supervisor

end BreadboardTui
