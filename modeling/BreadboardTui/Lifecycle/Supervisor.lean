import BreadboardTui.Lib.Tasks
import BreadboardTui.Lifecycle.ControlWorld

/-!
# The local-owned supervisor

The fields of `LocalOwnedModeStrategy` and what it awaits. Its operations are tasks over these
fields; the store, the process adapter and the engine are the environment's, which decides every
answer. A controlled stop is the program of `ControlledStop`, run inside such a task.

`illegal` notes that `transition` has been called with a state that the table does not allow. The
flows that start from whatever state an earlier one has left are noted in `entries`.
-/

namespace BreadboardTui

open Effects

/-- The phases of a `close` that detaches. -/
inductive DetachedClosePhase where
  | detachPending
  | releasePending
  deriving DecidableEq, Repr

/-- The flows that take over the state as they find it. -/
inductive FlowEntry where
  | controlledStop
  /-- The start of a `restart` without a context. -/
  | restartStart
  | detachedClose
  /-- A `close` that detaches, called again. -/
  | detachedCloseAgain
  deriving DecidableEq, Repr

/-- The configuration, as far as the transitions depend on it. -/
structure SupervisorConfig where
  platform : Platform
  requestTimeoutMs : ℤ
  requester : ControlAttemptRequester
  ownerExitPolicy : Option OwnerExitPolicy
  restartOnUnexpectedChildExit : Bool

/-- The fields of the supervisor. -/
structure SupervisorState where
  /-- The current state, whether a context is held, the planned processes, the control file. -/
  world : ControlWorld
  /-- The context that is held, or was held last. -/
  context : ReadyContext
  /-- How often a context has been established. -/
  generation : ℕ
  aborted : Bool
  /-- Whether a caller waits for an operation. -/
  operating : Bool
  /-- The task of the operation or the recovery that is under way. -/
  busy : Option ℕ
  /-- Whether `#childRecoveryPromise` is set. -/
  childRecovery : Bool
  detachedClosePhase : Option DetachedClosePhase
  restartStarts : List ℤ
  now : ℤ
  /-- A bound on the rounds of the loops. -/
  rounds : ℕ
  /-- How often the renewal of the lease has taken the context away. -/
  leaseFailures : ℕ
  entries : List FlowEntry
  illegal : Bool

/-! ### Calls -/

/-- What the locked decision of a start has found. -/
inductive StartDecision where
  | record
  | recoverable
  | unbound
  | deadBound
  | occupied
  | claimed
  deriving DecidableEq, Repr

/-- A process, as it is observed and compared with what is recorded about it. -/
inductive ProcessSight where
  | asRecorded
  | other
  | dead
  | ambiguous
  deriving DecidableEq, Repr

/-- The awaited steps that succeed, fail or answer a question. -/
inductive SupervisorStep where
  /-- `clock.now() < deadline`, `signal.aborted` apart: whether time is left. -/
  | beforeDeadline
  | recordMatchesConfig
  | claimMatchesArtifact
  | bindingMatches
  | sleep
  | handshake
  | abortUnspawnedStart
  | prepareStartClaim
  | spawnVerified
  | releaseStartClaim
  | waitForExit
  | markOwnerAttempt
  | acquireOwner
  | commit
  | controlFor
  | readSecret
  | bindStartClaimProcess
  | claimReplacement
  | retireDead
  | probeCurrent
  | detachClient
  | releaseOwner
  deriving DecidableEq, Repr

/-- What the supervisor awaits. -/
inductive SupervisorCall where
  | control (op : ControlCall)
  | decideStart
  | observe
  | step (step : SupervisorStep)
  /-- `client.registerClient`, with the context that is made of it. -/
  | registerClient
  /-- The operation before this one. -/
  | turn
  /-- `this.#childRecoveryPromise`. -/
  | childRecovery
  | never

abbrev SupervisorCall.Reply : SupervisorCall → Type
  | control _ => ControlChoice
  | decideStart => Except ControlError StartDecision
  | observe => Except ControlError ProcessSight
  | step _ => Except ControlError Bool
  | registerClient => Except ControlError ReadyContext
  | turn | childRecovery => Unit
  | never => Empty

/-- The environment's part in answering a call. -/
structure SupervisorChoice where
  control : ControlChoice
  failure : Option ControlError
  decision : StartDecision
  sight : ProcessSight
  flag : Bool
  context : ReadyContext

def SupervisorChoice.answer {α : Type} (choice : SupervisorChoice) (value : α) :
    Except ControlError α :=
  match choice.failure with
  | none => .ok value
  | some error => .error error

/-- How the calls are answered. The lease is renewed on its own. -/
def SupervisorCall.reply (s : SupervisorState) :
    (c : SupervisorCall) → SupervisorChoice → Option c.Reply
  | control _, choice => some { choice.control with lease := none }
  | decideStart, choice => some (choice.answer choice.decision)
  | observe, choice => some (choice.answer choice.sight)
  | step _, choice => some (choice.answer choice.flag)
  | registerClient, choice => some (choice.answer choice.context)
  | turn, _ => if s.operating then none else some ()
  | childRecovery, _ => if s.childRecovery then none else some ()
  | never, _ => none

/-- The operations, and what arrives on its own. -/
inductive SupervisorJob where
  | connect
  | start
  | status
  | stop (consumerClosed : Bool)
  | restart (consumerClosed : Bool)
  | close (consumerClosed : Bool)
  /-- The exit of the process of a context is noticed, or the wait for it fails. -/
  | childExit (generation : ℕ) (failed : Bool)

/-- What happens from outside. -/
inductive SupervisorEvent where
  /-- The renewal of the lease of a context fails, with the state that the failure is mapped to. -/
  | leaseFailure (generation : ℕ) (state : LifecycleStateName)
  | abort
  | tick (now : ℤ)

/-- The functions of the supervisor. -/
abbrev SupervisorM := Fiber SupervisorState SupervisorJob SupervisorCall.Reply ControlError

namespace SupervisorState

variable (s : SupervisorState)

/-- `this.context !== undefined`. -/
def held : Bool := s.world.contextHeld

def dropContext : SupervisorState := { s with world := { s.world with contextHeld := false } }

/-- The `catch` of the lease renewal of a context. -/
def leaseFailure (generation : ℕ) (state : LifecycleStateName) : SupervisorState :=
  if s.held && s.generation == generation then
    { s with
      world := { s.world with currentState := some state, contextHeld := false }
      leaseFailures := s.leaseFailures + 1 }
  else s

/-- `effectiveExitPolicy ?? record?.ownerExitPolicy` of the context, else of the configuration. -/
def exitPolicy (config : SupervisorConfig) : Option OwnerExitPolicy :=
  if s.held then
    (s.context.effectiveExitPolicy <|> s.context.record.map (·.ownerExitPolicy)) <|>
      config.ownerExitPolicy
  else config.ownerExitPolicy

end SupervisorState

def SupervisorEvent.happen (s : SupervisorState) : SupervisorEvent → SupervisorState
  | leaseFailure generation state => s.leaseFailure generation state
  | abort => { s with aborted := true }
  | tick now => { s with now := now }

/-! ### Calls of a controlled stop -/

/-- The table allows what a call does. -/
def ControlCall.legal (w : ControlWorld) : ControlCall → Bool
  | transition name => transitionAllowed w.currentState name
  | ready => transitionAllowed w.currentState .ready
  | _ => true

/-- The calls that leave the supervisor. -/
def ControlCall.isAwaited : ControlCall → Bool
  | transition _ | ready | dropContext | aborted | setPlanned _ | locals | assign _ => false
  | _ => true

namespace Supervisor

/-- What a call that is not awaited is answered. -/
def ownChoice (aborted : Bool) : ControlChoice :=
  ⟨none, 0, none, aborted, 0, "", .ambiguous⟩

/-- A call under the choice that the environment has made. -/
def performWith (op : ControlCall) (c : ControlChoice) : SupervisorM op.Answer := do
  let s ← Fiber.get
  Fiber.modify fun s =>
    { s with world := (op.perform c s.world).2, illegal := s.illegal || !op.legal s.world }
  pure (op.perform c s.world).1

/-- A call that the supervisor answers itself. -/
def performOwn (op : ControlCall) : SupervisorM op.Answer := do
  let s ← Fiber.get
  performWith op (ownChoice s.aborted)

def transition (name : LifecycleStateName) : SupervisorM Unit := do
  match ← performOwn (.transition name) with
  | .ok () => pure ()
  | .error error => throw error

/-- An awaited step, with its failure thrown. -/
def step (step : SupervisorStep) : SupervisorM Bool := do
  match ← Fiber.call (SupervisorCall.step step) with
  | .ok flag => pure flag
  | .error error => throw error

def detach : SupervisorM ControlResult := do
  let s ← Fiber.get
  if !s.held then pure (.failure .failed "endpoint_unreachable")
  else
    transition .detachingClient
    let result : SupervisorM ControlResult :=
      tryCatch (do
        let _ ← step .detachClient
        transition .detached
        pure .detached) fun error => pure (.mapped error)
    result.always (Fiber.modify SupervisorState.dropContext)

/-- One call of a controlled stop. -/
def perform (op : ControlCall) : SupervisorM op.Answer :=
  match op with
  | .detach => detach.attempt
  | op =>
    if op.isAwaited then do
      let c ← Fiber.call (SupervisorCall.control op)
      performWith op c
    else performOwn op

/-- A part of a controlled stop, as a task of the supervisor. -/
def runControl {α : Type} : ControlM α → SupervisorM α
  | .ret r => .ret r
  | .request op next => (perform op).bind fun answer => runControl (next answer)

end Supervisor

end BreadboardTui
