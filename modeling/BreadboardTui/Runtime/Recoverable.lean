import BreadboardTui.Lib.Tasks
import BreadboardTui.Session.Binding

/-!
# The recoverable runtime

`createRecoverableBreadboardRuntime` keeps one runtime **generation** current. A stream that sees
the authority discontinuity of the current generation has it replaced: the generation is closed,
a new one is connected under the durable binding, activated, started and made current.

The variables of the closure are the fields of `RecoverableRuntime`, its functions are tasks over
them, and everything a generation does (closing, streaming, activating, failing, appending
bindings to the transcript) is the environment's. Generations are numbered in the order in which
`reconnect` returned them; the initial one has the number `0`.
-/

namespace BreadboardTui

open Effects

/-! ### The state -/

/-- What the outside tells about a promise. -/
inductive Settlement where
  | pending
  | fulfilled
  | rejected
  deriving DecidableEq, Repr

/-- The errors that pass through the runtime. -/
inductive RuntimeFailure where
  | error (message : String)
  | transition (error : BreadboardSessionTransitionError)
  | outside (message : String)
  deriving DecidableEq, Repr

/-- The types of the events of an assistant stream. -/
inductive AssistantEventType where
  | start
  | textStart
  | textDelta
  | textEnd
  | thinkingStart
  | thinkingDelta
  | thinkingEnd
  | imageEnd
  | toolcallStart
  | toolcallDelta
  | toolcallEnd
  | done
  | error
  deriving DecidableEq, Repr

/-- The stream that a caller of `stream` holds. -/
structure OuterStream where
  events : List AssistantEventType
  done : Bool
  failure : Option RuntimeFailure
  deriving DecidableEq, Repr

/-- One prepared runtime, as far as the recoverable runtime depends on it. -/
structure Generation where
  closeCalled : Bool
  /-- The branch of the transcript at the moment the promise of `close()` settled. -/
  closedAt : Option (List BreadboardSessionBindingEntry)
  /-- Whether that promise was fulfilled. -/
  closeSucceeded : Bool
  activated : Bool
  running : Bool
  lifecycleFailed : Bool
  authorityDiscontinuity : Bool

def Generation.prepared : Generation where
  closeCalled := false
  closedAt := none
  closeSucceeded := false
  activated := false
  running := false
  lifecycleFailed := false
  authorityDiscontinuity := false

/-- How far the body of a replacement promise has come. -/
inductive ReplacementStage where
  | retiring
  | reconnecting
  | closing (next : ℕ)
  | activating (next : ℕ)
  | fulfilled (next : ℕ)
  | rejected (error : RuntimeFailure)
  deriving DecidableEq, Repr

/-- The body has not ended. -/
def ReplacementStage.active : ReplacementStage → Bool
  | fulfilled _ | rejected _ => false
  | _ => true

/-- The generation that `reconnect` has returned to the body and that is not current yet. -/
def ReplacementStage.held : ReplacementStage → Option ℕ
  | closing next | activating next => some next
  | _ => none

/-- How the promise has settled. -/
def ReplacementStage.outcome : ReplacementStage → Option (Except RuntimeFailure ℕ)
  | fulfilled next => some (.ok next)
  | rejected error => some (.error error)
  | _ => none

/-- The promise of one replacement. -/
structure Replacement where
  expected : ℕ
  binding : BreadboardSessionBindingData
  stage : ReplacementStage

/-- A stream has waited for a replacement of a generation. -/
structure ReplacementWait where
  stream : ℕ
  generation : ℕ
  promise : ℕ
  /-- Whether the stream saw the discontinuity in an error event, inside its `try`. -/
  fromEvent : Bool
  deriving DecidableEq, Repr

/-- The closure of `createRecoverableBreadboardRuntime`, and what surrounds it. -/
structure RecoverableRuntime where
  current : ℕ
  activatedStore : Option ℕ
  activationPromise : Option Settlement
  replacementPromise : Option ℕ
  closePromise : Option Settlement
  started : Bool
  closed : Bool
  cleanupRegistered : Bool
  retiredClosures : List ℕ
  /-- The promises that were ever stored in `replacementPromise`. -/
  replacements : ℕ → Option Replacement
  generations : ℕ → Generation
  generationCount : ℕ
  /-- The branch of the transcript behind the session's store. -/
  branch : List BreadboardSessionBindingEntry
  /-- The streams whose signal has been aborted. -/
  aborted : ℕ → Bool
  outers : ℕ → OuterStream
  /-- Who has waited for a replacement, latest first. -/
  replacementWaits : List ReplacementWait

namespace RecoverableRuntime

/-- The closure as it is created around an initial generation. -/
def initial (branch : List BreadboardSessionBindingEntry) : RecoverableRuntime where
  current := 0
  activatedStore := none
  activationPromise := none
  replacementPromise := none
  closePromise := none
  started := false
  closed := false
  cleanupRegistered := true
  retiredClosures := []
  replacements _ := none
  generations _ := .prepared
  generationCount := 1
  branch := branch
  aborted _ := false
  outers _ := ⟨[], false, none⟩
  replacementWaits := []

/-- `close()` of a generation has settled. -/
def settled (s : RecoverableRuntime) (g : ℕ) : Bool := (s.generations g).closedAt.isSome

def updateGeneration (s : RecoverableRuntime) (g : ℕ) (f : Generation → Generation) :
    RecoverableRuntime :=
  { s with generations := Function.update s.generations g (f (s.generations g)) }

variable (s : RecoverableRuntime)

theorem generations_updateGeneration (g : ℕ) (f : Generation → Generation) :
    (s.updateGeneration g f).generations =
      Function.update s.generations g (f (s.generations g)) := rfl

/-- `generation.runtime.close()`: the promise is created once. -/
def beginClose (s : RecoverableRuntime) (g : ℕ) : RecoverableRuntime :=
  s.updateGeneration g ({ · with closeCalled := true })

def setStage (s : RecoverableRuntime) (id : ℕ) (stage : ReplacementStage) : RecoverableRuntime :=
  { s with
    replacements := Function.update s.replacements id
      ((s.replacements id).map ({ · with stage := stage })) }

theorem replacements_setStage (id : ℕ) (stage : ReplacementStage) :
    (s.setStage id stage).replacements = Function.update s.replacements id
      ((s.replacements id).map ({ · with stage := stage })) := rfl

/-- `outer.push(event)`. -/
def push (s : RecoverableRuntime) (stream : ℕ) (event : AssistantEventType) : RecoverableRuntime :=
  if (s.outers stream).done then s
  else
    { s with
      outers := Function.update s.outers stream
        { s.outers stream with
          events := (s.outers stream).events ++ [event]
          done := event == .done || event == .error } }

/-- `if (!outer.done) outer.fail(error)`. -/
def fail (s : RecoverableRuntime) (stream : ℕ) (error : RuntimeFailure) : RecoverableRuntime :=
  if (s.outers stream).done then s
  else
    { s with
      outers := Function.update s.outers stream
        { s.outers stream with done := true, failure := some error } }

/-- The condition under which a stream asks for a replacement. -/
def sawDiscontinuity (s : RecoverableRuntime) (stream g : ℕ) : Bool :=
  !s.closed && !s.aborted stream && s.current == g && (s.generations g).authorityDiscontinuity

end RecoverableRuntime

/-! ### Calls and events -/

/-- What the runtime awaits. -/
inductive RuntimeCall where
  /-- `generation.runtime.stream(…)`. -/
  | stream (g : ℕ)
  /-- How many events of the inner stream a run looks at. -/
  | eventCount
  /-- The next event of the inner stream, or its end. -/
  | nextEvent (g : ℕ)
  /-- The promise of `generation.runtime.close()`. -/
  | closing (g : ℕ)
  /-- `reconnect(sessionId, binding)`. -/
  | reconnect (binding : BreadboardSessionBindingData)
  /-- `generation.runtime.activate(store)`. -/
  | activate (g store : ℕ)
  /-- A promise from `replacementPromise`. -/
  | replacement (id : ℕ)
  | activationPromise
  | closePromise
  /-- `Promise.all([...retiredClosures])`. -/
  | closures (gs : List ℕ)
  | never

abbrev RuntimeCall.Reply : RuntimeCall → Type
  | eventCount => ℕ
  | nextEvent _ => Except RuntimeFailure (Option AssistantEventType)
  | replacement _ => Except RuntimeFailure ℕ
  | closures _ => Unit
  | never => Empty
  | _ => Except RuntimeFailure Unit

/-- The environment's part in answering a call. -/
inductive RuntimeChoice where
  | succeed
  | fail (message : String)
  | event (event : Option AssistantEventType)
  | count (n : ℕ)

def Settlement.reply : Option Settlement → Option (Except RuntimeFailure Unit)
  | some .fulfilled => some (.ok ())
  | some .rejected => some (.error (.outside "rejected"))
  | _ => none

/-- How the calls are answered. -/
def RuntimeCall.reply (s : RecoverableRuntime) :
    (c : RuntimeCall) → RuntimeChoice → Option c.Reply
  | stream _, .succeed | reconnect _, .succeed | activate _ _, .succeed => some (.ok ())
  | stream _, .fail m | reconnect _, .fail m | activate _ _, .fail m => some (.error (.outside m))
  | eventCount, .count n => some n
  | nextEvent _, .event e => some (.ok e)
  | nextEvent _, .fail m => some (.error (.outside m))
  | closing g, _ =>
    if s.settled g then
      some (if (s.generations g).closeSucceeded then .ok () else .error (.outside "close failed"))
    else none
  | replacement id, _ => (s.replacements id).bind (·.stage.outcome)
  | activationPromise, _ => Settlement.reply s.activationPromise
  | closePromise, _ => Settlement.reply s.closePromise
  | closures gs, _ => if gs.all s.settled then some () else none
  | _, _ => none

/-- What generations and callers do on their own. -/
inductive RuntimeEvent where
  /-- The promise of `close()` settles. -/
  | settle (g : ℕ) (succeeded : Bool)
  /-- An open generation appends a binding to the transcript. -/
  | append (g : ℕ) (entry : BreadboardSessionBindingEntry)
  /-- The engine's lifecycle fails, and the generation closes itself. -/
  | lifecycleFailure (g : ℕ)
  /-- The generation closes itself, as a failed activation does. -/
  | selfClose (g : ℕ)
  | discontinue (g : ℕ)
  | abort (stream : ℕ)
  /-- `retiredClosures.delete(closing)`. -/
  | forget (g : ℕ)

def RuntimeEvent.happen (s : RecoverableRuntime) : RuntimeEvent → Option RecoverableRuntime
  | settle g succeeded =>
    if (s.generations g).closeCalled && !s.settled g && g < s.generationCount then
      some (s.updateGeneration g
        ({ · with closedAt := some s.branch, closeSucceeded := succeeded }))
    else none
  | append g entry =>
    if g < s.generationCount && !s.settled g then some { s with branch := s.branch ++ [entry] }
    else none
  | lifecycleFailure g =>
    some ((s.beginClose g).updateGeneration g ({ · with lifecycleFailed := true }))
  | selfClose g => some (s.beginClose g)
  | discontinue g => some (s.updateGeneration g ({ · with authorityDiscontinuity := true }))
  | abort stream => some { s with aborted := Function.update s.aborted stream true }
  | forget g =>
    if s.settled g then some { s with retiredClosures := s.retiredClosures.erase g } else none

/-! ### The functions -/

/-- The functions that run as tasks of their own. -/
inductive RuntimeJob where
  | stream
  | activate (store : ℕ)
  | start
  | close
  | replacement (expected : ℕ) (binding : BreadboardSessionBindingData) (store : ℕ)

/-- A function of the runtime. -/
abbrev RuntimeM := Fiber RecoverableRuntime RuntimeJob RuntimeCall.Reply RuntimeFailure

/-- The value of an awaited promise, with its rejection thrown. -/
def unwrap {α : Type} : Except RuntimeFailure α → RuntimeM α
  | .ok a => pure a
  | .error e => throw e

/-- `generation.runtime.start()`. -/
def startGeneration (g : ℕ) : RuntimeM Unit := do
  let s ← Fiber.get
  if !(s.generations g).activated then
    throw (.error "BreadBoard runtime cannot start before AgentSession activation")
  else if (s.generations g).running then pure ()
  else if (s.generations g).lifecycleFailed then throw (.outside "lifecycle failed")
  else Fiber.modify (·.updateGeneration g ({ · with running := true }))

/-- `retire`, up to the promise it returns. -/
def retire (g : ℕ) : RuntimeM Unit :=
  Fiber.modify fun s => { s.beginClose g with retiredClosures := s.retiredClosures ++ [g] }

def closedDuringReplacement : RuntimeFailure := .error "BreadBoard runtime closed during replacement"

/-- `if (started) next.runtime.start()`. -/
def startIfStarted (next : ℕ) : RuntimeM Unit := do
  let s ← Fiber.get
  if s.started then startGeneration next else pure ()

/-- The end of a replacement: the activated generation is started and becomes current. -/
def adopt (id next : ℕ) : RuntimeM Unit := do
  Fiber.modify (·.updateGeneration next ({ · with activated := true }))
  startIfStarted next
  Fiber.modify fun s => { s.setStage id (.fulfilled next) with current := next }

/-- The body of `pending` after `retire(expected)` was called. -/
def replaceWith (id expected : ℕ) (binding : BreadboardSessionBindingData) (store : ℕ) :
    RuntimeM Unit := do
  let _ ← Fiber.call (RuntimeCall.closing expected)
  let s ← Fiber.get
  if s.closed then throw closedDuringReplacement
  else
    Fiber.modify (·.setStage id .reconnecting)
    unwrap (← Fiber.call (RuntimeCall.reconnect binding))
    let s ← Fiber.get
    let next := s.generationCount
    if s.closed then
      Fiber.modify fun s =>
        { (s.setStage id (.closing next)).beginClose next with generationCount := next + 1 }
      unwrap (← Fiber.call (RuntimeCall.closing next))
      throw closedDuringReplacement
    else
      Fiber.modify fun s => { s.setStage id (.activating next) with generationCount := next + 1 }
      unwrap (← Fiber.call (RuntimeCall.activate next store))
      adopt id next

/-- `pending`: a rejection of the body becomes the promise's. -/
def replacementBody (id expected : ℕ) (binding : BreadboardSessionBindingData) (store : ℕ) :
    RuntimeM Unit :=
  tryCatch (replaceWith id expected binding store) fun error =>
    Fiber.modify (·.setStage id (.rejected error))

/-- `await` on a replacement promise, by a stream that asked for a replacement of `g`. -/
def awaitReplacement (stream g : ℕ) (fromEvent : Bool) (id : ℕ) : RuntimeM ℕ := do
  Fiber.modify fun s =>
    { s with replacementWaits := ⟨stream, g, id, fromEvent⟩ :: s.replacementWaits }
  unwrap (← Fiber.call (RuntimeCall.replacement id))

/-- `replace`, called by a stream. -/
def replace (stream expected : ℕ) (fromEvent : Bool) : RuntimeM ℕ := do
  let s ← Fiber.get
  if s.current ≠ expected then pure s.current
  else
    match s.replacementPromise, s.activatedStore, readBreadboardSessionBinding s.branch with
    | some id, _, _ => awaitReplacement stream expected fromEvent id
    | none, none, _ =>
      throw (.error "BreadBoard runtime replacement requires an active session binding")
    | none, some _, .error error => throw (.transition error)
    | none, some _, .ok none =>
      throw (.transition
        ⟨"BreadBoard runtime replacement requires a durable session binding."⟩)
    | none, some store, .ok (some binding) => do
      retire expected
      let id ← Fiber.spawn (.replacement expected binding store) fun id s =>
        { s with
          replacements := Function.update s.replacements id (some ⟨expected, binding, .retiring⟩)
          replacementPromise := some id }
      (awaitReplacement stream expected fromEvent id).always (Fiber.modify fun s =>
        if s.replacementPromise = some id then { s with replacementPromise := none } else s)

/-- The `for await` loop of a stream over the next `n` events of a generation. -/
def relay (stream g : ℕ) : ℕ → RuntimeM Unit
  | 0 => do
    let nothing ← Fiber.call RuntimeCall.never
    nothing.elim
  | n + 1 => do
    match ← unwrap (← Fiber.call (RuntimeCall.nextEvent g)) with
    | none =>
      Fiber.modify (·.fail stream (.error "BreadBoard runtime stream ended without a terminal event"))
    | some event => do
      let s ← Fiber.get
      if event = .error ∧ s.sawDiscontinuity stream g then
        let _ ← (replace stream g true).await
        Fiber.modify (·.push stream event)
      else
        Fiber.modify (·.push stream event)
        relay stream g n

/-- The `run` of `stream`. -/
def runStream (stream : ℕ) : RuntimeM Unit := do
  let s ← Fiber.get
  let g := s.current
  tryCatch
    (do
      unwrap (← Fiber.call (RuntimeCall.stream g))
      let n ← Fiber.call RuntimeCall.eventCount
      relay stream g n)
    fun error => do
      let s ← Fiber.get
      if s.sawDiscontinuity stream g then
        let _ ← (replace stream g false).await
        throw error
      else throw error

def stream (stream : ℕ) : RuntimeM Unit :=
  tryCatch (runStream stream).await fun error => Fiber.modify (·.fail stream error)

/-- `if (replacementPromise) await replacementPromise.catch(() => {})`. -/
def settleReplacement : RuntimeM Unit := do
  let s ← Fiber.get
  match s.replacementPromise with
  | some id => do
    let _ ← Fiber.call (RuntimeCall.replacement id)
  | none => pure ()

/-- The body of `closePromise`. -/
def closeRuntime : RuntimeM Unit := do
  Fiber.modify fun s =>
    { s with closePromise := some .pending, cleanupRegistered := false, closed := true }
  settleReplacement
  let s ← Fiber.get
  Fiber.modify (·.beginClose s.current)
  unwrap (← Fiber.call (RuntimeCall.closing s.current))
  let s ← Fiber.get
  Fiber.call (RuntimeCall.closures s.retiredClosures)

def close : RuntimeM Unit := do
  let s ← Fiber.get
  match s.closePromise with
  | some _ => unwrap (← Fiber.call RuntimeCall.closePromise)
  | none => do
    match ← closeRuntime.attempt with
    | .ok _ => Fiber.modify ({ · with closePromise := some .fulfilled })
    | .error _ => Fiber.modify ({ · with closePromise := some .rejected })

def activate (store : ℕ) : RuntimeM Unit := do
  let s ← Fiber.get
  if s.activatedStore.any (· ≠ store) then
    throw (.error "BreadBoard runtime is already bound to another AgentSession")
  else
    match s.activationPromise with
    | some _ => unwrap (← Fiber.call RuntimeCall.activationPromise)
    | none => do
      Fiber.modify ({ · with activationPromise := some .pending })
      match ← Fiber.call (RuntimeCall.activate s.current store) with
      | .ok _ =>
        Fiber.modify fun t =>
          { t.updateGeneration s.current ({ · with activated := true }) with
            activatedStore := some store
            activationPromise := some .fulfilled }
      | .error _ => Fiber.modify ({ · with activationPromise := some .rejected })

def start : RuntimeM Unit := do
  let s ← Fiber.get
  if s.started then pure ()
  else if s.activatedStore.isNone then
    throw (.error "BreadBoard runtime cannot start before AgentSession activation")
  else
    Fiber.modify ({ · with started := true })
    startGeneration s.current

/-- The recoverable runtime with its callers and generations. -/
def recoverableRuntime :
    Machine RecoverableRuntime RuntimeJob RuntimeCall.Reply RuntimeChoice RuntimeEvent
      RuntimeFailure where
  body job id :=
    match job with
    | .stream => stream id
    | .activate store => activate store
    | .start => start
    | .close => close
    | .replacement expected binding store => replacementBody id expected binding store
  reply c choice s := c.reply s choice
  admits job :=
    match job with
    | .replacement .. => false
    | _ => true
  happen event s := event.happen s

end BreadboardTui
