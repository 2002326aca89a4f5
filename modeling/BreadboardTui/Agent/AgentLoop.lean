import Mathlib.Tactic

/-!
# The queues of the agent loop

`runLoopBody` drains three queues of its host: steering messages, asides and follow-ups. What
a drain returns is collected in one list, `pendingMessages`, which the next iteration of the
inner loop puts into the context, into `newMessages` and, a little later, on the event stream.
Between the drain and that point stand deadline checks and further awaits; whatever still is
pending when the loop ends goes to `discardAsides`.

The loop is a state machine whose phases are the points at which it waits for the host, the
provider or the clock, and an `Answer` is what comes back there. The loop's own messages (the
prompts, the assistant's, the tool results, the reminders) are opaque numbers.
-/

namespace BreadboardTui.AgentLoop

open List

/-! ### Messages and their hooks -/

/-- An optional callback of a message. -/
inductive Hook where
  | absent
  | runs
  | throws
  deriving DecidableEq, Repr

/-- A message of one of the queues (`CommittableAsideMessage`), with its two hooks. -/
structure QueuedMessage where
  content : ℕ
  commit : Hook := .absent
  discard : Hook := .absent
  deriving DecidableEq, Repr

/-- A message of the conversation: out of a queue, or one of the loop's own. -/
inductive LoopMessage where
  | queued (m : QueuedMessage)
  | own (n : ℕ)
  deriving DecidableEq, Repr

/-- What a thunk among the asides comes to when it is evaluated. -/
inductive Thunk where
  | message (m : QueuedMessage)
  | null
  | throws
  deriving DecidableEq, Repr

/-- An aside entry: a ready message, or a thunk. -/
inductive AsideMessage where
  | ready (m : QueuedMessage)
  | thunk (t : Thunk)
  deriving DecidableEq, Repr

/-- The queue messages of a conversation, in order. -/
def queuedOf : List LoopMessage → List QueuedMessage
  | [] => []
  | .queued m :: ms => m :: queuedOf ms
  | .own _ :: ms => queuedOf ms

@[simp] theorem queuedOf_nil : queuedOf [] = [] := rfl

@[simp] theorem queuedOf_append (ms ns : List LoopMessage) :
    queuedOf (ms ++ ns) = queuedOf ms ++ queuedOf ns := by
  induction ms with
  | nil => rfl
  | cons m ms ih =>
    rcases m with m | n
    · simp [queuedOf, ih]
    · simp [queuedOf, ih]

@[simp] theorem queuedOf_own (ns : List ℕ) : queuedOf (ns.map LoopMessage.own) = [] := by
  induction ns with
  | nil => rfl
  | cons n ns ih => simpa only [map_cons, queuedOf] using ih

/-! ### Discarding and resolving asides -/

/-- `discardAsides`: the messages whose discard hook is called. A hook that throws ends the
walk. -/
def discardAsides : List QueuedMessage → List QueuedMessage
  | [] => []
  | m :: ms =>
    match m.discard with
    | .absent => discardAsides ms
    | .runs => m :: discardAsides ms
    | .throws => [m]

/-- Every message has a discard hook, and no hook but the last one's throws. -/
def Discardable : List QueuedMessage → Prop
  | [] => True
  | m :: ms => m.discard = .runs ∧ Discardable ms ∨ m.discard = .throws ∧ ms = []

variable (ms : List QueuedMessage)

theorem length_discardAsides_le : (discardAsides ms).length ≤ ms.length := by
  induction ms with
  | nil => exact le_refl 0
  | cons =>
    rw [discardAsides]
    split <;> simp only [length_cons, length_nil] <;> omega

theorem discardAsides_eq_self_iff : discardAsides ms = ms ↔ Discardable ms := by
  induction ms with
  | nil => simp [discardAsides, Discardable]
  | cons m ms ih =>
    rw [discardAsides, Discardable]
    split
    case h_1 habsent =>
      constructor
      · intro h
        have hshort := length_discardAsides_le ms
        rw [h, length_cons] at hshort
        omega
      · rintro (⟨h, -⟩ | ⟨h, -⟩) <;> rw [habsent] at h <;> cases h
    case h_2 hruns =>
      simp [hruns, ih]
    case h_3 hthrows =>
      simp only [hthrows, List.cons.injEq, true_and, reduceCtorEq, false_and, false_or]
      exact eq_comm

/-- What `resolveAsides` comes to: the messages to inject, or a thunk threw after `out` had
been resolved, with `rest` behind it. -/
inductive Resolved where
  | messages (out : List QueuedMessage)
  | threw (out : List QueuedMessage) (rest : List AsideMessage)
  deriving DecidableEq, Repr

def resolveAsides (out : List QueuedMessage) : List AsideMessage → Resolved
  | [] => .messages out
  | .ready m :: entries => resolveAsides (out ++ [m]) entries
  | .thunk (.message m) :: entries => resolveAsides (out ++ [m]) entries
  | .thunk .null :: entries => resolveAsides out entries
  | .thunk .throws :: entries => .threw out entries

/-- The messages that stand ready among the entries. -/
def readyMessages : List AsideMessage → List QueuedMessage
  | [] => []
  | .ready m :: entries => m :: readyMessages entries
  | .thunk _ :: entries => readyMessages entries

/-! ### The state of the loop -/

/-- Where the loop stands. The last three drains carry what the drain holds so far. -/
inductive Phase where
  | start
  | initialSteering
  | innerLoop
  | commit
  | prepare
  | stream
  | tools
  | failedTurn
  | turnEnd
  | steering
  | asides (steering : List QueuedMessage)
  | beforeYield
  | lateSteering
  | lateAsides (lateSteering : List QueuedMessage)
  | followUps (lateSteering asideMessages : List QueuedMessage)
  | settled (threw : Bool)
  deriving DecidableEq, Repr

/-- The variables of `runLoopBody`, with three logs: the messages the queues returned, the
messages whose discard hook was called, and the input messages whose events went out. -/
structure State where
  phase : Phase := .start
  pendingMessages : List QueuedMessage := []
  messagesToEmit : List LoopMessage := []
  turnMessages : List LoopMessage := []
  context : List LoopMessage := []
  newMessages : List LoopMessage := []
  turnOpen : Bool := false
  hasMoreToolCalls : Bool := true
  directiveResolvedForTurn : Bool := false
  dequeued : List QueuedMessage := []
  discarded : List QueuedMessage := []
  emitted : List LoopMessage := []
  deriving DecidableEq, Repr

/-- What the gate before a model call decides. -/
inductive Gate where
  | proceed
  | stop (rejectedThrows : Bool) (stopMessage : ℕ) (turnEndThrows : Bool)
  deriving DecidableEq, Repr

/-- How the provider's stream ends: it throws, it is sampled again after a Harmony leak, or it
gives a message, which may be an error or an aborted one. -/
inductive Outcome where
  | throws
  | retry
  | message (reply : ℕ) (failed : Bool)
  deriving DecidableEq, Repr

/-- What comes back at a phase. Each phase reads the fields it needs. -/
structure Answer where
  /-- The deadline has passed at the phase's first check, and at its second. -/
  deadline : Bool := false
  deadlineAfter : Bool := false
  /-- The signal is aborted. -/
  aborted : Bool := false
  /-- The callback of the phase throws. -/
  throws : Bool := false
  /-- What a queue of messages returns, and what the queue of asides returns. -/
  messages : List QueuedMessage := []
  entries : List AsideMessage := []
  /-- The messages the loop itself adds here. -/
  own : List ℕ := []
  gate : Gate := .proceed
  outcome : Outcome := .throws
  /-- The turn leaves tool calls to answer. -/
  more : Bool := false
  deriving DecidableEq, Repr

/-! ### The steps of the loop -/

namespace State

/-- The loop ends: its `finally` discards what still is pending, and the list goes. -/
def settle (s : State) (threw : Bool) : State :=
  { s with
    phase := .settled threw
    discarded := s.discarded ++ discardAsides s.pendingMessages
    pendingMessages := [] }

def emitInputMessages (s : State) (ms : List LoopMessage) : State :=
  { s with emitted := s.emitted ++ ms }

/-- The loop adds messages of its own to the context and to `newMessages`. -/
def addOwn (s : State) (ns : List ℕ) : State :=
  { s with
    context := s.context ++ ns.map LoopMessage.own
    newMessages := s.newMessages ++ ns.map LoopMessage.own }

/-- A queue returns messages. -/
def dequeue (s : State) (ms : List QueuedMessage) : State :=
  { s with dequeued := s.dequeued ++ ms }

/-- The first deadline check. -/
def start (s : State) (a : Answer) : State :=
  if a.deadline then (s.emitInputMessages s.messagesToEmit).settle false
  else { s with phase := .initialSteering }

/-- The steering messages at the start; an aborted run leaves the queue alone. -/
def initialSteering (s : State) (a : Answer) : State :=
  if a.aborted then { s with phase := .innerLoop }
  else if a.throws then (s.emitInputMessages s.messagesToEmit).settle true
  else { s.dequeue a.messages with phase := .innerLoop, pendingMessages := a.messages }

/-- The condition of the inner loop and the deadline check behind it. -/
def innerLoop (s : State) (a : Answer) : State :=
  if s.hasMoreToolCalls ∨ s.pendingMessages ≠ [] then
    if a.deadline then (s.emitInputMessages s.messagesToEmit).settle false
    else { s with phase := .commit, turnMessages := s.messagesToEmit, messagesToEmit := [] }
  else { s with phase := .beforeYield }

/-- One pending message enters the context, `newMessages` and the turn's messages. -/
def place (s : State) (m : QueuedMessage) : State :=
  { s with
    context := s.context ++ [.queued m]
    newMessages := s.newMessages ++ [.queued m]
    turnMessages := s.turnMessages ++ [.queued m] }

/-- The walk over the pending messages. A commit hook that throws leaves the list as it was. -/
def commitPending (s : State) : List QueuedMessage → State
  | [] => { s with pendingMessages := [], phase := .prepare }
  | m :: ms =>
    if m.commit = .throws then (s.place m).settle true else commitPending (s.place m) ms

/-- A turn is opened and the turn's messages go out, unless it is open already. -/
def openTurn (s : State) : State :=
  if s.turnOpen then s else { s.emitInputMessages s.turnMessages with turnOpen := true }

/-- The directive's reminders, once per turn. -/
def remind (s : State) (reminders : List ℕ) : State :=
  if s.directiveResolvedForTurn then s
  else { s.addOwn reminders with turnMessages := s.turnMessages ++ reminders.map LoopMessage.own }

/-- The gate stops the run. -/
def stopAtGate (s : State) (aborted rejectedThrows : Bool) (stopMessage : ℕ)
    (turnEndThrows : Bool) : State :=
  if ¬s.turnOpen ∧ ¬aborted ∧ rejectedThrows then
    { s.emitInputMessages s.turnMessages with turnOpen := true }.settle true
  else
    let emitted := s.emitInputMessages s.turnMessages
    if s.turnOpen then
      ((emitted.addOwn [stopMessage]).emitInputMessages [.own stopMessage]).settle turnEndThrows
    else emitted.settle false

/-- The directive, the preparation of the provider call, and the gate. -/
def prepare (s : State) (a : Answer) : State :=
  let s := s.remind a.own
  if a.throws then s.openTurn.settle true
  else
    let s := { s with directiveResolvedForTurn := true }
    match a.gate with
    | .stop rejectedThrows stopMessage turnEndThrows =>
      s.stopAtGate a.aborted rejectedThrows stopMessage turnEndThrows
    | .proceed => { s.openTurn with phase := .stream }

/-- The provider's stream. What it leaves in the context is the loop's own. -/
def stream (s : State) (a : Answer) : State :=
  let s := { s with context := s.context ++ a.own.map LoopMessage.own }
  match a.outcome with
  | .throws => s.settle true
  | .retry => { s with phase := .innerLoop }
  | .message reply failed =>
    let s := { s with
      newMessages := s.newMessages ++ [LoopMessage.own reply]
      directiveResolvedForTurn := false }
    { s with phase := if failed then .failedTurn else .tools }

/-- A turn whose message is an error or an aborted one: its tool calls get placeholder results,
and the loop returns. -/
def failedTurn (s : State) (a : Answer) : State :=
  (s.addOwn a.own).settle false

/-- The tool calls of the turn. -/
def tools (s : State) (a : Answer) : State :=
  if a.throws then s.settle true
  else { s.addOwn a.own with phase := .turnEnd, hasMoreToolCalls := a.more }

/-- The end of a turn and the deadline check behind it. -/
def turnEnd (s : State) (a : Answer) : State :=
  if a.throws then s.settle true
  else
    let s := { s with turnOpen := false }
    if a.deadline then s.settle false else { s with phase := .steering }

/-- Both steering polls and the follow-ups: an aborted run leaves the queue alone. -/
def poll (s : State) (a : Answer) (next : State → List QueuedMessage → State) : State :=
  if a.aborted then next s []
  else if a.throws then s.settle true
  else next (s.dequeue a.messages) a.messages

/-- Both drains of the asides. -/
def pollAsides (s : State) (a : Answer) (next : State → List QueuedMessage → State) : State :=
  if a.aborted then next s []
  else if a.throws then s.settle true
  else
    match resolveAsides [] a.entries with
    | .messages out => next (s.dequeue out) out
    | .threw out rest =>
      { s.dequeue (out ++ readyMessages rest) with
        discarded := s.discarded ++ discardAsides out }.settle true

/-- The steering messages behind a turn. At a stop boundary they are all there is. -/
def steering (s : State) (a : Answer) : State :=
  s.poll a fun s ms =>
    if s.hasMoreToolCalls then { s with phase := .asides ms }
    else { s with phase := .innerLoop, pendingMessages := ms }

/-- The asides in the middle of the work. -/
def asides (s : State) (a : Answer) (steering : List QueuedMessage) : State :=
  s.pollAsides a fun s ms => { s with phase := .innerLoop, pendingMessages := steering ++ ms }

/-- The two deadline checks around `onBeforeYield`. -/
def beforeYield (s : State) (a : Answer) : State :=
  if a.deadline then s.settle false
  else if a.throws then s.settle true
  else if a.deadlineAfter then s.settle false
  else { s with phase := .lateSteering }

/-- The steering messages that arrived while the loop was about to stop. -/
def lateSteering (s : State) (a : Answer) : State :=
  s.poll a fun s ms => { s with phase := .lateAsides ms }

/-- The asides at the yield check. -/
def lateAsides (s : State) (a : Answer) (lateSteering : List QueuedMessage) : State :=
  s.pollAsides a fun s ms => { s with phase := .followUps lateSteering ms }

/-- The follow-ups; the loop goes on if any of the three drains brought something. -/
def followUps (s : State) (a : Answer) (lateSteering asideMessages : List QueuedMessage) :
    State :=
  s.poll a fun s ms =>
    if lateSteering ≠ [] ∨ asideMessages ≠ [] ∨ ms ≠ [] then
      { s with
        phase := .innerLoop
        hasMoreToolCalls := true
        pendingMessages := lateSteering ++ asideMessages ++ ms }
    else s.settle false

/-- One phase of `runLoopBody`. -/
def step (s : State) (a : Answer) : State :=
  match s.phase with
  | .start => s.start a
  | .initialSteering => s.initialSteering a
  | .innerLoop => s.innerLoop a
  | .commit => s.commitPending s.pendingMessages
  | .prepare => s.prepare a
  | .stream => s.stream a
  | .tools => s.tools a
  | .failedTurn => s.failedTurn a
  | .turnEnd => s.turnEnd a
  | .steering => s.steering a
  | .asides steering => s.asides a steering
  | .beforeYield => s.beforeYield a
  | .lateSteering => s.lateSteering a
  | .lateAsides lateSteering => s.lateAsides a lateSteering
  | .followUps lateSteering asideMessages => s.followUps a lateSteering asideMessages
  | .settled _ => s

/-- A run, answer by answer. -/
def run (s : State) : List Answer → State
  | [] => s
  | a :: as => (s.step a).run as

end State

/-- The state `runLoop` hands over: the prompts are in the context and in `newMessages`, and
their events wait in `initialMessages`. -/
def initial (context newMessages initialMessages : List ℕ) : State where
  context := context.map LoopMessage.own
  newMessages := newMessages.map LoopMessage.own
  messagesToEmit := initialMessages.map LoopMessage.own

/-! ### Where the dequeued messages are -/

namespace State

/-- The dequeued messages the loop still holds. -/
def inFlight (s : State) : List QueuedMessage :=
  match s.phase with
  | .asides steering => steering
  | .lateAsides lateSteering => lateSteering
  | .followUps lateSteering asideMessages => lateSteering ++ asideMessages
  | .settled _ => []
  | _ => s.pendingMessages

/-- The placed messages whose events still are deferred. -/
def deferred (s : State) : List QueuedMessage :=
  match s.phase with
  | .prepare => queuedOf s.turnMessages
  | _ => []

/-- Every dequeued message is in one place and once: in `newMessages`, in the loop's hands, or
discarded, in the order of the drains. The context holds the same ones as `newMessages`, and
their events went out once or wait for the turn to open. Of a loop that has ended nothing is in
its hands and nothing waits. -/
structure Accounted (s : State) : Prop where
  dequeued : s.dequeued = queuedOf s.newMessages ++ s.inFlight ++ s.discarded
  context : queuedOf s.context = queuedOf s.newMessages
  emitted : queuedOf s.newMessages = queuedOf s.emitted ++ s.deferred

/-- A drain of the asides loses nothing, where `held` are the messages drained before it: it
throws with nothing held, and a thunk throws with no ready message behind it and with every
message before it discarded. -/
def KeepsAsides (held : List QueuedMessage) (a : Answer) : Prop :=
  a.aborted = false →
    (a.throws = true → held = []) ∧
    (a.throws = false → ∀ out rest, resolveAsides [] a.entries = .threw out rest →
      held = [] ∧ readyMessages rest = [] ∧ Discardable out)

/-- The answers under which a step loses nothing.

* The deadline passes at the top of the inner loop only when what is pending has its hooks.
* No commit hook throws.
* No queue message is placed while a turn is open, which is the one a Harmony retry left open,
  unless the gate stops the run there.
* A later drain throws only when the earlier ones of its boundary came back empty. -/
def Keeps (s : State) (a : Answer) : Prop :=
  match s.phase with
  | .innerLoop => a.deadline = true → Discardable s.pendingMessages
  | .commit => ∀ m ∈ s.pendingMessages, m.commit ≠ .throws
  | .prepare =>
    s.turnOpen = true → queuedOf s.turnMessages = [] ∨ a.throws = false ∧ a.gate ≠ .proceed
  | .asides steering => KeepsAsides steering a
  | .lateAsides lateSteering => KeepsAsides lateSteering a
  | .followUps lateSteering asideMessages =>
    a.aborted = false → a.throws = true → lateSteering = [] ∧ asideMessages = []
  | _ => True

/-- Every answer of a run keeps. -/
def Keeping (s : State) : List Answer → Prop
  | [] => True
  | a :: as => s.Keeps a ∧ (s.step a).Keeping as

/-! ### The invariant of a running loop -/

/-- The account of a running loop that holds `held` and defers the events of `unsent`. -/
structure Holds (s : State) (held unsent : List QueuedMessage) : Prop where
  dequeued : s.dequeued = queuedOf s.newMessages ++ held
  context : queuedOf s.context = queuedOf s.newMessages
  emitted : queuedOf s.newMessages = queuedOf s.emitted ++ unsent
  discarded : s.discarded = []
  toEmit : queuedOf s.messagesToEmit = []

/-- The invariant, phase by phase: what is held, and which lists are empty. -/
def Orderly (s : State) : Prop :=
  match s.phase with
  | .settled _ => s.Accounted
  | .innerLoop => s.Holds s.pendingMessages []
  | .commit => s.Holds s.pendingMessages [] ∧ queuedOf s.turnMessages = []
  | .prepare => s.Holds [] (queuedOf s.turnMessages) ∧ s.pendingMessages = []
  | .asides steering => s.Holds steering [] ∧ s.pendingMessages = []
  | .lateAsides lateSteering => s.Holds lateSteering [] ∧ s.pendingMessages = []
  | .followUps lateSteering asideMessages =>
    s.Holds (lateSteering ++ asideMessages) [] ∧ s.pendingMessages = []
  | _ => s.Holds [] [] ∧ s.pendingMessages = []

variable {s : State} {held unsent : List QueuedMessage}

theorem Holds.emitInputMessages {ms : List LoopMessage} (h : s.Holds held (queuedOf ms ++ unsent)) :
    (s.emitInputMessages ms).Holds held unsent := by
  refine ⟨h.dequeued, h.context, ?_, h.discarded, h.toEmit⟩
  have hemitted := h.emitted
  simpa only [State.emitInputMessages, queuedOf_append, append_assoc] using hemitted

theorem Holds.emitToEmit (h : s.Holds held unsent) :
    (s.emitInputMessages s.messagesToEmit).Holds held unsent := by
  apply Holds.emitInputMessages
  rw [h.toEmit]
  exact h

theorem Holds.addOwn (h : s.Holds held unsent) (ns : List ℕ) : (s.addOwn ns).Holds held unsent := by
  refine ⟨?_, ?_, ?_, h.discarded, h.toEmit⟩
  · simpa only [State.addOwn, queuedOf_append, queuedOf_own, append_nil] using h.dequeued
  · simpa only [State.addOwn, queuedOf_append, queuedOf_own, append_nil] using h.context
  · simpa only [State.addOwn, queuedOf_append, queuedOf_own, append_nil] using h.emitted

theorem Holds.dequeue (h : s.Holds held unsent) (ms : List QueuedMessage) :
    (s.dequeue ms).Holds (held ++ ms) unsent := by
  refine ⟨?_, h.context, h.emitted, h.discarded, h.toEmit⟩
  change s.dequeued ++ ms = _
  rw [h.dequeued, append_assoc]
  rfl

/-- A pending message is placed: it leaves the loop's hands, and its events wait. -/
theorem Holds.place {m : QueuedMessage} (h : s.Holds (m :: held) unsent) :
    (s.place m).Holds held (unsent ++ [m]) := by
  refine ⟨?_, ?_, ?_, h.discarded, h.toEmit⟩
  · have hdequeued := h.dequeued
    simpa only [State.place, queuedOf_append, queuedOf, append_assoc, singleton_append]
      using hdequeued
  · simpa only [State.place, queuedOf_append, append_left_inj] using h.context
  have hemitted := h.emitted
  simp [State.place, queuedOf, ← append_assoc, ← hemitted]

/-- The loop ends in good order exactly when what it holds is what `discardAsides` calls, and
no event waits. -/
theorem Holds.settle_accounted_iff (h : s.Holds held unsent) (threw : Bool) :
    (s.settle threw).Accounted ↔ discardAsides s.pendingMessages = held ∧ unsent = [] := by
  constructor
  · intro hacc
    have hdequeued : s.dequeued =
        queuedOf s.newMessages ++ [] ++ (s.discarded ++ discardAsides s.pendingMessages) :=
      hacc.dequeued
    have hemitted : queuedOf s.newMessages = queuedOf s.emitted ++ [] := hacc.emitted
    rw [h.dequeued, h.discarded, append_nil, nil_append, append_right_inj]
      at hdequeued
    rw [h.emitted, append_right_inj] at hemitted
    exact ⟨hdequeued.symm, hemitted⟩
  rintro ⟨hheld, hunsent⟩
  refine ⟨?_, h.context, ?_⟩
  · change s.dequeued =
      queuedOf s.newMessages ++ [] ++ (s.discarded ++ discardAsides s.pendingMessages)
    rw [h.dequeued, h.discarded, append_nil, nil_append, hheld]
  change queuedOf s.newMessages = queuedOf s.emitted ++ []
  rw [h.emitted, hunsent]

theorem Holds.settle (h : s.Holds [] []) (hpending : s.pendingMessages = []) (threw : Bool) :
    (s.settle threw).Orderly := by
  have hacc : (s.settle threw).Accounted :=
    (h.settle_accounted_iff threw).mpr ⟨by rw [hpending]; rfl, rfl⟩
  exact hacc

theorem Orderly.accounted (h : s.Orderly) : s.Accounted := by
  have hrunning : ∀ held unsent, s.Holds held unsent → s.inFlight = held → s.deferred = unsent →
      s.Accounted := by
    intro held unsent hholds hheld hunsent
    refine ⟨?_, hholds.context, ?_⟩
    · rw [hholds.dequeued, hheld, hholds.discarded, append_nil]
    · rw [hholds.emitted, hunsent]
  have hplain : s.Holds [] [] ∧ s.pendingMessages = [] → s.inFlight = s.pendingMessages →
      s.deferred = [] → s.Accounted := by
    intro hholds hheld hunsent
    exact hrunning _ _ hholds.1 (hheld.trans hholds.2) hunsent
  rw [Orderly] at h
  split at h
  case h_1 => exact h
  case h_2 hphase => exact hrunning _ _ h (by rw [inFlight, hphase]) (by rw [deferred, hphase])
  case h_3 hphase => exact hrunning _ _ h.1 (by rw [inFlight, hphase]) (by rw [deferred, hphase])
  case h_4 hphase =>
    exact hrunning _ _ h.1 (by rw [inFlight, hphase]; exact h.2) (by rw [deferred, hphase])
  case h_5 hphase => exact hrunning _ _ h.1 (by rw [inFlight, hphase]) (by rw [deferred, hphase])
  case h_6 hphase => exact hrunning _ _ h.1 (by rw [inFlight, hphase]) (by rw [deferred, hphase])
  case h_7 hphase => exact hrunning _ _ h.1 (by rw [inFlight, hphase]) (by rw [deferred, hphase])
  case h_8 h₁ h₂ h₃ h₄ h₅ h₆ h₇ =>
    apply hplain h
    · rw [inFlight]
      split <;> simp_all
    rw [deferred]
    split <;> simp_all

/-! ### One step -/

/-- A step keeps the order exactly when its answer keeps. -/
def Exact (s : State) (a : Answer) (t : State) : Prop :=
  (s.Keeps a → t.Orderly) ∧ (t.Accounted → s.Keeps a)

variable {a : Answer}

theorem exact_of_orderly {t : State} (hkeeps : s.Keeps a) (ht : t.Orderly) : s.Exact a t :=
  ⟨fun _ => ht, fun _ => hkeeps⟩

theorem start_orderly (a : Answer) (h : s.Holds [] []) (hpending : s.pendingMessages = []) :
    (s.start a).Orderly := by
  rw [start]
  split
  · exact h.emitToEmit.settle hpending false
  · exact ⟨⟨h.1, h.2, h.3, h.4, h.5⟩, hpending⟩

theorem initialSteering_orderly (a : Answer) (h : s.Holds [] [])
    (hpending : s.pendingMessages = []) : (s.initialSteering a).Orderly := by
  rw [initialSteering]
  split
  · change Holds _ s.pendingMessages []
    rw [hpending]
    exact ⟨h.1, h.2, h.3, h.4, h.5⟩
  split
  · exact h.emitToEmit.settle hpending true
  have hdequeued := h.dequeue a.messages
  exact ⟨hdequeued.1, hdequeued.2, hdequeued.3, hdequeued.4, hdequeued.5⟩

theorem innerLoop_exact (hphase : s.phase = .innerLoop)
    (h : s.Holds s.pendingMessages []) : s.Exact a (s.innerLoop a) := by
  have hkeeps : s.Keeps a ↔ (a.deadline = true → Discardable s.pendingMessages) := by
    rw [Keeps, hphase]
  rw [innerLoop]
  split
  case isTrue =>
    split
    case isTrue hdeadline =>
      -- the deadline: what is pending is left to its discard hooks
      have hiff := h.emitToEmit.settle_accounted_iff false
      have hpending : discardAsides (s.emitInputMessages s.messagesToEmit).pendingMessages
          = s.pendingMessages ↔ Discardable s.pendingMessages :=
        discardAsides_eq_self_iff s.pendingMessages
      constructor
      · intro hk
        have hacc := hiff.mpr ⟨hpending.mpr (hkeeps.mp hk hdeadline), rfl⟩
        exact hacc
      intro hacc
      exact hkeeps.mpr fun _ => hpending.mp (hiff.mp hacc).1
    case isFalse hdeadline =>
      refine exact_of_orderly (hkeeps.mpr fun hd => absurd hd hdeadline) ?_
      exact ⟨⟨h.1, h.2, h.3, h.4, rfl⟩, h.toEmit⟩
  case isFalse hidle =>
    have hpending : s.pendingMessages = [] := by
      by_contra hne
      exact hidle (Or.inr hne)
    refine exact_of_orderly (hkeeps.mpr fun _ => by rw [hpending]; trivial) ?_
    refine ⟨?_, hpending⟩
    rw [hpending] at h
    exact ⟨h.1, h.2, h.3, h.4, h.5⟩

/-- The walk over the pending messages, where `unsent` were placed before. -/
theorem commitPending_exact (ms : List QueuedMessage) :
    ∀ {s : State} {unsent : List QueuedMessage}, s.Holds ms unsent →
      unsent = queuedOf s.turnMessages →
      ((∀ m ∈ ms, m.commit ≠ .throws) → (s.commitPending ms).Orderly) ∧
        ((s.commitPending ms).Accounted → ∀ m ∈ ms, m.commit ≠ .throws) := by
  induction ms with
  | nil =>
    intro s unsent h hunsent
    constructor
    · intro _
      rw [hunsent] at h
      exact ⟨⟨h.1, h.2, h.3, h.4, h.5⟩, rfl⟩
    intro _ m hm
    cases hm
  | cons m ms ih =>
    intro s unsent h hunsent
    have hplaced := h.place
    have hturn : unsent ++ [m] = queuedOf (s.place m).turnMessages := by
      simp [State.place, queuedOf, ← hunsent]
    rw [commitPending]
    split
    case isTrue hthrows =>
      constructor
      · intro hall
        exact absurd hthrows (hall m (mem_cons_self ..))
      -- the events of the message whose hook threw never go out
      intro hacc
      have hempty := ((hplaced.settle_accounted_iff true).mp hacc).2
      exact absurd hempty (by simp)
    case isFalse hruns =>
      have htail := ih hplaced hturn
      simp only [forall_mem_cons]
      exact ⟨fun hall => htail.1 hall.2, fun hacc => ⟨hruns, htail.2 hacc⟩⟩

theorem remind_holds (reminders : List ℕ) (h : s.Holds [] (queuedOf s.turnMessages)) :
    (s.remind reminders).Holds [] (queuedOf s.turnMessages) ∧
      queuedOf (s.remind reminders).turnMessages = queuedOf s.turnMessages ∧
      (s.remind reminders).pendingMessages = s.pendingMessages ∧
      (s.remind reminders).turnOpen = s.turnOpen := by
  rw [remind]
  split
  · exact ⟨h, rfl, rfl, rfl⟩
  have hown := h.addOwn reminders
  refine ⟨⟨hown.1, hown.2, hown.3, hown.4, hown.5⟩, ?_, rfl, rfl⟩
  simp

theorem openTurn_holds (h : s.Holds [] (queuedOf s.turnMessages)) :
    s.openTurn.Holds [] (if s.turnOpen then queuedOf s.turnMessages else []) ∧
      s.openTurn.pendingMessages = s.pendingMessages := by
  rw [openTurn]
  by_cases hopen : s.turnOpen = true
  · rw [if_pos hopen, if_pos hopen]
    exact ⟨h, rfl⟩
  rw [if_neg hopen, if_neg hopen]
  have hsent : (s.emitInputMessages s.turnMessages).Holds [] [] := by
    apply Holds.emitInputMessages
    rw [append_nil]
    exact h
  exact ⟨⟨hsent.1, hsent.2, hsent.3, hsent.4, hsent.5⟩, rfl⟩

theorem stopAtGate_orderly (aborted rejectedThrows : Bool) (stopMessage : ℕ)
    (turnEndThrows : Bool) (h : s.Holds [] (queuedOf s.turnMessages))
    (hpending : s.pendingMessages = []) :
    (s.stopAtGate aborted rejectedThrows stopMessage turnEndThrows).Orderly := by
  have hsent : (s.emitInputMessages s.turnMessages).Holds [] [] := by
    apply Holds.emitInputMessages
    rw [append_nil]
    exact h
  rw [stopAtGate]
  split
  · apply Holds.settle
    · exact ⟨hsent.1, hsent.2, hsent.3, hsent.4, hsent.5⟩
    · exact hpending
  split
  · have hstop := hsent.addOwn [stopMessage]
    apply Holds.settle
    · apply Holds.emitInputMessages
      exact hstop
    · exact hpending
  · exact hsent.settle hpending false

theorem prepare_exact (hphase : s.phase = .prepare)
    (h : s.Holds [] (queuedOf s.turnMessages)) (hpending : s.pendingMessages = []) :
    s.Exact a (s.prepare a) := by
  have hkeeps : s.Keeps a ↔ (s.turnOpen = true →
      queuedOf s.turnMessages = [] ∨ a.throws = false ∧ a.gate ≠ .proceed) := by
    rw [Keeps, hphase]
  obtain ⟨hremind, hturn, hpending', hopen⟩ := remind_holds a.own h
  rw [← hturn] at hremind
  -- the turn's events after the turn is opened, or not because it is open already
  have hsent : (s.turnOpen = true → queuedOf s.turnMessages = []) ↔
      (if (s.remind a.own).turnOpen then queuedOf (s.remind a.own).turnMessages else []) = [] := by
    rw [hopen, hturn]
    by_cases ho : s.turnOpen = true <;> simp [ho]
  rw [prepare]
  split
  case isTrue hthrows =>
    obtain ⟨hopened, hsame⟩ := openTurn_holds hremind
    have hdone : discardAsides (s.remind a.own).openTurn.pendingMessages = [] := by
      rw [hsame, hpending', hpending]
      rfl
    have hiff := hopened.settle_accounted_iff true
    constructor
    · intro hk
      refine hiff.mpr ⟨hdone, hsent.mp fun ho => ?_⟩
      rcases hkeeps.mp hk ho with hnil | ⟨hfalse, -⟩
      · exact hnil
      rw [hthrows] at hfalse
      cases hfalse
    intro hacc
    exact hkeeps.mpr fun ho => Or.inl (hsent.mpr (hiff.mp hacc).2 ho)
  case isFalse hthrows =>
    have hresolved : State.Holds { s.remind a.own with directiveResolvedForTurn := true } []
        (queuedOf (s.remind a.own).turnMessages) :=
      ⟨hremind.1, hremind.2, hremind.3, hremind.4, hremind.5⟩
    split
    case h_1 rejectedThrows stopMessage turnEndThrows hgate =>
      refine exact_of_orderly (hkeeps.mpr fun _ => Or.inr ⟨?_, ?_⟩) ?_
      · exact Bool.eq_false_iff.mpr hthrows
      · rw [hgate]
        exact Gate.noConfusion
      · exact stopAtGate_orderly _ _ _ _ hresolved (hpending'.trans hpending)
    case h_2 hgate =>
      obtain ⟨hopened, hsame⟩ := openTurn_holds hresolved
      constructor
      · intro hk
        have hnil := hsent.mp fun ho => by
          rcases hkeeps.mp hk ho with hnil | ⟨-, hne⟩
          · exact hnil
          · exact absurd hgate hne
        have hrunning : State.Holds _ [] [] := hnil ▸ hopened
        refine ⟨⟨hrunning.1, hrunning.2, hrunning.3, hrunning.4, hrunning.5⟩, ?_⟩
        exact hsame.trans (hpending'.trans hpending)
      intro hacc
      refine hkeeps.mpr fun ho => Or.inl (hsent.mpr ?_ ho)
      have hemitted := hopened.emitted
      have hall : queuedOf _ = queuedOf _ ++ [] := hacc.emitted
      rw [hall] at hemitted
      exact (append_cancel_left hemitted).symm

theorem stream_orderly (a : Answer) (h : s.Holds [] []) (hpending : s.pendingMessages = []) :
    (s.stream a).Orderly := by
  have hstreamed : State.Holds { s with context := s.context ++ a.own.map LoopMessage.own } [] [] := by
    refine ⟨h.1, ?_, h.3, h.4, h.5⟩
    simpa only [queuedOf_append, queuedOf_own, append_nil] using h.context
  rw [stream]
  split
  case h_1 => exact hstreamed.settle hpending true
  case h_2 =>
    rw [hpending]
    exact ⟨hstreamed.1, hstreamed.2, hstreamed.3, hstreamed.4, hstreamed.5⟩
  case h_3 reply failed _ =>
    have hreply : ∀ p, State.Holds
        { s with
          context := s.context ++ a.own.map LoopMessage.own
          newMessages := s.newMessages ++ [LoopMessage.own reply]
          directiveResolvedForTurn := false
          phase := p } [] [] := by
      intro p
      refine ⟨?_, ?_, ?_, h.4, h.5⟩
      · simpa only [queuedOf_append, queuedOf, append_nil] using h.dequeued
      · simpa only [queuedOf_append, queuedOf, queuedOf_own, append_nil] using h.context
      · simpa only [queuedOf_append, queuedOf, append_nil] using h.emitted
    cases failed with
    | true => exact ⟨hreply .failedTurn, hpending⟩
    | false => exact ⟨hreply .tools, hpending⟩

theorem tools_orderly (a : Answer) (h : s.Holds [] []) (hpending : s.pendingMessages = []) :
    (s.tools a).Orderly := by
  rw [tools]
  split
  · exact h.settle hpending true
  have hresults := h.addOwn a.own
  exact ⟨⟨hresults.1, hresults.2, hresults.3, hresults.4, hresults.5⟩, hpending⟩

theorem turnEnd_orderly (a : Answer) (h : s.Holds [] []) (hpending : s.pendingMessages = []) :
    (s.turnEnd a).Orderly := by
  rw [turnEnd]
  split
  · exact h.settle hpending true
  split
  · apply Holds.settle
    · exact ⟨h.1, h.2, h.3, h.4, h.5⟩
    · exact hpending
  · exact ⟨⟨h.1, h.2, h.3, h.4, h.5⟩, hpending⟩

theorem beforeYield_orderly (a : Answer) (h : s.Holds [] []) (hpending : s.pendingMessages = []) :
    (s.beforeYield a).Orderly := by
  rw [beforeYield]
  split
  · exact h.settle hpending false
  split
  · exact h.settle hpending true
  split
  · exact h.settle hpending false
  · exact ⟨⟨h.1, h.2, h.3, h.4, h.5⟩, hpending⟩

variable {next : State → List QueuedMessage → State}

/-- A poll of a queue of messages: what it returns joins what is held. -/
theorem poll_orderly (h : s.Holds held []) (hpending : s.pendingMessages = [])
    (hthrows : a.aborted = false → a.throws = true → held = [])
    (hnext : ∀ t ms, State.Holds t (held ++ ms) [] → t.pendingMessages = [] →
      t.hasMoreToolCalls = s.hasMoreToolCalls → (next t ms).Orderly) : (s.poll a next).Orderly := by
  rw [poll]
  split
  case isTrue =>
    apply hnext s [] _ hpending rfl
    rw [append_nil]
    exact h
  case isFalse haborted =>
    split
    case isTrue hthrew =>
      have hnil := hthrows (Bool.eq_false_iff.mpr haborted) hthrew
      rw [hnil] at h
      exact h.settle hpending true
    case isFalse =>
      exact hnext _ _ (h.dequeue a.messages) hpending rfl

/-- A poll that throws with messages in the loop's hands loses them. -/
theorem poll_accounted (h : s.Holds held []) (hpending : s.pendingMessages = [])
    (hacc : (s.poll a next).Accounted) : a.aborted = false → a.throws = true → held = [] := by
  intro haborted hthrew
  rw [poll, if_neg (by rw [haborted]; exact Bool.false_ne_true), if_pos hthrew] at hacc
  have hheld := ((h.settle_accounted_iff true).mp hacc).1
  rw [hpending] at hheld
  exact hheld.symm

/-- A thunk throws: what was held and what stands ready behind it is lost, and what was
resolved before it goes to its discard hooks. -/
theorem threw_accounted_iff {out : List QueuedMessage} {rest : List AsideMessage}
    (h : s.Holds held []) (hpending : s.pendingMessages = []) :
    ({ s.dequeue (out ++ readyMessages rest) with
        discarded := s.discarded ++ discardAsides out }.settle true).Accounted ↔
      held = [] ∧ readyMessages rest = [] ∧ Discardable out := by
  have hsplit : ({ s.dequeue (out ++ readyMessages rest) with
        discarded := s.discarded ++ discardAsides out }.settle true).Accounted ↔
      held ++ (out ++ readyMessages rest) = discardAsides out := by
    constructor
    · intro hacc
      have hdequeued : s.dequeued ++ (out ++ readyMessages rest) = queuedOf s.newMessages ++ [] ++
          (s.discarded ++ discardAsides out ++ discardAsides s.pendingMessages) := hacc.dequeued
      rw [h.dequeued, h.discarded, hpending] at hdequeued
      simpa only [discardAsides, append_nil, nil_append, append_assoc,
        append_right_inj] using hdequeued
    intro hlists
    refine ⟨?_, h.context, h.emitted⟩
    change s.dequeued ++ (out ++ readyMessages rest) = queuedOf s.newMessages ++ [] ++
      (s.discarded ++ discardAsides out ++ discardAsides s.pendingMessages)
    rw [h.dequeued, h.discarded, hpending]
    simpa only [discardAsides, append_nil, nil_append, append_assoc, append_right_inj] using hlists
  rw [hsplit, ← discardAsides_eq_self_iff]
  constructor
  · intro hlists
    have hlength := congrArg List.length hlists
    have hshort := length_discardAsides_le out
    simp only [length_append] at hlength
    have hheld : held = [] := eq_nil_of_length_eq_zero (by omega)
    have hready : readyMessages rest = [] := eq_nil_of_length_eq_zero (by omega)
    rw [hheld, hready, nil_append, append_nil] at hlists
    exact ⟨hheld, hready, hlists.symm⟩
  rintro ⟨hheld, hready, hout⟩
  rw [hheld, hready, hout, nil_append, append_nil]

/-- A drain of the asides keeps the order exactly under `KeepsAsides`. -/
theorem pollAsides_exact (h : s.Holds held []) (hpending : s.pendingMessages = [])
    (hnext : ∀ t ms, State.Holds t (held ++ ms) [] → t.pendingMessages = [] → (next t ms).Orderly) :
    (KeepsAsides held a → (s.pollAsides a next).Orderly) ∧
      ((s.pollAsides a next).Accounted → KeepsAsides held a) := by
  rw [pollAsides]
  split
  case isTrue haborted =>
    constructor
    · intro _
      apply hnext s [] _ hpending
      rw [append_nil]
      exact h
    intro _ hfalse
    rw [haborted] at hfalse
    cases hfalse
  case isFalse haborted =>
    have hgoes : a.aborted = false := Bool.eq_false_iff.mpr haborted
    split
    case isTrue hthrew =>
      have hiff : (s.settle true).Accounted ↔ held = [] := by
        rw [h.settle_accounted_iff, hpending]
        simp only [discardAsides, and_true]
        exact eq_comm
      constructor
      · intro hk
        exact hiff.mpr ((hk hgoes).1 hthrew)
      intro hacc _
      refine ⟨fun _ => hiff.mp hacc, fun hfalse => ?_⟩
      rw [hthrew] at hfalse
      cases hfalse
    case isFalse hruns =>
      split
      case h_1 out hresolved =>
        constructor
        · intro _
          exact hnext _ _ (h.dequeue out) hpending
        intro _ _
        refine ⟨fun hthrew => absurd hthrew hruns, fun _ out' rest' hthrew => ?_⟩
        rw [hresolved] at hthrew
        cases hthrew
      case h_2 out rest hresolved =>
        have hiff := @threw_accounted_iff s held out rest h hpending
        constructor
        · intro hk
          exact hiff.mpr ((hk hgoes).2 (Bool.eq_false_iff.mpr hruns) out rest hresolved)
        intro hacc _
        refine ⟨fun hthrew => absurd hthrew hruns, fun _ out' rest' hthrew => ?_⟩
        rw [hresolved, Resolved.threw.injEq] at hthrew
        obtain ⟨rfl, rfl⟩ := hthrew
        exact hiff.mp hacc

theorem steering_orderly (a : Answer) (h : s.Holds [] []) (hpending : s.pendingMessages = []) :
    (s.steering a).Orderly := by
  apply poll_orderly h hpending fun _ _ => rfl
  intro t ms ht htpending _
  rw [nil_append] at ht
  split
  · exact ⟨⟨ht.1, ht.2, ht.3, ht.4, ht.5⟩, htpending⟩
  · exact ⟨ht.1, ht.2, ht.3, ht.4, ht.5⟩

theorem asides_exact (h : s.Holds held []) (hpending : s.pendingMessages = []) :
    (KeepsAsides held a → (s.asides a held).Orderly) ∧
      ((s.asides a held).Accounted → KeepsAsides held a) := by
  apply pollAsides_exact h hpending
  intro t ms ht _
  exact ⟨ht.1, ht.2, ht.3, ht.4, ht.5⟩

theorem lateSteering_orderly (a : Answer) (h : s.Holds [] [])
    (hpending : s.pendingMessages = []) : (s.lateSteering a).Orderly := by
  apply poll_orderly h hpending fun _ _ => rfl
  intro t ms ht htpending _
  rw [nil_append] at ht
  exact ⟨⟨ht.1, ht.2, ht.3, ht.4, ht.5⟩, htpending⟩

theorem lateAsides_exact (h : s.Holds held []) (hpending : s.pendingMessages = []) :
    (KeepsAsides held a → (s.lateAsides a held).Orderly) ∧
      ((s.lateAsides a held).Accounted → KeepsAsides held a) := by
  apply pollAsides_exact h hpending
  intro t ms ht htpending
  exact ⟨⟨ht.1, ht.2, ht.3, ht.4, ht.5⟩, htpending⟩

theorem followUps_exact {lateSteering asideMessages : List QueuedMessage}
    (h : s.Holds (lateSteering ++ asideMessages) []) (hpending : s.pendingMessages = []) :
    ((a.aborted = false → a.throws = true → lateSteering = [] ∧ asideMessages = []) →
        (s.followUps a lateSteering asideMessages).Orderly) ∧
      ((s.followUps a lateSteering asideMessages).Accounted →
        a.aborted = false → a.throws = true → lateSteering = [] ∧ asideMessages = []) := by
  constructor
  · intro hk
    apply poll_orderly h hpending fun ha ht => append_eq_nil_iff.mpr (hk ha ht)
    intro t ms ht htpending _
    split
    case isTrue => exact ⟨ht.1, ht.2, ht.3, ht.4, ht.5⟩
    case isFalse hnone =>
      simp only [ne_eq, not_or, not_not] at hnone
      obtain ⟨hlate, haside, hms⟩ := hnone
      rw [hlate, haside, hms] at ht
      exact ht.settle htpending false
  intro hacc haborted hthrew
  exact append_eq_nil_iff.mp (poll_accounted h hpending hacc haborted hthrew)

/-- A step from a state in order keeps it in order exactly when its answer keeps. -/
theorem step_exact (h : s.Orderly) (a : Answer) : s.Exact a (s.step a) := by
  rw [Orderly] at h
  cases hphase : s.phase with
  | settled =>
    rw [hphase] at h
    have hsame : s.step a = s := by rw [step, hphase]
    rw [hsame]
    refine exact_of_orderly (by rw [Keeps, hphase]; trivial) ?_
    rw [Orderly, hphase]
    exact h
  | innerLoop =>
    rw [hphase] at h
    have hstep : s.step a = s.innerLoop a := by rw [step, hphase]
    rw [hstep]
    exact innerLoop_exact hphase h
  | commit =>
    rw [hphase] at h
    have hstep : s.step a = s.commitPending s.pendingMessages := by rw [step, hphase]
    have hkeeps : s.Keeps a ↔ ∀ m ∈ s.pendingMessages, m.commit ≠ .throws := by rw [Keeps, hphase]
    rw [hstep, Exact, hkeeps]
    exact commitPending_exact s.pendingMessages h.1 h.2.symm
  | prepare =>
    rw [hphase] at h
    have hstep : s.step a = s.prepare a := by rw [step, hphase]
    rw [hstep]
    exact prepare_exact hphase h.1 h.2
  | asides steering =>
    rw [hphase] at h
    have hstep : s.step a = s.asides a steering := by rw [step, hphase]
    have hkeeps : s.Keeps a ↔ KeepsAsides steering a := by rw [Keeps, hphase]
    rw [hstep, Exact, hkeeps]
    exact asides_exact h.1 h.2
  | lateAsides lateSteering =>
    rw [hphase] at h
    have hstep : s.step a = s.lateAsides a lateSteering := by rw [step, hphase]
    have hkeeps : s.Keeps a ↔ KeepsAsides lateSteering a := by rw [Keeps, hphase]
    rw [hstep, Exact, hkeeps]
    exact lateAsides_exact h.1 h.2
  | followUps lateSteering asideMessages =>
    rw [hphase] at h
    have hstep : s.step a = s.followUps a lateSteering asideMessages := by rw [step, hphase]
    have hkeeps : s.Keeps a ↔ (a.aborted = false → a.throws = true →
        lateSteering = [] ∧ asideMessages = []) := by rw [Keeps, hphase]
    rw [hstep, Exact, hkeeps]
    exact followUps_exact h.1 h.2
  | start | initialSteering | stream | tools | failedTurn | turnEnd | steering | beforeYield
  | lateSteering =>
    rw [hphase] at h
    refine exact_of_orderly (by rw [Keeps, hphase]; trivial) ?_
    rw [step, hphase]
    first
      | exact start_orderly a h.1 h.2
      | exact initialSteering_orderly a h.1 h.2
      | exact stream_orderly a h.1 h.2
      | exact tools_orderly a h.1 h.2
      | exact (h.1.addOwn a.own).settle h.2 false
      | exact turnEnd_orderly a h.1 h.2
      | exact steering_orderly a h.1 h.2
      | exact beforeYield_orderly a h.1 h.2
      | exact lateSteering_orderly a h.1 h.2

/-! ### A whole run -/

/-- By induction on the answers: the states along a run are accounted for as long as the
answers keep, and no longer. -/
theorem accounted_along_iff (as : List Answer) : ∀ {s : State}, s.Orderly →
      ((∀ bs, bs <+: as → (s.run bs).Accounted) ↔ s.Keeping as) := by
  induction as with
  | nil =>
    intro s h
    refine iff_of_true ?_ trivial
    intro bs hbs
    rw [prefix_nil.mp hbs]
    exact h.accounted
  | cons a as ih =>
    intro s h
    have hstep := step_exact h a
    constructor
    · intro hall
      have hkeeps : s.Keeps a := hstep.2 (hall [a] (prefix_append [a] as))
      refine ⟨hkeeps, (ih (hstep.1 hkeeps)).mp fun bs hbs => ?_⟩
      exact hall (a :: bs) ((prefix_cons_inj a).mpr hbs)
    rintro ⟨hkeeps, htail⟩ bs hbs
    cases bs with
    | nil => exact h.accounted
    | cons b bs =>
      obtain ⟨rfl, hrest⟩ := cons_prefix_cons.mp hbs
      exact (ih (hstep.1 hkeeps)).mpr htail bs hrest

end State

/-- **No dequeued message is lost** along a run exactly as long as its answers keep. -/
theorem run_accounted_iff (context newMessages initialMessages : List ℕ) (as : List Answer) :
    (∀ bs, bs <+: as → ((initial context newMessages initialMessages).run bs).Accounted) ↔
      (initial context newMessages initialMessages).Keeping as := by
  apply State.accounted_along_iff
  refine ⟨⟨?_, ?_, ?_, rfl, ?_⟩, rfl⟩ <;>
    simp [initial]

/-- A steering message without a discard hook, drained at the start, is dropped when the
deadline passes before the first turn: the run ends without an error, and the message is
nowhere. -/
theorem steering_dropped_at_deadline : ((initial [] [0] [0]).run
        [{}, { messages := [⟨1, .absent, .absent⟩] }, { deadline := true }]).phase =
      .settled false ∧
    ((initial [] [0] [0]).run
        [{}, { messages := [⟨1, .absent, .absent⟩] }, { deadline := true }]).dequeued =
      [⟨1, .absent, .absent⟩] ∧
    ((initial [] [0] [0]).run
        [{}, { messages := [⟨1, .absent, .absent⟩] }, { deadline := true }]).discarded = [] ∧
    ¬ ((initial [] [0] [0]).run
        [{}, { messages := [⟨1, .absent, .absent⟩] }, { deadline := true }]).Accounted := by
  refine ⟨by decide, by decide, by decide, ?_⟩
  intro hacc
  exact absurd hacc.dequeued (by decide)

end BreadboardTui.AgentLoop
