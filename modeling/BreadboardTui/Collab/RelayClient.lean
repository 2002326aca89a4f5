import BreadboardTui.Lib.Runs
import Mathlib.Tactic

/-!
# The socket to the relay

A `CollabSocket` sends frames in the order of the calls of `send`, one after another, each after
it was sealed. A frame that cannot be written to the connection is kept in a buffer, which is
written first, at the latest when the next connection opens. Nothing is ever written twice; what
the buffer cannot hold is dropped. Readings of `bufferedAmount` are arbitrary: `amount n` is the
`n`-th of a job.
-/

namespace BreadboardTui.Collab

inductive ReadyState where
  | connecting
  | opened
  | closed
  deriving DecidableEq, Repr

/-- A connection: the number it was opened with, and its `readyState`. -/
structure WebSocket where
  id : ℕ
  readyState : ReadyState
  deriving DecidableEq, Repr

/-- A job of `#sendChain`. -/
inductive SendJob (F : Type) where
  | send (frame : F)
  /-- What the timer of `#scheduleBackpressureDrain` adds, for the connection it was set for. -/
  | drain (ws : ℕ)
  deriving DecidableEq, Repr

def SendJob.frame? {F : Type} : SendJob F → Option F
  | .send frame => some frame
  | .drain _ => none

structure CollabSocket (F : Type) where
  ws : Option WebSocket := none
  retryTimer : Bool := false
  /-- The connection that the timer was set for. -/
  backpressureDrainTimer : Option ℕ := none
  closed : Bool := false
  sendChain : List (SendJob F) := []
  /-- The frame that is being sealed, by the first job of the chain. -/
  sealing : Option F := none
  pendingSends : List F := []
  deriving DecidableEq, Repr

def maxPendingSends : ℕ := 256

/-- `WS_BACKPRESSURE_THRESHOLD`. -/
def backpressureThreshold : ℕ := 64 * 1024

/-- `WS_BACKPRESSURE_DRAIN_THRESHOLD`. -/
def backpressureDrainThreshold : ℕ := 32 * 1024

namespace CollabSocket

variable {F : Type}

def isOpen (s : CollabSocket F) : Bool :=
  s.ws.any fun ws => ws.readyState = .opened

def send (s : CollabSocket F) (frame : F) : CollabSocket F :=
  { s with sendChain := s.sendChain ++ [.send frame] }

def enqueuePendingSend (s : CollabSocket F) (envelope : F) : CollabSocket F :=
  if maxPendingSends ≤ s.pendingSends.length then s
  else { s with pendingSends := s.pendingSends ++ [envelope] }

/-- The loop of `#drainPendingSends`: what is written, and what is left. -/
def drainLoop (amount : ℕ → ℕ) (reading : ℕ) : List F → List F × List F
  | [] => ([], [])
  | envelope :: rest =>
    if amount reading < backpressureDrainThreshold then
      let drained := drainLoop amount (reading + 1) rest
      (envelope :: drained.1, drained.2)
    else ([], envelope :: rest)

/-- `#drainPendingSends`, on an open connection: the frames that are written. -/
def drainPendingSends (s : CollabSocket F) (amount : ℕ → ℕ) (reading : ℕ) :
    CollabSocket F × List F :=
  let drained := drainLoop amount reading s.pendingSends
  ({ s with pendingSends := drained.2 }, drained.1)

def scheduleBackpressureDrain (s : CollabSocket F) (ws : ℕ) : CollabSocket F :=
  if s.backpressureDrainTimer = none then { s with backpressureDrainTimer := some ws } else s

/-- A job `send` up to `await seal`. The frames that are written come with the socket. -/
def startSend (s : CollabSocket F) (amount : ℕ → ℕ) : Option (CollabSocket F × List F) :=
  match s.sealing, s.sendChain with
  | none, .send frame :: chain =>
    let popped := { s with sendChain := chain }
    if s.closed then some (popped, [])
    else
      let started := { popped with sealing := some frame }
      some (if s.isOpen then started.drainPendingSends amount 0 else (started, []))
  | _, _ => none

/-- A job `send` after `await seal`. -/
def finishSend (s : CollabSocket F) (amount : ℕ → ℕ) : Option (CollabSocket F × List F) := do
  let envelope ← s.sealing
  let sealed := { s with sealing := none }
  match s.ws with
  | some ⟨id, .opened⟩ =>
    if 0 < s.pendingSends.length then
      let enqueued := sealed.enqueuePendingSend envelope
      if amount 0 < backpressureDrainThreshold then some (enqueued.drainPendingSends amount 1)
      else some (enqueued.scheduleBackpressureDrain id, [])
    else if backpressureThreshold ≤ amount 0 then
      some ((sealed.enqueuePendingSend envelope).scheduleBackpressureDrain id, [])
    else some (sealed, [envelope])
  | _ => some (sealed.enqueuePendingSend envelope, [])

/-- A job of the drain timer. -/
def runDrain (s : CollabSocket F) (amount : ℕ → ℕ) : Option (CollabSocket F × List F) :=
  match s.sealing, s.sendChain with
  | none, .drain ws :: chain =>
    let popped := { s with sendChain := chain }
    if s.closed ∨ s.ws ≠ some ⟨ws, .opened⟩ then some (popped, [])
    else
      let drained := popped.drainPendingSends amount 0
      if 0 < drained.1.pendingSends.length then
        some (drained.1.scheduleBackpressureDrain ws, drained.2)
      else some drained
  | _, _ => none

def fireDrainTimer (s : CollabSocket F) : Option (CollabSocket F) := do
  let ws ← s.backpressureDrainTimer
  some { s with backpressureDrainTimer := none, sendChain := s.sendChain ++ [.drain ws] }

/-- `#openSocket`, with the number of the new connection. -/
def openSocket (s : CollabSocket F) (id : ℕ) : CollabSocket F :=
  { s with backpressureDrainTimer := none, ws := some ⟨id, .connecting⟩ }

def connect (s : CollabSocket F) (id : ℕ) : Option (CollabSocket F) :=
  if s.ws.isSome ∨ s.retryTimer then none else some ({ s with closed := false }.openSocket id)

/-- The timer of `#scheduleRetry` fires. -/
def fireRetryTimer (s : CollabSocket F) (id : ℕ) : Option (CollabSocket F) :=
  if ¬ s.retryTimer then none
  else
    let fired := { s with retryTimer := false }
    if s.closed then some fired else some (fired.openSocket id)

/-- `ws.onopen`, up to the call of `onOpen`. -/
def handleOpen (s : CollabSocket F) (amount : ℕ → ℕ) : Option (CollabSocket F × List F) :=
  match s.ws with
  | some ⟨id, .connecting⟩ =>
    let opened := { s with ws := some ⟨id, .opened⟩ }
    let drained := opened.drainPendingSends amount 0
    if 0 < drained.1.pendingSends.length then
      some (drained.1.scheduleBackpressureDrain id, drained.2)
    else some drained
  | _ => none

/-- The connection is closing; `onclose` comes later. -/
def beginClose (s : CollabSocket F) : Option (CollabSocket F) := do
  let ws ← s.ws
  some { s with ws := some { ws with readyState := .closed } }

/-- `ws.onclose`, where `fatal` says whether the close code is one of `FATAL_CLOSE_REASONS`. -/
def handleClose (s : CollabSocket F) (fatal : Bool) : Option (CollabSocket F) := do
  let _ ← s.ws
  let lost := { s with ws := none, backpressureDrainTimer := none }
  if s.closed then some lost
  else if fatal then some { lost with closed := true, pendingSends := [] }
  else some { lost with retryTimer := true }

/-- `close` and `#failFatal`. -/
def close (s : CollabSocket F) : CollabSocket F :=
  { s with
    ws := none, retryTimer := false, backpressureDrainTimer := none, closed := true
    pendingSends := [] }

/-- The frames that were not written, in the order in which they will be. -/
def queue (s : CollabSocket F) : List F :=
  s.pendingSends ++ (s.sealing.toList ++ s.sendChain.filterMap SendJob.frame?)

/-! ### What a job does to the queue -/

/-- A job writes frames from the front of the queue, if the connection is open, and may drop
others, but not the one in front, and none if the buffer is not full. -/
structure Flow (s s' : CollabSocket F) (written : List F) : Prop where
  ws_eq : s'.ws = s.ws
  closed_eq : s'.closed = s.closed
  isOpen : written ≠ [] → s.isOpen = true
  sublist : (written ++ s'.queue).Sublist s.queue
  head : s.closed = false → (written ++ s'.queue).head? = s.queue.head?
  lossless : s.closed = false → (s.sealing ≠ none → s.pendingSends.length < maxPendingSends) →
    written ++ s'.queue = s.queue

theorem drainLoop_append (amount : ℕ → ℕ) (reading : ℕ) (pending : List F) :
    (drainLoop amount reading pending).1 ++ (drainLoop amount reading pending).2 = pending := by
  induction pending generalizing reading with
  | nil => rfl
  | cons envelope rest ih =>
    rw [drainLoop]
    split
    · exact congrArg (envelope :: ·) (ih (reading + 1))
    · rfl

@[simp] theorem queue_scheduleBackpressureDrain (s : CollabSocket F) (ws : ℕ) :
    (s.scheduleBackpressureDrain ws).queue = s.queue := by
  rw [scheduleBackpressureDrain]
  split <;> rfl

@[simp] theorem ws_scheduleBackpressureDrain (s : CollabSocket F) (ws : ℕ) :
    (s.scheduleBackpressureDrain ws).ws = s.ws := by
  rw [scheduleBackpressureDrain]
  split <;> rfl

@[simp] theorem closed_scheduleBackpressureDrain (s : CollabSocket F) (ws : ℕ) :
    (s.scheduleBackpressureDrain ws).closed = s.closed := by
  rw [scheduleBackpressureDrain]
  split <;> rfl

theorem queue_drainPendingSends (s : CollabSocket F) (amount : ℕ → ℕ) (reading : ℕ) :
    (s.drainPendingSends amount reading).2 ++ (s.drainPendingSends amount reading).1.queue =
      s.queue := by
  rw [queue, queue, ← List.append_assoc]
  simp [drainPendingSends, drainLoop_append]

variable {id : ℕ}

theorem isOpen_of_ws {s : CollabSocket F} (h : s.ws = some ⟨id, .opened⟩) : s.isOpen = true := by
  rw [isOpen, h]
  rfl

theorem enqueuePendingSend_cases (s : CollabSocket F) (envelope : F) :
    (maxPendingSends ≤ s.pendingSends.length ∧ s.enqueuePendingSend envelope = s) ∨
      s.enqueuePendingSend envelope = { s with pendingSends := s.pendingSends ++ [envelope] } := by
  rw [enqueuePendingSend]
  split
  · next h => exact .inl ⟨h, rfl⟩
  · exact .inr rfl

variable {s s' : CollabSocket F} {written : List F}

/-- A job that only moves frames from the front of the queue to the connection. -/
theorem flow_of_append (hws : s'.ws = s.ws)
    (hclosed : s'.closed = s.closed) (hopen : written ≠ [] → s.isOpen = true)
    (hqueue : written ++ s'.queue = s.queue) : Flow s s' written :=
  ⟨hws, hclosed, hopen, by rw [hqueue], fun _ => by rw [hqueue], fun _ _ => hqueue⟩

theorem Flow.drain (h : Flow s s' []) (hopen : s.isOpen = true) (amount : ℕ → ℕ) (reading : ℕ) :
    Flow s (s'.drainPendingSends amount reading).1 (s'.drainPendingSends amount reading).2 :=
  ⟨h.ws_eq, h.closed_eq, fun _ => hopen, by rw [queue_drainPendingSends]; exact h.sublist,
    fun hclosed => by rw [queue_drainPendingSends]; exact h.head hclosed,
    fun hclosed hlt => by rw [queue_drainPendingSends]; exact h.lossless hclosed hlt⟩

theorem Flow.schedule (h : Flow s s' written)
    (ws : ℕ) : Flow s (s'.scheduleBackpressureDrain ws) written := by
  refine ⟨?_, ?_, h.isOpen, ?_, fun hclosed => ?_, fun hclosed hlt => ?_⟩
  · rw [ws_scheduleBackpressureDrain, h.ws_eq]
  · rw [closed_scheduleBackpressureDrain, h.closed_eq]
  · rw [queue_scheduleBackpressureDrain]
    exact h.sublist
  · rw [queue_scheduleBackpressureDrain]
    exact h.head hclosed
  rw [queue_scheduleBackpressureDrain]
  exact h.lossless hclosed hlt

/-- A sealed frame goes to the end of the buffer or is dropped, and then it is not the first. -/
theorem flow_enqueue {envelope : F} (h : s.sealing = some envelope) :
    Flow s ({ s with sealing := none }.enqueuePendingSend envelope) [] := by
  rcases enqueuePendingSend_cases { s with sealing := none } envelope with ⟨hfull, heq⟩ | heq
  · have hfull : maxPendingSends ≤ s.pendingSends.length := hfull
    obtain ⟨first, rest, hpending⟩ : ∃ first rest, s.pendingSends = first :: rest :=
      List.exists_cons_of_length_pos (Nat.lt_of_lt_of_le (by decide) hfull)
    rw [heq]
    refine ⟨rfl, rfl, fun hnil => absurd rfl hnil, ?_, fun _ => ?_, fun _ hroom => ?_⟩
    · rw [queue, queue, h]
      exact List.Sublist.append_left (List.sublist_cons_self envelope _) s.pendingSends
    · rw [queue, queue, h, hpending]
      rfl
    have hlt := hroom (by rw [h]; exact Option.some_ne_none _)
    omega
  rw [heq]
  refine flow_of_append rfl rfl (fun hnil => absurd rfl hnil) ?_
  rw [queue, queue, h]
  exact List.append_assoc ..

variable {amount : ℕ → ℕ}

theorem flow_startSend (h : s.startSend amount = some (s', written)) : Flow s s' written := by
  rw [startSend] at h
  split at h
  · next frame chain hsealing hchain =>
    split at h
    · next hclosed =>
      -- only a closed socket drops the frame in front
      cases h
      have hnot {P : Prop} (hopen : s.closed = false) : P := by
        rw [hclosed] at hopen
        cases hopen
      refine ⟨rfl, rfl, fun hnil => absurd rfl hnil, ?_, hnot, hnot⟩
      · rw [queue, queue, hchain]
        exact ((List.sublist_cons_self frame _).append_left s.sealing.toList).append_left
          s.pendingSends
    have hstarted : Flow s { s with sendChain := chain, sealing := some frame } [] := by
      refine flow_of_append rfl rfl (fun hnil => absurd rfl hnil) ?_
      rw [queue, queue, hsealing, hchain]
      rfl
    split at h
    · next hopen =>
      cases h
      exact hstarted.drain hopen amount 0
    cases h
    exact hstarted
  · cases h

variable {result : CollabSocket F × List F}

theorem sealing_of_startSend (h : s.startSend amount = some result) : s.sealing = none := by
  rw [startSend] at h
  split at h
  · next hsealing _ => exact hsealing
  · cases h

theorem flow_finishSend (h : s.finishSend amount = some (s', written)) : Flow s s' written := by
  rw [finishSend] at h
  obtain ⟨envelope, hsealing, h⟩ := Option.bind_eq_some_iff.mp h
  have henqueued := flow_enqueue hsealing
  split at h
  · next id hws =>
    have hopen := isOpen_of_ws hws
    split at h
    · split at h
      · cases h
        exact henqueued.drain hopen amount 1
      · cases h
        exact henqueued.schedule id
    next hpending =>
    split at h
    · cases h
      exact henqueued.schedule id
    -- nothing waits in front of the frame
    cases h
    have hnil : s.pendingSends = [] := List.length_eq_zero_iff.mp (by omega)
    refine flow_of_append rfl rfl (fun _ => hopen) ?_
    rw [queue, queue, hsealing, hnil]
    rfl
  cases h
  exact henqueued

theorem flow_runDrain (h : s.runDrain amount = some (s', written)) : Flow s s' written := by
  rw [runDrain] at h
  split at h
  · next ws chain hsealing hchain =>
    have hpopped : Flow s { s with sendChain := chain } [] := by
      refine flow_of_append rfl rfl (fun hnil => absurd rfl hnil) ?_
      rw [queue, queue, hchain]
      rfl
    split at h
    · cases h
      exact hpopped
    next hnot =>
    have hopen : s.isOpen = true := isOpen_of_ws (not_not.mp (not_or.mp hnot).2)
    dsimp only at h
    split at h
    · cases h
      exact (hpopped.drain hopen amount 0).schedule ws
    cases h
    exact hpopped.drain hopen amount 0
  · cases h

theorem sealing_of_runDrain (h : s.runDrain amount = some result) : s.sealing = none := by
  rw [runDrain] at h
  split at h
  · next hsealing _ => exact hsealing
  · cases h

/-! ### What the other steps do to the queue -/

theorem handleOpen_eq_some (h : s.handleOpen amount = some (s', written)) :
    ∃ id, s.ws = some ⟨id, .connecting⟩ ∧ s'.ws = some ⟨id, .opened⟩ ∧ s'.closed = s.closed ∧
      written ++ s'.queue = s.queue := by
  rw [handleOpen] at h
  split at h
  · next id hws =>
    refine ⟨id, hws, ?_⟩
    dsimp only at h
    split at h
    · cases h
      rw [ws_scheduleBackpressureDrain, closed_scheduleBackpressureDrain,
        queue_scheduleBackpressureDrain, queue_drainPendingSends]
      exact ⟨rfl, rfl, rfl⟩
    cases h
    exact ⟨rfl, rfl, queue_drainPendingSends _ amount 0⟩
  · cases h

@[simp] theorem queue_send (s : CollabSocket F) (frame : F) :
    (s.send frame).queue = s.queue ++ [frame] := by
  simp only [queue, send, List.filterMap_append, List.append_assoc]
  rfl

theorem queue_fireDrainTimer (h : s.fireDrainTimer = some s') :
    s'.queue = s.queue ∧ s'.ws = s.ws ∧ s'.closed = s.closed := by
  rw [fireDrainTimer] at h
  obtain ⟨ws, -, h⟩ := Option.bind_eq_some_iff.mp h
  injection h with h
  rw [← h]
  constructor
  · simp only [queue, List.filterMap_append]
    exact congrArg _ (congrArg _ (List.append_nil _))
  · exact ⟨rfl, rfl⟩

theorem sublist_queue_of_pendingSends (hsealing : s'.sealing = s.sealing)
    (hchain : s'.sendChain = s.sendChain) (hpending : s'.pendingSends = []) :
    s'.queue.Sublist s.queue := by
  rw [queue, queue, hsealing, hchain, hpending]
  exact List.sublist_append_right _ _

theorem handleClose_eq_some {fatal : Bool}
    (h : s.handleClose fatal = some s') : s'.ws = none ∧ s'.queue.Sublist s.queue := by
  rw [handleClose] at h
  obtain ⟨ws, -, h⟩ := Option.bind_eq_some_iff.mp h
  split at h
  · injection h with h
    rw [← h]
    exact ⟨rfl, List.Sublist.refl _⟩
  split at h
  · injection h with h
    rw [← h]
    exact ⟨rfl, sublist_queue_of_pendingSends rfl rfl rfl⟩
  injection h with h
  rw [← h]
  exact ⟨rfl, List.Sublist.refl _⟩

theorem handleClose_transient (h : s.handleClose false = some s') :
    s'.closed = s.closed ∧ s'.queue = s.queue := by
  rw [handleClose] at h
  obtain ⟨ws, -, h⟩ := Option.bind_eq_some_iff.mp h
  split at h
  · injection h with h
    rw [← h]
    exact ⟨rfl, rfl⟩
  split at h
  · next hfatal => cases hfatal
  injection h with h
  rw [← h]
  exact ⟨rfl, rfl⟩

theorem beginClose_eq_some (h : s.beginClose = some s') :
    ∃ ws, s.ws = some ws ∧ s'.ws = some ⟨ws.id, .closed⟩ ∧ s'.closed = s.closed ∧
      s'.queue = s.queue := by
  rw [beginClose] at h
  obtain ⟨ws, hws, h⟩ := Option.bind_eq_some_iff.mp h
  injection h with h
  rw [← h]
  exact ⟨ws, hws, rfl, rfl, rfl⟩

theorem connect_eq_some (h : s.connect id = some s') :
    s'.ws = some ⟨id, .connecting⟩ ∧ s'.closed = false ∧ s'.queue = s.queue := by
  rw [connect] at h
  split at h
  · cases h
  injection h with h
  rw [← h]
  exact ⟨rfl, rfl, rfl⟩

theorem fireRetryTimer_eq_some (h : s.fireRetryTimer id = some s') :
    s'.closed = s.closed ∧ s'.queue = s.queue ∧
      (s.closed = true ∧ s'.ws = s.ws ∨ s.closed = false ∧ s'.ws = some ⟨id, .connecting⟩) := by
  rw [fireRetryTimer] at h
  split at h
  · cases h
  split at h
  · next hclosed =>
    injection h with h
    rw [← h]
    exact ⟨rfl, rfl, .inl ⟨hclosed, rfl⟩⟩
  next hclosed =>
  injection h with h
  rw [← h]
  exact ⟨rfl, rfl, .inr ⟨Bool.eq_false_of_not_eq_true hclosed, rfl⟩⟩

end CollabSocket

end BreadboardTui.Collab
