import Mathlib.Tactic

/-!
# Tool calls and their results

A turn of `runLoopBody` adds the assistant's message to `newMessages` and then, in one of five
places, a result for each of its tool calls: the results of `executeToolCalls` with its final
sweep, and placeholders for a message that is an error or aborted, for a soft tool requirement
the turn did not meet, and for a turn that was cut off or met the deadline.

The machine here is the one of the turns: messages of the queues and reminders are opaque, and
what a message carries is its tool calls and its stop reason. The provider's stream is a list of
events, walked as `streamAssistantResponse` does.
-/

namespace BreadboardTui.ToolPairing

open List

/-! ### Messages -/

/-- Why the assistant stopped. -/
inductive StopReason where
  | stop
  | length
  | toolUse
  | error
  | aborted
  deriving DecidableEq, Repr

/-- A tool call; `execResolved` marks one the provider has executed itself. -/
structure ToolCall where
  id : ℕ
  execResolved : Bool := false
  deriving DecidableEq, Repr

structure AssistantMessage where
  content : List ToolCall := []
  stopReason : StopReason := .stop
  deriving DecidableEq, Repr

/-- A message of the conversation. -/
inductive Message where
  | assistant (m : AssistantMessage)
  | toolResult (toolCallId : ℕ)
  | other (n : ℕ)
  deriving DecidableEq, Repr

/-- The calls of a message that the loop has to answer. -/
def AssistantMessage.toolCalls (m : AssistantMessage) : List ToolCall :=
  m.content.filter fun c => !c.execResolved

/-- The ids of these calls. -/
def AssistantMessage.callIds (m : AssistantMessage) : List ℕ :=
  m.toolCalls.map ToolCall.id

/-- The tool results that come before the next assistant message. -/
def leadingResults : List Message → List ℕ
  | [] => []
  | .assistant _ :: _ => []
  | .toolResult id :: ms => id :: leadingResults ms
  | .other _ :: ms => leadingResults ms

/-- Every tool call is answered: between an assistant message and the next one stand the results
of its calls, one for each of them and no other, and no result stands in front of the first. -/
structure Answered (ms : List Message) : Prop where
  calls : ∀ l m r, ms = l ++ Message.assistant m :: r → (leadingResults r).Perm m.callIds
  first : leadingResults ms = []

/-! ### How an answered conversation grows -/

theorem leadingResults_append_other (ms : List Message) (n : ℕ) :
    leadingResults (ms ++ [.other n]) = leadingResults ms := by
  induction ms with
  | nil => rfl
  | cons m ms ih =>
    rcases m with m | id | k
    · rfl
    · simpa only [cons_append, leadingResults, List.cons.injEq, true_and] using ih
    · simpa only [cons_append, leadingResults] using ih

theorem leadingResults_append_assistant (ms r : List Message) (m : AssistantMessage) :
    leadingResults (ms ++ .assistant m :: r) = leadingResults ms := by
  induction ms with
  | nil => rfl
  | cons m ms ih =>
    rcases m with m | id | k
    · rfl
    · simpa only [cons_append, leadingResults, List.cons.injEq, true_and] using ih
    · simpa only [cons_append, leadingResults] using ih

theorem leadingResults_results (ids : List ℕ) :
    leadingResults (ids.map Message.toolResult) = ids := by
  induction ids with
  | nil => rfl
  | cons id ids ih => simpa only [map_cons, leadingResults, List.cons.injEq, true_and] using ih

theorem answered_nil : Answered [] := by
  refine ⟨?_, rfl⟩
  intro l m r h
  cases l <;> cases h

variable {ms : List Message}

theorem Answered.append_other (h : Answered ms) (n : ℕ) : Answered (ms ++ [.other n]) := by
  refine ⟨?_, (leadingResults_append_other ms n).trans h.first⟩
  intro l m r hms
  rcases eq_nil_or_concat r with rfl | ⟨r', x, rfl⟩
  · have hlast := congrArg List.getLast? hms
    simp at hlast
  rw [concat_eq_append] at hms ⊢
  rw [← cons_append, ← append_assoc] at hms
  obtain ⟨hinit, hx⟩ := append_inj' hms rfl
  rw [List.cons.injEq] at hx
  rw [← hx.1, leadingResults_append_other]
  exact h.calls l m r' hinit

theorem Answered.append_others (h : Answered ms) (ns : List ℕ) :
    Answered (ms ++ ns.map Message.other) := by
  induction ns generalizing ms with
  | nil => simpa only [map_nil, append_nil] using h
  | cons n ns ih =>
    have hone := ih (h.append_other n)
    simpa only [map_cons, append_assoc, singleton_append] using hone

/-- A whole turn: an assistant message with a result for each of its calls. -/
theorem Answered.append_turn (h : Answered ms) {m : AssistantMessage}
    {ids : List ℕ} (hids : ids.Perm m.callIds) :
    Answered (ms ++ .assistant m :: ids.map Message.toolResult) := by
  refine ⟨?_, (leadingResults_append_assistant ms _ m).trans h.first⟩
  intro l m' r hms
  have hown : ∀ k, Message.assistant m :: ids.map Message.toolResult = k ++ .assistant m' :: r →
      (leadingResults r).Perm m'.callIds := by
    intro k hk
    cases k with
    | nil =>
      simp only [nil_append, List.cons.injEq, Message.assistant.injEq] at hk
      rw [← hk.1, ← hk.2, leadingResults_results]
      exact hids
    | cons x k =>
      -- behind the assistant message stand results only
      have htail : ids.map Message.toolResult = k ++ .assistant m' :: r := (List.cons.inj hk).2
      have hmem : Message.assistant m' ∈ ids.map Message.toolResult := by
        rw [htail]
        exact mem_append_right _ (mem_cons_self ..)
      obtain ⟨id, -, hid⟩ := mem_map.mp hmem
      cases hid
  rcases append_eq_append_iff.mp hms with ⟨k, -, hk⟩ | ⟨k, hl, hk⟩
  · exact hown k hk
  cases k with
  | nil => exact hown [] hk.symm
  | cons x k =>
    rw [cons_append, List.cons.injEq] at hk
    obtain ⟨hx, hr⟩ := hk
    rw [hr, leadingResults_append_assistant]
    rw [← hx] at hl
    exact h.calls l m' k hl

/-! ### The provider's stream -/

/-- What the provider's stream brings. A list that ends without one of the last four is a stream
that throws. -/
inductive StreamEvent where
  | start (partialMessage : AssistantMessage)
  /-- A delta of the message; `onAssistantMessageEvent` may throw on it. -/
  | update (partialMessage : AssistantMessage) (throws : Bool)
  /-- The final message; its transformation or the preparation of its calls may throw. -/
  | done (message : AssistantMessage) (throws : Bool)
  /-- A final message in which a leak of the Harmony protocol is found. -/
  | leak (recovered : Option AssistantMessage)
  /-- The run is aborted, and `message` is what is kept of the answer. -/
  | aborted (message : AssistantMessage)
  /-- The stream ends without a final event, with `message` for its result. -/
  | ended (message : AssistantMessage)
  deriving DecidableEq, Repr

/-- What a call of `streamAssistantResponse` comes to. -/
inductive Streamed where
  | returned (m : AssistantMessage)
  | leaked (recovered : Option AssistantMessage)
  | threw
  deriving DecidableEq, Repr

/-- The message takes the partial one's place in the context, or is added. -/
def replacePartial (context : List Message) (addedPartial : Bool) (m : AssistantMessage) :
    List Message :=
  (if addedPartial then context.dropLast else context) ++ [.assistant m]

/-- `streamAssistantResponse`: the context it leaves, and what it returns or throws. -/
def streamAssistantResponse (context : List Message) (addedPartial : Bool) :
    List StreamEvent → List Message × Streamed
  | [] => (context, .threw)
  | .start p :: es => streamAssistantResponse (replacePartial context addedPartial p) true es
  | .update p throws :: es =>
    if addedPartial then
      if throws then (replacePartial context addedPartial p, .threw)
      else streamAssistantResponse (replacePartial context addedPartial p) addedPartial es
    else streamAssistantResponse context addedPartial es
  | .done m throws :: _ =>
    if throws then (context, .threw) else (replacePartial context addedPartial m, .returned m)
  | .leak recovered :: _ =>
    (if addedPartial then context.dropLast else context, .leaked recovered)
  | .aborted m :: _ => (replacePartial context addedPartial m, .returned m)
  | .ended m :: _ =>
    (if addedPartial then replacePartial context addedPartial m else context, .returned m)

/-- The stream throws after its first message event. -/
def throwsStarted (addedPartial : Bool) : List StreamEvent → Prop
  | [] => addedPartial = true
  | .start _ :: es => throwsStarted true es
  | .update _ throws :: es =>
    addedPartial = true ∧ throws = true ∨ throwsStarted addedPartial es
  | .done _ throws :: _ => addedPartial = true ∧ throws = true
  | _ :: _ => False

/-- The stream ends without a final event and without a first one. -/
def endsUnstarted (addedPartial : Bool) : List StreamEvent → Prop
  | .start _ :: es => endsUnstarted true es
  | .update _ _ :: es => endsUnstarted addedPartial es
  | .ended _ :: _ => addedPartial = false
  | _ => False

/-- What a stream may leave in the context `base` it was called with. -/
def StreamLeaves (base : List Message) (threwStarted unstarted : Prop) :
    List Message × Streamed → Prop
  | (context, .returned m) => context = base ++ [.assistant m] ∨ unstarted
  | (context, .leaked _) => context = base
  | (context, .threw) => context = base ∨ threwStarted

/-- By induction on the events: the partial message is the one message the stream ever adds. -/
theorem streamAssistantResponse_leaves (base : List Message) (es : List StreamEvent) :
    ∀ (addedPartial : Bool) (p : AssistantMessage),
      StreamLeaves base (throwsStarted addedPartial es) (endsUnstarted addedPartial es)
        (streamAssistantResponse (if addedPartial then base ++ [.assistant p] else base)
          addedPartial es) := by
  have hreplace : ∀ (added : Bool) (p m : AssistantMessage),
      replacePartial (if added then base ++ [.assistant p] else base) added m =
        base ++ [.assistant m] := by
    intro added p m
    cases added <;> simp [replacePartial]
  induction es with
  | nil =>
    intro added p
    cases added
    · exact Or.inl rfl
    · exact Or.inr rfl
  | cons e es ih =>
    intro added p
    cases e with
    | start q =>
      rw [streamAssistantResponse, hreplace]
      exact ih true q
    | update q throws =>
      rw [streamAssistantResponse, hreplace]
      cases added with
      | false =>
        have hrest := ih false p
        simpa only [throwsStarted, endsUnstarted, Bool.false_eq_true, if_false, false_and,
          false_or] using hrest
      | true =>
        cases throws with
        | true => exact Or.inr (Or.inl ⟨rfl, rfl⟩)
        | false =>
          have hrest := ih true q
          simpa only [throwsStarted, endsUnstarted, Bool.false_eq_true, if_true, if_false,
            and_false, false_or] using hrest
    | done m throws =>
      rw [streamAssistantResponse, hreplace]
      cases throws with
      | false => exact Or.inl rfl
      | true =>
        cases added
        · exact Or.inl rfl
        · exact Or.inr ⟨rfl, rfl⟩
    | leak =>
      rw [streamAssistantResponse]
      cases added
      · rfl
      · exact dropLast_concat
    | aborted =>
      rw [streamAssistantResponse, hreplace]
      exact Or.inl rfl
    | ended =>
      rw [streamAssistantResponse, hreplace]
      cases added
      · exact Or.inr rfl
      · exact Or.inl rfl

/-! ### The batch of the tools -/

/-- A call of the batch with its place. -/
abbrev Record := ToolCall × ℕ

/-- `emitToolResult`: a record's result goes out once. -/
def emitToolResult (emitted : List Record) (record : Record) : List Record :=
  if record ∈ emitted then emitted else emitted ++ [record]

/-- The calls of `schedule` report in its order, whatever became of them. -/
def runTools (records : List Record) (schedule : List ℕ) : List Record :=
  (schedule.filterMap fun i => records[i]?).foldl emitToolResult []

/-- `executeToolCalls`: the ids of the results, in the order they went out. The sweep at the end
answers the calls that have not reported. -/
def executeToolCalls (calls : List ToolCall) (schedule : List ℕ) : List ℕ :=
  (calls.zipIdx.foldl emitToolResult (runTools calls.zipIdx schedule)).map fun r => r.1.id

theorem foldl_emitToolResult (rs : List Record) : ∀ emitted : List Record, emitted.Nodup →
      (rs.foldl emitToolResult emitted).Nodup ∧
        ∀ r, r ∈ rs.foldl emitToolResult emitted ↔ r ∈ emitted ∨ r ∈ rs := by
  induction rs with
  | nil =>
    intro emitted h
    refine ⟨h, fun r => ?_⟩
    simp
  | cons x rs ih =>
    intro emitted h
    have hone : (emitToolResult emitted x).Nodup ∧
        ∀ r, r ∈ emitToolResult emitted x ↔ r ∈ emitted ∨ r = x := by
      rw [emitToolResult]
      split
      case isTrue hx =>
        refine ⟨h, fun r => ⟨Or.inl, ?_⟩⟩
        rintro (hr | rfl)
        · exact hr
        · exact hx
      case isFalse hx =>
        refine ⟨?_, fun r => by simp only [mem_append, mem_singleton]⟩
        rw [nodup_append]
        refine ⟨h, nodup_singleton x, ?_⟩
        intro a ha b hb hab
        rw [mem_singleton] at hb
        rw [hab, hb] at ha
        exact hx ha
    obtain ⟨hnodup, hmem⟩ := ih _ hone.1
    refine ⟨hnodup, fun r => ?_⟩
    rw [foldl_cons, hmem, hone.2, mem_cons, or_assoc]

/-- **One result per call**, in whatever order the tools report. -/
theorem executeToolCalls_perm (calls : List ToolCall) (schedule : List ℕ) :
    (executeToolCalls calls schedule).Perm (calls.map ToolCall.id) := by
  have hran := foldl_emitToolResult (schedule.filterMap fun i => calls.zipIdx[i]?) [] nodup_nil
  have hswept := foldl_emitToolResult calls.zipIdx (runTools calls.zipIdx schedule) hran.1
  have hsub : ∀ r, r ∈ runTools calls.zipIdx schedule → r ∈ calls.zipIdx := by
    intro r hr
    rcases (hran.2 r).mp hr with hnil | hscheduled
    · cases hnil
    obtain ⟨i, -, hi⟩ := mem_filterMap.mp hscheduled
    exact mem_of_getElem? hi
  have hnodup : calls.zipIdx.Nodup := by
    apply List.Nodup.of_map Prod.snd
    rw [zipIdx_map_snd]
    exact nodup_range'
  have hperm : (calls.zipIdx.foldl emitToolResult (runTools calls.zipIdx schedule)).Perm
      calls.zipIdx := by
    rw [perm_ext_iff_of_nodup hswept.1 hnodup]
    intro r
    rw [hswept.2]
    exact ⟨fun hr => hr.elim (hsub r) id, Or.inr⟩
  have hids : calls.zipIdx.map (fun r => r.1.id) = calls.map ToolCall.id := by
    have hfst := congrArg (List.map ToolCall.id) (zipIdx_map_fst 0 calls)
    rw [map_map] at hfst
    exact hfst
  rw [executeToolCalls, ← hids]
  exact hperm.map _

/-! ### The loop -/

def maxSoftToolEscalations : ℕ := 3

def maxPausedTurnContinuations : ℕ := 8

/-- Where the loop stands. -/
inductive Phase where
  | start
  | innerLoop
  | stream
  | turn (m : AssistantMessage)
  | boundary
  | yielding
  | settled (threw : Bool)
  deriving DecidableEq, Repr

/-- The variables of `runLoopBody` that the turns use. -/
structure State where
  phase : Phase := .start
  context : List Message := []
  newMessages : List Message := []
  pendingMessages : List ℕ := []
  hasMoreToolCalls : Bool := true
  turnOpen : Bool := false
  directiveResolvedForTurn : Bool := false
  softRequiredTool : Option ℕ := none
  escalations : ℕ := 0
  harmonyRetryAttempt : ℕ := 0
  harmonyTruncateResumeCount : ℕ := 0
  pausedTurnContinuations : ℕ := 0
  deriving DecidableEq, Repr

/-- What `softSatisfies` says of the calls of a turn: of each of them, or it throws. -/
inductive SoftCheck where
  | every (satisfied : Bool)
  | throws
  deriving DecidableEq, Repr

/-- What comes back at a phase. Each phase reads the fields it needs. -/
structure Answer where
  deadline : Bool := false
  deadlineAfter : Bool := false
  /-- The phase's callback throws: a commit hook, a preparation, an audit, a hook, a queue. -/
  throws : Bool := false
  /-- A callback in front of the phase's first message throws. -/
  throwsBefore : Bool := false
  /-- The commit hook of the pending message at this place throws. -/
  commitThrows : Option ℕ := none
  /-- The soft requirement of the directive, whether it is a new one, and its reminders. -/
  softRequiredTool : Option ℕ := none
  newRequirement : Bool := false
  reminders : List ℕ := []
  /-- The gate stops the run, and `onToolChoiceRejected` or `onTurnEnd` may throw then. -/
  gateStops : Bool := false
  gateThrows : Bool := false
  events : List StreamEvent := []
  softCheck : SoftCheck := .every true
  /-- `hardToolChoiceBlocks`: the configured choice excludes the required tool. -/
  hardToolChoiceBlocks : Bool := false
  /-- The dispatch of the batch throws, or its tools report in this order. -/
  dispatchThrows : Bool := false
  schedule : List ℕ := []
  /-- A tool's result is terminal. -/
  terminal : Bool := false
  /-- The provider has paused the turn. -/
  pauseTurn : Bool := false
  /-- The messages a drain returns. -/
  messages : List ℕ := []
  deriving DecidableEq, Repr

namespace State

/-- The loop ends. -/
def settle (s : State) (threw : Bool) : State :=
  { s with phase := .settled threw }

/-- Messages enter the context and `newMessages`. -/
def push (s : State) (ms : List Message) : State :=
  { s with context := s.context ++ ms, newMessages := s.newMessages ++ ms }

/-- The directive of a turn: the soft requirement, its reminders and the escalation count. -/
def resolveDirective (s : State) (a : Answer) : State :=
  if s.directiveResolvedForTurn then s
  else
    let s := { s with
      softRequiredTool := a.softRequiredTool
      directiveResolvedForTurn := true }
    match a.softRequiredTool with
    | none => { s with escalations := 0 }
    | some _ =>
      if a.newRequirement then { s.push (a.reminders.map .other) with escalations := 0 } else s

/-- `createGateStopMessage`. -/
def gateStopMessage : AssistantMessage :=
  { content := [], stopReason := .aborted }

/-- The first deadline check and the steering messages at the start. -/
def start (s : State) (a : Answer) : State :=
  if a.deadline then s.settle false
  else if a.throws then s.settle true
  else { s with phase := .innerLoop, pendingMessages := a.messages }

/-- An iteration up to the model call. -/
def innerLoop (s : State) (a : Answer) : State :=
  if ¬s.hasMoreToolCalls ∧ s.pendingMessages = [] then { s with phase := .yielding }
  else if a.deadline then s.settle false
  else
    match a.commitThrows with
    | some i => (s.push ((s.pendingMessages.take (i + 1)).map .other)).settle true
    | none =>
      let s := { s.push (s.pendingMessages.map .other) with pendingMessages := [] }
      if a.throwsBefore then s.settle true
      else
        let s := s.resolveDirective a
        if a.throws then s.settle true
        else if a.gateStops then
          if s.turnOpen then (s.push [.assistant gateStopMessage]).settle a.gateThrows
          else s.settle a.gateThrows
        else { s with phase := .stream, turnOpen := true }

/-- The model call. -/
def stream (s : State) (a : Answer) : State :=
  match streamAssistantResponse s.context false a.events with
  | (context, .returned m) =>
    { s with
      phase := .turn m
      context := context
      newMessages := s.newMessages ++ [.assistant m]
      harmonyRetryAttempt := 0
      harmonyTruncateResumeCount := 0 }
  | (context, .leaked (some m)) =>
    let s := { s with context := context }
    if s.harmonyTruncateResumeCount ≥ 2 ∨ a.throws then s.settle true
    else
      { s.push [.assistant m] with
        phase := .turn m
        harmonyRetryAttempt := 0
        harmonyTruncateResumeCount := s.harmonyTruncateResumeCount + 1 }
  | (context, .leaked none) =>
    let s := { s with context := context }
    if s.harmonyRetryAttempt ≥ 2 ∨ a.throws then s.settle true
    else { s with phase := .innerLoop, harmonyRetryAttempt := s.harmonyRetryAttempt + 1 }
  | (context, .threw) => { s with context := context }.settle true

/-- The turn's calls may run: its stop reason is not `length`, and the deadline has not passed. -/
def runnable (m : AssistantMessage) (a : Answer) : Bool :=
  decide (m.stopReason = .toolUse ∨ m.stopReason = .stop) && !m.toolCalls.isEmpty && !a.deadline

/-- `softSatisfies` is asked, and throws. -/
def softCheckThrows (s : State) (m : AssistantMessage) (a : Answer) : Bool :=
  s.softRequiredTool.isSome && !m.toolCalls.isEmpty && decide (a.softCheck = .throws)

/-- A soft requirement is pending, and the turn did not call its tool and nothing else. -/
def softNonCompliant (s : State) (m : AssistantMessage) (a : Answer) : Bool :=
  s.softRequiredTool.isSome && !a.hardToolChoiceBlocks &&
    !(!m.toolCalls.isEmpty && decide (a.softCheck = .every true))

/-- A result for each call, in order (`createAbortedToolResult`). -/
def answerAll (s : State) (m : AssistantMessage) : State :=
  s.push (m.callIds.map .toolResult)

/-- The end of a turn that is not a failed one. -/
def endTurn (s : State) (m : AssistantMessage) (a : Answer) : State :=
  let hasMore := s.hasMoreToolCalls && !a.terminal
  let paused := m.toolCalls.isEmpty && !hasMore && decide (m.stopReason = .stop) && a.pauseTurn &&
    decide (s.pausedTurnContinuations < maxPausedTurnContinuations)
  let s := { s with
    hasMoreToolCalls := hasMore || paused
    pausedTurnContinuations :=
      if m.toolCalls.isEmpty then s.pausedTurnContinuations + (if paused then 1 else 0) else 0 }
  if a.throws then s.settle true
  else
    let s := { s with turnOpen := false }
    if a.deadlineAfter then s.settle false else { s with phase := .boundary }

/-- A turn from its assistant message on. -/
def turn (s : State) (m : AssistantMessage) (a : Answer) : State :=
  let s := { s with directiveResolvedForTurn := false }
  if m.stopReason = .error ∨ m.stopReason = .aborted then (s.answerAll m).settle false
  else if s.softCheckThrows m a then s.settle true
  else if s.softNonCompliant m a then
    if s.escalations ≥ maxSoftToolEscalations then s.settle true
    else
      { s.answerAll m with
        escalations := s.escalations + 1
        hasMoreToolCalls := true }.endTurn m a
  else if runnable m a then
    if a.dispatchThrows then s.settle true
    else
      { s.push ((executeToolCalls m.toolCalls a.schedule).map .toolResult) with
        hasMoreToolCalls := true }.endTurn m a
  else
    { s.answerAll m with
      hasMoreToolCalls :=
        !m.toolCalls.isEmpty && decide (m.stopReason = StopReason.length) && !a.deadline }.endTurn m a

/-- The drains behind a turn. -/
def boundary (s : State) (a : Answer) : State :=
  if a.throws then s.settle true
  else { s with phase := .innerLoop, pendingMessages := a.messages }

/-- The drains at the yield check. -/
def yielding (s : State) (a : Answer) : State :=
  if a.deadline then s.settle false
  else if a.throws then s.settle true
  else if a.messages = [] then s.settle false
  else
    { s with phase := .innerLoop, hasMoreToolCalls := true, pendingMessages := a.messages }

/-- One phase of `runLoopBody`. -/
def step (s : State) (a : Answer) : State :=
  match s.phase with
  | .start => s.start a
  | .innerLoop => s.innerLoop a
  | .stream => s.stream a
  | .turn m => s.turn m a
  | .boundary => s.boundary a
  | .yielding => s.yielding a
  | .settled _ => s

/-- A run, answer by answer. -/
def run (s : State) : List Answer → State
  | [] => s
  | a :: as => (s.step a).run as

/-- The answers under which a step leaves no call unanswered.

* The stream does not throw with a message of its own in the context, unless `newMessages` is
  empty, and it does not end with a message it has not put there.
* A turn with calls, which has not failed, meets its soft requirement or has escalations left,
  and neither `softSatisfies` nor the dispatch of its calls throws. -/
def Keeps (s : State) (a : Answer) : Prop :=
  match s.phase with
  | .stream => (throwsStarted false a.events → s.newMessages = []) ∧ ¬ endsUnstarted false a.events
  | .turn m =>
    m.toolCalls = [] ∨ m.stopReason = .error ∨ m.stopReason = .aborted ∨
      s.softCheckThrows m a = false ∧
        (s.softNonCompliant m a = true → s.escalations < maxSoftToolEscalations) ∧
        (s.softNonCompliant m a = false → runnable m a = true → a.dispatchThrows = false)
  | _ => True

/-- Every answer of a run keeps. -/
def Keeping (s : State) : List Answer → Prop
  | [] => True
  | a :: as => s.Keeps a ∧ (s.step a).Keeping as

/-- The conversation is answered, and the context ends with it. -/
structure Good (s : State) : Prop where
  answered : Answered s.newMessages
  context : s.newMessages <:+ s.context

/-- In a turn, the assistant message is the last one and its calls are open. -/
def Orderly (s : State) : Prop :=
  match s.phase with
  | .turn m => ∃ ms, s.newMessages = ms ++ [.assistant m] ∧ Answered ms ∧
      s.newMessages <:+ s.context
  | _ => s.Good

/-! ### One step -/

variable {s : State} {m : AssistantMessage}

variable {ms : List Message}

theorem Good.push (h : s.newMessages <:+ s.context)
    (hms : Answered (s.newMessages ++ ms)) : (s.push ms).Good := by
  refine ⟨hms, ?_⟩
  obtain ⟨old, hold⟩ := h
  refine ⟨old, ?_⟩
  change old ++ (s.newMessages ++ ms) = s.context ++ ms
  rw [← append_assoc, hold]

theorem Good.push_others (h : s.Good) (ns : List ℕ) : (s.push (ns.map Message.other)).Good :=
  Good.push h.context (h.answered.append_others ns)

theorem Good.settle (h : s.Good) (threw : Bool) : (s.settle threw).Orderly :=
  ⟨h.answered, h.context⟩

variable (a : Answer)

theorem resolveDirective_good (h : s.Good) : (s.resolveDirective a).Good := by
  rw [resolveDirective]
  split
  · exact h
  split
  · exact ⟨h.answered, h.context⟩
  split
  · have hreminded := h.push_others a.reminders
    exact ⟨hreminded.answered, hreminded.context⟩
  · exact ⟨h.answered, h.context⟩

theorem start_orderly (h : s.Good) : (s.start a).Orderly := by
  rw [start]
  split
  · exact h.settle false
  split
  · exact h.settle true
  · exact ⟨h.answered, h.context⟩

theorem gateStopMessage_good (h : s.Good) : (s.push [.assistant gateStopMessage]).Good := by
  have hids : ([] : List ℕ).Perm gateStopMessage.callIds := List.Perm.refl _
  exact Good.push h.context (h.answered.append_turn hids)

theorem innerLoop_orderly (h : s.Good) : (s.innerLoop a).Orderly := by
  rw [innerLoop]
  split
  · exact ⟨h.answered, h.context⟩
  split
  · exact h.settle false
  split
  case h_1 i _ => exact (h.push_others _).settle true
  case h_2 =>
    have hplaced := h.push_others s.pendingMessages
    have hcommitted : State.Good
        { s.push (s.pendingMessages.map Message.other) with pendingMessages := [] } :=
      ⟨hplaced.answered, hplaced.context⟩
    have hresolved := resolveDirective_good a hcommitted
    dsimp only
    split
    · exact hcommitted.settle true
    split
    · exact hresolved.settle true
    split
    · split
      · exact (gateStopMessage_good hresolved).settle _
      · exact hresolved.settle _
    · exact ⟨hresolved.answered, hresolved.context⟩

theorem stream_orderly {a : Answer} (h : s.Good)
    (hthrows : throwsStarted false a.events → s.newMessages = [])
    (hends : ¬ endsUnstarted false a.events) : (s.stream a).Orderly := by
  have hleaves := streamAssistantResponse_leaves s.context a.events false {}
  have hsame : (if (false = true) then s.context ++ [.assistant ({} : AssistantMessage)]
      else s.context) = s.context := if_neg Bool.false_ne_true
  rw [hsame] at hleaves
  rw [stream]
  split
  case h_1 context m heq =>
    rw [heq] at hleaves
    rcases hleaves with hcontext | hunstarted
    · refine ⟨s.newMessages, rfl, h.answered, ?_⟩
      obtain ⟨old, hold⟩ := h.context
      refine ⟨old, ?_⟩
      rw [hcontext, ← append_assoc, hold]
    · exact absurd hunstarted hends
  case h_2 context m heq =>
    rw [heq] at hleaves
    have hcontext : context = s.context := hleaves
    subst hcontext
    dsimp only
    split
    · exact h.settle true
    refine ⟨s.newMessages, rfl, h.answered, ?_⟩
    obtain ⟨old, hold⟩ := h.context
    refine ⟨old, ?_⟩
    change old ++ (s.newMessages ++ [.assistant m]) = s.context ++ [.assistant m]
    rw [← append_assoc, hold]
  case h_3 context heq =>
    rw [heq] at hleaves
    have hcontext : context = s.context := hleaves
    subst hcontext
    dsimp only
    split
    · exact h.settle true
    · exact ⟨h.answered, h.context⟩
  case h_4 context heq =>
    rw [heq] at hleaves
    rcases hleaves with hcontext | hstarted
    · subst hcontext
      exact h.settle true
    have hempty := hthrows hstarted
    refine ⟨?_, ?_⟩
    · change Answered s.newMessages
      rw [hempty]
      exact answered_nil
    rw [hempty]
    exact nil_suffix

theorem endTurn_orderly (h : s.Good) : (s.endTurn m a).Orderly := by
  rw [endTurn]
  dsimp only
  split
  · exact ⟨h.answered, h.context⟩
  split
  · exact ⟨h.answered, h.context⟩
  · exact ⟨h.answered, h.context⟩

/-- The results of the open turn close it, in whatever order. -/
theorem push_results_good (hnew : s.newMessages = ms ++ [.assistant m])
    (hms : Answered ms) (hcontext : s.newMessages <:+ s.context) {ids : List ℕ}
    (hids : ids.Perm m.callIds) : (s.push (ids.map Message.toolResult)).Good := by
  apply Good.push hcontext
  rw [hnew, append_assoc, singleton_append]
  exact hms.append_turn hids

theorem turn_orderly {a : Answer} (hnew : s.newMessages = ms ++ [.assistant m]) (hms : Answered ms)
    (hcontext : s.newMessages <:+ s.context)
    (hkeeps : m.toolCalls = [] ∨ m.stopReason = .error ∨ m.stopReason = .aborted ∨
      s.softCheckThrows m a = false ∧
        (s.softNonCompliant m a = true → s.escalations < maxSoftToolEscalations) ∧
        (s.softNonCompliant m a = false → runnable m a = true → a.dispatchThrows = false)) :
    (s.turn m a).Orderly := by
  have hall : ∀ {t : State}, t.newMessages = s.newMessages → t.context = s.context →
      (t.answerAll m).Good := by
    intro t htnew htcontext
    apply push_results_good (htnew.trans hnew) hms
    · rw [htnew, htcontext]
      exact hcontext
    · exact List.Perm.refl _
  -- without calls the turn is closed as it stands
  have hnone : m.toolCalls = [] → s.Good := by
    intro hcalls
    have hids : ([] : List ℕ).Perm m.callIds := by
      rw [AssistantMessage.callIds, hcalls, map_nil]
    refine ⟨?_, hcontext⟩
    rw [hnew]
    exact hms.append_turn hids
  rw [turn]
  split
  case isTrue hfailed =>
    have hgood := hall (t := { s with directiveResolvedForTurn := false }) rfl rfl
    exact hgood.settle false
  case isFalse hfailed =>
    have hthrown : ∀ threw : Bool, m.toolCalls = [] →
        ({ s with directiveResolvedForTurn := false }.settle threw).Orderly := by
      intro threw hcalls
      exact ⟨(hnone hcalls).answered, (hnone hcalls).context⟩
    rw [not_or] at hfailed
    have hcalls : m.toolCalls = [] ∨ s.softCheckThrows m a = false ∧
        (s.softNonCompliant m a = true → s.escalations < maxSoftToolEscalations) ∧
        (s.softNonCompliant m a = false → runnable m a = true → a.dispatchThrows = false) := by
      rcases hkeeps with hk | hk | hk | hk
      · exact Or.inl hk
      · exact absurd hk hfailed.1
      · exact absurd hk hfailed.2
      · exact Or.inr hk
    split
    case isTrue hsoft =>
      rcases hcalls with hcalls | ⟨hfalse, -, -⟩
      · exact hthrown true hcalls
      have hthrew : s.softCheckThrows m a = true := hsoft
      rw [hthrew] at hfalse
      cases hfalse
    split
    case isTrue hnoncompliant =>
      split
      case isTrue hescalated =>
        rcases hcalls with hcalls | ⟨-, hleft, -⟩
        · exact hthrown true hcalls
        have hlt := hleft hnoncompliant
        exact absurd hescalated (not_le.mpr hlt)
      case isFalse =>
        apply endTurn_orderly
        have hgood := hall (t := { s with directiveResolvedForTurn := false }) rfl rfl
        exact ⟨hgood.answered, hgood.context⟩
    case isFalse hcompliant =>
      split
      case isTrue hrunnable =>
        split
        case isTrue hdispatch =>
          rcases hcalls with hcalls | ⟨-, -, hdispatched⟩
          · exact hthrown true hcalls
          have hfalse := hdispatched (Bool.eq_false_iff.mpr hcompliant) hrunnable
          rw [hdispatch] at hfalse
          cases hfalse
        case isFalse =>
          apply endTurn_orderly
          have hgood := push_results_good hnew hms hcontext
            (executeToolCalls_perm m.toolCalls a.schedule)
          exact ⟨hgood.answered, hgood.context⟩
      case isFalse =>
        apply endTurn_orderly
        have hgood := hall (t := { s with directiveResolvedForTurn := false }) rfl rfl
        exact ⟨hgood.answered, hgood.context⟩

theorem step_orderly {a : Answer} (h : s.Orderly) (hkeeps : s.Keeps a) : (s.step a).Orderly := by
  rw [Orderly] at h
  rw [Keeps] at hkeeps
  cases hphase : s.phase with
  | turn =>
    rw [hphase] at h hkeeps
    obtain ⟨ms, hnew, hms, hcontext⟩ := h
    rw [step, hphase]
    exact turn_orderly hnew hms hcontext hkeeps
  | stream =>
    rw [hphase] at h hkeeps
    rw [step, hphase]
    exact stream_orderly h hkeeps.1 hkeeps.2
  | start =>
    rw [hphase] at h
    rw [step, hphase]
    exact start_orderly a h
  | innerLoop =>
    rw [hphase] at h
    rw [step, hphase]
    exact innerLoop_orderly a h
  | boundary =>
    rw [hphase] at h
    rw [step, hphase]
    change (s.boundary a).Orderly
    rw [boundary]
    split
    · exact h.settle true
    · exact ⟨h.answered, h.context⟩
  | yielding =>
    rw [hphase] at h
    rw [step, hphase]
    change (s.yielding a).Orderly
    rw [yielding]
    split
    · exact h.settle false
    split
    · exact h.settle true
    split
    · exact h.settle false
    · exact ⟨h.answered, h.context⟩
  | settled =>
    rw [hphase] at h
    have hsame : s.step a = s := by rw [step, hphase]
    rw [hsame, Orderly, hphase]
    exact h

theorem run_orderly (as : List Answer) :
    ∀ {s : State}, s.Orderly → s.Keeping as → (s.run as).Orderly := by
  induction as with
  | nil =>
    intro s h _
    exact h
  | cons a as ih =>
    intro s h hkeeping
    exact ih (step_orderly h hkeeping.1) hkeeping.2

end State

/-- The state at the start: the prompts are in the context, behind what it held, and in
`newMessages`. A host may hand over the escalations of a run the gate has stopped. -/
def initial (context : List Message) (prompts : List ℕ) (escalations : ℕ) : State where
  context := context ++ prompts.map Message.other
  newMessages := prompts.map Message.other
  escalations := escalations

/-- **No tool call is left unanswered** by a run whose answers keep: whenever it settles, by
return or by exception, every call has its one result before the next assistant message, and the
context ends with the new messages. -/
theorem run_answered (context : List Message) (prompts : List ℕ) (escalations : ℕ)
    (as : List Answer) (hkeeping : (initial context prompts escalations).Keeping as)
    (threw : Bool)
    (hsettled : ((initial context prompts escalations).run as).phase = .settled threw) :
    Answered ((initial context prompts escalations).run as).newMessages ∧
      ((initial context prompts escalations).run as).newMessages <:+
        ((initial context prompts escalations).run as).context := by
  have hinitial : (initial context prompts escalations).Orderly := by
    refine ⟨?_, suffix_append ..⟩
    have hprompts := answered_nil.append_others prompts
    rw [nil_append] at hprompts
    exact hprompts
  have hfinal := State.run_orderly as hinitial hkeeping
  rw [State.Orderly, hsettled] at hfinal
  exact ⟨hfinal.answered, hfinal.context⟩

/-- The answers of a turn in which the model calls a tool, and the tool reports. -/
def toolTurn : List Answer :=
  [{}, { events := [.start {}, .done ⟨[⟨1, false⟩], .toolUse⟩ false] }, { schedule := [0] },
    { messages := [] }]

/-- The answers of a turn in which the model only talks. -/
def lastTurn : List Answer :=
  [{}, { events := [.start {}, .done ⟨[], .stop⟩ false] }, {}, {}, {}, {}]

theorem run_answered_toolTurn :
    Answered ((initial [] [0] 0).run ({} :: toolTurn ++ lastTurn)).newMessages ∧
      ((initial [] [0] 0).run ({} :: toolTurn ++ lastTurn)).newMessages <:+
        ((initial [] [0] 0).run ({} :: toolTurn ++ lastTurn)).context := by
  refine run_answered [] [0] 0 _ ?_ false (by decide)
  simp [toolTurn, lastTurn, State.Keeping, State.Keeps, initial, State.step, State.start,
    State.innerLoop, State.resolveDirective, State.push, State.stream, streamAssistantResponse,
    replacePartial, throwsStarted, endsUnstarted, State.turn, State.softCheckThrows,
    State.softNonCompliant, State.runnable, AssistantMessage.toolCalls, State.endTurn,
    State.boundary]

/-- The answers of a turn in which a soft requirement is pending and the model calls another
tool. -/
def detourTurn : List Answer :=
  [{ softRequiredTool := some 7 },
    { events := [.start {}, .done ⟨[⟨1, false⟩], .toolUse⟩ false] },
    { softCheck := .every false }, { messages := [] }]

/-- At the fourth detour the loop throws behind the assistant's message: its call has no
result. -/
theorem detour_unanswered : ((initial [] [0] 0).run
        ({} :: detourTurn ++ detourTurn ++ detourTurn ++ detourTurn)).phase = .settled true ∧
    ¬ Answered ((initial [] [0] 0).run
        ({} :: detourTurn ++ detourTurn ++ detourTurn ++ detourTurn)).newMessages := by
  refine ⟨by decide, ?_⟩
  intro h
  have hlast := h.calls ((initial [] [0] 0).run
      ({} :: detourTurn ++ detourTurn ++ detourTurn ++ detourTurn)).newMessages.dropLast
    ⟨[⟨1, false⟩], .toolUse⟩ [] (by decide)
  exact absurd hlast.length_eq (by decide)

end BreadboardTui.ToolPairing
