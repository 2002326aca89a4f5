import Mathlib.Tactic

/-!
# A batch of tool calls

`executeToolCalls` runs the calls of an assistant message: shared calls side by side, an
exclusive call alone. The order is kept by promises. Each call's task starts behind the last
exclusive task, an exclusive one behind the shared tasks since then as well, and a task whose
start rejects does not run. A call passes the pause gate before it executes and the hook
afterwards, and interrupts are detected at any time: by a timer, by a watcher and behind each
tool.

The batch is a machine with one record per call. A label says which of them moves, or what the
host does; a label that is not possible changes nothing.
-/

namespace BreadboardTui.ToolBatch

open List Option

/-! ### Scheduling -/

/-- A call of the batch, with what its tool says of it. A concurrency resolver that throws makes
it exclusive. -/
structure Call where
  exclusive : Bool := false
  interruptible : Bool := false
  validationError : Bool := false
  deriving DecidableEq, Repr

/-- The scheduling loop from the call `index` on, with `lastExclusive` and `sharedTasks`: the
tasks each call waits for. -/
def starts (lastExclusive : Option ℕ) (sharedTasks : List ℕ) (index : ℕ) :
    List Call → List (List ℕ)
  | [] => []
  | c :: cs =>
    if c.exclusive then
      (lastExclusive.toList ++ sharedTasks) :: starts (some index) [] (index + 1) cs
    else lastExclusive.toList :: starts lastExclusive (sharedTasks ++ [index]) (index + 1) cs

/-- The tasks the call `i` waits for. -/
def startsAfter (calls : List Call) (i : ℕ) : List ℕ :=
  ((starts none [] 0 calls)[i]?).getD []

/-- The call `i` is exclusive. -/
def IsExclusive (calls : List Call) (i : ℕ) : Prop :=
  ∃ c, calls[i]? = some c ∧ c.exclusive = true

/-- What the loop knows before the call `index`: every task before it is shared and listed, or
the last exclusive one, or stands before that one. -/
structure Listed (calls : List Call) (lastExclusive : Option ℕ) (sharedTasks : List ℕ)
    (index : ℕ) : Prop where
  last : ∀ k, lastExclusive = some k → k < index ∧ IsExclusive calls k
  all : ∀ j, j < index → j ∈ sharedTasks ∨ ∃ k, lastExclusive = some k ∧ j ≤ k
  exclusive : ∀ j, j < index → IsExclusive calls j → ∃ k, lastExclusive = some k ∧ j ≤ k

variable {last : Option ℕ} {shared : List ℕ} {index : ℕ}

theorem Listed.next_exclusive {calls : List Call}
    (_h : Listed calls last shared index) (hc : IsExclusive calls index) :
    Listed calls (some index) [] (index + 1) := by
  refine ⟨?_, ?_, ?_⟩
  · intro k hk
    cases hk
    exact ⟨Nat.lt_succ_self index, hc⟩
  · intro j hj
    exact Or.inr ⟨index, rfl, Nat.le_of_lt_succ hj⟩
  intro j hj _
  exact ⟨index, rfl, Nat.le_of_lt_succ hj⟩

theorem Listed.next_shared {calls : List Call}
    (h : Listed calls last shared index) (hc : ¬ IsExclusive calls index) :
    Listed calls last (shared ++ [index]) (index + 1) := by
  refine ⟨?_, ?_, ?_⟩
  · intro k hk
    obtain ⟨hlt, hexcl⟩ := h.last k hk
    exact ⟨Nat.lt_succ_of_lt hlt, hexcl⟩
  · intro j hj
    rcases Nat.lt_or_eq_of_le (Nat.le_of_lt_succ hj) with hlt | rfl
    · rcases h.all j hlt with hmem | hlast
      · exact Or.inl (mem_append_left _ hmem)
      · exact Or.inr hlast
    · exact Or.inl (mem_append_right _ (mem_singleton_self j))
  intro j hj hexcl
  rcases Nat.lt_or_eq_of_le (Nat.le_of_lt_succ hj) with hlt | rfl
  · exact h.exclusive j hlt hexcl
  · exact absurd hexcl hc

/-- By induction on the calls still to come. -/
theorem starts_cover {calls : List Call} (rest : List Call) :
    ∀ (pre : List Call) (last : Option ℕ) (shared : List ℕ), calls = pre ++ rest →
      Listed calls last shared pre.length →
      ∀ i waits, (starts last shared pre.length rest)[i]? = some waits →
        ∀ j, j < pre.length + i →
          (IsExclusive calls (pre.length + i) ∨ IsExclusive calls j) →
          j ∈ waits ∨ ∃ k ∈ waits, IsExclusive calls k ∧ j < k := by
  induction rest with
  | nil =>
    intro pre last shared _ _ i waits hwaits
    rw [starts, getElem?_nil] at hwaits
    cases hwaits
  | cons c rest ih =>
    intro pre last shared hcalls hlisted i waits hwaits j hj hexcl
    have hhere : calls[pre.length]? = some c := by
      rw [hcalls, getElem?_append_right (le_refl _), Nat.sub_self]
      rfl
    have hlast : ∀ k, last = some k → j ≤ k → ∀ ws : List ℕ, (∀ x ∈ last.toList, x ∈ ws) →
        j ∈ ws ∨ ∃ k ∈ ws, IsExclusive calls k ∧ j < k := by
      intro k hk hle ws hws
      have hmem : k ∈ ws := hws k (by rw [hk]; exact mem_singleton_self k)
      rcases Nat.lt_or_eq_of_le hle with hlt | rfl
      · exact Or.inr ⟨k, hmem, (hlisted.last k hk).2, hlt⟩
      · exact Or.inl hmem
    have hpre : calls = (pre ++ [c]) ++ rest := by
      rw [hcalls, append_assoc, singleton_append]
    have hlength : (pre ++ [c]).length = pre.length + 1 := by
      rw [length_append, length_singleton]
    rw [starts] at hwaits
    by_cases hc : c.exclusive = true
    · rw [if_pos hc] at hwaits
      cases i with
      | zero =>
        rw [getElem?_cons_zero, Option.some.injEq] at hwaits
        rw [← hwaits]
        rcases hlisted.all j hj with hmem | ⟨k, hk, hle⟩
        · exact Or.inl (mem_append_right _ hmem)
        · exact hlast k hk hle _ fun x hx => mem_append_left _ hx
      | succ i =>
        rw [getElem?_cons_succ] at hwaits
        have hnext := hlisted.next_exclusive ⟨c, hhere, hc⟩
        have hrest := ih (pre ++ [c]) (some pre.length) [] hpre
        rw [hlength] at hrest
        have hindex : pre.length + 1 + i = pre.length + (i + 1) := by omega
        exact hrest hnext i waits hwaits j (by omega) (by rw [hindex]; exact hexcl)
    rw [if_neg hc] at hwaits
    have hshared : ¬ IsExclusive calls pre.length := by
      rintro ⟨c', hc', hexcl'⟩
      rw [hhere, Option.some.injEq] at hc'
      rw [← hc'] at hexcl'
      exact hc hexcl'
    cases i with
    | zero =>
      rw [getElem?_cons_zero, Option.some.injEq] at hwaits
      rw [← hwaits]
      rcases hexcl with hexcl | hexcl
      · exact absurd hexcl hshared
      obtain ⟨k, hk, hle⟩ := hlisted.exclusive j hj hexcl
      exact hlast k hk hle _ fun x hx => hx
    | succ i =>
      rw [getElem?_cons_succ] at hwaits
      have hnext := hlisted.next_shared hshared
      have hrest := ih (pre ++ [c]) last (shared ++ [pre.length]) hpre
      rw [hlength] at hrest
      have hindex : pre.length + 1 + i = pre.length + (i + 1) := by omega
      exact hrest hnext i waits hwaits j (by omega) (by rw [hindex]; exact hexcl)

theorem length_starts (cs : List Call) : ∀ (last : Option ℕ) (shared : List ℕ) (index : ℕ),
      (starts last shared index cs).length = cs.length := by
  induction cs with
  | nil =>
    intro last shared index
    rfl
  | cons c cs ih =>
    intro last shared index
    rw [starts]
    split <;> rw [length_cons, length_cons, ih]

variable {i : ℕ}

/-- **What a call waits for**: an exclusive call waits for every earlier one, and every call for
the earlier exclusive ones, directly or behind a later exclusive one. -/
theorem startsAfter_cover {calls : List Call} {j : ℕ} (hi : i < calls.length) (hj : j < i)
    (hexcl : IsExclusive calls i ∨ IsExclusive calls j) :
    j ∈ startsAfter calls i ∨ ∃ k ∈ startsAfter calls i, IsExclusive calls k ∧ j < k := by
  have hlisted : Listed calls none [] 0 := by
    refine ⟨?_, ?_, ?_⟩
    · intro k hk
      cases hk
    · intro j hj
      exact absurd hj (Nat.not_lt_zero j)
    intro j hj
    exact absurd hj (Nat.not_lt_zero j)
  have hlt : i < (starts none [] 0 calls).length := by
    rw [length_starts]
    exact hi
  have hwaits := getElem?_eq_getElem hlt
  have hafter : startsAfter calls i = (starts none [] 0 calls)[i] := by
    rw [startsAfter, hwaits]
    rfl
  rw [hafter]
  have hcover := starts_cover calls [] none [] rfl hlisted i _ hwaits j
  simp only [length_nil, zero_add] at hcover
  exact hcover hj hexcl

/-! ### One call -/

/-- What a call comes to: the content of its result, and whether it is an error. -/
structure Outcome where
  content : ℕ
  isError : Bool
  deriving DecidableEq, Repr

/-- What `afterToolCall` answers. -/
inductive HookAnswer where
  | unchanged
  | revised (o : Outcome)
  | throws (content : ℕ)
  deriving DecidableEq, Repr

/-- The outcome after the hook. -/
def HookAnswer.apply (o : Outcome) : HookAnswer → Outcome
  | .unchanged => o
  | .revised o' => o'
  | .throws content => ⟨content, true⟩

/-- What a result message says: an outcome, that the call was skipped, or that it was refused
before it started, for its arguments or an abort. -/
inductive Report where
  | outcome (o : Outcome)
  | skipped
  | refused
  deriving DecidableEq, Repr

/-- The events of one call on the stream. -/
inductive Event where
  | executionStart
  | executionEnd
  | result (r : Report)
  deriving DecidableEq, Repr

/-- Where a call's task stands. -/
inductive Status where
  | waiting
  | parked
  | released
  | executing
  | hook
  | checking
  | fulfilled
  | rejected
  deriving DecidableEq, Repr

/-- A record of the batch. `begun` says that `runTool` was called, `returned` is what `execute`
returned, `answered` what the hook answered then, and `late` that `execute` was called after an
interrupt that preempts the call had been detected. -/
structure Record where
  status : Status := .waiting
  begun : Bool := false
  started : Bool := false
  result : Outcome := ⟨0, false⟩
  report : Option Report := none
  events : List Event := []
  returned : Option Outcome := none
  answered : HookAnswer := .unchanged
  late : Bool := false
  deriving DecidableEq, Repr

/-- `emitToolResult`. -/
def Record.emit (r : Record) (rep : Report) : Record :=
  match r.report with
  | some _ => r
  | none =>
    { r with
      report := some rep
      events := r.events ++ (if r.started then [] else [Event.executionStart]) ++
        [Event.executionEnd, Event.result rep] }

/-! ### The batch -/

/-- Who interrupts. -/
inductive Source where
  | steering
  | irc
  deriving DecidableEq, Repr

/-- What runs between a call's start and `execute`: the tool is missing or blocked, or a
callback throws, or `execute` is called. -/
inductive Dispatch where
  | fails (content : ℕ)
  | executes
  deriving DecidableEq, Repr

/-- How `execute` settles. -/
inductive Settled where
  | returns (o : Outcome)
  | throws (content : ℕ)
  deriving DecidableEq, Repr

/-- The state of a batch: the records, `interruptState.source`, the abort controllers, the pause
gate, the peer checks under way and whether the sweep is done. -/
structure State where
  records : ℕ → Record := fun _ => {}
  source : Option Source := none
  steeringAborted : Bool := false
  ircAborted : Bool := false
  externalAborted : Bool := false
  paused : Bool := false
  ircChecks : ℕ := 0
  swept : Bool := false

/-- What moves. -/
inductive Label where
  | begin (i : ℕ) (d : Dispatch)
  | reject (i : ℕ)
  | release (i : ℕ)
  | launch (i : ℕ) (d : Dispatch)
  | settle (i : ℕ) (r : Settled)
  | hookSettle (i : ℕ) (h : HookAnswer)
  | checked (i : ℕ) (throws : Bool)
  | steeringFound
  | ircCheck
  | ircChecked (found : Bool)
  | abort
  | pause
  | resume
  | sweep
  deriving DecidableEq, Repr

namespace State

/-- The record of a call is changed. -/
def update (s : State) (i : ℕ) (f : Record → Record) : State :=
  { s with records := Function.update s.records i (f (s.records i)) }

/-- `record.signal.aborted`: only an interruptible call sees the interrupts. -/
def aborted (s : State) (c : Call) : Bool :=
  s.externalAborted || (c.interruptible && (s.steeringAborted || s.ircAborted))

/-- An interrupt that preempts the call has been detected. -/
def preempted (s : State) (c : Call) : Bool :=
  s.steeringAborted || (s.ircAborted && c.interruptible)

/-- `runTool` comes to `execute`. -/
def executes (s : State) (c : Call) (d : Dispatch) : Bool :=
  !c.validationError && !s.aborted c && decide (d = .executes)

/-- The end of `runTool`: the outcome goes out, unless the call was interrupted before its tool
returned. -/
def report (s : State) (c : Call) (r : Record) : Record :=
  { r.emit (if s.source.isSome ∧ s.aborted c ∧ r.result.isError ∧ r.returned = none then .skipped
      else .outcome r.result) with status := .checking }

/-- Behind the execution: the hook is called, if there is one and the call was not aborted
before its tool returned. -/
def afterExecution (s : State) (hooked : Bool) (c : Call) (r : Record) : Record :=
  if hooked ∧ (s.aborted c = false ∨ r.returned ≠ none) then { r with status := .hook }
  else s.report c r

/-- `runTool` from the pause gate to the call of `execute`. -/
def launch (s : State) (hooked : Bool) (c : Call) (d : Dispatch) (r : Record) : Record :=
  if c.validationError then { r.emit .refused with status := .fulfilled }
  else if s.aborted c then { r.emit .refused with status := .fulfilled }
  else
    let r := { r with started := true, events := r.events ++ [Event.executionStart] }
    match d with
    | .fails content => s.afterExecution hooked c { r with result := ⟨content, true⟩ }
    | .executes => { r with status := .executing, late := s.preempted c }

/-- `runTool` up to the pause gate. A pending interrupt preempts the call, a peer's only an
interruptible one. -/
def runTool (s : State) (hooked : Bool) (c : Call) (d : Dispatch) (r : Record) : Record :=
  let r := { r with begun := true }
  if s.source.isSome ∧ (c.interruptible ∨ s.source ≠ some .irc) then
    { r with status := .fulfilled }
  else if s.paused then { r with status := .parked }
  else s.launch hooked c d r

/-- `execute` settles. -/
def settle (s : State) (hooked : Bool) (c : Call) (r : Record) : Settled → Record
  | .returns o => s.afterExecution hooked c { r with result := o, returned := some o }
  | .throws content => s.afterExecution hooked c { r with result := ⟨content, true⟩ }

def hookSettle (s : State) (c : Call) (r : Record) (h : HookAnswer) : Record :=
  s.report c { r with result := h.apply r.result, answered := h }

/-- A task has settled. -/
def IsDone (s : State) (i : ℕ) : Prop :=
  (s.records i).status = .fulfilled ∨ (s.records i).status = .rejected

instance (s : State) (i : ℕ) : Decidable (s.IsDone i) :=
  inferInstanceAs (Decidable (_ ∨ _))

/-- A call in the status `st` moves. -/
def move (s : State) (calls : List Call) (i : ℕ) (st : Status) (f : Call → Record → Record) :
    State :=
  match calls[i]? with
  | none => s
  | some c => if (s.records i).status = st then s.update i (f c) else s

/-- One move of a batch with the calls `calls`; `hooked` says whether there is a hook. -/
def step (calls : List Call) (hooked : Bool) (s : State) : Label → State
  | .begin i d =>
    if ∀ j ∈ startsAfter calls i, (s.records j).status = .fulfilled then
      s.move calls i .waiting fun c => s.runTool hooked c d
    else s
  | .reject i =>
    if ∃ j ∈ startsAfter calls i, (s.records j).status = .rejected then
      s.move calls i .waiting fun _ r => { r with status := .rejected }
    else s
  | .release i =>
    s.move calls i .parked fun c r =>
      if s.paused = false ∨ s.aborted c then { r with status := .released } else r
  | .launch i d => s.move calls i .released fun c => s.launch hooked c d
  | .settle i res => s.move calls i .executing fun c r => s.settle hooked c r res
  | .hookSettle i h => s.move calls i .hook fun c r => s.hookSettle c r h
  | .checked i throws =>
    s.move calls i .checking fun _ r =>
      { r with status := if throws then .rejected else .fulfilled }
  | .steeringFound =>
    if s.steeringAborted then s else { s with source := some .steering, steeringAborted := true }
  | .ircCheck =>
    if s.externalAborted ∨ s.source.isSome then s else { s with ircChecks := s.ircChecks + 1 }
  | .ircChecked found =>
    match s.ircChecks with
    | 0 => s
    | n + 1 =>
      if found then { s with ircChecks := n, source := some .irc, ircAborted := true }
      else { s with ircChecks := n }
  | .abort => { s with externalAborted := true }
  | .pause => { s with paused := true }
  | .resume => { s with paused := false }
  | .sweep =>
    if ∀ i < calls.length, s.IsDone i then
      { s with
        swept := true
        records := fun i => if i < calls.length then (s.records i).emit .skipped else s.records i }
    else s

/-- A run, move by move. -/
def run (calls : List Call) (hooked : Bool) (s : State) : List Label → State
  | [] => s
  | l :: ls => (s.step calls hooked l).run calls hooked ls

/-! ### What a batch respects -/

/-- What a batch respects.

* While an exclusive call executes, no other call does, every earlier call has finished and
  `runTool` has not been called for a later one.
* The events of a call are its start, its end and its result, once and in this order, and after
  the sweep they all are there.
* A call whose `execute` has returned reports what it returned, as the hook revised it.
* No call has executed after an interrupt that preempts it had been detected. -/
structure Respects (s : State) (calls : List Call) : Prop where
  alone : ∀ i j, i ≠ j → IsExclusive calls i → (s.records i).status = .executing →
    (s.records j).status ≠ .executing
  before : ∀ i j, j < i → IsExclusive calls i → (s.records i).status = .executing →
    (s.records j).status = .fulfilled
  after : ∀ i j, i < j → IsExclusive calls i → (s.records i).status = .executing →
    (s.records j).begun = false
  events : ∀ i, ∃ rep,
    (s.records i).events <+: [.executionStart, .executionEnd, .result rep]
  swept : s.swept = true → ∀ i < calls.length, ∃ rep,
    (s.records i).events = [.executionStart, .executionEnd, .result rep]
  reports : ∀ i o rep, (s.records i).returned = some o → Event.result rep ∈ (s.records i).events →
    rep = .outcome ((s.records i).answered.apply o)
  late : ∀ i, (s.records i).late = false

/-- The moves that start no call too late.

* A call that leaves the pause gate to execute does so before steering has been detected. Only a
  call that is not interruptible can be late here: an interruptible one sees the abort.
* A call that begins to execute under a peer's interrupt does so before steering has been
  detected. The interrupt is the peer's although steering was detected when a check of the peers
  had been under way then. -/
def Keeps (calls : List Call) (s : State) : Label → Prop
  | .launch i d => ∀ c, calls[i]? = some c → (s.records i).status = .released →
      s.executes c d = true → s.steeringAborted = false
  | .begin i d => ∀ c, calls[i]? = some c → (s.records i).status = .waiting →
      (∀ j ∈ startsAfter calls i, (s.records j).status = .fulfilled) →
      s.paused = false → s.source = some .irc → c.interruptible = false →
      s.executes c d = true → s.steeringAborted = false
  | _ => True

/-- Every move of a run keeps. -/
def Keeping (calls : List Call) (hooked : Bool) (s : State) : List Label → Prop
  | [] => True
  | l :: ls => s.Keeps calls l ∧ (s.step calls hooked l).Keeping calls hooked ls

end State

/-! ### The invariant of one record -/

namespace Record

/-- Nothing has gone out for the call. -/
def Quiet (r : Record) : Prop :=
  r.started = false ∧ r.report = none ∧ r.events = [] ∧ r.returned = none ∧
    r.answered = .unchanged ∧ r.late = false

/-- The call has started, and has no result yet. -/
def Open (r : Record) : Prop :=
  r.started = true ∧ r.report = none ∧ r.events = [.executionStart] ∧ r.answered = .unchanged

/-- The result has gone out, and it is what `execute` returned if it did. -/
def Reported (r : Record) : Prop :=
  ∃ rep, r.report = some rep ∧ r.events = [.executionStart, .executionEnd, .result rep] ∧
    ∀ o, r.returned = some o → rep = .outcome (r.answered.apply o)

/-- The invariant of a record, status by status. -/
def Ok (r : Record) : Prop :=
  match r.status with
  | .waiting | .parked | .released => r.Quiet
  | .executing => r.Open ∧ r.returned = none
  | .hook => r.Open ∧ ∀ o, r.returned = some o → r.result = o
  | .checking => r.Reported
  | .fulfilled | .rejected => r.Reported ∨ r.Quiet

variable {r : Record}

theorem Quiet.emit (h : r.Quiet) (rep : Report) : (r.emit rep).Reported := by
  obtain ⟨hstarted, hreport, hevents, hreturned, -, -⟩ := h
  rw [Record.emit, hreport]
  refine ⟨rep, rfl, ?_, ?_⟩
  · simp [hstarted, hevents]
  intro o ho
  have hnone : some o = none := ho.symm.trans hreturned
  cases hnone

theorem Reported.emit (h : r.Reported) (rep : Report) : r.emit rep = r := by
  obtain ⟨old, hreport, -, -⟩ := h
  rw [Record.emit, hreport]

variable {rep : Report}

theorem emit_of_started (hstarted : r.started = true) (hreport : r.report = none)
    (hevents : r.events = [.executionStart])
    (hrep : ∀ o, r.returned = some o → rep = .outcome (r.answered.apply o)) :
    (r.emit rep).Reported := by
  rw [Record.emit, hreport]
  refine ⟨rep, rfl, ?_, hrep⟩
  simp [hstarted, hevents]

@[simp] theorem emit_status (r : Record) (rep : Report) : (r.emit rep).status = r.status := by
  rw [Record.emit]
  split <;> rfl

@[simp] theorem emit_begun (r : Record) (rep : Report) : (r.emit rep).begun = r.begun := by
  rw [Record.emit]
  split <;> rfl

@[simp] theorem emit_late (r : Record) (rep : Report) : (r.emit rep).late = r.late := by
  rw [Record.emit]
  split <;> rfl

/-- The events of a record in order are a prefix of the three, and its report is what
`execute` returned. -/
theorem Ok.events (h : r.Ok) :
    ∃ rep, r.events <+: [.executionStart, .executionEnd, .result rep] := by
  have hquiet : r.Quiet → ∃ rep, r.events <+: [.executionStart, .executionEnd, .result rep] := by
    intro hq
    refine ⟨.skipped, ?_⟩
    rw [hq.2.2.1]
    exact nil_prefix
  have hopen : r.Open → ∃ rep, r.events <+: [.executionStart, .executionEnd, .result rep] := by
    intro ho
    refine ⟨.skipped, ?_⟩
    rw [ho.2.2.1]
    exact ⟨_, rfl⟩
  have hreported : r.Reported →
      ∃ rep, r.events <+: [.executionStart, .executionEnd, .result rep] := by
    rintro ⟨rep, -, hevents, -⟩
    exact ⟨rep, by rw [hevents]⟩
  rw [Ok] at h
  split at h
  · exact hquiet h
  · exact hquiet h
  · exact hquiet h
  · exact hopen h.1
  · exact hopen h.1
  · exact hreported h
  · exact h.elim hreported hquiet
  · exact h.elim hreported hquiet

theorem Ok.reports (h : r.Ok) {o : Outcome} (ho : r.returned = some o)
    (hrep : Event.result rep ∈ r.events) : rep = .outcome (r.answered.apply o) := by
  have hquiet : r.Quiet → rep = .outcome (r.answered.apply o) := by
    intro hq
    rw [hq.2.2.1] at hrep
    cases hrep
  have hopen : r.Open → rep = .outcome (r.answered.apply o) := by
    intro hop
    rw [hop.2.2.1] at hrep
    rcases mem_singleton.mp hrep with heq
    cases heq
  have hreported : r.Reported → rep = .outcome (r.answered.apply o) := by
    rintro ⟨rep', -, hevents, hall⟩
    rw [hevents] at hrep
    have heq : rep = rep' := by simpa using hrep
    rw [heq]
    exact hall o ho
  rw [Ok] at h
  split at h
  · exact hquiet h
  · exact hquiet h
  · exact hquiet h
  · exact hopen h.1
  · exact hopen h.1
  · exact hreported h
  · exact h.elim hreported hquiet
  · exact h.elim hreported hquiet

end Record

namespace State

variable {s : State} {c : Call} {r : Record} {hooked : Bool}

/-! ### What one move does to a record -/

/-- The frame of a record's move: `begun` stays, and the call neither waits nor is rejected. -/
def Kept (r r' : Record) : Prop :=
  r'.begun = r.begun ∧ r'.status ≠ .waiting ∧ r'.status ≠ .rejected

theorem report_ok (hstarted : r.started = true) (hreport : r.report = none)
    (hevents : r.events = [.executionStart])
    (hresult : ∀ o, r.returned = some o → r.result = r.answered.apply o) :
    (s.report c r).Ok ∧ Kept r (s.report c r) ∧ (s.report c r).late = r.late := by
  refine ⟨?_, ⟨?_, ?_, ?_⟩, ?_⟩
  · change Record.Reported _
    -- a call whose tool returned is not skipped
    have houtcome : ∀ o, r.returned = some o →
        (if s.source.isSome ∧ s.aborted c ∧ r.result.isError ∧ r.returned = none then .skipped
          else .outcome r.result) = Report.outcome (r.answered.apply o) := by
      intro o ho
      rw [if_neg, hresult o ho]
      rintro ⟨-, -, -, hnone⟩
      rw [ho] at hnone
      cases hnone
    obtain ⟨rep, h₁, h₂, h₃⟩ := Record.emit_of_started hstarted hreport hevents houtcome
    exact ⟨rep, h₁, h₂, h₃⟩
  · exact Record.emit_begun _ _
  · exact Status.noConfusion
  · exact Status.noConfusion
  · exact Record.emit_late _ _

theorem afterExecution_ok (hopen : r.Open) (hresult : ∀ o, r.returned = some o → r.result = o) :
    (s.afterExecution hooked c r).Ok ∧ Kept r (s.afterExecution hooked c r) ∧
      (s.afterExecution hooked c r).late = r.late := by
  rw [afterExecution]
  split
  · refine ⟨?_, ⟨rfl, Status.noConfusion, Status.noConfusion⟩, rfl⟩
    exact ⟨hopen, hresult⟩
  apply report_ok hopen.1 hopen.2.1 hopen.2.2.1
  intro o ho
  rw [hopen.2.2.2]
  exact hresult o ho

theorem refuse_ok (hquiet : r.Quiet) : Record.Ok { r.emit .refused with status := .fulfilled } ∧
      Kept r { r.emit .refused with status := .fulfilled } := by
  refine ⟨Or.inl ?_, Record.emit_begun _ _, Status.noConfusion, Status.noConfusion⟩
  obtain ⟨rep, h₁, h₂, h₃⟩ := hquiet.emit .refused
  exact ⟨rep, h₁, h₂, h₃⟩

theorem launch_ok (d : Dispatch) (hquiet : r.Quiet) :
    (s.launch hooked c d r).Ok ∧ Kept r (s.launch hooked c d r) := by
  rw [launch]
  split
  · exact refuse_ok hquiet
  split
  · exact refuse_ok hquiet
  obtain ⟨-, hreport, hevents, hreturned, hanswered, -⟩ := hquiet
  have hopen : Record.Open
      { r with started := true, events := r.events ++ [Event.executionStart] } := by
    refine ⟨rfl, hreport, ?_, hanswered⟩
    rw [hevents, nil_append]
  split
  case h_1 content =>
    have hafter := @afterExecution_ok s c { r with
      started := true
      events := r.events ++ [Event.executionStart]
      result := ⟨content, true⟩ } hooked hopen ?_
    · exact ⟨hafter.1, hafter.2.1⟩
    intro o ho
    have hnone : some o = none := ho.symm.trans hreturned
    cases hnone
  case h_2 => exact ⟨⟨hopen, hreturned⟩, rfl, Status.noConfusion, Status.noConfusion⟩

/-- A launched call is late exactly when it executes after an interrupt that preempts it. -/
theorem launch_late (d : Dispatch) (hquiet : r.Quiet) :
    (s.launch hooked c d r).late = (s.executes c d && s.steeringAborted) := by
  have hlate := hquiet.2.2.2.2.2
  rw [launch, executes]
  split
  case isTrue hinvalid =>
    rw [Record.emit_late, hlate, hinvalid]
    rfl
  case isFalse hvalid =>
    split
    case isTrue haborted =>
      rw [Record.emit_late, hlate, haborted, Bool.not_true, Bool.and_false, Bool.false_and,
        Bool.false_and]
    case isFalse haborted =>
      rw [Bool.not_eq_true] at hvalid haborted
      rw [hvalid, haborted]
      split
      case h_1 content =>
        have hopen : Record.Open { r with
            started := true
            events := r.events ++ [Event.executionStart]
            result := ⟨content, true⟩ } := by
          refine ⟨rfl, hquiet.2.1, ?_, hquiet.2.2.2.2.1⟩
          rw [hquiet.2.2.1, nil_append]
        have hafter := @afterExecution_ok s c _ hooked hopen ?_
        · rw [hafter.2.2]
          exact hlate
        intro o ho
        have hnone : some o = none := ho.symm.trans hquiet.2.2.2.1
        cases hnone
      case h_2 =>
        -- an interruptible call that is not aborted has seen no interrupt
        rw [aborted] at haborted
        rw [preempted]
        cases hinterruptible : c.interruptible <;> cases hst : s.steeringAborted <;>
          cases hirc : s.ircAborted <;> simp_all

theorem runTool_ok (d : Dispatch) (hquiet : r.Quiet) :
    (s.runTool hooked c d r).Ok ∧ (s.runTool hooked c d r).begun = true ∧
      (s.runTool hooked c d r).status ≠ .waiting ∧
      (s.runTool hooked c d r).status ≠ .rejected := by
  rw [runTool]
  have hbegun : Record.Quiet { r with begun := true } := hquiet
  split
  · exact ⟨Or.inr hbegun, rfl, Status.noConfusion, Status.noConfusion⟩
  split
  · exact ⟨hbegun, rfl, Status.noConfusion, Status.noConfusion⟩
  have hlaunch := @launch_ok s c { r with begun := true } hooked d hbegun
  exact ⟨hlaunch.1, hlaunch.2.1, hlaunch.2.2⟩

/-! ### The invariant of the batch -/

/-- The invariant of a batch: its records are in order, a call that has begun stands behind the
tasks it has to wait for, and the interrupts have a source. -/
structure Inv (calls : List Call) (s : State) : Prop where
  ok : ∀ i, (s.records i).Ok
  begun : ∀ i, (s.records i).status ≠ .waiting → (s.records i).status ≠ .rejected →
    (s.records i).begun = true
  waiting : ∀ i, (s.records i).status = .waiting → (s.records i).begun = false
  order : ∀ i j, j < i → (IsExclusive calls i ∨ IsExclusive calls j) →
    (s.records i).begun = true → (s.records j).status = .fulfilled
  source : s.source = none → s.steeringAborted = false ∧ s.ircAborted = false
  swept : s.swept = true → ∀ i < calls.length, (s.records i).Reported ∧ s.IsDone i

variable {calls : List Call}

@[simp] theorem update_records_self (s : State) (i : ℕ) (f : Record → Record) :
    (s.update i f).records i = f (s.records i) :=
  Function.update_self ..

theorem update_records_of_ne (s : State) {j : ℕ} (f : Record → Record) (h : j ≠ i) :
    (s.update i f).records j = s.records j :=
  Function.update_of_ne h ..

/-- A record moves, out of a status that is not settled. -/
theorem Inv.update (h : Inv calls s) (hi : i < calls.length) (f : Record → Record)
    (hfrom : ¬ s.IsDone i) (hok : (f (s.records i)).Ok)
    (hbegun : (f (s.records i)).status ≠ .waiting → (f (s.records i)).status ≠ .rejected →
      (f (s.records i)).begun = true)
    (hwaiting : (f (s.records i)).status = .waiting → (f (s.records i)).begun = false)
    (horder : (f (s.records i)).begun = true → ∀ j, j < i →
      (IsExclusive calls i ∨ IsExclusive calls j) → (s.records j).status = .fulfilled) :
    Inv calls (s.update i f) := by
  refine ⟨?_, ?_, ?_, ?_, h.source, ?_⟩
  · intro k
    by_cases hk : k = i
    · rw [hk, update_records_self]
      exact hok
    rw [update_records_of_ne s f hk]
    exact h.ok k
  · intro k
    by_cases hk : k = i
    · rw [hk, update_records_self]
      exact hbegun
    rw [update_records_of_ne s f hk]
    exact h.begun k
  · intro k
    by_cases hk : k = i
    · rw [hk, update_records_self]
      exact hwaiting
    rw [update_records_of_ne s f hk]
    exact h.waiting k
  · intro k j hj hexcl hkbegun
    have hfulfilled : (s.records j).status = .fulfilled := by
      by_cases hk : k = i
      · rw [hk, update_records_self] at hkbegun
        rw [hk] at hj hexcl
        exact horder hkbegun j hj hexcl
      rw [update_records_of_ne s f hk] at hkbegun
      exact h.order k j hj hexcl hkbegun
    have hne : j ≠ i := by
      rintro rfl
      exact hfrom (Or.inl hfulfilled)
    rw [update_records_of_ne s f hne]
    exact hfulfilled
  intro hswept
  exact absurd (h.swept hswept i hi).2 hfrom

variable {f : Call → Record → Record} {st : Status}

/-- A move of a call that has begun: `begun` stays. -/
theorem Inv.move (h : Inv calls s) (hst : st ≠ .waiting ∧ st ≠ .fulfilled ∧ st ≠ .rejected)
    (hf : ∀ c, (s.records i).status = st → (f c (s.records i)).Ok ∧
      (f c (s.records i)).begun = (s.records i).begun ∧ (f c (s.records i)).status ≠ .waiting) :
    Inv calls (s.move calls i st f) := by
  rw [State.move]
  split
  · exact h
  case h_2 c hc =>
    split
    case isFalse => exact h
    case isTrue hstatus =>
      obtain ⟨hok, hbegun, hwaiting⟩ := hf c hstatus
      have hwas : (s.records i).begun = true := by
        apply h.begun i
        · rw [hstatus]
          exact hst.1
        rw [hstatus]
        exact hst.2.2
      apply h.update
      · exact (List.getElem?_eq_some_iff.mp hc).1
      · rintro (hdone | hdone)
        · exact hst.2.1 (hstatus.symm.trans hdone)
        · exact hst.2.2 (hstatus.symm.trans hdone)
      · exact hok
      · intro _ _
        exact hbegun.trans hwas
      · intro hw
        exact absurd hw hwaiting
      intro _ j hj hexcl
      exact h.order i j hj hexcl hwas

theorem Ok_of_status (hok : r.Ok) (hst : r.status = st)
    (hquiet : st = .waiting ∨ st = .parked ∨ st = .released) : r.Quiet := by
  rw [Record.Ok] at hok
  rcases hquiet with rfl | rfl | rfl <;> rw [hst] at hok <;> exact hok

/-- `runTool` is called only behind the tasks the call waits for. -/
theorem Inv.begin (h : Inv calls s) (i : ℕ) (d : Dispatch) :
    Inv calls (s.step calls hooked (.begin i d)) := by
  rw [step]
  split
  case isFalse => exact h
  case isTrue hwaits =>
    rw [State.move]
    split
    · exact h
    case h_2 c hc =>
      split
      case isFalse => exact h
      case isTrue hstatus =>
        have hi : i < calls.length := (List.getElem?_eq_some_iff.mp hc).1
        have hquiet := Ok_of_status (h.ok i) hstatus (Or.inl rfl)
        obtain ⟨hok, hbegun, hne, -⟩ := @runTool_ok s c (s.records i) hooked d hquiet
        apply h.update hi
        · rintro (hdone | hdone) <;> rw [hstatus] at hdone <;> cases hdone
        · exact hok
        · intro _ _
          exact hbegun
        · intro hw
          exact absurd hw hne
        intro _ j hj hexcl
        rcases startsAfter_cover hi hj hexcl with hmem | ⟨k, hk, hkexcl, hjk⟩
        · exact hwaits j hmem
        -- behind a later exclusive call that has finished
        have hfulfilled := hwaits k hk
        have hkbegun : (s.records k).begun = true := by
          apply h.begun k
          · rw [hfulfilled]
            exact Status.noConfusion
          rw [hfulfilled]
          exact Status.noConfusion
        exact h.order k j hjk (Or.inl hkexcl) hkbegun

theorem Inv.reject (h : Inv calls s) (i : ℕ) : Inv calls (s.step calls hooked (.reject i)) := by
  rw [step]
  split
  case isFalse => exact h
  case isTrue =>
    rw [State.move]
    split
    · exact h
    case h_2 c hc =>
      split
      case isFalse => exact h
      case isTrue hstatus =>
        have hquiet := Ok_of_status (h.ok i) hstatus (Or.inl rfl)
        have hnot := h.waiting i hstatus
        apply h.update (List.getElem?_eq_some_iff.mp hc).1
        · rintro (hdone | hdone) <;> rw [hstatus] at hdone <;> cases hdone
        · exact Or.inr hquiet
        · intro _ hne
          exact absurd rfl hne
        · intro hw
          cases hw
        intro hbegun
        rw [hnot] at hbegun
        cases hbegun

/-- The sweep answers the calls that have no result. -/
theorem Inv.sweep (h : Inv calls s) : Inv calls (s.step calls hooked .sweep) := by
  rw [step]
  split
  case isFalse => exact h
  case isTrue hdone =>
    have hstatus : ∀ i, (if i < calls.length then (s.records i).emit .skipped
        else s.records i).status = (s.records i).status := by
      intro i
      split
      · exact Record.emit_status _ _
      · rfl
    have hbegun : ∀ i, (if i < calls.length then (s.records i).emit .skipped
        else s.records i).begun = (s.records i).begun := by
      intro i
      split
      · exact Record.emit_begun _ _
      · rfl
    have hreported : ∀ i < calls.length, ((s.records i).emit .skipped).Reported := by
      intro i hi
      have hok := h.ok i
      have hcases : (s.records i).Reported ∨ (s.records i).Quiet := by
        rw [Record.Ok] at hok
        rcases hdone i hi with hst | hst <;> rw [hst] at hok <;> exact hok
      rcases hcases with hrep | hquiet
      · rw [hrep.emit]
        exact hrep
      · exact hquiet.emit _
    refine ⟨?_, ?_, ?_, ?_, h.source, ?_⟩
    · intro i
      change Record.Ok (if i < calls.length then (s.records i).emit .skipped else s.records i)
      split
      case isTrue hi =>
        rw [Record.Ok, Record.emit_status]
        rcases hdone i hi with hst | hst <;> rw [hst] <;> exact Or.inl (hreported i hi)
      case isFalse => exact h.ok i
    · intro i
      change (if i < calls.length then (s.records i).emit .skipped else s.records i).status ≠ _ →
        (if i < calls.length then (s.records i).emit .skipped else s.records i).status ≠ _ →
        (if i < calls.length then (s.records i).emit .skipped else s.records i).begun = true
      rw [hstatus, hbegun]
      exact h.begun i
    · intro i
      change (if i < calls.length then (s.records i).emit .skipped else s.records i).status = _ →
        (if i < calls.length then (s.records i).emit .skipped else s.records i).begun = false
      rw [hstatus, hbegun]
      exact h.waiting i
    · intro i j
      change _ → _ →
        (if i < calls.length then (s.records i).emit .skipped else s.records i).begun = true →
        (if j < calls.length then (s.records j).emit .skipped else s.records j).status = _
      rw [hstatus, hbegun]
      exact h.order i j
    intro _ i hi
    change (if i < calls.length then (s.records i).emit .skipped else s.records i).Reported ∧
      ((if i < calls.length then (s.records i).emit .skipped else s.records i).status = _ ∨
        (if i < calls.length then (s.records i).emit .skipped else s.records i).status = _)
    rw [hstatus, if_pos hi]
    exact ⟨hreported i hi, hdone i hi⟩

/-- One move keeps the invariant. -/
theorem Inv.step (h : Inv calls s) (l : Label) : Inv calls (s.step calls hooked l) := by
  cases l with
  | begin i d => exact h.begin i d
  | reject i => exact h.reject i
  | sweep => exact h.sweep
  | release i =>
    apply h.move ⟨Status.noConfusion, Status.noConfusion, Status.noConfusion⟩
    intro c hst
    have hquiet := Ok_of_status (h.ok i) hst (Or.inr (Or.inl rfl))
    split
    · exact ⟨hquiet, rfl, Status.noConfusion⟩
    · exact ⟨h.ok i, rfl, by rw [hst]; exact Status.noConfusion⟩
  | launch i d =>
    apply h.move ⟨Status.noConfusion, Status.noConfusion, Status.noConfusion⟩
    intro c hst
    have hquiet := Ok_of_status (h.ok i) hst (Or.inr (Or.inr rfl))
    obtain ⟨hok, hbegun, hne, -⟩ := @launch_ok s c (s.records i) hooked d hquiet
    exact ⟨hok, hbegun, hne⟩
  | settle i res =>
    apply h.move ⟨Status.noConfusion, Status.noConfusion, Status.noConfusion⟩
    intro c hst
    have hok := h.ok i
    rw [Record.Ok, hst] at hok
    obtain ⟨⟨h₁, h₂, h₃, h₄⟩, hreturned⟩ := hok
    cases res with
    | returns o =>
      have hafter := @afterExecution_ok s c
        { s.records i with result := o, returned := some o } hooked ⟨h₁, h₂, h₃, h₄⟩ ?_
      · exact ⟨hafter.1, hafter.2.1.1, hafter.2.1.2.1⟩
      intro o' ho'
      exact some.inj ho'
    | throws content =>
      have hafter := @afterExecution_ok s c
        { s.records i with result := ⟨content, true⟩ } hooked ⟨h₁, h₂, h₃, h₄⟩ ?_
      · exact ⟨hafter.1, hafter.2.1.1, hafter.2.1.2.1⟩
      intro o' ho'
      have hnone : some o' = none := ho'.symm.trans hreturned
      cases hnone
  | hookSettle i answer =>
    apply h.move ⟨Status.noConfusion, Status.noConfusion, Status.noConfusion⟩
    intro c hst
    have hok := h.ok i
    rw [Record.Ok, hst] at hok
    obtain ⟨⟨h₁, h₂, h₃, h₄⟩, hresult⟩ := hok
    have hreport := @report_ok s c
      { s.records i with result := answer.apply (s.records i).result, answered := answer }
      h₁ h₂ h₃ ?_
    · exact ⟨hreport.1, hreport.2.1.1, hreport.2.1.2.1⟩
    intro o ho
    rw [hresult o ho]
  | checked i throws =>
    apply h.move ⟨Status.noConfusion, Status.noConfusion, Status.noConfusion⟩
    intro c hst
    have hok := h.ok i
    rw [Record.Ok, hst] at hok
    cases throws
    · exact ⟨Or.inl hok, rfl, Status.noConfusion⟩
    · exact ⟨Or.inl hok, rfl, Status.noConfusion⟩
  | steeringFound =>
    rw [State.step]
    split
    · exact h
    refine ⟨h.ok, h.begun, h.waiting, h.order, ?_, h.swept⟩
    intro hnone
    cases hnone
  | ircCheck =>
    rw [State.step]
    split
    · exact h
    · exact ⟨h.ok, h.begun, h.waiting, h.order, h.source, h.swept⟩
  | ircChecked =>
    rw [State.step]
    split
    · exact h
    split
    · refine ⟨h.ok, h.begun, h.waiting, h.order, ?_, h.swept⟩
      intro hnone
      cases hnone
    · exact ⟨h.ok, h.begun, h.waiting, h.order, h.source, h.swept⟩
  | abort => exact ⟨h.ok, h.begun, h.waiting, h.order, h.source, h.swept⟩
  | pause => exact ⟨h.ok, h.begun, h.waiting, h.order, h.source, h.swept⟩
  | resume => exact ⟨h.ok, h.begun, h.waiting, h.order, h.source, h.swept⟩

/-! ### Late starts -/

/-- No call has executed too late. -/
def OnTime (s : State) : Prop :=
  ∀ i, (s.records i).late = false

theorem move_onTime_iff (hquiet : (s.records i).status = st → (s.records i).late = false) :
    (s.move calls i st f).OnTime ↔
      s.OnTime ∧ ∀ c, calls[i]? = some c → (s.records i).status = st →
        (f c (s.records i)).late = false := by
  rw [State.move]
  split
  case h_1 hnone =>
    refine ⟨fun h => ⟨h, fun c hc => ?_⟩, And.left⟩
    rw [hnone] at hc
    cases hc
  case h_2 c hc =>
    split
    case isFalse hstatus =>
      exact ⟨fun h => ⟨h, fun _ _ hst => absurd hst hstatus⟩, And.left⟩
    case isTrue hstatus =>
      constructor
      · intro h
        refine ⟨fun k => ?_, fun c' hc' _ => ?_⟩
        · by_cases hk : k = i
          · rw [hk]
            exact hquiet hstatus
          · have hother := h k
            rw [update_records_of_ne s (f c) hk] at hother
            exact hother
        have hself := h i
        rw [update_records_self] at hself
        rw [hc, Option.some.injEq] at hc'
        rw [← hc']
        exact hself
      rintro ⟨h, hmoved⟩ k
      by_cases hk : k = i
      · rw [hk, update_records_self]
        exact hmoved c hc hstatus
      rw [update_records_of_ne s (f c) hk]
      exact h k

theorem move_onTime_of_same
    (hsame : ∀ c, (s.records i).status = st → (f c (s.records i)).late = (s.records i).late) :
    (s.move calls i st f).OnTime ↔ s.OnTime := by
  rw [State.move]
  split
  · exact Iff.rfl
  case h_2 c _ =>
    split
    case isFalse => exact Iff.rfl
    case isTrue hstatus =>
      refine forall_congr' fun k => ?_
      by_cases hk : k = i
      · rw [hk, update_records_self, hsame c hstatus]
      · rw [update_records_of_ne s (f c) hk]

theorem launch_onTime_iff (h : Inv calls s) (i : ℕ) (d : Dispatch) :
    (s.step calls hooked (.launch i d)).OnTime ↔ s.OnTime ∧ s.Keeps calls (.launch i d) := by
  have hquiet : (s.records i).status = .released → (s.records i).Quiet := by
    intro hst
    exact Ok_of_status (h.ok i) hst (Or.inr (Or.inr rfl))
  rw [step, move_onTime_iff fun hst => (hquiet hst).2.2.2.2.2]
  refine and_congr_right fun _ => forall_congr' fun c => forall_congr' fun _ => ?_
  refine forall_congr' fun hst => ?_
  rw [launch_late d (hquiet hst)]
  cases s.executes c d <;> cases s.steeringAborted <;> simp

/-- A call that begins is late only under a peer's interrupt that came over a steering one. -/
theorem runTool_late_iff (h : Inv calls s) (d : Dispatch) (hquiet : r.Quiet) :
    (s.runTool hooked c d r).late = false ↔
      (s.paused = false → s.source = some .irc → c.interruptible = false →
        s.executes c d = true → s.steeringAborted = false) := by
  have hlate := hquiet.2.2.2.2.2
  have hbegun : Record.Quiet { r with begun := true } := hquiet
  rw [runTool]
  split
  case isTrue hpreempted =>
    refine iff_of_true hlate ?_
    intro _ hirc hinterruptible _
    rcases hpreempted.2 with hint | hsource
    · rw [hinterruptible] at hint
      cases hint
    · exact absurd hirc hsource
  case isFalse hgoes =>
    split
    case isTrue hpaused =>
      refine iff_of_true hlate ?_
      intro hrunning
      rw [hrunning] at hpaused
      cases hpaused
    case isFalse hpaused =>
      rw [launch_late d hbegun]
      rw [Bool.not_eq_true] at hpaused
      cases hsource : s.source with
      | none =>
        have hsteering := (h.source hsource).1
        rw [hsteering, Bool.and_false]
        exact iff_of_true rfl fun _ hirc => by cases hirc
      | some =>
        rw [hsource] at hgoes
        simp only [Option.isSome_some, true_and, not_or, ne_eq, not_not, Option.some.injEq,
          Bool.not_eq_true] at hgoes
        rw [hgoes.2]
        simp only [hpaused, hgoes.1, true_implies]
        cases s.executes c d <;> cases s.steeringAborted <;> simp

theorem begin_onTime_iff (h : Inv calls s) (i : ℕ) (d : Dispatch) :
    (s.step calls hooked (.begin i d)).OnTime ↔ s.OnTime ∧ s.Keeps calls (.begin i d) := by
  have hquiet : (s.records i).status = .waiting → (s.records i).Quiet := by
    intro hst
    exact Ok_of_status (h.ok i) hst (Or.inl rfl)
  rw [step]
  split
  case isFalse hwaits =>
    exact ⟨fun ht => ⟨ht, fun _ _ _ hall => absurd hall hwaits⟩, And.left⟩
  case isTrue hwaits =>
    rw [move_onTime_iff fun hst => (hquiet hst).2.2.2.2.2]
    refine and_congr_right fun _ => forall_congr' fun c => forall_congr' fun _ => ?_
    refine forall_congr' fun hst => ?_
    rw [runTool_late_iff h d (hquiet hst)]
    exact ⟨fun hk _ => hk, fun hk => hk hwaits⟩

theorem step_onTime_iff (h : Inv calls s) (l : Label) :
    (s.step calls hooked l).OnTime ↔ s.OnTime ∧ s.Keeps calls l := by
  have hplain : ∀ {t : State}, t.records = s.records → (t.OnTime ↔ s.OnTime ∧ True) := by
    intro t ht
    rw [OnTime, OnTime, ht, and_true]
  cases l with
  | begin i d => exact begin_onTime_iff h i d
  | launch i d => exact launch_onTime_iff h i d
  | reject =>
    rw [step]
    split
    · refine (move_onTime_of_same fun _ _ => rfl).trans ?_
      exact (and_iff_left trivial).symm
    · exact hplain rfl
  | release =>
    refine Iff.trans (move_onTime_of_same fun c _ => ?_) (and_iff_left trivial).symm
    split <;> rfl
  | settle i res =>
    refine Iff.trans (move_onTime_of_same fun c hst => ?_) (and_iff_left trivial).symm
    have hok := h.ok i
    rw [Record.Ok, hst] at hok
    obtain ⟨⟨h₁, h₂, h₃, h₄⟩, hreturned⟩ := hok
    cases res with
    | returns o =>
      have hafter := @afterExecution_ok s c
        { s.records i with result := o, returned := some o } hooked ⟨h₁, h₂, h₃, h₄⟩ ?_
      · exact hafter.2.2
      intro o' ho'
      exact some.inj ho'
    | throws content =>
      have hafter := @afterExecution_ok s c
        { s.records i with result := ⟨content, true⟩ } hooked ⟨h₁, h₂, h₃, h₄⟩ ?_
      · exact hafter.2.2
      intro o' ho'
      have hnone : some o' = none := ho'.symm.trans hreturned
      cases hnone
  | hookSettle =>
    refine Iff.trans (move_onTime_of_same fun c hst => ?_) (and_iff_left trivial).symm
    exact Record.emit_late _ _
  | checked =>
    exact (move_onTime_of_same fun _ _ => rfl).trans (and_iff_left trivial).symm
  | steeringFound =>
    rw [step]
    split
    · exact hplain rfl
    · exact hplain rfl
  | ircCheck =>
    rw [step]
    split
    · exact hplain rfl
    · exact hplain rfl
  | ircChecked =>
    rw [step]
    split
    · exact hplain rfl
    split
    · exact hplain rfl
    · exact hplain rfl
  | abort => exact hplain rfl
  | pause => exact hplain rfl
  | resume => exact hplain rfl
  | sweep =>
    rw [step]
    split
    · refine Iff.trans (forall_congr' fun i => ?_) (and_iff_left trivial).symm
      change (if i < calls.length then (s.records i).emit .skipped else s.records i).late = _ ↔ _
      split
      · rw [Record.emit_late]
      · exact Iff.rfl
    · exact hplain rfl

/-! ### A whole run -/

variable (ls : List Label)

theorem Inv.run : ∀ {s : State}, Inv calls s → Inv calls (s.run calls hooked ls) := by
  induction ls with
  | nil =>
    intro s h
    exact h
  | cons l ls ih =>
    intro s h
    exact ih (h.step l)

theorem run_onTime_iff : ∀ {s : State}, Inv calls s →
      ((s.run calls hooked ls).OnTime ↔ s.OnTime ∧ s.Keeping calls hooked ls) := by
  induction ls with
  | nil =>
    intro s _
    exact (and_iff_left trivial).symm
  | cons l ls ih =>
    intro s h
    rw [run, ih (h.step l), step_onTime_iff h l, and_assoc]
    rfl

/-- The invariant gives everything a batch respects but the late starts. -/
theorem Inv.respects_iff (h : Inv calls s) : s.Respects calls ↔ s.OnTime := by
  have hbegun : ∀ i, (s.records i).status = .executing → (s.records i).begun = true := by
    intro i hst
    apply h.begun i
    · rw [hst]
      exact Status.noConfusion
    rw [hst]
    exact Status.noConfusion
  have hclash : ∀ {i : ℕ}, (s.records i).status = .executing →
      ¬ (s.records i).status = .fulfilled := by
    intro i hst hful
    rw [hst] at hful
    cases hful
  refine ⟨fun hr => hr.late, fun hontime => ⟨?_, ?_, ?_, ?_, ?_, ?_, hontime⟩⟩
  · intro i j hne hexcl hi hj
    rcases lt_or_gt_of_ne hne with hlt | hgt
    · exact hclash hi (h.order j i hlt (Or.inr hexcl) (hbegun j hj))
    · exact hclash hj (h.order i j hgt (Or.inl hexcl) (hbegun i hi))
  · intro i j hlt hexcl hi
    exact h.order i j hlt (Or.inl hexcl) (hbegun i hi)
  · intro i j hlt hexcl hi
    rw [← Bool.not_eq_true]
    intro hj
    exact hclash hi (h.order j i hlt (Or.inr hexcl) hj)
  · intro i
    exact (h.ok i).events
  · intro hswept i hi
    obtain ⟨⟨rep, -, hevents, -⟩, -⟩ := h.swept hswept i hi
    exact ⟨rep, hevents⟩
  intro i o rep ho hrep
  exact (h.ok i).reports ho hrep

theorem inv_initial : Inv calls ({} : State) := by
  refine ⟨?_, ?_, ?_, ?_, ?_, ?_⟩
  · intro i
    exact ⟨rfl, rfl, rfl, rfl, rfl, rfl⟩
  · intro i hne
    exact absurd rfl hne
  · intro i _
    rfl
  · intro i j _ _ hbegun
    cases hbegun
  · intro _
    exact ⟨rfl, rfl⟩
  intro hswept
  cases hswept

end State

/-- **A batch respects exclusivity, order and interrupts** in every state of every run, exactly
as long as its moves start no call too late. -/
theorem run_respects_iff (calls : List Call) (hooked : Bool) (ls : List Label) :
    (({} : State).run calls hooked ls).Respects calls ↔
      ({} : State).Keeping calls hooked ls := by
  have hinv : State.Inv calls ({} : State) := State.inv_initial
  rw [(State.Inv.run ls hinv).respects_iff, State.run_onTime_iff ls hinv]
  exact and_iff_right fun _ => rfl

/-- A call waits at the pause gate while steering is detected. It cannot be interrupted, so it
does not see the abort, and it executes when the gate opens. -/
theorem parked_call_executes_late :
    ((({} : State).run [{}] false [.pause, .begin 0 .executes, .steeringFound, .resume, .release 0,
        .launch 0 .executes]).records 0).status = .executing ∧
    ¬ (({} : State).run [{}] false [.pause, .begin 0 .executes, .steeringFound, .resume,
        .release 0, .launch 0 .executes]).Respects [{}] := by
  refine ⟨by decide, ?_⟩
  intro h
  exact absurd (h.late 0) (by decide)

end BreadboardTui.ToolBatch
