import BreadboardTui.Lib.Program
import Mathlib.Data.Nat.Notation

/-!
# Cooperative tasks

Tasks that share one state and run without interruption between two **suspensions**, as the
async functions of a single-threaded runtime do. A task reads and writes the shared state, starts
other tasks, and suspends itself until a call to the outside is answered (`TaskOp.call`) or until
the scheduler comes back to it (`TaskOp.pause`).

A `Machine` says which jobs there are, how calls are answered and what the outside can do to the
shared state. Its runs are lists of `Move`s: every interleaving, every answer and every outside
event is some list.

A `Contract` is the rely-guarantee argument about a machine: an invariant at every suspension,
for each task what the others leave alone while it is suspended, and a condition on single
updates that the runs in question meet. `Contract.Sound.run` turns a contract whose job bodies
are verified one at a time into a statement about all runs.
-/

namespace Effects

open List Option

/-- What a cooperative task asks for. -/
inductive TaskOp (σ Call Job : Type) where
  | get
  | set (s : σ)
  | spawn (job : Job) (record : ℕ → σ)
  | pause
  | call (call : Call)

/-- The answers. A task that starts another one learns its number, and the shared state becomes
what it has recorded for that number. -/
abbrev TaskOp.Answer {σ Call Job : Type} (Reply : Call → Type) : TaskOp σ Call Job → Type
  | get => σ
  | set _ => Unit
  | spawn _ _ => ℕ
  | pause => Unit
  | call c => Reply c

/-- A task. -/
abbrev Fiber (σ : Type) {Call : Type} (Job : Type) (Reply : Call → Type) (ε α : Type) :=
  Program (TaskOp σ Call Job) (TaskOp.Answer Reply) ε α

namespace Fiber

variable {σ Call Job : Type} {Reply : Call → Type} {ε α : Type}

/-- The shared state. -/
def get : Fiber σ Job Reply ε σ :=
  Program.ask (TaskOp.get : TaskOp σ Call Job)

/-- Update the shared state. -/
def modify (f : σ → σ) : Fiber σ Job Reply ε Unit := do
  let s ← get
  Program.ask (TaskOp.set (f s) : TaskOp σ Call Job)

/-- Start a task, record it in the shared state and return its number. -/
def spawn (job : Job) (record : ℕ → σ → σ) : Fiber σ Job Reply ε ℕ := do
  let s ← get
  Program.ask (TaskOp.spawn job (fun n => record n s) : TaskOp σ Call Job)

/-- Let the other tasks run. -/
def pause : Fiber σ Job Reply ε Unit :=
  Program.ask (TaskOp.pause : TaskOp σ Call Job)

/-- Suspend until a call is answered. -/
def call (c : Call) : Fiber σ Job Reply ε (Reply c) :=
  Program.ask (TaskOp.call c : TaskOp σ Call Job)

/-- `await p` for an async function: its outcome arrives after a pause. -/
def await (p : Fiber σ Job Reply ε α) : Fiber σ Job Reply ε α := p.always pause

/-- Run a task to its next suspension. The task that is left, the state, and the jobs that were
started come back; the first of these has the number `n`. -/
def advance : Fiber σ Job Reply ε α → ℕ → σ → Fiber σ Job Reply ε α × σ × List Job
  | .ret r, _, s => (.ret r, s, [])
  | .request .get next, n, s => advance (next s) n s
  | .request (.set t) next, n, _ => advance (next ()) n t
  | .request (.spawn job record) next, n, _ =>
    let (task, t, jobs) := advance (next n) (n + 1) (record n)
    (task, t, job :: jobs)
  | .request .pause next, _, s => (.request .pause next, s, [])
  | .request (.call c) next, _, s => (.request (.call c) next, s, [])

/-- The updates of the shared state on the way to the next suspension, each with the state before
and after it. -/
def updates : Fiber σ Job Reply ε α → ℕ → σ → List (σ × σ)
  | .ret _, _, _ => []
  | .request .get next, n, s => updates (next s) n s
  | .request (.set t) next, n, s => (s, t) :: updates (next ()) n t
  | .request (.spawn _ record) next, n, s =>
    (s, record n) :: updates (next n) (n + 1) (record n)
  | .request .pause _, _, _ => []
  | .request (.call _) _, _, _ => []

end Fiber

/-- The jobs of a system, the answers to their calls, and what happens from outside. -/
structure Machine (σ Job : Type) {Call : Type} (Reply : Call → Type) (Choice Event ε : Type) where
  /-- The program of a job whose task has the given number. -/
  body : Job → ℕ → Fiber σ Job Reply ε Unit
  /-- How a call is answered under a choice of the environment, if it can be answered now. -/
  reply : (c : Call) → Choice → σ → Option (Reply c)
  /-- The jobs that the outside starts. -/
  admits : Job → Bool
  /-- What an event does to the shared state, if it can happen now. -/
  happen : Event → σ → Option σ

/-- The shared state and all tasks ever started. -/
structure World (σ Job : Type) {Call : Type} (Reply : Call → Type) (ε : Type) where
  state : σ
  tasks : List (Fiber σ Job Reply ε Unit)

/-- One step of a run: a task runs to its next suspension, the outside starts a task, or an event
happens. -/
inductive Move (Job Choice Event : Type) where
  | resume (task : ℕ) (choice : Choice)
  | start (job : Job)
  | happen (event : Event)

namespace Machine

variable {σ Job Call : Type} {Reply : Call → Type} {Choice Event ε : Type}

/-- The task with its pending suspension answered. -/
def answer (m : Machine σ Job Reply Choice Event ε) (choice : Choice) (s : σ) :
    Fiber σ Job Reply ε Unit → Option (Fiber σ Job Reply ε Unit)
  | .request .pause next => some (next ())
  | .request (.call c) next => (m.reply c choice s).map next
  | task => some task

/-- The tasks of newly started jobs, numbered from `n`. -/
def launch (m : Machine σ Job Reply Choice Event ε) : ℕ → List Job → List (Fiber σ Job Reply ε Unit)
  | _, [] => []
  | n, job :: jobs => m.body job n :: m.launch (n + 1) jobs

/-- One move; `none` where it is not possible. -/
def step (m : Machine σ Job Reply Choice Event ε) (w : World σ Job Reply ε) :
    Move Job Choice Event → Option (World σ Job Reply ε)
  | .resume i choice => do
    let task ← w.tasks[i]?
    let task ← m.answer choice w.state task
    let (task, s, jobs) := task.advance w.tasks.length w.state
    return ⟨s, w.tasks.set i task ++ m.launch w.tasks.length jobs⟩
  | .start job =>
    if m.admits job then some ⟨w.state, w.tasks ++ [m.body job w.tasks.length]⟩ else none
  | .happen event => (m.happen event w.state).map fun s => ⟨s, w.tasks⟩

/-- The updates of one move. -/
def stepUpdates (m : Machine σ Job Reply Choice Event ε) (w : World σ Job Reply ε) :
    Move Job Choice Event → List (σ × σ)
  | .resume i choice =>
    match w.tasks[i]?.bind (m.answer choice w.state) with
    | some task => task.updates w.tasks.length w.state
    | none => []
  | .start _ => []
  | .happen event => (m.happen event w.state).toList.map fun s => (w.state, s)

/-- The world after a run. -/
def run (m : Machine σ Job Reply Choice Event ε) :
    List (Move Job Choice Event) → World σ Job Reply ε → Option (World σ Job Reply ε)
  | [], w => some w
  | move :: moves, w => (m.step w move).bind (m.run moves)

/-- The updates of a run, in order. -/
def updates (m : Machine σ Job Reply Choice Event ε) :
    List (Move Job Choice Event) → World σ Job Reply ε → List (σ × σ)
  | [], _ => []
  | move :: moves, w =>
    m.stepUpdates w move ++
      match m.step w move with
      | some w' => m.updates moves w'
      | none => []

end Machine

/-! ### Contracts -/

/-- A rely-guarantee argument about a machine. -/
structure Contract {σ Job Call : Type} {Reply : Call → Type} {Choice Event ε : Type}
    (m : Machine σ Job Reply Choice Event ε) where
  /-- What holds whenever no task is running. -/
  inv : σ → Prop
  /-- What a suspended task relies on: how the others may change the state. -/
  rely : ℕ → σ → σ → Prop
  /-- What holds as long as no task has the given number. -/
  idle : ℕ → σ → Prop
  /-- What a job relies on from the moment it is started. -/
  pre : ℕ → Job → σ → Prop
  /-- The condition that every update of the runs in question meets. -/
  allowed : σ → σ → Prop

namespace Contract

variable {σ Job Call : Type} {Reply : Call → Type} {Choice Event ε α β : Type}
  {m : Machine σ Job Reply Choice Event ε} {C : Contract m}

/-- What a task has to ensure when it asks: the others can rely on its updates, a job it starts
finds its precondition, and the invariant holds whenever it suspends itself. -/
def guard (C : Contract m) (i : ℕ) (s : σ) : TaskOp σ Call Job → Prop
  | .get => True
  | .set t => C.allowed s t → ∀ j, j ≠ i → C.rely j s t
  | .spawn job record => ∀ j, j ≠ i → C.idle j s → C.allowed s (record j) →
    C.pre j job (record j) ∧ ∀ k, k ≠ i → k ≠ j → C.rely k s (record j)
  | .pause => C.inv s
  | .call _ => C.inv s

/-- What a task finds when it is answered. -/
def env (C : Contract m) (i : ℕ) (s : σ) :
    (op : TaskOp σ Call Job) → TaskOp.Answer Reply op → σ → Prop
  | .get, a, t => a = s ∧ t = s
  | .set u, _, t => t = u ∧ C.allowed s u
  | .spawn _ record, j, t => t = record j ∧ j ≠ i ∧ C.idle j s ∧ C.allowed s (record j)
  | .pause, _, t => C.rely i s t ∧ C.inv t
  | .call c, a, t => C.rely i s t ∧ C.inv t ∧ ∃ choice, m.reply c choice t = some a

/-- `C.Verifies i p Q s`: run as task `i` from `s`, the program keeps the contract and ends with
an outcome and a state that satisfy `Q`. -/
def Verifies (C : Contract m) (i : ℕ) (p : Fiber σ Job Reply ε α) (Q : Except ε α → σ → Prop)
    (s : σ) : Prop :=
  p.Ensures (C.guard i) (C.env i) Q s

/-- A contract that the machine keeps. -/
structure Sound (C : Contract m) : Prop where
  refl : ∀ i s, C.rely i s s
  trans : ∀ {i s t u}, C.rely i s t → C.rely i t u → C.rely i s u
  idle_rely : ∀ {i s t}, C.idle i s → C.rely i s t → C.idle i t
  pre_rely : ∀ {i job s t}, C.pre i job s → C.rely i s t → C.pre i job t
  start : ∀ {i job s}, C.inv s → C.idle i s → m.admits job = true → C.pre i job s
  happen : ∀ {event s t}, C.inv s → m.happen event s = some t → C.allowed s t →
    C.inv t ∧ ∀ i, C.rely i s t
  body : ∀ {i job s}, C.inv s → C.pre i job s → C.Verifies i (m.body job i) (fun _ => C.inv) s

/-! ### Rules -/

section Rules

variable {i : ℕ} {s : σ}

variable {p : Fiber σ Job Reply ε α}

theorem Verifies.mono {Q Q' : Except ε α → σ → Prop}
    (hQ : ∀ r t, Q r t → Q' r t) (h : C.Verifies i p Q s) : C.Verifies i p Q' s :=
  Program.Ensures.mono hQ h

theorem verifies_bind {Q : Except ε β → σ → Prop} {f : α → Fiber σ Job Reply ε β} :
    C.Verifies i (p >>= f) Q s ↔
      C.Verifies i p (fun r t => match r with
        | .ok a => C.Verifies i (f a) Q t
        | .error e => Q (.error e) t) s :=
  Program.ensures_bind

variable {Q : Except ε α → σ → Prop}

theorem verifies_tryCatch {handler : ε → Fiber σ Job Reply ε α} :
    C.Verifies i (tryCatch p handler) Q s ↔
      C.Verifies i p (fun r t => match r with
        | .ok a => Q (.ok a) t
        | .error e => C.Verifies i (handler e) Q t) s :=
  Program.ensures_tryCatch

theorem verifies_always {cleanup : Fiber σ Job Reply ε Unit} : C.Verifies i (p.always cleanup) Q s ↔
      C.Verifies i p (fun r => C.Verifies i cleanup fun c t => match c with
        | .ok _ => Q r t
        | .error e => Q (.error e) t) s :=
  Program.ensures_always

theorem verifies_get {Q : Except ε σ → σ → Prop} : C.Verifies i Fiber.get Q s ↔ Q (.ok s) s := by
  constructor
  · intro h
    exact h.2 s s ⟨rfl, rfl⟩
  rintro h
  refine ⟨trivial, ?_⟩
  rintro _ _ ⟨rfl, rfl⟩
  exact h

theorem verifies_get_bind {f : σ → Fiber σ Job Reply ε α} :
    C.Verifies i (Fiber.get >>= f) Q s ↔ C.Verifies i (f s) Q s :=
  verifies_bind.trans verifies_get

theorem verifies_modify {Q : Except ε Unit → σ → Prop} {f : σ → σ} :
    C.Verifies i (Fiber.modify f) Q s ↔
      (C.allowed s (f s) → (∀ j, j ≠ i → C.rely j s (f s)) ∧ Q (.ok ()) (f s)) := by
  rw [Fiber.modify, verifies_bind, verifies_get]
  constructor
  · intro h hallowed
    exact ⟨h.1 hallowed, h.2 () (f s) ⟨rfl, hallowed⟩⟩
  intro h
  refine ⟨fun hallowed => (h hallowed).1, ?_⟩
  rintro a t ⟨rfl, hallowed⟩
  exact (h hallowed).2

theorem verifies_spawn {Q : Except ε ℕ → σ → Prop} {job : Job} {record : ℕ → σ → σ} :
    C.Verifies i (Fiber.spawn job record) Q s ↔
      ∀ j, j ≠ i → C.idle j s → C.allowed s (record j s) →
        (C.pre j job (record j s) ∧ ∀ k, k ≠ i → k ≠ j → C.rely k s (record j s)) ∧
          Q (.ok j) (record j s) := by
  rw [Fiber.spawn, verifies_bind, verifies_get]
  constructor
  · intro h j hj hidle hallowed
    exact ⟨h.1 j hj hidle hallowed, h.2 j (record j s) ⟨rfl, hj, hidle, hallowed⟩⟩
  intro h
  refine ⟨fun j hj hidle hallowed => (h j hj hidle hallowed).1, ?_⟩
  rintro j t ⟨rfl, hj, hidle, hallowed⟩
  exact (h j hj hidle hallowed).2

theorem verifies_pause {Q : Except ε Unit → σ → Prop} : C.Verifies i Fiber.pause Q s ↔
      C.inv s ∧ ∀ t, C.rely i s t → C.inv t → Q (.ok ()) t :=
  and_congr Iff.rfl
    ⟨fun h t hrely hinv => h () t ⟨hrely, hinv⟩, fun h _ t ht => h t ht.1 ht.2⟩

theorem verifies_call {c : Call} {Q : Except ε (Reply c) → σ → Prop} :
    C.Verifies i (Fiber.call c) Q s ↔
      C.inv s ∧ ∀ t choice a, C.rely i s t → C.inv t → m.reply c choice t = some a →
        Q (.ok a) t := by
  refine and_congr Iff.rfl ⟨fun h t choice a hrely hinv hreply => ?_, ?_⟩
  · exact h a t ⟨hrely, hinv, choice, hreply⟩
  rintro h a t ⟨hrely, hinv, choice, hreply⟩
  exact h t choice a hrely hinv hreply

theorem verifies_call_bind {c : Call} {f : Reply c → Fiber σ Job Reply ε α} :
    C.Verifies i (Fiber.call c >>= f) Q s ↔
      C.inv s ∧ ∀ t choice a, C.rely i s t → C.inv t → m.reply c choice t = some a →
        C.Verifies i (f a) Q t :=
  verifies_bind.trans verifies_call

theorem verifies_await : C.Verifies i p.await Q s ↔
      C.Verifies i p (fun r t => C.inv t ∧ ∀ u, C.rely i t u → C.inv u → Q r u) s := by
  rw [Fiber.await, verifies_always]
  constructor
  · exact Verifies.mono fun r t h => verifies_pause.mp h
  · exact Verifies.mono fun r t h => verifies_pause.mpr h

end Rules

/-! ### Soundness -/

section Soundness

variable {i n : ℕ} {s t : σ} {task : Fiber σ Job Reply ε Unit}

/-- A task that is not running keeps the contract from every state the others may bring about,
however its suspension is answered. -/
def Waits (C : Contract m) (i : ℕ) (task : Fiber σ Job Reply ε Unit) (s : σ) : Prop :=
  ∀ t, C.rely i s t → C.inv t → ∀ choice task', m.answer choice t task = some task' →
    C.Verifies i task' (fun _ => C.inv) t

/-- A world that keeps the contract. -/
structure WorldOk (C : Contract m) (w : World σ Job Reply ε) : Prop where
  inv : C.inv w.state
  idle : ∀ i, w.tasks.length ≤ i → C.idle i w.state
  waits : ∀ i task, w.tasks[i]? = some task → C.Waits i task w.state

theorem WorldOk.initial (hinv : C.inv s) (hidle : ∀ i, C.idle i s) : C.WorldOk ⟨s, []⟩ :=
  ⟨hinv, fun i _ => hidle i, by simp⟩

theorem Waits.rely (hC : C.Sound) (h : C.Waits i task s) (hrely : C.rely i s t) :
    C.Waits i task t :=
  fun u hu => h u (hC.trans hrely hu)

variable {op : TaskOp σ Call Job}

theorem answer_request_of_ne
    {next : TaskOp.Answer Reply op → Fiber σ Job Reply ε Unit} {choice : Choice}
    (hpause : op ≠ .pause) (hcall : ∀ c, op ≠ .call c) :
    m.answer choice s (.request op next) = some (.request op next) := by
  cases op with
  | pause => exact absurd rfl hpause
  | call c => exact absurd rfl (hcall c)
  | get => rfl
  | set => rfl
  | spawn => rfl

/-- A verified program can be suspended before it has run at all. -/
theorem Verifies.waits (hC : C.Sound)
    (h : ∀ t, C.rely i s t → C.inv t → C.Verifies i task (fun _ => C.inv) t) :
    C.Waits i task s := by
  intro t hrely hinv choice task' hanswer
  have htask := h t hrely hinv
  cases task with
  | ret =>
    cases hanswer
    exact htask
  | request op =>
    by_cases hpause : op = .pause
    · subst hpause
      cases hanswer
      exact htask.2 () t ⟨hC.refl i t, hinv⟩
    by_cases hcall : ∃ c, op = .call c
    · obtain ⟨c, rfl⟩ := hcall
      obtain ⟨a, hreply, rfl⟩ := map_eq_some_iff.mp hanswer
      exact htask.2 a t ⟨hC.refl i t, hinv, choice, hreply⟩
    rw [answer_request_of_ne hpause fun c hc => hcall ⟨c, hc⟩] at hanswer
    cases hanswer
    exact htask

theorem waits_body (hC : C.Sound) {job : Job} (h : C.pre i job s) : C.Waits i (m.body job i) s :=
  Verifies.waits hC fun _ hrely hinv => hC.body hinv (hC.pre_rely h hrely)

theorem Verifies.waits_suspended {next : TaskOp.Answer Reply op → Fiber σ Job Reply ε Unit}
    (h : C.Verifies i (.request op next) (fun _ => C.inv) s)
    (hop : op = .pause ∨ ∃ c, op = .call c) : C.Waits i (.request op next) s := by
  intro t hrely hinv choice task' hanswer
  rcases hop with rfl | ⟨c, rfl⟩
  · cases hanswer
    exact h.2 () t ⟨hrely, hinv⟩
  obtain ⟨a, hreply, rfl⟩ := map_eq_some_iff.mp hanswer
  exact h.2 a t ⟨hrely, hinv, choice, hreply⟩

/-- What a block of a task leaves behind, when the tasks below `n` exist. -/
structure AdvanceOk (C : Contract m) (i n : ℕ) (s : σ)
    (left : Fiber σ Job Reply ε Unit × σ × List Job) : Prop where
  inv : C.inv left.2.1
  rely : ∀ j, j < n → j ≠ i → C.rely j s left.2.1
  idle : ∀ j, n + left.2.2.length ≤ j → C.idle j left.2.1
  waits : C.Waits i left.1 left.2.1
  launched : ∀ k job, left.2.2[k]? = some job → C.pre (n + k) job left.2.1

theorem Verifies.advance (hC : C.Sound) (h : C.Verifies i task (fun _ => C.inv) s) (hi : i < n)
    (hidle : ∀ j, n ≤ j → C.idle j s)
    (hallowed : ∀ u ∈ task.updates n s, C.allowed u.1 u.2) :
    C.AdvanceOk i n s (task.advance n s) := by
  induction task generalizing n s with
  | ret =>
    refine ⟨h, fun j _ _ => hC.refl j s, hidle, ?_, by simp [Fiber.advance]⟩
    intro t _ hinv choice task' hanswer
    cases hanswer
    exact hinv
  | request op next ih =>
    cases op with
    | get => exact ih s (h.2 s s ⟨rfl, rfl⟩) hi hidle hallowed
    | set t =>
      have hst := hallowed (s, t) (mem_cons_self ..)
      have hrely := h.1 hst
      have hnext := ih () (h.2 () t ⟨rfl, hst⟩) hi
        (fun j hj => hC.idle_rely (hidle j hj) (hrely j (by omega)))
        fun u hu => hallowed u (mem_cons_of_mem _ hu)
      exact ⟨hnext.inv, fun j hj hji => hC.trans (hrely j hji) (hnext.rely j hj hji), hnext.idle,
        hnext.waits, hnext.launched⟩
    | spawn job record =>
      have hst := hallowed (s, record n) (mem_cons_self ..)
      have hn := hidle n (Nat.le_refl _)
      obtain ⟨hpre, hrely⟩ := h.1 n (Nat.ne_of_gt hi) hn hst
      have hnext := ih n (h.2 n (record n) ⟨rfl, Nat.ne_of_gt hi, hn, hst⟩) (by omega : i < n + 1)
        (fun j hj => hC.idle_rely (hidle j (by omega)) (hrely j (by omega) (by omega)))
        fun u hu => hallowed u (mem_cons_of_mem _ hu)
      refine ⟨hnext.inv, fun j hj hji => ?_, fun j hj => hnext.idle j ?_, hnext.waits,
        fun k job' hk => ?_⟩
      · exact hC.trans (hrely j hji (by omega)) (hnext.rely j (by omega) hji)
      · rw [Nat.add_assoc, Nat.add_comm 1]
        exact hj
      cases k with
      | zero =>
        obtain rfl : job = job' := some.inj hk
        exact hC.pre_rely hpre (hnext.rely n (by omega) (Nat.ne_of_gt hi))
      | succ k =>
        rw [Nat.add_comm k 1, ← Nat.add_assoc]
        exact hnext.launched k job' hk
    | pause =>
      exact ⟨h.1, fun j _ _ => hC.refl j s, hidle, h.waits_suspended (.inl rfl),
        by simp [Fiber.advance]⟩
    | call c =>
      exact ⟨h.1, fun j _ _ => hC.refl j s, hidle, h.waits_suspended (.inr ⟨c, rfl⟩),
        by simp [Fiber.advance]⟩

variable {jobs : List Job}

theorem getElem?_launch {k : ℕ} :
    (m.launch n jobs)[k]? = jobs[k]?.map fun job => m.body job (n + k) := by
  induction jobs generalizing n k with
  | nil => rfl
  | cons job jobs ih =>
    cases k with
    | zero => rfl
    | succ k => simp [Machine.launch, ih, Nat.add_assoc, Nat.add_comm 1 k]

theorem length_launch : (m.launch n jobs).length = jobs.length := by
  induction jobs generalizing n with
  | nil => rfl
  | cons job jobs ih => simp [Machine.launch, ih]

variable {w w' : World σ Job Reply ε}

theorem WorldOk.step (hC : C.Sound) {move : Move Job Choice Event}
    (hw : C.WorldOk w) (hstep : m.step w move = some w')
    (hallowed : ∀ u ∈ m.stepUpdates w move, C.allowed u.1 u.2) : C.WorldOk w' := by
  cases move with
  | start =>
    simp only [Machine.step] at hstep
    split at hstep
    · next hadmits =>
      cases hstep
      refine ⟨hw.inv, fun i hi => hw.idle i ?_, fun i task htask => ?_⟩
      · rw [length_append] at hi
        omega
      rw [getElem?_append] at htask
      split at htask
      · exact hw.waits i task htask
      next hlt =>
      obtain ⟨hi, rfl⟩ := List.getElem?_eq_some_iff.mp htask
      rw [length_singleton] at hi
      obtain rfl : i = w.tasks.length := by omega
      simp only [getElem_singleton]
      exact waits_body hC (hC.start hw.inv (hw.idle _ (Nat.le_refl _)) hadmits)
    · cases hstep
  | happen =>
    obtain ⟨s, hs, rfl⟩ := map_eq_some_iff.mp hstep
    have hst : C.allowed w.state s := hallowed (w.state, s) (by simp [Machine.stepUpdates, hs])
    obtain ⟨hinv, hrely⟩ := hC.happen hw.inv hs hst
    exact ⟨hinv, fun i hi => hC.idle_rely (hw.idle i hi) (hrely i),
      fun i task htask => (hw.waits i task htask).rely hC (hrely i)⟩
  | resume i choice =>
    simp only [Machine.step, bind_eq_bind, bind_eq_some_iff, Option.pure_def, some.injEq] at hstep
    obtain ⟨task, htask, task', hanswer, rfl⟩ := hstep
    have hi : i < w.tasks.length := (List.getElem?_eq_some_iff.mp htask).1
    have hverifies := hw.waits i task htask w.state (hC.refl i _) hw.inv choice task' hanswer
    have hok := hverifies.advance hC hi hw.idle (by
      simpa [Machine.stepUpdates, htask, hanswer] using hallowed)
    generalize task'.advance w.tasks.length w.state = left at hok
    obtain ⟨left, s, jobs⟩ := left
    refine ⟨hok.inv, fun j hj => ?_, fun j other hother => ?_⟩
    · simp only [length_append, length_set, length_launch] at hj
      exact hok.idle j hj
    simp only [getElem?_append, length_set, getElem?_launch] at hother
    split at hother
    · next hj =>
      rw [getElem?_set] at hother
      split at hother
      · next hij =>
        subst hij
        simp only [some.injEq] at hother
        subst hother
        exact hok.waits
      · next hij => exact (hw.waits j other hother).rely hC (hok.rely j hj (Ne.symm hij))
    next hj =>
    obtain ⟨job, hjob, rfl⟩ := map_eq_some_iff.mp hother
    have hpre := hok.launched _ job hjob
    rw [Nat.add_sub_cancel' (by omega : w.tasks.length ≤ j)] at hpre ⊢
    exact waits_body hC hpre

/-- The run lemma: what a sound contract says holds after every run whose updates are allowed. -/
theorem Sound.run (hC : C.Sound) {moves : List (Move Job Choice Event)}
    (hw : C.WorldOk w) (hrun : m.run moves w = some w')
    (hallowed : ∀ u ∈ m.updates moves w, C.allowed u.1 u.2) : C.WorldOk w' := by
  induction moves generalizing w with
  | nil =>
    cases hrun
    exact hw
  | cons move moves ih =>
    obtain ⟨w₁, hstep, hrest⟩ := bind_eq_some_iff.mp hrun
    simp only [Machine.updates, hstep, mem_append] at hallowed
    exact ih (hw.step hC hstep fun u hu => hallowed u (.inl hu)) hrest
      fun u hu => hallowed u (.inr hu)

end Soundness

end Contract

end Effects
