import BreadboardTui.Lifecycle.TransitionTable
import Mathlib.Data.List.TakeWhile
import Mathlib.Tactic

/-!
# The restart budget

`restartAfterConfirmedDeath` enters the time of each restart, and it refuses the fourth within sixty
seconds. The recursion of the connect flows goes through it after the death of a start.

A `Ledger` is the state of the supervisor with an account of one recursion: the times of all
entries, the entries of this recursion, its `spawnVerified` calls, and the dead records that it has
retired. The other tasks of the supervisor may enter restarts of their own while it is suspended
(`Elapses`).
-/

namespace BreadboardTui

open List

namespace Supervisor

open Effects

/-! ### The window -/

/-- The entries that are not yet sixty seconds old. -/
def recentStarts (s : SupervisorState) : List ℤ :=
  s.restartStarts.dropWhile fun start => 60000 ≤ s.now - start

/-- The entries of a log in the sixty seconds from `start` on. -/
def inWindow (start : ℤ) (log : List ℤ) : ℕ :=
  log.countP fun entry => start ≤ entry ∧ entry < start + 60000

/-- The entries of the log that are not in the list are old, and no window has more than three. -/
structure Window (s : SupervisorState) (log : List ℤ) : Prop where
  split : ∃ old, log = old ++ s.restartStarts ∧ ∀ entry ∈ old, 60000 ≤ s.now - entry
  bounded : ∀ start, inWindow start log ≤ 3

theorem Window.congr {s t : SupervisorState} {log : List ℤ} (h : Window s log)
    (hstarts : t.restartStarts = s.restartStarts) (hnow : s.now ≤ t.now) : Window t log := by
  obtain ⟨⟨old, hlog, hold⟩, hbounded⟩ := h
  refine ⟨⟨old, by rw [hstarts]; exact hlog, fun entry hentry => ?_⟩, hbounded⟩
  have hage := hold entry hentry
  omega

theorem old_of_mem_takeWhile {s : SupervisorState} {entry : ℤ}
    (h : entry ∈ s.restartStarts.takeWhile fun start => 60000 ≤ s.now - start) :
    60000 ≤ s.now - entry := by
  simpa using mem_takeWhile_imp h

theorem Window.recent {s : SupervisorState} {log : List ℤ} (h : Window s log) :
    ∃ old, log = old ++ recentStarts s ∧ ∀ entry ∈ old, 60000 ≤ s.now - entry := by
  obtain ⟨⟨old, hlog, hold⟩, -⟩ := h
  refine ⟨old ++ s.restartStarts.takeWhile fun start => 60000 ≤ s.now - start, ?_, ?_⟩
  · rw [hlog, append_assoc, recentStarts, takeWhile_append_dropWhile]
  intro entry hentry
  obtain hentry | hentry := mem_append.mp hentry
  · exact hold entry hentry
  · exact old_of_mem_takeWhile hentry

theorem Window.drop {s t : SupervisorState} {log : List ℤ} (h : Window s log)
    (hstarts : t.restartStarts = recentStarts s) (hnow : t.now = s.now) : Window t log := by
  obtain ⟨old, hlog, hold⟩ := h.recent
  exact ⟨⟨old, by rw [hstarts]; exact hlog, by rw [hnow]; exact hold⟩, h.bounded⟩

/-- A new entry: a window with it holds recent entries only, and these are two at most. -/
theorem Window.enter {s t : SupervisorState} {log : List ℤ} (h : Window s log)
    (hrecent : (recentStarts s).length < 3) (hstarts : t.restartStarts = recentStarts s ++ [s.now])
    (hnow : t.now = s.now) : Window t (log ++ [s.now]) := by
  obtain ⟨old, hlog, hold⟩ := h.recent
  refine ⟨⟨old, by rw [hstarts, hlog, append_assoc], by rw [hnow]; exact hold⟩, fun start => ?_⟩
  have hbounded := h.bounded start
  by_cases hin : start ≤ s.now ∧ s.now < start + 60000
  · have hout : inWindow start old = 0 := by
      refine countP_eq_zero.mpr fun entry hentry => ?_
      have hage := hold entry hentry
      simp
      omega
    have hle : inWindow start (recentStarts s) ≤ (recentStarts s).length := countP_le_length
    unfold inWindow at hout hle ⊢
    rw [hlog, countP_append, countP_append, hout, countP_singleton]
    split <;> omega
  unfold inWindow at hbounded ⊢
  rw [countP_append, countP_singleton, if_neg (by simpa using hin)]
  exact hbounded

variable (s : SupervisorState)

/-- A list that has a new entry is no end of the list before. -/
theorem not_suffix_enter : ¬ recentStarts s ++ [s.now] <:+ s.restartStarts := by
  intro h
  have hle := h.sublist.countP_le (p := fun start => decide (s.now - start < 60000))
  have hsplit : s.restartStarts =
      (s.restartStarts.takeWhile fun start => 60000 ≤ s.now - start) ++ recentStarts s :=
    takeWhile_append_dropWhile.symm
  have hold : (s.restartStarts.takeWhile fun start => 60000 ≤ s.now - start).countP
      (fun start => decide (s.now - start < 60000)) = 0 := by
    refine countP_eq_zero.mpr fun entry hentry => ?_
    have hage := old_of_mem_takeWhile hentry
    simp
    omega
  rw [hsplit, countP_append, countP_append, hold, countP_singleton] at hle
  simp at hle

theorem recentStarts_suffix : recentStarts s <:+ s.restartStarts :=
  dropWhile_suffix _

/-! ### The account of a recursion -/

/-- What the other tasks and the clock do while the recursion is suspended. -/
inductive Elapses : SupervisorState → List ℤ → SupervisorState → List ℤ → Prop
  | refl {s log} : Elapses s log s log
  | change {s log t u log'} (hstarts : t.restartStarts = s.restartStarts) (hnow : s.now ≤ t.now)
      (h : Elapses t log u log') : Elapses s log u log'
  | drop {s log t u log'} (hstarts : t.restartStarts = recentStarts s) (hnow : t.now = s.now)
      (h : Elapses t log u log') : Elapses s log u log'
  | enter {s log t u log'} (hrecent : (recentStarts s).length < 3)
      (hstarts : t.restartStarts = recentStarts s ++ [s.now]) (hnow : t.now = s.now)
      (h : Elapses t (log ++ [s.now]) u log') : Elapses s log u log'

structure Ledger where
  state : SupervisorState
  /-- The times of all entries, in order. -/
  log : List ℤ
  /-- The entries of this recursion. -/
  entered : ℕ
  /-- Its `spawnVerified` calls. -/
  spawned : ℕ
  /-- The dead records that it has retired. -/
  retired : ℕ
  /-- Whether its last decision has found a record that has not been retired since. -/
  found : Bool

/-- What the recursion writes. A list that is no end of the one before has a new entry. -/
def Ledger.write (L : Ledger) (t : SupervisorState) : Ledger :=
  if t.restartStarts <:+ L.state.restartStarts then { L with state := t }
  else { L with state := t, log := L.log ++ [L.state.now], entered := L.entered + 1 }

/-- What an answer says. -/
def Ledger.note (L : Ledger) : (c : SupervisorCall) → c.Reply → Ledger
  | .step .spawnVerified, _ => { L with spawned := L.spawned + 1 }
  | .step .retireDead, answer =>
    if L.found then
      match answer with
      | .ok true => { L with retired := L.retired + 1, found := false }
      | _ => L
    else L
  | .decideStart, answer =>
    match answer with
    | .ok .record => { L with found := true }
    | _ => { L with found := false }
  | _, _ => L

/-- Every call may be answered in every way, after any time. -/
def book (L : Ledger) (op : TaskOp SupervisorState SupervisorCall SupervisorJob)
    (a : TaskOp.Answer SupervisorCall.Reply op) (L' : Ledger) : Prop :=
  match op with
  | .get => a = L.state ∧ L' = L
  | .set t => L' = L.write t
  | .spawn _ record => L' = { L with state := record a }
  | .pause => ∃ s log, Elapses L.state L.log s log ∧ L' = { L with state := s, log := log }
  | .call c => ∃ s log, Elapses L.state L.log s log ∧
      L' = { L.note c a with state := s, log := log }

/-- A spawn needs an entry of its own, the first one apart. The recursion starts no task. -/
def spawnAllowed (L : Ledger) (op : TaskOp SupervisorState SupervisorCall SupervisorJob) : Prop :=
  match op with
  | .call (.step .spawnVerified) => L.spawned ≤ L.entered
  | .spawn _ _ => False
  | _ => True

/-- The account in the `n`th round, with `k` spawns that have no entry. -/
structure Account (k n : ℕ) (L : Ledger) : Prop where
  window : Window L.state L.log
  spawned : L.spawned ≤ L.entered + k
  rounds : n ≤ L.entered + L.retired

theorem Elapses.window {s t : SupervisorState} {log log' : List ℤ} (h : Elapses s log t log')
    (hwindow : Window s log) : Window t log' := by
  induction h with
  | refl => exact hwindow
  | change hstarts hnow _ ih => exact ih (hwindow.congr hstarts hnow)
  | drop hstarts hnow _ ih => exact ih (hwindow.drop hstarts hnow)
  | enter hrecent hstarts hnow _ ih => exact ih (hwindow.enter hrecent hstarts hnow)

variable {L : Ledger}

theorem Account.mono {k k' n n' : ℕ} (h : Account k n L) (hk : k ≤ k')
    (hn : n' ≤ n) : Account k' n' L :=
  ⟨h.window, h.spawned.trans (Nat.add_le_add_left hk _), hn.trans h.rounds⟩

/-- A supervisor that has restarted nothing, where a recursion begins. -/
theorem account_begin (found : Bool) (h : s.restartStarts = []) :
    Account 0 0 ⟨s, [], 0, 0, 0, found⟩ :=
  ⟨⟨⟨[], by rw [h]; rfl, nofun⟩, fun _ => Nat.zero_le _⟩, le_rfl, le_rfl⟩

/-! ### Rules -/

/-- The program keeps the account whatever it is. -/
def Quiet {α : Type} (p : SupervisorM α) : Prop :=
  ∀ k n L, Account k n L → p.Ensures spawnAllowed book (fun _ => Account k n) L

instance fact_zero : Fact (0 ≤ 1) := ⟨Nat.zero_le 1⟩

instance fact_one : Fact (1 ≤ 1) := ⟨le_rfl⟩

/-- Begun in the `n`th round with `k` spawns without an entry, the program ends with one at most. -/
def Sound {α : Type} (k n : ℕ) (p : SupervisorM α) : Prop :=
  ∀ L, Account k n L → p.Ensures spawnAllowed book (fun _ => Account 1 0) L

section Rules

variable {α β : Type} {k n : ℕ}

theorem quiet_pure (a : α) : Quiet (pure a : SupervisorM α) := fun _ _ _ h => h

theorem quiet_throw (e : ControlError) : Quiet (throw e : SupervisorM α) := fun _ _ _ h => h

variable {p : SupervisorM α} {f : α → SupervisorM β}

theorem Quiet.bind (hp : Quiet p) (hf : ∀ a, Quiet (f a)) : Quiet (p >>= f) := by
  intro k n L h
  refine Program.ensures_bind.mpr ((hp k n L h).mono fun r L' h' => ?_)
  cases r with
  | ok a => exact hf a k n L' h'
  | error => exact h'

theorem Quiet.tryCatch {handler : ControlError → SupervisorM α} (hp : Quiet p)
    (hhandler : ∀ e, Quiet (handler e)) : Quiet (tryCatch p handler) := by
  intro k n L h
  refine Program.ensures_tryCatch.mpr ((hp k n L h).mono fun r L' h' => ?_)
  cases r with
  | ok => exact h'
  | error e => exact hhandler e k n L' h'

theorem Quiet.attempt (hp : Quiet p) : Quiet p.attempt :=
  fun k n L h => Program.ensures_attempt.mpr (hp k n L h)

theorem quiet_get : Quiet (Fiber.get : SupervisorM SupervisorState) := by
  intro k n L h
  refine ⟨trivial, fun a L' henv => ?_⟩
  rw [henv.2]
  exact h

theorem quiet_modify {f : SupervisorState → SupervisorState}
    (hstarts : ∀ s, (f s).restartStarts = s.restartStarts) (hnow : ∀ s, (f s).now = s.now) :
    Quiet (Fiber.modify f : SupervisorM Unit) := by
  intro k n L h
  refine ⟨trivial, fun s L' henv => ⟨trivial, fun _ L'' henv' => ?_⟩⟩
  obtain ⟨rfl, rfl⟩ := henv
  have hsuffix : (f L'.state).restartStarts <:+ L'.state.restartStarts := by rw [hstarts]
  rw [henv', Ledger.write, if_pos hsuffix]
  exact ⟨h.window.congr (hstarts _) (hnow _).ge, h.spawned, h.rounds⟩

variable {c : SupervisorCall}

theorem Account.note (h : Account k n L)
    (hc : c ≠ .step .spawnVerified) (a : c.Reply) {s : SupervisorState} {log : List ℤ}
    (helapses : Elapses L.state L.log s log) :
    Account k n { L.note c a with state := s, log := log } := by
  have hkeep : (L.note c a).entered = L.entered ∧ (L.note c a).spawned = L.spawned ∧
      L.retired ≤ (L.note c a).retired := by
    unfold Ledger.note
    split
    · exact absurd rfl hc
    · split
      · split
        · exact ⟨rfl, rfl, Nat.le_succ _⟩
        · exact ⟨rfl, rfl, le_rfl⟩
      · exact ⟨rfl, rfl, le_rfl⟩
    · split <;> exact ⟨rfl, rfl, le_rfl⟩
    · exact ⟨rfl, rfl, le_rfl⟩
  refine ⟨helapses.window h.window, ?_, ?_⟩
  · show (L.note c a).spawned ≤ (L.note c a).entered + k
    rw [hkeep.1, hkeep.2.1]
    exact h.spawned
  rw [hkeep.1]
  exact h.rounds.trans (Nat.add_le_add_left hkeep.2.2 _)

theorem spawnAllowed_of_ne (hc : c ≠ .step .spawnVerified) : spawnAllowed L (.call c) := by
  unfold spawnAllowed
  split
  next heq =>
    cases heq
    exact absurd rfl hc
  next heq => cases heq
  · trivial

theorem quiet_call (hc : c ≠ .step .spawnVerified) :
    Quiet (Fiber.call c : SupervisorM c.Reply) := by
  intro k n L h
  refine ⟨spawnAllowed_of_ne hc, fun a L' henv => ?_⟩
  obtain ⟨s, log, helapses, rfl⟩ := henv
  exact h.note hc a helapses

theorem Quiet.sound [hk : Fact (k ≤ 1)] (hp : Quiet p) : Sound k n p :=
  fun L h => (hp k n L h).mono fun _ _ h' => h'.mono hk.out (Nat.zero_le n)

theorem Sound.bind [hk : Fact (k ≤ 1)] (hp : Quiet p)
    (hf : ∀ a, Sound k n (f a)) : Sound k n (p >>= f) := by
  intro L h
  refine Program.ensures_bind.mpr ((hp k n L h).mono fun r L' h' => ?_)
  cases r with
  | ok a => exact hf a L' h'
  | error => exact h'.mono hk.out (Nat.zero_le n)

theorem Sound.weaken (hp : Sound 1 n p) : Sound 0 n p :=
  fun L h => hp L (h.mono (Nat.zero_le _) le_rfl)

theorem sound_pure [Fact (k ≤ 1)] (a : α) : Sound k n (pure a : SupervisorM α) :=
  (quiet_pure a).sound

end Rules

/-! ### Flows without a spawn -/

theorem quiet_step {x : SupervisorStep} (hx : x ≠ .spawnVerified) : Quiet (step x) := by
  refine (quiet_call (c := .step x) fun h => ?_).bind fun answer => ?_
  · cases h
    exact hx rfl
  cases answer with
  | ok flag => exact quiet_pure flag
  | error e => exact quiet_throw e

theorem quiet_observe : Quiet observe := by
  refine (quiet_call (c := .observe) nofun).bind fun answer => ?_
  cases answer with
  | ok sight => exact quiet_pure sight
  | error e => exact quiet_throw e

theorem quiet_neverBack {α : Type} : Quiet (neverBack : SupervisorM α) :=
  (quiet_call (c := .never) nofun).bind fun nothing => nothing.elim

theorem quiet_performOwn (op : ControlCall) : Quiet (performOwn op) := by
  refine quiet_get.bind fun _ => quiet_get.bind fun _ => Quiet.bind ?_ fun _ => quiet_pure _
  exact quiet_modify (fun _ => rfl) fun _ => rfl

theorem quiet_transition (name : LifecycleStateName) : Quiet (transition name) := by
  refine (quiet_performOwn (.transition name)).bind fun answer => ?_
  split
  · exact quiet_pure _
  · exact quiet_throw _

theorem quiet_connectAndShake : Quiet connectAndShake :=
  (quiet_transition .connecting).bind fun _ => (quiet_transition .handshaking).bind fun _ =>
    (quiet_step (x := .handshake) nofun).bind fun _ => quiet_pure ()

theorem quiet_withReconnect (n : ℕ) : Quiet (withReconnect n) := by
  induction n with
  | zero => exact quiet_connectAndShake
  | succ n ih =>
    refine quiet_connectAndShake.tryCatch fun error => quiet_get.bind fun s => ?_
    split
    · exact (quiet_transition .reconnecting).bind fun _ =>
        (quiet_step (x := .sleep) nofun).bind fun _ => ih
    · exact quiet_throw error

theorem quiet_register : Quiet register := by
  refine (quiet_transition .registeringClient).bind fun _ =>
    (quiet_call (c := .registerClient) nofun).bind fun answer => ?_
  cases answer with
  | ok context => exact quiet_pure context
  | error e => exact quiet_throw e

theorem quiet_readyResult (context : ReadyContext) : Quiet (readyResult context) := by
  refine Quiet.bind ?_ fun _ => (quiet_performOwn .ready).bind fun answer => ?_
  · exact quiet_modify (fun _ => rfl) fun _ => rfl
  split
  · exact quiet_pure _
  · exact quiet_throw _

theorem quiet_abortUnspawnedStart : Quiet abortUnspawnedStart :=
  (quiet_step (x := .abortUnspawnedStart) nofun).bind fun _ => quiet_pure _

theorem quiet_shakeStart (n : ℕ) : Quiet (shakeStart n) := by
  induction n with
  | zero => exact quiet_pure _
  | succ n ih =>
    refine (quiet_step (x := .beforeDeadline) nofun).bind fun before => ?_
    split
    · exact quiet_pure _
    refine (quiet_transition .connecting).bind fun _ =>
      (quiet_transition .handshaking).bind fun _ =>
        (quiet_step (x := .handshake) nofun).attempt.bind fun answer => ?_
    split
    · exact quiet_pure _
    · exact quiet_pure _
    refine quiet_get.bind fun s => ?_
    split
    · exact quiet_pure _
    split
    · exact quiet_pure _
    split
    · exact quiet_pure _
    exact (quiet_transition .reconnecting).bind fun _ =>
      (quiet_step (x := .sleep) nofun).bind fun _ => ih

theorem quiet_pollChild (n : ℕ) (sight : ProcessSight) : Quiet (pollChild n sight) := by
  induction n generalizing sight with
  | zero =>
    cases sight with
    | ambiguous => exact quiet_neverBack
    | _ => exact quiet_pure _
  | succ n ih =>
    cases sight with
    | ambiguous =>
      refine (quiet_step (x := .beforeDeadline) nofun).bind fun before => ?_
      split
      · exact quiet_pure _
      refine (quiet_step (x := .waitForExit) nofun).bind fun exited => ?_
      split
      · exact quiet_pure _
      · exact quiet_observe.bind fun sight => ih sight
    | _ => exact quiet_pure _

theorem quiet_pollDead (n : ℕ) : Quiet (pollDead n) := by
  induction n with
  | zero => exact quiet_neverBack
  | succ n ih =>
    refine quiet_observe.bind fun sight => ?_
    cases sight with
    | asRecorded =>
      refine (quiet_step (x := .beforeDeadline) nofun).bind fun before => ?_
      split
      · exact (quiet_step (x := .sleep) nofun).bind fun _ => ih
      · exact quiet_pure _
    | _ => exact quiet_pure _

theorem quiet_resumeBound : Quiet resumeBound := by
  refine (quiet_step (x := .bindingMatches) nofun).bind fun bound => ?_
  split
  · exact quiet_pure _
  refine (quiet_transition .acquiringOwner).bind fun _ =>
    (quiet_step (x := .acquireOwner) nofun).bind fun _ =>
      (quiet_step (x := .commit) nofun).bind fun _ => quiet_register.attempt.bind fun answer => ?_
  split
  · refine quiet_get.bind fun s => ?_
    split
    · exact quiet_pure _
    · exact quiet_throw _
  refine quiet_get.bind fun s => ?_
  split
  · exact quiet_pure _
  · exact quiet_readyResult _

theorem quiet_adopt : Quiet adopt := by
  refine (quiet_withReconnect 3).bind fun _ =>
    (quiet_step (x := .bindingMatches) nofun).bind fun bound => ?_
  split
  · exact quiet_pure _
  refine (quiet_step (x := .controlFor) nofun).bind fun control => ?_
  split
  · exact quiet_pure _
  exact (quiet_step (x := .readSecret) nofun).bind fun _ =>
    (quiet_transition .acquiringOwner).bind fun _ =>
      (quiet_step (x := .acquireOwner) nofun).bind fun _ =>
        (quiet_step (x := .commit) nofun).bind fun _ =>
          quiet_register.bind fun context => quiet_readyResult context

/-! ### Flows that go on -/

section Flows

variable {k n : ℕ} {connect : SupervisorM ControlResult}

/-- The entry of a restart covers the spawn before it, or the one behind it. -/
theorem Account.write_enter (h : Account 1 n L) (hrecent : (recentStarts L.state).length < 3) :
    Account 0 (n + 1)
      (L.write { L.state with restartStarts := recentStarts L.state ++ [L.state.now] }) := by
  rw [Ledger.write, if_neg (not_suffix_enter L.state)]
  refine ⟨h.window.enter hrecent rfl rfl, h.spawned, ?_⟩
  have hrounds := h.rounds
  show n + 1 ≤ L.entered + 1 + L.retired
  omega

theorem Account.write_drop (h : Account 1 n L) :
    Account 1 0 (L.write { L.state with restartStarts := recentStarts L.state }) := by
  rw [Ledger.write, if_pos (recentStarts_suffix L.state)]
  exact ⟨h.window.drop rfl rfl, h.spawned, Nat.zero_le _⟩

theorem sound_restartAfterConfirmedDeath (hconnect : Sound 0 (n + 1) connect) :
    Sound 1 n (restartAfterConfirmedDeath connect) := by
  intro L h
  refine Program.ensures_bind.mpr ⟨trivial, fun s L' henv => ?_⟩
  obtain ⟨rfl, rfl⟩ := henv
  rw [Program.ensures_ret]
  dsimp only
  split
  · -- The budget is spent: old entries are dropped, and the flow ends.
    refine Program.ensures_bind.mpr ⟨trivial, fun s L'' henv => ⟨trivial, fun _ L₃ henv' => ?_⟩⟩
    obtain ⟨rfl, rfl⟩ := henv
    rw [henv']
    exact h.write_drop
  next hbudget =>
    refine Program.ensures_bind.mpr ⟨trivial, fun s L'' henv => ⟨trivial, fun _ L₃ henv' => ?_⟩⟩
    obtain ⟨rfl, rfl⟩ := henv
    have hentered := h.write_enter (not_le.mp hbudget)
    have hrest : Sound 0 (n + 1) (do
        transition .backingOff
        let _ ← step .sleep
        connect) :=
      Sound.bind (quiet_transition .backingOff) fun _ =>
        Sound.bind (quiet_step nofun) fun _ => hconnect
    rw [henv']
    exact hrest _ hentered

theorem sound_recoverStartupDeath (hconnect : Sound 0 (n + 1) connect) :
    Sound 1 n (recoverStartupDeath connect) := by
  refine Sound.bind (quiet_step nofun) fun retired => ?_
  split
  · exact sound_restartAfterConfirmedDeath hconnect
  · exact sound_pure _

theorem sound_registerStarted (hconnect : Sound 0 (n + 1) connect) :
    Sound 1 n (registerStarted connect) := by
  refine Sound.bind quiet_register.attempt fun answer => ?_
  split
  · refine Sound.bind quiet_get fun s => ?_
    split
    · exact sound_pure _
    refine Sound.bind (quiet_step nofun) fun exited => ?_
    split
    · exact sound_recoverStartupDeath hconnect
    · exact sound_pure _
  refine Sound.bind (quiet_step nofun) fun exited => ?_
  split
  · exact sound_recoverStartupDeath hconnect
  · exact (quiet_readyResult _).sound

theorem sound_ownStarted (hconnect : Sound 0 (n + 1) connect) : Sound 1 n (ownStarted connect) := by
  refine Sound.bind (quiet_step nofun) fun _ =>
    Sound.bind (quiet_transition .acquiringOwner) fun _ =>
      Sound.bind (quiet_step (x := .acquireOwner) nofun).attempt fun owner => ?_
  split
  · refine Sound.bind quiet_get fun s => ?_
    split
    · exact sound_pure _
    · exact sound_pure _
  refine Sound.bind (quiet_step (x := .commit) nofun).attempt fun committed => ?_
  split
  · exact sound_pure _
  refine Sound.bind quiet_get fun s => ?_
  split
  · exact sound_pure _
  · exact sound_registerStarted hconnect

theorem sound_startSpawned (hconnect : Sound 0 (n + 1) connect) :
    Sound 1 n (startSpawned connect) := by
  refine Sound.bind quiet_get fun s => Sound.bind quiet_observe fun first =>
    Sound.bind (quiet_pollChild s.rounds first) fun sight => ?_
  split
  · exact sound_recoverStartupDeath hconnect
  · exact sound_pure _
  · exact sound_pure _
  refine Sound.bind (quiet_shakeStart 5) fun shake => ?_
  split
  · exact sound_recoverStartupDeath hconnect
  · exact sound_pure _
  · exact sound_pure _
  refine Sound.bind quiet_observe fun sight => ?_
  split
  · exact sound_pure _
  refine Sound.bind (quiet_step nofun) fun bound => ?_
  split
  · exact sound_pure _
  · exact sound_ownStarted hconnect

/-- The spawn of a start, which uses up what is left. -/
theorem ensures_spawnVerified (h : Account 0 n L) :
    (step .spawnVerified).attempt.Ensures spawnAllowed book (fun _ => Account 1 n) L := by
  refine Program.ensures_attempt.mpr (Program.ensures_bind.mpr ⟨h.spawned, fun a L' henv => ?_⟩)
  obtain ⟨s, log, helapses, rfl⟩ := henv
  have hspawned : Account 1 n { L.note (.step .spawnVerified) a with state := s, log := log } :=
    ⟨helapses.window h.window, Nat.succ_le_succ h.spawned, h.rounds⟩
  cases a with
  | ok => exact hspawned
  | error => exact hspawned

theorem sound_coldStart (hconnect : Sound 0 (n + 1) connect) (restart : Bool) :
    Sound 0 n (coldStart connect restart) := by
  refine Sound.bind (quiet_transition _) fun _ =>
    Sound.bind quiet_get fun s => ?_
  split
  · exact quiet_abortUnspawnedStart.sound
  refine Sound.bind (quiet_step nofun) fun _ =>
    Sound.bind quiet_get fun s => ?_
  split
  · exact quiet_abortUnspawnedStart.sound
  intro L h
  refine Program.ensures_bind.mpr ((ensures_spawnVerified h).mono fun r L' h' => ?_)
  cases r with
  | error => exact h'.mono le_rfl (Nat.zero_le n)
  | ok =>
    dsimp only
    split
    · exact sound_startSpawned hconnect L' h'
    · exact Sound.bind (quiet_step (x := .releaseStartClaim) nofun)
        (fun _ => sound_restartAfterConfirmedDeath hconnect) L' h'
    exact Sound.bind (quiet_step (x := .releaseStartClaim) nofun)
      (fun _ => sound_pure _) L' h'

theorem sound_resumePendingStart (hconnect : Sound 0 (n + 1) connect) (bound : Bool) :
    Sound 0 n (resumePendingStart connect bound) := by
  refine Sound.bind quiet_get fun s => ?_
  split
  · exact sound_pure _
  refine Sound.bind (quiet_step nofun) fun claim => ?_
  split
  · exact sound_pure _
  refine Sound.bind (quiet_step nofun) fun control => ?_
  split
  · refine Sound.bind (quiet_pollDead _) fun dead => ?_
    split
    · exact (sound_recoverStartupDeath hconnect).weaken
    · exact sound_pure _
  refine Sound.bind (quiet_step nofun) fun _ => ?_
  split
  · exact quiet_resumeBound.sound
  refine Sound.bind (quiet_withReconnect 3).attempt fun answer => ?_
  split
  · exact quiet_resumeBound.sound
  refine Sound.bind quiet_observe fun sight => ?_
  split
  · exact (sound_recoverStartupDeath hconnect).weaken
  · exact (quiet_throw _).sound

theorem sound_replaceUnbound (hconnect : Sound 0 (n + 1) connect) :
    Sound 0 n (replaceUnbound connect) := by
  refine Sound.bind (quiet_step nofun) fun replaced => ?_
  split
  · exact sound_coldStart hconnect false
  · exact sound_pure _

theorem sound_resumeUnbound (hconnect : Sound 0 (n + 1) connect) (m : ℕ) :
    Sound 0 n (resumeUnbound connect m) := by
  induction m with
  | zero => exact quiet_neverBack.sound
  | succ m ih =>
    refine Sound.bind (quiet_step nofun) fun before => ?_
    split
    · exact sound_replaceUnbound hconnect
    refine Sound.bind quiet_get fun s => ?_
    split
    · exact sound_pure _
    refine Sound.bind quiet_connectAndShake.attempt fun answer => ?_
    split
    · refine Sound.bind quiet_get fun s => ?_
      split
      · exact sound_pure _
      refine Sound.bind (quiet_transition .reconnecting) fun _ =>
        Sound.bind (quiet_step nofun) fun before => ?_
      split
      · exact sound_replaceUnbound hconnect
      · exact Sound.bind (quiet_step nofun) fun _ => ih
    refine Sound.bind (quiet_step nofun) fun bound => ?_
    split
    · exact sound_pure _
    refine Sound.bind quiet_observe fun sight => ?_
    split
    · exact sound_pure _
    exact Sound.bind (quiet_step nofun) fun _ =>
      sound_resumePendingStart hconnect true

theorem sound_resumeUnboundPendingStart (hconnect : Sound 0 (n + 1) connect) :
    Sound 0 n (resumeUnboundPendingStart connect) := by
  refine Sound.bind (quiet_step nofun) fun claim => ?_
  split
  · exact sound_pure _
  · exact Sound.bind quiet_get fun s => sound_resumeUnbound hconnect s.rounds

end Flows

/-! ### Rounds -/

section Rounds

variable {n : ℕ} {connect : SupervisorM ControlResult}

/-- A dead record that the decision has found is retired, and the recursion goes on. -/
theorem ensures_adoptOrRecover (hconnect : Sound 0 (n + 1) connect)
    (h : Account 0 n L) (hfound : L.found = true) :
    (adoptOrRecover connect true).Ensures spawnAllowed book (fun _ => Account 1 0) L := by
  have hdone {L : Ledger} (h : Account 0 n L) : Account 1 0 L :=
    h.mono (Nat.zero_le _) (Nat.zero_le _)
  have hmatch : (step .recordMatchesConfig).Ensures spawnAllowed book
      (fun _ L' => Account 0 n L' ∧ L'.found = true) L := by
    refine Program.ensures_bind.mpr ⟨trivial, fun a L' henv => ?_⟩
    obtain ⟨s, log, helapses, rfl⟩ := henv
    cases a <;> exact ⟨h.note (c := .step .recordMatchesConfig) nofun _ helapses, hfound⟩
  have hobserve {L : Ledger} (h : Account 0 n L) (hfound : L.found = true) :
      observe.Ensures spawnAllowed book (fun _ L' => Account 0 n L' ∧ L'.found = true) L := by
    refine Program.ensures_bind.mpr ⟨trivial, fun a L' henv => ?_⟩
    obtain ⟨s, log, helapses, rfl⟩ := henv
    cases a <;> exact ⟨h.note (c := .observe) nofun _ helapses, hfound⟩
  have hretire {L : Ledger} (h : Account 0 n L) (hfound : L.found = true) :
      (step .retireDead).Ensures spawnAllowed book
        (fun r L' => Account 0 n L' ∧ (r = .ok true → Account 0 (n + 1) L')) L := by
    refine Program.ensures_bind.mpr ⟨trivial, fun a L' henv => ?_⟩
    obtain ⟨s, log, helapses, rfl⟩ := henv
    have hnote := h.note (c := .step .retireDead) nofun a helapses
    match a with
    | .error e => exact ⟨hnote, nofun⟩
    | .ok false => exact ⟨hnote, nofun⟩
    | .ok true =>
      refine ⟨hnote, fun _ => ⟨hnote.window, hnote.spawned, ?_⟩⟩
      have hrounds := h.rounds
      simp only [Ledger.note, hfound, if_true]
      omega
  refine Program.ensures_bind.mpr (hmatch.mono fun r L₁ h₁ => ?_)
  obtain ⟨h₁, hfound₁⟩ := h₁
  cases r with
  | error => exact hdone h₁
  | ok =>
    dsimp only
    split
    · exact hdone h₁
    refine Program.ensures_bind.mpr ((hobserve h₁ hfound₁).mono fun r L₂ h₂ => ?_)
    obtain ⟨h₂, hfound₂⟩ := h₂
    cases r with
    | error => exact hdone h₂
    | ok sight =>
      cases sight with
      | dead =>
        refine Program.ensures_bind.mpr ((hretire h₂ hfound₂).mono fun r L₃ h₃ => ?_)
        obtain ⟨h₃, hnext⟩ := h₃
        match r with
        | .error e => exact hdone h₃
        | .ok false => exact hdone h₃
        | .ok true => exact hconnect L₃ (hnext rfl)
      | asRecorded => exact quiet_adopt.sound L₂ h₂
      | other => exact hdone h₂
      | ambiguous => exact hdone h₂

theorem sound_decideStart (hconnect : Sound 0 (n + 1) connect) (m : ℕ) :
    Sound 0 n (decideStart connect m) := by
  induction m with
  | zero => exact quiet_neverBack.sound
  | succ m ih =>
    refine Sound.bind (quiet_step nofun) fun before => ?_
    split
    · exact sound_pure _
    refine Sound.bind quiet_get fun s => ?_
    split
    · exact sound_pure _
    intro L h
    refine Program.ensures_bind.mpr ⟨trivial, fun a L' henv => ?_⟩
    obtain ⟨s, log, helapses, rfl⟩ := henv
    have hnote := h.note (c := .decideStart) nofun a helapses
    match a with
    | .error e => exact hnote.mono (Nat.zero_le _) (Nat.zero_le _)
    | .ok .record => exact ensures_adoptOrRecover hconnect hnote rfl
    | .ok .recoverable => exact sound_resumePendingStart hconnect false _ hnote
    | .ok .unbound => exact sound_resumeUnboundPendingStart hconnect _ hnote
    | .ok .deadBound => exact hnote.mono (Nat.zero_le _) (Nat.zero_le _)
    | .ok .occupied =>
      exact Sound.bind (quiet_step (x := .sleep) nofun) (fun _ => ih) _ hnote
    | .ok .claimed => exact sound_coldStart hconnect false _ hnote

end Rounds

/-- `connectAttempt` with `bottom` in the place of the rounds that are left out. -/
def connectRounds (bottom : SupervisorM ControlResult) : ℕ → SupervisorM ControlResult
  | 0 => bottom
  | n + 1 => do
    let s ← Fiber.get
    if s.held then pure .ready
    else
      tryCatch (do
        transition .claiming
        decideStart (connectRounds bottom n) s.rounds) fun error => pure (.mapped error)

theorem connectRounds_neverBack (depth : ℕ) :
    connectRounds neverBack depth = connectAttempt depth := by
  induction depth with
  | zero => rfl
  | succ depth ih => rw [connectRounds, connectAttempt, ih]

/-- What is reached after `depth` rounds is reached with that many entries and retired records. -/
theorem sound_connectRounds {bottom : SupervisorM ControlResult} {depth n : ℕ}
    (hbottom : Sound 0 (n + depth) bottom) : Sound 0 n (connectRounds bottom depth) := by
  induction depth generalizing n with
  | zero => exact hbottom
  | succ depth ih =>
    have hconnect : Sound 0 (n + 1) (connectRounds bottom depth) :=
      ih (by rwa [add_assoc, add_comm 1])
    refine Sound.bind quiet_get fun s => ?_
    split
    · exact sound_pure _
    intro L h
    have hround : Sound 0 n (do
        transition .claiming
        decideStart (connectRounds bottom depth) s.rounds) :=
      Sound.bind (quiet_transition _) fun _ => sound_decideStart hconnect _
    refine Program.ensures_tryCatch.mpr ((hround L h).mono fun r L' h' => ?_)
    cases r with
    | ok => exact h'
    | error => exact h'

theorem Ledger.write_of_suffix {t : SupervisorState}
    (h : t.restartStarts <:+ L.state.restartStarts) :
    (L.write t).log = L.log ∧ (L.write t).entered = L.entered := by
  rw [Ledger.write, if_pos h]
  exact ⟨rfl, rfl⟩

/-- A program that awaits nothing. -/
def nothingAwaited (_ : Ledger) (op : TaskOp SupervisorState SupervisorCall SupervisorJob) : Prop :=
  match op with
  | .get | .set _ => True
  | _ => False

/-- A store that presents a dead record whenever it is asked, and lets it be retired. -/
def deadRecords (s : SupervisorState)
    (op : TaskOp SupervisorState SupervisorCall SupervisorJob)
    (a : TaskOp.Answer SupervisorCall.Reply op) (s' : SupervisorState) : Prop :=
  match op with
  | .get => a = s ∧ s' = s
  | .set t => s' = t
  | .call .decideStart => a = .ok .record ∧ s' = s
  | .call .observe => a = .ok .dead ∧ s' = s
  | .call (.step _) => a = .ok true ∧ s' = s
  | _ => False

/-- What that store answers, before any restart is entered. -/
def unentered (s : SupervisorState)
    (op : TaskOp SupervisorState SupervisorCall SupervisorJob) : Prop :=
  s.restartStarts = [] ∧
    match op with
    | .get | .set _ | .call .decideStart | .call .observe => True
    | .call (.step x) => x ≠ .spawnVerified
    | _ => False

/-- No context, no restart, and a first round of the decision. -/
structure Unstarted (s : SupervisorState) : Prop where
  held : s.held = false
  aborted : s.aborted = false
  starts : s.restartStarts = []
  rounds : 0 < s.rounds

theorem ensures_claiming {s : SupervisorState} (h : Unstarted s) :
    (transition .claiming).Ensures unentered deadRecords (fun r t => r = .ok () ∧ Unstarted t ∧
      t.rounds = s.rounds) s := by
  have hallowed : transitionAllowed s.world.currentState .claiming = true :=
    transitionAllowed_of_mem (by decide) _
  refine Program.ensures_bind.mpr (Program.ensures_bind.mpr
    ⟨⟨h.starts, trivial⟩, fun a s₁ henv => ?_⟩)
  obtain ⟨rfl, rfl⟩ := henv
  refine Program.ensures_bind.mpr ⟨⟨h.starts, trivial⟩, fun a s₁ henv => ?_⟩
  obtain ⟨rfl, rfl⟩ := henv
  refine Program.ensures_bind.mpr
    ⟨⟨h.starts, trivial⟩, fun a s₁ henv => ⟨⟨?_, trivial⟩, fun _ s₂ henv' => ?_⟩⟩
  · rw [henv.2]
    exact h.starts
  obtain ⟨rfl, rfl⟩ := henv
  obtain rfl : s₂ = _ := henv'
  simp only [Program.ensures_ret, Program.ensures_pure, ControlCall.perform,
    ControlWorld.transition, hallowed, if_true]
  exact ⟨trivial, ⟨h.held, h.aborted, h.starts, h.rounds⟩, trivial⟩

theorem ensures_step_deadRecords {s : SupervisorState} (h : Unstarted s) {x : SupervisorStep}
    (hx : x ≠ .spawnVerified) :
    (step x).Ensures unentered deadRecords (fun r t => r = .ok true ∧ t = s) s := by
  refine Program.ensures_bind.mpr ⟨⟨h.starts, hx⟩, fun a s₁ henv => ?_⟩
  obtain ⟨rfl, rfl⟩ := henv
  exact ⟨rfl, rfl⟩

/-- One round retires a dead record and goes on. -/
theorem ensures_decideStart_deadRecords {s : SupervisorState} (h : Unstarted s)
    {connect : SupervisorM ControlResult}
    {Q : Except ControlError ControlResult → SupervisorState → Prop}
    (hconnect : connect.Ensures unentered deadRecords Q s) (m : ℕ) :
    (decideStart connect (m + 1)).Ensures unentered deadRecords Q s := by
  refine Program.ensures_bind.mpr
    ((ensures_step_deadRecords (x := .beforeDeadline) h (by simp)).mono fun r t hr => ?_)
  obtain ⟨rfl, rfl⟩ := hr
  refine Program.ensures_bind.mpr ⟨⟨h.starts, trivial⟩, fun a s₁ henv => ?_⟩
  obtain ⟨rfl, rfl⟩ := henv
  simp only [Program.ensures_ret, h.aborted]
  refine Program.ensures_bind.mpr ⟨⟨h.starts, trivial⟩, fun a s₁ henv => ?_⟩
  obtain ⟨rfl, rfl⟩ := henv
  refine Program.ensures_bind.mpr
    ((ensures_step_deadRecords (x := .recordMatchesConfig) h (by simp)).mono fun r t hr => ?_)
  obtain ⟨rfl, rfl⟩ := hr
  refine Program.ensures_bind.mpr (Program.ensures_bind.mpr
    ⟨⟨h.starts, trivial⟩, fun a s₁ henv => ?_⟩)
  obtain ⟨rfl, rfl⟩ := henv
  refine Program.ensures_bind.mpr
    ((ensures_step_deadRecords (x := .retireDead) h (by simp)).mono fun r t hr => ?_)
  obtain ⟨rfl, rfl⟩ := hr
  exact hconnect

theorem ensures_connectRounds_deadRecords {s : SupervisorState} (h : Unstarted s) (depth : ℕ) :
    (connectRounds (pure .detached) depth).Ensures unentered deadRecords
      (fun r t => r = .ok .detached ∧ t.restartStarts = []) s := by
  induction depth generalizing s with
  | zero => exact ⟨rfl, h.starts⟩
  | succ depth ih =>
    refine Program.ensures_bind.mpr ⟨⟨h.starts, trivial⟩, fun a s₁ henv => ?_⟩
    obtain ⟨rfl, rfl⟩ := henv
    simp only [Program.ensures_ret, h.held]
    refine Program.ensures_tryCatch.mpr (Program.ensures_bind.mpr
      ((ensures_claiming h).mono fun r t hr => ?_))
    obtain ⟨rfl, ht, hrounds⟩ := hr
    obtain ⟨m, hm⟩ := Nat.exists_eq_succ_of_ne_zero h.rounds.ne'
    rw [hm]
    refine (ensures_decideStart_deadRecords ht (ih ht) m).mono fun r u hr => ?_
    obtain ⟨rfl, hu⟩ := hr
    exact ⟨rfl, hu⟩

end Supervisor

end BreadboardTui
