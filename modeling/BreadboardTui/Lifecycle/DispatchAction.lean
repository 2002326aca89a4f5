import BreadboardTui.Lib.Runs
import Mathlib.Data.Nat.Notation

/-!
# Signals during a lifecycle action

`dispatchLifecycleAction` runs one action of the controller while SIGINT and SIGTERM may arrive.

* A first race is between the action and a signal, a second one, after a signal, between the action
  and a timer. A race goes to the promise that settles first.
* An event is what happens outside (a signal, a promise that settles, the timer) or `advance`, with
  which the function goes on behind an `await` whose promise has settled.
* The calls to the controller and to the terminal are counted.
-/

namespace BreadboardTui

open Runs Option Bool

/-- The kinds of `LifecycleResult`. -/
inductive LifecycleResultKind where
  | off
  | observed
  | ready
  | detached
  | stopped
  | failure
  deriving DecidableEq, Repr

inductive LifecycleSignal where
  | sigint
  | sigterm
  deriving DecidableEq, Repr

/-- How a promise of the controller settles. -/
inductive ActionSettlement where
  | resolved (result : LifecycleResultKind)
  | rejected
  deriving DecidableEq, Repr

/-- `abortResult()`, which is `lifecycleFailure(mode, "request-aborted", "request_aborted")`. -/
def abortResult : LifecycleResultKind := .failure

/-- Which promise a race goes to. -/
inductive RaceWinner where
  | action
  | signal
  | timeout
  deriving DecidableEq, Repr

/-- A `LifecycleActionExecution`, or the exception. -/
inductive ExecutionOutcome where
  | returned (result : LifecycleResultKind) (closeResult : Option LifecycleResultKind)
      (signal : Option LifecycleSignal)
  | thrown
  deriving DecidableEq, Repr

/-- The `await` at which the function stands. -/
inductive DispatchPhase where
  | actionOrSignal
  | actionOrTimeout
  | quiescence
  | closing (result : LifecycleResultKind)
  | finished (outcome : ExecutionOutcome)
  deriving DecidableEq, Repr

/-- The phases before `result` is known. -/
def DispatchPhase.undecided : DispatchPhase → Bool
  | .actionOrSignal | .actionOrTimeout | .quiescence => true
  | .closing _ | .finished _ => false

def DispatchPhase.isFinished : DispatchPhase → Bool
  | .finished _ => true
  | _ => false

/-- What the caller asks for, and whether the controller has an `abort`. -/
structure DispatchOptions where
  closeReady : Bool
  abort : Bool
  deriving Repr

structure LifecycleDispatch where
  phase : DispatchPhase := .actionOrSignal
  /-- The race that is awaited, or the last one. -/
  winner : Option RaceWinner := none
  /-- `actionPromise`, once it has settled. -/
  action : Option ActionSettlement := none
  signal : Option LifecycleSignal := none
  restored : Bool := false
  /-- `closePromise`, once `close` was called, and how it settled. -/
  closePromise : Option (Option ActionSettlement) := none
  abortCalls : ℕ := 0
  restoreTerminalCalls : ℕ := 0
  closeCalls : ℕ := 0
  deriving DecidableEq, Repr

inductive DispatchEvent where
  | signal (received : LifecycleSignal)
  | settle (settlement : ActionSettlement)
  | timeout
  | closeSettles (settlement : ActionSettlement)
  /-- With what `abortRequiresQuiescence?.()` gives, if it is asked. -/
  | advance (requiresQuiescence : Bool)
  deriving DecidableEq, Repr

namespace LifecycleDispatch

variable (o : DispatchOptions) (d : LifecycleDispatch)

def restoreOnce : LifecycleDispatch :=
  if d.restored then d
  else { d with restored := true, restoreTerminalCalls := d.restoreTerminalCalls + 1 }

def onSignal (received : LifecycleSignal) : LifecycleDispatch :=
  if d.signal.isSome then d
  else
    let e := { d with signal := some received }.restoreOnce
    { e with
      abortCalls := if o.abort then d.abortCalls + 1 else d.abortCalls
      winner := if d.phase = .actionOrSignal then d.winner.or (some .signal) else d.winner }

def closeOnce : LifecycleDispatch :=
  if d.closePromise.isSome then d
  else { d with closePromise := some none, closeCalls := d.closeCalls + 1 }

/-- The `finally` block takes the listeners off. -/
def finish (outcome : ExecutionOutcome) : LifecycleDispatch :=
  { d with phase := .finished outcome }.restoreOnce

/-- From `closeResult` on. -/
def conclude (result : LifecycleResultKind) : LifecycleDispatch :=
  if result = .ready ∧ (o.closeReady = true ∨ d.signal.isSome) then
    { d.closeOnce with phase := .closing result }
  else d.finish (.returned result none d.signal)

/-- What the function does with the settled `actionPromise`. -/
def takeAction : Option LifecycleDispatch :=
  d.action.map fun
    | .resolved result => d.conclude o result
    | .rejected => d.finish .thrown

/-- Runs the function to its next `await`. -/
def advance (requiresQuiescence : Bool) : Option LifecycleDispatch :=
  match d.phase with
  | .actionOrSignal => match d.winner with
    | none => none
    | some .action => d.takeAction o
    | some _ => some { d with
        phase := .actionOrTimeout, winner := if d.action.isSome then some .action else none }
  | .actionOrTimeout => match d.winner with
    | none => none
    | some .timeout =>
      if requiresQuiescence then some { d with phase := .quiescence }
      else some (d.conclude o abortResult)
    | some _ => d.takeAction o
  | .quiescence => d.takeAction o
  | .closing result => match d.closePromise with
    | some (some (.resolved closeResult)) =>
      some (d.finish (.returned result (some closeResult) d.signal))
    | some (some .rejected) => some (d.finish .thrown)
    | _ => none
  | .finished _ => none

def step : DispatchEvent → Option LifecycleDispatch
  | .signal received => some (if d.phase.isFinished then d else d.onSignal o received)
  | .settle settlement => if d.action.isSome then none else some { d with
      action := some settlement
      winner := match d.phase with
        | .actionOrSignal | .actionOrTimeout => d.winner.or (some .action)
        | _ => d.winner }
  | .timeout => if d.phase = .actionOrTimeout then
      some { d with winner := d.winner.or (some .timeout) } else none
  | .closeSettles settlement =>
    if d.closePromise = some none then some { d with closePromise := some (some settlement) }
    else none
  | .advance requiresQuiescence => d.advance o requiresQuiescence

/-- The function returned the abort result after the timeout, and waits for the action no more. -/
def Abandoned : Prop :=
  d.winner = some .timeout ∧ d.phase = .finished (.returned abortResult none d.signal)

/-! ### The invariant -/

/-- What holds between the events. -/
structure Coordinated : Prop where
  abort : d.abortCalls = if d.signal.isSome && o.abort then 1 else 0
  restoreTerminal : d.restoreTerminalCalls = if d.restored then 1 else 0
  close : d.closeCalls = if d.closePromise.isSome then 1 else 0
  restored : d.restored = (d.signal.isSome || d.phase.isFinished)
  closed : d.closePromise.isSome = true → d.action = some (.resolved .ready)
  winner : d.winner = some .action → d.action.isSome = true
  undecided : d.phase.undecided = true → d.closePromise = none
  closing : ∀ result, d.phase = .closing result → d.closePromise.isSome = true
  finished : d.phase.isFinished = true →
    (d.action.isSome = true ∧ (d.action = some (.resolved .ready) → d.signal.isSome = true →
      d.closePromise.isSome = true) ∧ (d.Abandoned → d.closePromise = none)) ∨
      (d.Abandoned ∧ d.closePromise = none)

variable {o d} {received : LifecycleSignal}

theorem Coordinated.onSignal (h : Coordinated o d) (hphase : d.phase.isFinished = false) :
    Coordinated o (d.onSignal o received) := by
  rw [LifecycleDispatch.onSignal]
  split
  · exact h
  next hsignal =>
  rw [not_eq_true] at hsignal
  have hrestored := h.restored
  rw [hsignal, hphase] at hrestored
  have habort := h.abort
  have hterminal := h.restoreTerminal
  simp only [restoreOnce, hrestored, hsignal, Bool.false_and, Bool.false_eq_true, if_false,
    Bool.or_self] at habort hterminal ⊢
  refine ⟨by rw [habort]; rfl, by rw [hterminal]; rfl, h.close, rfl, h.closed, fun hwinner => ?_,
    h.undecided, h.closing, fun hfinished => ?_⟩
  · refine h.winner ?_
    split at hwinner
    · exact (or_eq_some_iff.mp hwinner).resolve_right fun hor => by cases hor.2
    · exact hwinner
  rw [hphase] at hfinished
  cases hfinished

theorem Coordinated.finish (h : Coordinated o d) {outcome : ExecutionOutcome}
    (hfinished : (d.action.isSome = true ∧ (d.action = some (.resolved .ready) →
      d.signal.isSome = true → d.closePromise.isSome = true)) ∨
      (d.winner = some .timeout ∧ outcome = .returned abortResult none d.signal))
    (hopen : outcome = .returned abortResult none d.signal → d.closePromise = none) :
    Coordinated o (d.finish outcome) := by
  obtain ⟨habort, hterminal, hclose, hrestored, hclosed, hwinner, -, -, -⟩ := h
  have houtcome (h : DispatchPhase.finished outcome =
      .finished (.returned abortResult none d.signal)) :
      outcome = .returned abortResult none d.signal := DispatchPhase.finished.inj h
  rw [LifecycleDispatch.finish, restoreOnce]
  split
  · next hr =>
    refine ⟨habort, hterminal, hclose, ?_, hclosed, hwinner, ?_, ?_, fun _ => ?_⟩
    · simpa [DispatchPhase.isFinished] using hr
    · intro hundecided
      cases hundecided
    · intro _ hclosing
      cases hclosing
    exact hfinished.imp (fun h => ⟨h.1, h.2, fun habandoned => hopen (houtcome habandoned.2)⟩)
      fun h => ⟨⟨h.1, congrArg _ h.2⟩, hopen h.2⟩
  next hr =>
  refine ⟨?_, ?_, ?_, ?_, hclosed, hwinner, ?_, ?_, fun _ => ?_⟩
  · exact habort
  · rw [if_neg hr] at hterminal
    exact congrArg (· + 1) hterminal
  · exact hclose
  · exact (Bool.or_true _).symm
  · intro hundecided
    cases hundecided
  · intro _ hclosing
    cases hclosing
  exact hfinished.imp (fun h => ⟨h.1, h.2, fun habandoned => hopen (houtcome habandoned.2)⟩)
    fun h => ⟨⟨h.1, congrArg _ h.2⟩, hopen h.2⟩

theorem Coordinated.conclude (h : Coordinated o d) (hundecided : d.phase.undecided = true)
    {result : LifecycleResultKind}
    (hresult : d.action = some (.resolved result) ∨
      (d.winner = some .timeout ∧ result = abortResult)) :
    Coordinated o (d.conclude o result) := by
  have hopen := h.undecided hundecided
  rw [LifecycleDispatch.conclude]
  split
  · next hready =>
    have haction : d.action = some (.resolved .ready) := by
      rcases hresult with hresult | ⟨-, rfl⟩
      · rw [hresult, hready.1]
      · cases hready.1
    obtain ⟨habort, hterminal, hclose, hrestored, -, -, -, -, -⟩ := h
    rw [closeOnce, hopen, if_neg (by exact false_ne_true)]
    refine ⟨?_, ?_, ?_, ?_, fun _ => haction, ?_, ?_, fun _ _ => rfl, ?_⟩
    · exact habort
    · exact hterminal
    · rw [hopen] at hclose
      exact congrArg (· + 1) hclose
    · cases hphase : d.phase <;> rw [hphase] at hundecided hrestored <;>
        simp_all [DispatchPhase.isFinished, DispatchPhase.undecided]
    · intro _
      simp [haction]
    · intro hclosing
      cases hclosing
    intro hfinished
    cases hfinished
  next hready =>
  refine h.finish ?_ fun _ => hopen
  rcases hresult with hresult | ⟨hwinner, rfl⟩
  · refine .inl ⟨by rw [hresult]; rfl, fun haction hsignal => ?_⟩
    rw [hresult] at haction
    injection haction with haction
    injection haction with haction
    exact absurd ⟨haction, .inr hsignal⟩ hready
  · exact .inr ⟨hwinner, rfl⟩

variable {d' : LifecycleDispatch}

theorem Coordinated.takeAction (h : Coordinated o d) (hundecided : d.phase.undecided = true)
    (htake : d.takeAction o = some d') : Coordinated o d' := by
  obtain ⟨settlement, haction, rfl⟩ := map_eq_some_iff.mp htake
  cases settlement with
  | resolved => exact h.conclude hundecided (.inl haction)
  | rejected =>
    refine h.finish (.inl ⟨by rw [haction]; rfl, fun hready => ?_⟩) fun hnone => ?_
    · rw [haction] at hready
      cases hready
    · cases hnone

theorem Coordinated.advance (h : Coordinated o d) {requiresQuiescence : Bool}
    (hadvance : d.advance o requiresQuiescence = some d') :
    Coordinated o d' := by
  rw [LifecycleDispatch.advance] at hadvance
  split at hadvance
  · next hphase =>
    have hundecided : d.phase.undecided = true := by rw [hphase]; rfl
    split at hadvance
    · cases hadvance
    · exact h.takeAction hundecided hadvance
    cases hadvance
    refine ⟨h.abort, h.restoreTerminal, h.close, ?_, h.closed, ?_, fun _ => h.undecided hundecided,
      ?_, ?_⟩
    · rw [h.restored, hphase]
      rfl
    · dsimp only
      split
      · next hsome => exact fun _ => hsome
      intro hwinner
      cases hwinner
    · intro _ hclosing
      cases hclosing
    intro hfinished
    cases hfinished
  · next hphase =>
    have hundecided : d.phase.undecided = true := by rw [hphase]; rfl
    split at hadvance
    · cases hadvance
    · next hwinner =>
      split at hadvance
      · cases hadvance
        refine ⟨h.abort, h.restoreTerminal, h.close, ?_, h.closed, h.winner,
          fun _ => h.undecided hundecided, ?_, ?_⟩
        · rw [h.restored, hphase]
          rfl
        · intro _ hclosing
          cases hclosing
        intro hfinished
        cases hfinished
      cases hadvance
      exact h.conclude hundecided (.inr ⟨hwinner, rfl⟩)
    · exact h.takeAction hundecided hadvance
  · next hphase => exact h.takeAction (by rw [hphase]; rfl) hadvance
  · next result hphase =>
    have hclosed := h.closed (h.closing result hphase)
    have hfinished : (d.action.isSome = true ∧ (d.action = some (.resolved .ready) →
        d.signal.isSome = true → d.closePromise.isSome = true)) :=
      ⟨by rw [hclosed]; rfl, fun _ _ => h.closing result hphase⟩
    split at hadvance
    · cases hadvance
      refine h.finish (.inl hfinished) fun hnone => ?_
      cases hnone
    · cases hadvance
      refine h.finish (.inl hfinished) fun hnone => ?_
      cases hnone
    · cases hadvance
  · cases hadvance

theorem Coordinated.step (h : Coordinated o d) {event : DispatchEvent}
    (hstep : d.step o event = some d') : Coordinated o d' := by
  cases event with
  | signal =>
    cases hstep
    split
    · exact h
    · next hphase => exact h.onSignal (not_eq_true _ ▸ hphase)
  | settle =>
    rw [LifecycleDispatch.step] at hstep
    split at hstep
    · cases hstep
    next hnone =>
    cases hstep
    refine ⟨h.abort, h.restoreTerminal, h.close, h.restored, fun hclosed => ?_, fun _ => rfl,
      h.undecided, h.closing, fun hfinished => ?_⟩
    · rw [h.closed hclosed] at hnone
      exact absurd rfl hnone
    rcases h.finished hfinished with hsettled | ⟨⟨hwinner, hphase⟩, hopen⟩
    · exact absurd hsettled.1 hnone
    refine .inr ⟨⟨?_, hphase⟩, hopen⟩
    rw [hphase]
    exact hwinner
  | timeout =>
    rw [LifecycleDispatch.step] at hstep
    split at hstep
    · next hphase =>
      cases hstep
      refine ⟨h.abort, h.restoreTerminal, h.close, h.restored, h.closed, fun hwinner => ?_,
        h.undecided, h.closing, fun hfinished => ?_⟩
      · cases hd : d.winner with
        | none =>
          rw [hd] at hwinner
          cases hwinner
        | some =>
          rw [hd] at hwinner
          exact h.winner (hd.trans hwinner)
      rw [hphase] at hfinished
      cases hfinished
    · cases hstep
  | closeSettles =>
    rw [LifecycleDispatch.step] at hstep
    split at hstep
    · next hclose =>
      cases hstep
      have hsome : d.closePromise.isSome = true := by rw [hclose]; rfl
      refine ⟨h.abort, h.restoreTerminal, ?_, h.restored, fun _ => h.closed hsome, h.winner,
        fun hundecided => ?_, fun _ _ => rfl, fun hfinished => ?_⟩
      · rw [h.close, hsome]
        rfl
      · rw [h.undecided hundecided] at hclose
        cases hclose
      refine (h.finished hfinished).elim (fun hsettled => .inl ⟨hsettled.1, fun _ _ => rfl,
        fun habandoned => ?_⟩) ?_
      · rw [hsettled.2.2 habandoned] at hclose
        cases hclose
      rintro ⟨-, hopen⟩
      rw [hopen] at hclose
      cases hclose
    · cases hstep
  | advance => exact h.advance hstep

theorem coordinated_of_reached (h : Reached (step o) {} d) : Coordinated o d :=
  h.invariant (Coordinated o) (by
    refine ⟨rfl, rfl, rfl, rfl, ?_, ?_, fun _ => rfl, ?_, ?_⟩ <;> intro h <;> intros <;>
      contradiction) fun _ _ _ hd hstep => hd.step hstep

/-! ### What holds in every run -/

/-- `abort` and `close` are called at most once, `close` never before the action has settled, and the
terminal is restored exactly once by the time the function returns or throws. If a signal came
before that and the action resolves with a ready handle, `close` is called, unless the function had
returned the abort result after the timeout, which `abortRequiresQuiescence` allows; then it is not
called. -/
theorem dispatchLifecycleAction_closes_ready (h : Reached (step o) {} d) :
    d.abortCalls ≤ 1 ∧ d.restoreTerminalCalls ≤ 1 ∧
      (d.phase.isFinished = true → d.restoreTerminalCalls = 1) ∧
      d.closeCalls ≤ 1 ∧ (0 < d.closeCalls → d.action.isSome = true) ∧
      (d.phase.isFinished = true → d.signal.isSome = true →
        d.action = some (.resolved .ready) → (d.closeCalls = 1 ↔ ¬ d.Abandoned)) := by
  have hd := coordinated_of_reached h
  have hone : d.closeCalls = 1 ↔ d.closePromise.isSome = true := by
    rw [hd.close]
    split
    · next hsome => exact iff_of_true rfl hsome
    · next hsome => exact iff_of_false Nat.zero_ne_one hsome
  have hle : d.closeCalls ≤ 1 := by
    rw [hd.close]
    split <;> omega
  refine ⟨?_, ?_, fun hfinished => ?_, hle, fun hclose => ?_, fun hfinished hsignal hready => ?_⟩
  · rw [hd.abort]
    split <;> omega
  · rw [hd.restoreTerminal]
    split <;> omega
  · rw [hd.restoreTerminal, hd.restored, hfinished, Bool.or_true]
    rfl
  · rw [hd.closed (hone.mp (by omega))]
    rfl
  rw [hone]
  rcases hd.finished hfinished with ⟨-, hclosed, hnone⟩ | ⟨habandoned, hopen⟩
  · have hclosed := hclosed hready hsignal
    refine iff_of_true hclosed fun habandoned => ?_
    rw [hnone habandoned] at hclosed
    cases hclosed
  rw [hopen]
  exact iff_of_false false_ne_true fun h => h habandoned

/-- After SIGINT the timer fires first, no quiescence is asked for, and the action resolves late. -/
theorem dispatchLifecycleAction_leaks_ready :
    ¬ ∀ (o : DispatchOptions) (d : LifecycleDispatch), Reached (step o) {} d →
      d.phase.isFinished = true → d.signal.isSome = true → d.action = some (.resolved .ready) →
      0 < d.closeCalls := by
  intro hclosed
  have hrun : Reached (step ⟨false, true⟩) {} _ :=
    .of_exec .start (show exec (step ⟨false, true⟩) {} [.signal .sigint, .advance false, .timeout,
      .advance false, .settle (.resolved .ready)] = some _ from rfl)
  have hclose := hclosed _ _ hrun rfl rfl rfl
  revert hclose
  decide

theorem dispatchLifecycleAction_closes_ready_late :
    ∃ d, Reached (step ⟨false, true⟩) {} d ∧ d.phase.isFinished = true ∧ d.closeCalls = 1 := by
  have hrun : Reached (step ⟨false, true⟩) {} _ :=
    .of_exec .start (show exec (step ⟨false, true⟩) {} [.signal .sigterm, .advance false,
      .settle (.resolved .ready), .advance false, .closeSettles (.resolved .detached),
      .advance false] = some _ from rfl)
  have hclose := (dispatchLifecycleAction_closes_ready hrun).2.2.2.2.2 rfl rfl rfl
  exact ⟨_, hrun, rfl, hclose.mpr fun habandoned => by cases habandoned.1⟩

end LifecycleDispatch

end BreadboardTui
