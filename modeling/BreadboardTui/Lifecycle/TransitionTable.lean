import BreadboardTui.Lifecycle.FlowTransitions
import BreadboardTui.Lifecycle.HardSignal

/-!
# The transition table and the runs of the supervisor

In an orderly run no transition is illegal (`legal_run`). The table does not admit every run: a
`status` whose handshake fails leaves a state that a `restart` cannot start from.
-/

namespace BreadboardTui

namespace Supervisor

open Effects Option

section Tasks

variable {config : SupervisorConfig} {i : ℕ} {s : SupervisorState} {α : Type}

/-- A task that ends with all transitions legal. -/
def Legal (config : SupervisorConfig) (i : ℕ) (p : SupervisorM Unit) : Prop :=
  ∀ s : SupervisorState, s.illegal = false →
    (tabled config).Verifies i p (fun _ t => t.illegal = false) s

variable {f : SupervisorState → SupervisorState}

/-- An update that the flow of another task does not notice. -/
theorem Legal.modify_bind {p : Unit → SupervisorM Unit}
    (hf : ∀ s, Undisturbed s (f s)) (hillegal : ∀ s, (f s).illegal = s.illegal)
    (hp : Legal config i (p ())) : Legal config i (Fiber.modify f >>= p) :=
  fun s hs => Contract.verifies_bind.mpr (Contract.verifies_modify.mpr fun _ =>
    ⟨fun _ _ _ => hf s, hp (f s) ((hillegal s).trans hs)⟩)

theorem Legal.modify (hf : ∀ s, Undisturbed s (f s))
    (hillegal : ∀ s, (f s).illegal = s.illegal) : Legal config i (Fiber.modify f) :=
  fun s hs => Contract.verifies_modify.mpr fun _ =>
    ⟨fun _ _ _ => hf s, (hillegal s).trans hs⟩

theorem Legal.bind {p : SupervisorM Unit} {q : Unit → SupervisorM Unit} (hp : Legal config i p)
    (hq : Legal config i (q ())) : Legal config i (p >>= q) := by
  intro s hs
  refine Contract.verifies_bind.mpr ((hp s hs).mono fun r t ht => ?_)
  cases r with
  | ok => exact hq t ht
  | error => exact ht

theorem Legal.call_bind {c : SupervisorCall} {p : c.Reply → SupervisorM Unit}
    (hp : ∀ a, Legal config i (p a)) : Legal config i (Fiber.call c >>= p) :=
  fun _ hs => Contract.verifies_call_bind.mpr ⟨hs, fun t _ a _ ht _ => hp a t ht⟩

variable {body : SupervisorM α}

/-- A flow from its first step to its last. -/
theorem legal_underWay (hbody : Fine config i Anywhere body) :
    Legal config i (underWay i body) := by
  intro s hs
  refine Contract.verifies_bind.mpr (Contract.verifies_modify.mpr fun horderly => ?_)
  -- no other flow is under way
  have hbusy : ∀ j, j ≠ i → s.busy ≠ some j := by
    intro j hj hsome
    have hnone := horderly.1 (fun h => hj (some.inj (h.trans hsome)).symm)
      (some_ne_none i)
    rw [hnone] at hsome
    cases hsome
  refine ⟨fun j hj hsome => absurd hsome (hbusy j hj), ?_⟩
  refine Contract.verifies_bind.mpr ?_
  have hown : Own i { s with busy := some i } := ⟨rfl, hs⟩
  refine (hbody.attempted _ hown trivial).mono fun r t ht => ?_
  cases r with
  | ok =>
    refine Contract.verifies_modify.mpr fun _ => ⟨fun j hj hsome => ?_, ht.1.legal⟩
    rw [ht.1.busy] at hsome
    exact absurd (some.inj hsome).symm hj
  | error => exact ht.1.legal

theorem legal_operation {body : SupervisorM Unit} (hbody : Legal config i body) :
    Legal config i (operation body) := by
  refine .call_bind fun _ => .modify_bind (fun s => ⟨rfl, rfl⟩) (fun _ => rfl) ?_
  exact .bind hbody (.modify (fun s => ⟨rfl, rfl⟩) fun _ => rfl)

theorem legal_settled (hbody : Fine config i Anywhere body) : Legal config i (settled i body) :=
  legal_operation (.call_bind fun _ => legal_underWay hbody)

theorem legal_recoverChild : Legal config i (recoverChild i) := by
  have hend : Legal config i (Fiber.modify fun s => { s with childRecovery := false }) :=
    .modify (fun s => ⟨rfl, rfl⟩) fun _ => rfl
  refine .modify_bind (fun s => ⟨rfl, rfl⟩) (fun _ => rfl) fun s hs => ?_
  refine Contract.verifies_get_bind.mpr (Legal.bind (legal_underWay ?_) hend s hs)
  exact fine_restartAfterConfirmedDeath (fine_connectAttempt s.rounds)

theorem legal_childExit (generation : ℕ) (failed : Bool) :
    Legal config i (childExit config i generation failed) := by
  intro s hs
  refine Contract.verifies_get_bind.mpr ?_
  split
  · exact hs
  split
  · exact Legal.modify (f := SupervisorState.dropContext) (fun s => ⟨rfl, rfl⟩) (fun _ => rfl) s hs
  · exact legal_recoverChild s hs

theorem legal_jobBody (job : SupervisorJob) : Legal config i (jobBody config i job) := by
  cases job with
  | connect => exact legal_operation (legal_underWay (fine_connect config))
  | start => exact legal_operation (legal_underWay (fine_connect config))
  | status => exact legal_operation (legal_underWay (fine_status config))
  | stop consumerClosed => exact legal_settled (fine_stop config consumerClosed)
  | restart consumerClosed => exact legal_settled (fine_restart config consumerClosed)
  | close consumerClosed => exact legal_settled (fine_close config consumerClosed)
  | childExit generation failed => exact legal_childExit generation failed

/-- The renewal of a lease fails only while no flow is under way. -/
theorem happen_orderly {t : SupervisorState} (event : SupervisorEvent) (ht : event.happen s = t)
    (horderly : Orderly s t) : t.illegal = s.illegal ∧ (s.busy = some i → Undisturbed s t) := by
  subst ht
  cases event with
  | leaseFailure =>
    simp only [SupervisorEvent.happen, SupervisorState.leaseFailure] at horderly ⊢
    split
    · next hheld =>
      rw [if_pos hheld] at horderly
      refine ⟨rfl, fun hbusy => ?_⟩
      have hnone := horderly.2.1 (Nat.succ_ne_self s.leaseFailures)
      rw [hnone] at hbusy
      cases hbusy
    · exact ⟨rfl, fun _ => .refl s⟩
  | abort => exact ⟨rfl, fun _ => ⟨rfl, rfl⟩⟩
  | tick => exact ⟨rfl, fun _ => ⟨rfl, rfl⟩⟩

theorem sound_tabled (config : SupervisorConfig) : (tabled config).Sound where
  refl _ s _ := .refl s
  trans h h' hbusy := (h hbusy).trans (h' ((h hbusy).busy.trans hbusy))
  idle_rely _ _ := trivial
  pre_rely _ _ := trivial
  start _ _ _ := trivial
  happen {event s t} hinv hhappen horderly := by
    have ht := some.inj hhappen
    refine ⟨?_, fun i => (happen_orderly event ht horderly).2⟩
    exact (happen_orderly (i := 0) event ht horderly).1.trans hinv
  body {i job s} hinv _ := legal_jobBody job s hinv

end Tasks

/-! ### Every run -/

/-- The run lemma: no transition of an orderly run is illegal. -/
theorem legal_run (config : SupervisorConfig) (s : SupervisorState) (hs : s.illegal = false)
    (moves : List (Move SupervisorJob SupervisorChoice SupervisorEvent))
    (w : World SupervisorState SupervisorJob SupervisorCall.Reply ControlError)
    (hrun : (machine config).run moves ⟨s, []⟩ = some w)
    (horderly : ∀ u ∈ (machine config).updates moves ⟨s, []⟩, Orderly u.1 u.2) :
    w.state.illegal = false := by
  have hinitial : (tabled config).WorldOk ⟨s, []⟩ := Contract.WorldOk.initial hs fun _ => trivial
  exact ((sound_tabled config).run hinitial hrun horderly).inv

instance (s t : SupervisorState) : Decidable (Orderly s t) :=
  have hentries : Decidable (∀ entry, t.entries = entry :: s.entries →
      FlowEntry.accepts s.world.currentState entry = true) :=
    match t.entries with
    | [] => isTrue nofun
    | entry :: entries =>
      decidable_of_iff (entries = s.entries → FlowEntry.accepts s.world.currentState entry = true)
        ⟨fun h entry' heq => by
          cases heq
          exact h rfl,
        fun h heq => h entry (congrArg (entry :: ·) heq)⟩
  inferInstanceAs (Decidable (_ ∧ _ ∧ _))

section Examples

def sampleConfig : SupervisorConfig where
  platform := samplePlatform
  requestTimeoutMs := 1000
  requester := ⟨"registration-0001", 1, "client-instance-0001", "registration-credential-0001", 0⟩
  ownerExitPolicy := none
  restartOnUnexpectedChildExit := true

/-- A supervisor that was just made. -/
def newSupervisor : SupervisorState where
  world := { readyWorld with currentState := none, contextHeld := false }
  context := (sampleStop true []).context
  generation := 0
  aborted := false
  operating := false
  busy := none
  childRecovery := false
  detachedClosePhase := none
  restartStarts := []
  now := 0
  rounds := 4
  leaseFailures := 0
  entries := []
  illegal := false

/-- An engine that is running under its record, and agrees. -/
def agreeing : SupervisorChoice :=
  ⟨yes, none, .record, .asRecorded, true, (sampleStop true []).context⟩

/-- The authority is not the one of the context any more. -/
def invalid : SupervisorChoice := { agreeing with control := no }

def resumes (task : ℕ) (choices : List SupervisorChoice) :
    List (Move SupervisorJob SupervisorChoice SupervisorEvent) :=
  choices.map (.resume task)

/-- A `connect`, and a `stop` whose graceful request finds the authority invalid. -/
def failedStop : List (Move SupervisorJob SupervisorChoice SupervisorEvent) :=
  .start .connect :: resumes 0 (List.replicate 12 agreeing) ++
    .start (.stop true) :: resumes 1 (List.replicate 8 agreeing ++ [invalid])

/-- The failed `stop` is called again. -/
def stoppedAgain : List (Move SupervisorJob SupervisorChoice SupervisorEvent) :=
  failedStop ++ .start (.stop true) :: resumes 2 (List.replicate 2 agreeing)

/-- The failed `stop` keeps the context, in the state that it has stopped in. -/
theorem run_failedStop : ((machine sampleConfig).run failedStop ⟨newSupervisor, []⟩).map
      (fun w => (w.state.world.currentState, w.state.held, w.state.busy)) =
        some (some .stopping, true, none) := by
  decide +kernel

theorem legal_run_failedStop : ∃ w, (machine sampleConfig).run failedStop ⟨newSupervisor, []⟩ = some w ∧
    w.state.illegal = false := by
  obtain ⟨w, hrun, -⟩ := map_eq_some_iff.mp run_failedStop
  exact ⟨w, hrun, legal_run sampleConfig newSupervisor rfl failedStop w hrun (by decide +kernel)⟩

/-- The table admits every run from `s`. -/
def AdmitsEveryRun (config : SupervisorConfig) (s : SupervisorState) : Prop :=
  ∀ (moves : List (Move SupervisorJob SupervisorChoice SupervisorEvent))
    (w : World SupervisorState SupervisorJob SupervisorCall.Reply ControlError),
    (machine config).run moves ⟨s, []⟩ = some w → w.state.illegal = false

theorem illegal_stoppedAgain :
    ((machine sampleConfig).run stoppedAgain ⟨newSupervisor, []⟩).map (·.state.illegal) =
      some true := by
  decide +kernel

/-- A `stop` that has returned a failure cannot be called again. -/
theorem not_admitsEveryRun_newSupervisor : ¬ AdmitsEveryRun sampleConfig newSupervisor := by
  intro hadmits
  obtain ⟨w, hrun, hillegal⟩ := map_eq_some_iff.mp illegal_stoppedAgain
  rw [hadmits stoppedAgain w hrun] at hillegal
  cases hillegal

end Examples

end Supervisor

end BreadboardTui
