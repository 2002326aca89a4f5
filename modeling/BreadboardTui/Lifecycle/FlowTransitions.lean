import BreadboardTui.Lifecycle.StopTransitions

/-!
# The transitions of the operations

Each flow of the supervisor calls `transition` only where the table allows it, from the states that
its callers can be in. The flows that start from whatever state there is (`enter`) rely on their entry.
-/

namespace BreadboardTui

namespace Supervisor

open Effects

/-- The program is lawful, whatever comes of it. -/
abbrev Fine {α : Type} (config : SupervisorConfig) (i : ℕ) (P : SupervisorState → Prop)
    (p : SupervisorM α) : Prop :=
  Lawful config i P (fun _ _ => True) p

variable {name : LifecycleStateName}

theorem transitionAllowed_of_mem (h : name ∈ initialStates)
    (state : Option LifecycleStateName) : transitionAllowed state name = true := by
  rw [transitionAllowed, decide_eq_true h, Bool.or_true, Bool.true_or]

section Rules

variable {config : SupervisorConfig} {i : ℕ} {α β : Type} {P Q : SupervisorState → Prop}
  {S : Option LifecycleStateName → Prop}

theorem fine_pure {a : α} : Fine config i P (pure a) := lawful_pure fun _ _ => trivial

theorem fine_throw {e : ControlError} : Fine config i P (throw e : SupervisorM α) :=
  lawful_throw fun _ _ => trivial

theorem fine_neverBack : Fine config i P (neverBack : SupervisorM α) :=
  (goes_neverBack (M := fun _ _ => True)).mono (fun _ h => h) fun _ _ _ => trivial

variable {p : SupervisorM α}

variable {R : Except ControlError α → SupervisorState → Prop}

theorem Lawful.fine (hp : Lawful config i P R p) : Fine config i P p :=
  hp.mono (fun _ h => h) fun _ _ _ => trivial

theorem Lawful.fine_bind {M : α → SupervisorState → Prop}
    {f : α → SupervisorM β} (hp : Goes config i P M p) (hf : ∀ a, Fine config i (M a) (f a)) :
    Fine config i P (p >>= f) :=
  hp.bind (fun _ _ _ => trivial) fun a => (hf a).mono (fun _ h => h a rfl) fun _ _ h => h

theorem Lawful.weaken (hp : Lawful config i P R p) (hQ : ∀ s, Q s → P s) : Lawful config i Q R p :=
  hp.mono hQ fun _ _ h => h

theorem fine_unless {c : Prop} [Decidable c] {a : α} (hp : Fine config i P p) :
    Fine config i P (if c then pure a else p) :=
  .ite (fun _ => fine_pure) fun _ => hp

theorem Fine.anywhere (hp : Fine config i Anywhere p) : Fine config i P p :=
  hp.weaken fun _ _ => trivial

theorem goes_step (x : SupervisorStep) : Goes config i (Known S) (fun _ => Known S) (step x) :=
  (lawful_step x).goes fun _ _ h => h

theorem goes_observe : Goes config i (Known S) (fun _ => Known S) observe :=
  lawful_observe.goes fun _ _ h => h

theorem goes_attempt_step (x : SupervisorStep) :
    Goes config i (Known S) (fun _ => Known S) (step x).attempt :=
  (lawful_step x).attempt

theorem goes_transition (hS : ∀ state, S state → transitionAllowed state name = true) :
    Goes config i (Known S) (fun _ => At name) (transition name) :=
  (lawful_transition hS).goes fun _ _ h => h.2

theorem goes_transition_at {next : LifecycleStateName}
    (h : transitionAllowed (some name) next = true) :
    Goes config i (At name) (fun _ => At next) (transition next) :=
  goes_transition fun state hstate => by
    rw [hstate]
    exact h

theorem goes_transition_initial (h : name ∈ initialStates) :
    Goes config i P (fun _ => At name) (transition name) :=
  Lawful.weaken (P := Anywhere) (goes_transition fun state _ => transitionAllowed_of_mem h state)
    fun _ _ => trivial

end Rules

/-! ### The connect flows -/

section Connect

variable {config : SupervisorConfig} {i : ℕ} {P : SupervisorState → Prop}
  {S : Option LifecycleStateName → Prop} {connect : SupervisorM ControlResult}

theorem lawful_connectAndShake : Lawful config i P (fun _ => At .handshaking) connectAndShake := by
  have hconnecting : Lawful config i P (fun r t => r = .ok () ∧ At .connecting t)
      (transition .connecting) :=
    Lawful.weaken (P := Anywhere)
      (lawful_transition fun state _ => transitionAllowed_of_mem (by decide) state) fun _ _ => trivial
  refine hconnecting.bind (fun _ _ h => nomatch h.1) fun _ => ?_
  refine ((lawful_transition fun state hstate => ?_).weaken fun _ h => h.2).bind
    (fun _ _ h => nomatch h.1) fun _ => ?_
  · rw [hstate]
    decide
  exact ((lawful_step .handshake).weaken fun _ h => h.2).bind (fun _ _ h => h)
    fun _ => lawful_pure fun _ h => h

variable (n : ℕ)

theorem goes_withReconnect : Goes config i P (fun _ => At .handshaking) (withReconnect n) := by
  induction n generalizing P with
  | zero => exact lawful_connectAndShake.goes fun _ _ h => h
  | succ n ih =>
    refine Lawful.tryCatch lawful_connectAndShake (fun _ s h a ha => h) fun error => ?_
    refine lawful_get_bind fun s => .ite (fun _ => ?_) fun _ => goes_throw
    refine (goes_transition_at (by decide)).goes_bind fun _ => ?_
    exact (goes_step .sleep).goes_bind fun _ => ih

theorem lawful_register (hS : ∀ state, S state → transitionAllowed state .registeringClient = true) :
    Lawful config i (Known S) (fun _ => At .registeringClient) register := by
  refine (lawful_transition hS).bind (fun _ _ h => nomatch h.1) fun _ => ?_
  refine Lawful.bind (R := fun _ => At .registeringClient)
    (lawful_call fun s t a h ht => h.2.undisturbed ht) (fun _ _ h => h) fun answer => ?_
  split
  · exact lawful_pure fun _ h => h
  · exact lawful_throw fun _ h => h

theorem fine_readyResult (context : ReadyContext) :
    Fine config i (At .registeringClient) (readyResult context) := by
  refine Lawful.fine_bind (M := fun _ => At .registeringClient)
    (lawful_modify fun s hs h _ => ⟨⟨hs.busy, hs.legal⟩, fun _ _ => h⟩) fun _ => ?_
  refine Lawful.fine_bind (M := fun _ _ => True) ?_ fun answer => ?_
  · refine (lawful_performOwn (R := fun _ _ => True) (fun s h => ?_) fun _ _ _ _ _ => trivial).goes
      fun _ _ h => h
    rw [ControlCall.legal, h]
    decide
  split
  · exact fine_pure
  · exact fine_throw

theorem fine_restartAfterConfirmedDeath (hconnect : Fine config i Anywhere connect) :
    Fine config i P (restartAfterConfirmedDeath connect) := by
  refine lawful_get_bind fun s => .ite (fun _ => ?_) fun _ => ?_
  · exact Lawful.fine_bind (M := fun _ _ => True)
      (lawful_modify fun s hs h _ => ⟨⟨hs.busy, hs.legal⟩, fun _ _ => trivial⟩) fun _ => fine_pure
  refine Lawful.fine_bind (M := fun _ _ => True)
    (lawful_modify fun s hs h _ => ⟨⟨hs.busy, hs.legal⟩, fun _ _ => trivial⟩) fun _ => ?_
  refine (goes_transition_initial (by decide)).fine_bind fun _ => ?_
  exact (goes_step .sleep).fine_bind fun _ => hconnect.anywhere

theorem fine_recoverStartupDeath (hconnect : Fine config i Anywhere connect) :
    Fine config i P (recoverStartupDeath connect) := by
  refine Fine.anywhere ((goes_step .retireDead).fine_bind fun retired => .ite (fun _ => ?_) fun _ => ?_)
  · exact fine_restartAfterConfirmedDeath hconnect
  · exact fine_pure

theorem goes_shakeStart :
    Goes config i P (fun shake t => shake = .bound → At .handshaking t) (shakeStart n) := by
  induction n generalizing P with
  | zero => exact goes_pure fun _ _ => nofun
  | succ n ih =>
    refine Lawful.weaken (P := Anywhere) ?_ fun _ _ => trivial
    refine (goes_step .beforeDeadline).goes_bind fun left => .ite (fun _ => goes_pure fun _ _ => nofun)
      fun _ => ?_
    refine (goes_transition_initial (by decide)).goes_bind fun _ => ?_
    refine (goes_transition_at (by decide)).goes_bind fun _ => ?_
    refine (goes_attempt_step .handshake).goes_bind fun outcome => ?_
    split
    · exact goes_pure fun _ h _ => h
    · exact goes_pure fun _ _ => nofun
    refine lawful_get_bind fun s => .ite (fun _ => goes_pure fun _ _ => nofun) fun _ => ?_
    refine .ite (fun _ => goes_pure fun _ _ => nofun) fun _ => ?_
    refine .ite (fun _ => goes_pure fun _ _ => nofun) fun _ => ?_
    refine (goes_transition_at (by decide)).goes_bind fun _ => ?_
    exact (goes_step .sleep).goes_bind fun _ => ih

theorem goes_pollChild (sight : ProcessSight) :
    Goes config i Anywhere (fun _ => Anywhere) (pollChild n sight) := by
  induction n generalizing sight with
  | zero =>
    cases sight with
    | ambiguous => exact goes_neverBack
    | _ => exact goes_pure fun _ h => h
  | succ n ih =>
    cases sight with
    | ambiguous =>
      refine (goes_step .beforeDeadline).goes_bind fun left => .ite (fun _ => goes_pure fun _ h => h)
        fun _ => ?_
      refine (goes_step .waitForExit).goes_bind fun exited => .ite (fun _ => goes_pure fun _ h => h)
        fun _ => ?_
      exact goes_observe.goes_bind fun sight => ih sight
    | _ => exact goes_pure fun _ h => h

theorem fine_registerStarted (hconnect : Fine config i Anywhere connect) :
    Fine config i (At .acquiringOwner) (registerStarted connect) := by
  have hregister : Lawful config i (At .acquiringOwner) (fun _ => At .registeringClient) register :=
    lawful_register fun state hstate => by
      rw [hstate]
      decide
  refine hregister.attempt.fine_bind fun outcome => ?_
  split
  · refine lawful_get_bind fun s => fine_unless ?_
    refine (goes_step .waitForExit).fine_bind fun exited => .ite (fun _ => ?_) fun _ => fine_pure
    exact fine_recoverStartupDeath hconnect
  refine (goes_step .waitForExit).fine_bind fun exited => .ite (fun _ => ?_) fun _ => ?_
  · exact fine_recoverStartupDeath hconnect
  · exact fine_readyResult _

theorem fine_ownStarted (hconnect : Fine config i Anywhere connect) :
    Fine config i (At .handshaking) (ownStarted connect) := by
  refine (goes_step .markOwnerAttempt).fine_bind fun _ => ?_
  refine (goes_transition_at (by decide)).fine_bind fun _ => ?_
  refine (goes_attempt_step .acquireOwner).fine_bind fun outcome => ?_
  split
  · exact lawful_get_bind fun s => .ite (fun _ => fine_pure) fun _ => fine_pure
  refine (goes_attempt_step .commit).fine_bind fun outcome => ?_
  split
  · exact fine_pure
  exact lawful_get_bind fun s => .ite (fun _ => fine_pure) fun _ =>
    fine_registerStarted hconnect

theorem fine_startSpawned (hconnect : Fine config i Anywhere connect) :
    Fine config i P (startSpawned connect) := by
  refine Fine.anywhere (lawful_get_bind fun s => ?_)
  refine goes_observe.fine_bind fun sight => (goes_pollChild s.rounds sight).fine_bind fun sight => ?_
  cases sight with
  | dead => exact fine_recoverStartupDeath hconnect
  | other => exact fine_pure
  | ambiguous => exact fine_pure
  | asRecorded =>
    refine (goes_shakeStart 5).fine_bind fun shake => ?_
    cases shake with
    | exited => exact fine_recoverStartupDeath hconnect
    | returned => exact fine_pure
    | unreachable => exact fine_pure
    | bound =>
      refine Lawful.weaken (P := At .handshaking) ?_ fun s h => h rfl
      refine goes_observe.fine_bind fun sight => fine_unless ?_
      refine (goes_step .bindingMatches).fine_bind fun bound => fine_unless ?_
      exact fine_ownStarted hconnect

/-- The first state of a cold start. -/
def coldState (restart : Bool) : LifecycleStateName :=
  if restart then .restartStarting else .starting

theorem fine_coldStart (hconnect : Fine config i Anywhere connect) {restart : Bool}
    (hS : ∀ state, S state → transitionAllowed state (coldState restart) = true) :
    Fine config i (Known S) (coldStart connect restart) := by
  have habort : Fine config i (At (coldState restart)) abortUnspawnedStart :=
    (goes_step .abortUnspawnedStart).fine_bind fun _ => fine_pure
  refine (goes_transition hS).fine_bind fun _ => ?_
  refine lawful_get_bind fun s => .ite (fun _ => habort) fun _ => ?_
  refine (goes_step .prepareStartClaim).fine_bind fun _ => ?_
  refine lawful_get_bind fun s => .ite (fun _ => habort) fun _ => ?_
  refine (goes_attempt_step .spawnVerified).fine_bind fun outcome => ?_
  split
  · exact fine_startSpawned hconnect
  · exact (goes_step .releaseStartClaim).fine_bind fun _ =>
      fine_restartAfterConfirmedDeath hconnect
  · exact (goes_step .releaseStartClaim).fine_bind fun _ => fine_pure

theorem goes_pollDead : Goes config i Anywhere (fun _ => Anywhere) (pollDead n) := by
  induction n with
  | zero => exact goes_neverBack
  | succ n ih =>
    refine goes_observe.goes_bind fun sight => ?_
    cases sight with
    | asRecorded =>
      refine (goes_step .beforeDeadline).goes_bind fun left => .ite (fun _ => ?_) fun _ =>
        goes_pure fun _ h => h
      exact (goes_step .sleep).goes_bind fun _ => ih
    | _ => exact goes_pure fun _ h => h

theorem fine_resumeBound : Fine config i (At .handshaking) resumeBound := by
  refine (goes_step .bindingMatches).fine_bind fun bound => fine_unless ?_
  refine (goes_transition_at (by decide)).fine_bind fun _ => ?_
  refine (goes_step .acquireOwner).fine_bind fun _ => ?_
  refine (goes_step .commit).fine_bind fun _ => ?_
  have hregister : Lawful config i (At .acquiringOwner) (fun _ => At .registeringClient) register :=
    lawful_register fun state hstate => by
      rw [hstate]
      decide
  refine hregister.attempt.fine_bind fun outcome => ?_
  split
  · exact lawful_get_bind fun s => .ite (fun _ => fine_pure) fun _ => fine_throw
  · exact lawful_get_bind fun s => .ite (fun _ => fine_pure) fun _ => fine_readyResult _

theorem fine_resumePendingStart (hconnect : Fine config i Anywhere connect) (bound : Bool) :
    Fine config i (Known fun state => bound = true → state = some .handshaking)
      (resumePendingStart connect bound) := by
  refine lawful_get_bind fun s => fine_unless ?_
  refine (goes_step .claimMatchesArtifact).fine_bind fun claimed => fine_unless ?_
  refine (goes_step .controlFor).fine_bind fun found => .ite (fun _ => ?_) fun _ => ?_
  · refine Fine.anywhere ((goes_pollDead s.rounds).fine_bind fun dead => ?_)
    exact .ite (fun _ => fine_recoverStartupDeath hconnect) fun _ => fine_pure
  refine (goes_step .readSecret).fine_bind fun _ => .ite (fun hbound => ?_) fun _ => ?_
  · exact fine_resumeBound.weaken fun s h => h hbound
  refine (goes_withReconnect 3).attempt.fine_bind fun outcome => ?_
  split
  · exact fine_resumeBound.weaken fun s h => h () rfl
  refine Fine.anywhere (goes_observe.fine_bind fun sight => .ite (fun _ => ?_) fun _ => fine_throw)
  exact fine_recoverStartupDeath hconnect

/-- The states that a start without a process is replaced in. -/
def Replaceable (state : Option LifecycleStateName) : Prop :=
  state = some .claiming ∨ state = some .reconnecting

theorem fine_replaceUnbound (hconnect : Fine config i Anywhere connect) :
    Fine config i (Known Replaceable) (replaceUnbound connect) := by
  refine (goes_step .claimReplacement).fine_bind fun claimed => .ite (fun _ => ?_) fun _ => fine_pure
  refine fine_coldStart hconnect fun state hstate => ?_
  rcases hstate with hstate | hstate <;>
  · rw [hstate]
    decide

theorem fine_resumeUnbound (hconnect : Fine config i Anywhere connect) (n : ℕ) :
    Fine config i (Known Replaceable) (resumeUnbound connect n) := by
  induction n with
  | zero => exact fine_neverBack
  | succ n ih =>
    refine (goes_step .beforeDeadline).fine_bind fun left => .ite
      (fun _ => fine_replaceUnbound hconnect) fun _ => ?_
    refine lawful_get_bind fun s => fine_unless ?_
    refine lawful_connectAndShake.attempt.fine_bind fun outcome => ?_
    split
    · refine lawful_get_bind fun s => fine_unless ?_
      refine (goes_transition_at (by decide)).fine_bind fun _ => ?_
      have hreplaceable : ∀ s, At .reconnecting s → Known Replaceable s := fun _ h => .inr h
      refine (goes_step .beforeDeadline).fine_bind fun left => .ite (fun _ => ?_) fun _ => ?_
      · exact (fine_replaceUnbound hconnect).weaken hreplaceable
      · exact (goes_step .sleep).fine_bind fun _ => ih.weaken hreplaceable
    refine (goes_step .bindingMatches).fine_bind fun bound => fine_unless ?_
    refine goes_observe.fine_bind fun sight => fine_unless ?_
    refine (goes_step .bindStartClaimProcess).fine_bind fun _ => ?_
    exact (fine_resumePendingStart hconnect true).weaken fun _ h _ => h

theorem fine_adopt : Fine config i P adopt := by
  refine (goes_withReconnect 3).fine_bind fun _ => ?_
  refine (goes_step .bindingMatches).fine_bind fun bound => fine_unless ?_
  refine (goes_step .controlFor).fine_bind fun found => fine_unless ?_
  refine (goes_step .readSecret).fine_bind fun _ => ?_
  refine (goes_transition_at (by decide)).fine_bind fun _ => ?_
  refine (goes_step .acquireOwner).fine_bind fun _ => ?_
  refine (goes_step .commit).fine_bind fun _ => ?_
  refine Lawful.fine_bind (M := fun _ => At .registeringClient) ?_ fun context =>
    fine_readyResult context
  refine (lawful_register fun state hstate => ?_).goes fun _ _ h => h
  rw [hstate]
  decide

theorem fine_adoptOrRecover (hconnect : Fine config i Anywhere connect) (recoverDead : Bool) :
    Fine config i P (adoptOrRecover connect recoverDead) := by
  refine Fine.anywhere ((goes_step .recordMatchesConfig).fine_bind fun same =>
    .ite (fun _ => fine_pure) fun _ => goes_observe.fine_bind fun sight => ?_)
  cases sight with
  | dead =>
    refine fine_unless ?_
    exact (goes_step .retireDead).fine_bind fun retired => .ite (fun _ => hconnect) fun _ => fine_pure
  | asRecorded => exact fine_adopt
  | _ => exact fine_pure

theorem fine_decideStart (hconnect : Fine config i Anywhere connect) (n : ℕ) :
    Fine config i (At .claiming) (decideStart connect n) := by
  induction n with
  | zero => exact fine_neverBack
  | succ n ih =>
    refine (goes_step .beforeDeadline).fine_bind fun left => fine_unless ?_
    refine lawful_get_bind fun s => fine_unless ?_
    refine Lawful.fine_bind (M := fun _ => At .claiming)
      (lawful_call fun s t a h ht _ _ => h.undisturbed ht) fun decision => ?_
    split
    · exact fine_throw
    · exact fine_adoptOrRecover hconnect true
    · exact (fine_resumePendingStart hconnect false).weaken fun _ _ h => nomatch h
    · refine (goes_step .claimMatchesArtifact).fine_bind fun claimed => .ite (fun _ => fine_pure)
        fun _ => lawful_get_bind fun s => ?_
      exact (fine_resumeUnbound hconnect s.rounds).weaken fun _ h => .inl h
    · exact fine_pure
    · exact (goes_step .sleep).fine_bind fun _ => ih
    refine fine_coldStart hconnect fun state hstate => ?_
    rw [hstate]
    decide

theorem fine_connectAttempt : Fine config i P (connectAttempt n) := by
  induction n generalizing P with
  | zero => exact fine_neverBack
  | succ n ih =>
    refine lawful_get_bind fun s => fine_unless ?_
    refine Lawful.tryCatch (R := fun _ _ => True) ?_ (fun _ _ _ => trivial) fun error => fine_pure
    exact (goes_transition_initial (by decide)).fine_bind fun _ => fine_decideStart ih s.rounds

end Connect

/-! ### The operations -/

section Operations

variable (config : SupervisorConfig) {i : ℕ} {P : SupervisorState → Prop}

theorem fine_connect : Fine config i P connect :=
  lawful_get_bind fun s => fine_connectAttempt s.rounds

theorem fine_status : Fine config i P status := by
  refine lawful_get_bind fun s => fine_unless ?_
  refine Lawful.tryCatch (R := fun _ _ => True) ?_ (fun _ _ _ => trivial) fun error => fine_pure
  refine Fine.anywhere ((goes_step .probeCurrent).fine_bind fun found => .ite (fun _ => fine_pure)
    fun _ => (goes_step .recordMatchesConfig).fine_bind fun same => .ite (fun _ => fine_pure)
    fun _ => goes_observe.fine_bind fun sight => ?_)
  cases sight with
  | asRecorded =>
    refine (lawful_connectAndShake.goes (M := fun _ => At .handshaking) fun _ _ h => h).fine_bind
      fun _ => ?_
    refine (goes_step .bindingMatches).fine_bind fun bound => .ite (fun _ => ?_) fun _ => fine_pure
    exact (goes_transition_at (by decide)).fine_bind fun _ => fine_pure
  | _ => exact fine_pure

theorem goes_enter (entry : FlowEntry) :
    Goes config i P (fun _ => Known fun state => entry.accepts state = true) (enter entry) :=
  lawful_modify fun _ hs _ horderly => ⟨⟨hs.busy, hs.legal⟩, fun _ _ => horderly.2.2 entry rfl⟩

variable {state : Option LifecycleStateName}

theorem accepts_controlledStop (h : FlowEntry.controlledStop.accepts state = true) :
    transitionAllowed state .draining = true := by
  cases state with
  | none => rfl
  | some =>
    rcases of_decide_eq_true h with rfl | rfl <;> decide

theorem accepts_restartStart (h : FlowEntry.restartStart.accepts state = true) :
    transitionAllowed state .restartStarting = true := by
  cases state with
  | none => rfl
  | some =>
    rcases of_decide_eq_true h with rfl | rfl <;> decide

theorem accepts_detachedClose (h : FlowEntry.detachedClose.accepts state = true) :
    transitionAllowed state .detachingClient = true := by
  cases state with
  | none => rfl
  | some =>
    rcases of_decide_eq_true h with rfl | rfl | rfl <;> decide

/-- A stop for a restart ends in the state from which the restart goes on. -/
theorem goes_stopContext (restart : Bool) :
    Goes config i P (fun result t => result = .stopped → restart = true → At .restartStopping t)
      (stopContext config restart) := by
  refine (goes_enter config .controlledStop).goes_bind fun _ => lawful_get_bind_of fun s hs => ?_
  have hstop := within_controlledStop (v := view s) (accepts_controlledStop hs) config.platform
    config.requestTimeoutMs config.requester s.context restart
  refine (Within.lawful hstop).mono (fun t ht => congrArg view ht.1) fun r t h result hr hresult
    hrestart => ?_
  rw [hresult] at hr
  exact h hr hrestart

variable (consumerClosed : Bool)

theorem fine_stop : Fine config i P (stop config consumerClosed) := by
  refine .ite (fun _ => fine_pure) fun _ => lawful_get_bind fun s => .ite (fun _ => ?_) fun _ => ?_
  · exact (goes_stopContext config false).fine
  have hadopt : Fine config i P adoptForStop := by
    refine Fine.anywhere ((goes_step .probeCurrent).fine_bind fun found => .ite (fun _ => fine_pure)
      fun _ => (goes_step .recordMatchesConfig).fine_bind fun same => .ite (fun _ => fine_pure)
      fun _ => goes_observe.fine_bind fun sight => ?_)
    cases sight with
    | dead =>
      refine (goes_attempt_step .retireDead).fine_bind fun outcome => ?_
      split
      · exact fine_pure
      · exact fine_pure
      · exact fine_pure
    | _ => exact fine_adoptOrRecover fine_neverBack false
  refine Lawful.fine_bind (M := fun _ _ => True) (hadopt.goes fun _ _ h => h) fun adopted => ?_
  exact .ite (fun _ => (goes_stopContext config false).fine) fun _ => fine_pure

theorem fine_restartContext : Fine config i P (restartContext config) := by
  refine (goes_stopContext config true).fine_bind fun result => .ite (fun _ => fine_pure)
    fun hstopped => ?_
  have hresult : result = .stopped := not_not.mp hstopped
  refine Lawful.fine_bind (M := fun _ => At .restartStopping)
    (lawful_call fun s t a h ht _ _ => (h hresult rfl).undisturbed ht) fun decision => ?_
  split
  · exact fine_throw
  · refine lawful_get_bind fun s => fine_coldStart (fine_connectAttempt s.rounds)
      fun state hstate => ?_
    rw [hstate]
    decide
  · exact fine_pure

theorem fine_restart : Fine config i P (restart config consumerClosed) := by
  refine .ite (fun _ => fine_pure) fun _ => lawful_get_bind fun s => .ite
    (fun _ => fine_restartContext config) fun _ => ?_
  refine Lawful.fine_bind (M := fun _ _ => True) (lawful_call fun _ _ _ _ _ _ _ => trivial)
    fun decision => ?_
  split
  · exact fine_throw
  · refine (goes_enter config .restartStart).fine_bind fun _ => lawful_get_bind fun s => ?_
    exact fine_coldStart (fine_connectAttempt s.rounds) fun _ => accepts_restartStart
  refine Lawful.fine_bind (M := fun _ _ => True) ((fine_connect config).goes fun _ _ h => h)
    fun connected => .ite (fun _ => fine_pure) fun _ => lawful_get_bind fun s => ?_
  exact .ite (fun _ => fine_restartContext config) fun _ => fine_pure

theorem goes_clearDetachedClose {S : Option LifecycleStateName → Prop} :
    Goes config i (Known S) (fun _ => Known S) clearDetachedClose :=
  lawful_modify fun s hs h _ => ⟨⟨hs.busy, hs.legal⟩, fun _ _ => h⟩

theorem fine_finishClose : Fine config i (At .detachingClient) finishClose := by
  have hrelease : Fine config i (At .detachingClient) (do
      if !(← step .releaseOwner) then
        clearDetachedClose
        lifecycleFailure .identityChanged "identity_changed"
      else
        clearDetachedClose
        transition .detached
        pure .detached) := by
    refine (goes_step .releaseOwner).fine_bind fun released => .ite (fun _ => ?_) fun _ => ?_
    · exact (goes_clearDetachedClose config).fine_bind fun _ => fine_pure
    refine (goes_clearDetachedClose config).fine_bind fun _ => ?_
    exact (goes_transition_at (by decide)).fine_bind fun _ => fine_pure
  refine lawful_get_bind fun s => .ite (fun _ => ?_) fun _ => hrelease
  refine (goes_step .detachClient).fine_bind fun _ => ?_
  exact Lawful.fine_bind (M := fun _ => At .detachingClient)
    (lawful_modify fun s hs h _ => ⟨⟨hs.busy, hs.legal⟩, fun _ _ => h⟩) fun _ => hrelease

theorem fine_closeDetached : Fine config i P closeDetached := by
  have hfinish : Fine config i (At .detachingClient) (tryCatch finishClose fun error => do
      if error.isAmbiguous then pure () else clearDetachedClose
      pure (.mapped error)) := by
    refine Lawful.tryCatch (R := fun _ _ => True) (fine_finishClose config) (fun _ _ _ => trivial)
      fun error => ?_
    refine .ite (fun _ => fine_pure) fun _ => Fine.anywhere ?_
    exact (goes_clearDetachedClose config).fine_bind fun _ => fine_pure
  refine lawful_get_bind fun s => .ite (fun _ => ?_) fun _ => ?_
  · refine (goes_enter config .detachedClose).fine_bind fun _ => ?_
    refine (goes_transition fun _ => accepts_detachedClose).fine_bind fun _ => ?_
    exact Lawful.fine_bind (M := fun _ => At .detachingClient)
      (lawful_modify fun s hs h _ => ⟨⟨hs.busy, hs.legal⟩, fun _ _ => h⟩) fun _ => hfinish
  exact (goes_enter config .detachedCloseAgain).fine_bind fun _ =>
    hfinish.weaken fun s h => of_decide_eq_true (p := s.world.currentState = _) h

theorem fine_close : Fine config i P (close config consumerClosed) :=
  lawful_get_bind fun _ => .ite (fun _ => fine_stop config consumerClosed) fun _ =>
    .ite (fun _ => fine_pure) fun _ => fine_closeDetached config

end Operations

end Supervisor

end BreadboardTui
