import BreadboardTui.Lifecycle.ControlledStop

/-!
# The world of a controlled stop

What the calls of a controlled stop do. A `ControlChoice` is the environment's part in one call: its
failure, how many writes of a failed call have reached the file, and what is answered.

Next to the control file the world keeps its history since the attempt in it was opened, and whether
the engine has answered for this attempt that the authorization expired. The phases of an attempt
only move forward (`Ordered.perform`), whatever program makes the calls.
-/

namespace BreadboardTui

open Effects

structure ControlWorld where
  control : Option LocalControlAttempt
  history : List ControlPhase
  expired : Bool
  /-- The process of the last permit for a hard signal in this stop. -/
  permit : Option ProcessIdentity
  currentState : Option LifecycleStateName
  contextHeld : Bool
  planned : Bool
  locals : ControlLocals
  deriving DecidableEq, Repr

/-- The environment's part in one call. -/
structure ControlChoice where
  failure : Option ClientFailureKind
  /-- The writes of a failed call that have reached the file. -/
  applied : ℕ
  /-- The state that a failed renewal of the lease leaves while the call is pending. -/
  lease : Option LifecycleStateName
  flag : Bool
  number : ℤ
  text : String
  observation : ProcessObservation
  deriving DecidableEq, Repr

namespace ControlWorld

/-- A new attempt in the control file. -/
def openAttempt (w : ControlWorld) (attempt : LocalControlAttempt) : ControlWorld :=
  { w with control := some attempt, history := [attempt.phase], expired := false }

/-- The next phase of the attempt in the control file. -/
def rewrite (w : ControlWorld) (attempt : LocalControlAttempt) : ControlWorld :=
  { w with control := some attempt, history := w.history ++ [attempt.phase] }

def unlink (w : ControlWorld) : ControlWorld :=
  { w with control := none, history := [], expired := false }

/-- What a failed renewal of the lease leaves. -/
def leaseTick (w : ControlWorld) (lease : Option LifecycleStateName) : ControlWorld :=
  match lease with
  | none => w
  | some name => { w with currentState := some name, contextHeld := false }

/-- A request to the engine. -/
def ask {α : Type} (w : ControlWorld) (c : ControlChoice) (value : α) :
    Except ControlError α × ControlWorld :=
  match c.failure with
  | none => (.ok value, w)
  | some kind =>
    (.error (.client kind),
      { w with expired := w.expired || kind == .hardSignalAuthorizationExpired })

/-- A call of the process adapter. -/
def observe {α : Type} (w : ControlWorld) (c : ControlChoice) (value : α) :
    Except ControlError α × ControlWorld :=
  (if c.failure.isSome then .error .process else .ok value, w)

/-- A call of the store that writes one file. -/
def write {α : Type} (w : ControlWorld) (c : ControlChoice) (value : α) (written : ControlWorld) :
    Except ControlError α × ControlWorld :=
  if c.failure.isNone then (.ok value, written)
  else (.error .store, if c.applied = 0 then w else written)

def transition (w : ControlWorld) (name : LifecycleStateName) :
    Except ControlError Unit × ControlWorld :=
  if transitionAllowed w.currentState name then (.ok (), { w with currentState := some name })
  else (.error (.thrown "illegal lifecycle transition"), w)

/-- `prepareControlAttempt`: the attempt in the file, or a new one. -/
def prepareControlAttempt (w : ControlWorld) (c : ControlChoice) (fresh : LocalControlAttempt)
    (operation : ControlOperation) : Except ControlError LocalControlAttempt × ControlWorld :=
  match w.control with
  | some existing =>
    if existing.operation = operation ∧ c.failure.isNone then (.ok existing, w)
    else (.error .store, w)
  | none => w.write c fresh (w.openAttempt fresh)

def replaceExpiredBeginControlAttempt (w : ControlWorld) (c : ControlChoice)
    (fresh expired : LocalControlAttempt) (operation : ControlOperation) :
    Except ControlError LocalControlAttempt × ControlWorld :=
  match w.control with
  | none => w.prepareControlAttempt c fresh operation
  | some current =>
    if current ≠ expired then w.prepareControlAttempt c fresh operation
    else if !current.phase.isBeginPending then (.error .store, w)
    else if c.failure.isNone then (.ok fresh, w.openAttempt fresh)
    else (.error .store, if c.applied = 0 then w else if c.applied = 1 then w.unlink
      else w.openAttempt fresh)

def clearControlAttempt (w : ControlWorld) (c : ControlChoice) (expected : LocalControlAttempt) :
    Except ControlError Unit × ControlWorld :=
  if w.control = some expected then w.write c () w.unlink else (.error .store, w)

/-- A rewrite of the control file, where its checks pass. -/
def rewriteAttempt (w : ControlWorld) (c : ControlChoice) (next : Option LocalControlAttempt) :
    Except ControlError LocalControlAttempt × ControlWorld :=
  match next with
  | none => (.error .store, w)
  | some attempt => w.write c attempt (w.rewrite attempt)

def detach (w : ControlWorld) (c : ControlChoice) : Except ControlError ControlResult × ControlWorld :=
  if !w.contextHeld then (.ok (.failure .failed "endpoint_unreachable"), w)
  else if !transitionAllowed w.currentState .detachingClient then
    (.error (.thrown "illegal lifecycle transition"), w)
  else
    match c.failure with
    | none => (.ok .detached, { w with currentState := some .detached, contextHeld := false })
    | some kind =>
      (.ok (.mapped (.client kind)),
        { w with currentState := some .detachingClient, contextHeld := false })

end ControlWorld

/-- One call under one choice. -/
def ControlCall.perform (op : ControlCall) (c : ControlChoice) (w : ControlWorld) :
    op.Answer × ControlWorld :=
  match op with
  | .transition name => w.transition name
  | .controlFor process _ =>
    (w.leaseTick c.lease).observe c (if c.flag then some process else none)
  | .renewClient => (w.leaseTick c.lease).ask c c.number
  | .prepareControlAttempt fresh operation admissionEpoch =>
    (w.leaseTick c.lease).prepareControlAttempt c (fresh c.number admissionEpoch c.text) operation
  | .readControlAttemptSecret _ => (w.leaseTick c.lease).write c () (w.leaseTick c.lease)
  | .replaceExpiredBeginControlAttempt fresh expired operation admissionEpoch =>
    (w.leaseTick c.lease).replaceExpiredBeginControlAttempt c
      (fresh c.number admissionEpoch c.text) expired operation
  | .markControlAttemptDraining expected drainGeneration =>
    (w.leaseTick c.lease).rewriteAttempt c
      (BreadboardTui.markControlAttemptDraining w.control expected drainGeneration)
  | .advanceControlAttempt expected phase =>
    (w.leaseTick c.lease).rewriteAttempt c
      (BreadboardTui.advanceControlAttempt w.control expected phase)
  | .clearControlAttempt expected => (w.leaseTick c.lease).clearControlAttempt c expected
  | .revalidate _ => (w.leaseTick c.lease).ask c c.flag
  | .beginControlDrain _ => (w.leaseTick c.lease).ask c c.number
  | .recordGracefulControl _ _ => (w.leaseTick c.lease).ask c ⟨c.text, c.flag⟩
  | .rollbackDrain _ => (w.leaseTick c.lease).ask c ()
  | .prepareHardSignal _ _ => (w.leaseTick c.lease).ask c c.text
  | .commitHardSignal _ _ process =>
    let asked := (w.leaseTick c.lease).ask c (⟨c.text, c.number⟩ : HardSignalPermitResponse)
    (asked.1, if c.failure.isNone then { asked.2 with permit := some process } else asked.2)
  | .recordHardSignalOutcome _ _ _ => (w.leaseTick c.lease).ask c ()
  | .observe _ => (w.leaseTick c.lease).observe c c.observation
  | .sendHardSignal _ _ => (w.leaseTick c.lease).observe c c.text
  | .waitForExit _ _ => (w.leaseTick c.lease).observe c c.flag
  | .sleep _ => (w.leaseTick c.lease).observe c ()
  | .retireObservedExit =>
    (w.leaseTick c.lease).write c c.flag
      (if c.flag then (w.leaseTick c.lease).unlink else w.leaseTick c.lease)
  | .detachRequester =>
    ((w.leaseTick c.lease).ask c ()).map id ({ · with contextHeld := false })
  | .detach => w.detach c
  | .ready => { w with contextHeld := true }.transition .ready
  | .dropContext => (.ok (), { w with contextHeld := false })
  | .aborted => (.ok c.flag, w)
  | .setPlanned planned => (.ok (), { w with planned := planned })
  | .locals => (.ok w.locals, w)
  | .assign next => (.ok (), { w with locals := next })

/-! ### The phases of an attempt move forward -/

/-- The phases that the file has held are in their order, and it holds the last. -/
structure ControlWorld.Ordered (w : ControlWorld) : Prop where
  sorted : w.history.Pairwise (·.rank ≤ ·.rank)
  last : ∀ attempt ∈ w.control, w.history.getLast? = some attempt.phase

namespace ControlWorld

variable {w : ControlWorld}

/-- What the history is about stays as it is. -/
theorem Ordered.same (h : w.Ordered) {w' : ControlWorld} (hcontrol : w'.control = w.control)
    (hhistory : w'.history = w.history) : w'.Ordered :=
  ⟨hhistory ▸ h.sorted, by rw [hcontrol, hhistory]; exact h.last⟩

theorem Ordered.leaseTick (h : w.Ordered) (lease : Option LifecycleStateName) :
    (w.leaseTick lease).Ordered := by
  cases lease with
  | none => exact h
  | some => exact h.same rfl rfl

theorem Ordered.ask {α : Type} (h : w.Ordered) (c : ControlChoice) (value : α) :
    (w.ask c value).2.Ordered := by
  rw [ControlWorld.ask]
  cases c.failure with
  | none => exact h
  | some => exact h.same rfl rfl

theorem Ordered.write {α : Type} (h : w.Ordered) {written : ControlWorld} (hw : written.Ordered)
    (c : ControlChoice) (value : α) : (w.write c value written).2.Ordered := by
  rw [ControlWorld.write]
  split
  · exact hw
  split
  · exact h
  · exact hw

theorem ordered_openAttempt (w : ControlWorld) (attempt : LocalControlAttempt) :
    (w.openAttempt attempt).Ordered :=
  ⟨List.pairwise_singleton _ _, fun _ h => by obtain rfl := Option.some.inj h; rfl⟩

theorem ordered_unlink (w : ControlWorld) : w.unlink.Ordered :=
  ⟨List.Pairwise.nil, fun _ h => nomatch h⟩

theorem Ordered.rewrite (h : w.Ordered) {current attempt : LocalControlAttempt}
    (hcurrent : w.control = some current) (hrank : current.phase.rank ≤ attempt.phase.rank) :
    (w.rewrite attempt).Ordered := by
  refine ⟨?_, fun _ hmem => ?_⟩
  · rw [ControlWorld.rewrite, List.pairwise_append]
    refine ⟨h.sorted, List.pairwise_singleton _ _, fun phase hphase next hnext => ?_⟩
    rw [List.mem_singleton.mp hnext]
    have hlast := h.last current hcurrent
    -- every phase of the history is at most its last
    obtain ⟨init, hinit⟩ := List.getLast?_eq_some_iff.mp hlast
    have hsorted := h.sorted
    rw [hinit] at hphase hsorted
    rcases List.mem_append.mp hphase with hphase | hphase
    · have hle := (List.pairwise_append.mp hsorted).2.2 phase hphase _ (List.mem_singleton_self _)
      exact hle.trans hrank
    rw [List.mem_singleton.mp hphase]
    exact hrank
  cases hmem
  rw [ControlWorld.rewrite, List.getLast?_append]
  rfl

theorem Ordered.rewriteAttempt (h : w.Ordered) {next : Option LocalControlAttempt}
    (hnext : ∀ attempt ∈ next, ∃ current, w.control = some current ∧
      current.phase.rank ≤ attempt.phase.rank) (c : ControlChoice) :
    (w.rewriteAttempt c next).2.Ordered := by
  cases next with
  | none => exact h
  | some attempt =>
    obtain ⟨current, hcurrent, hrank⟩ := hnext attempt rfl
    exact h.write (h.rewrite hcurrent hrank) c attempt

theorem Ordered.prepareControlAttempt (h : w.Ordered) (c : ControlChoice)
    (fresh : LocalControlAttempt) (operation : ControlOperation) :
    (w.prepareControlAttempt c fresh operation).2.Ordered := by
  rw [ControlWorld.prepareControlAttempt]
  split
  · split <;> exact h
  · exact h.write (ordered_openAttempt w fresh) c fresh

theorem Ordered.replaceExpired (h : w.Ordered) (c : ControlChoice)
    (fresh expired : LocalControlAttempt) (operation : ControlOperation) :
    (w.replaceExpiredBeginControlAttempt c fresh expired operation).2.Ordered := by
  rw [replaceExpiredBeginControlAttempt]
  split
  · exact h.prepareControlAttempt c fresh operation
  split
  · exact h.prepareControlAttempt c fresh operation
  split
  · exact h
  · split
    · exact ordered_openAttempt w fresh
    · dsimp only
      split
      · exact h
      split
      · exact ordered_unlink w
      · exact ordered_openAttempt w fresh

theorem Ordered.clear (h : w.Ordered) (c : ControlChoice) (expected : LocalControlAttempt) :
    (w.clearControlAttempt c expected).2.Ordered := by
  rw [clearControlAttempt]
  split
  · exact h.write (ordered_unlink w) c ()
  · exact h

end ControlWorld

variable {step : ControlStep}

theorem ControlPhase.rank_advance {phase next : ControlPhase}
    (h : phase.advance step = some next) : phase.rank ≤ next.rank := by
  cases phase <;> cases step <;> cases h <;> simp [ControlPhase.rank]

variable {current : Option LocalControlAttempt}

theorem rank_advanceControlAttempt {expected attempt : LocalControlAttempt}
    (h : advanceControlAttempt current expected step = some attempt) :
    current = some expected ∧ expected.phase.rank ≤ attempt.phase.rank := by
  rw [advanceControlAttempt] at h
  split at h
  · next hcurrent =>
    obtain ⟨phase, hphase, rfl⟩ := Option.map_eq_some_iff.mp h
    exact ⟨hcurrent, ControlPhase.rank_advance hphase⟩
  · cases h

theorem rank_markControlAttemptDraining
    {expected attempt : LocalControlAttempt} {drainGeneration : ℤ}
    (h : markControlAttemptDraining current expected drainGeneration = some attempt) :
    current = some expected ∧ expected.phase.rank ≤ attempt.phase.rank := by
  rw [markControlAttemptDraining] at h
  split at h
  · next hcurrent =>
    refine ⟨hcurrent, ?_⟩
    split at h
    · split at h
      · cases h
        exact le_rfl
      · cases h
    · next hphase =>
      cases h
      rw [hphase]
      exact Nat.zero_le _
    · cases h
  · cases h

theorem ControlWorld.control_leaseTick (w : ControlWorld) (lease : Option LifecycleStateName) :
    (w.leaseTick lease).control = w.control := by
  cases lease <;> rfl

/-- The step lemma: no call takes an attempt back to an earlier phase. -/
theorem ControlWorld.Ordered.perform {w : ControlWorld} (h : w.Ordered) (op : ControlCall)
    (c : ControlChoice) : (op.perform c w).2.Ordered := by
  have htick := h.leaseTick c.lease
  cases op with
  | transition =>
    rw [ControlCall.perform, ControlWorld.transition]
    split
    · exact h.same rfl rfl
    · exact h
  | prepareControlAttempt fresh operation => exact htick.prepareControlAttempt c _ operation
  | readControlAttemptSecret => exact htick.write htick c ()
  | replaceExpiredBeginControlAttempt fresh expired operation =>
    exact htick.replaceExpired c _ expired operation
  | markControlAttemptDraining expected =>
    refine htick.rewriteAttempt (fun attempt hattempt => ?_) c
    rw [w.control_leaseTick]
    exact ⟨expected, rank_markControlAttemptDraining hattempt⟩
  | advanceControlAttempt expected =>
    refine htick.rewriteAttempt (fun attempt hattempt => ?_) c
    rw [w.control_leaseTick]
    exact ⟨expected, rank_advanceControlAttempt hattempt⟩
  | clearControlAttempt expected => exact htick.clear c expected
  | commitHardSignal =>
    have hasked := htick.ask c (⟨c.text, c.number⟩ : HardSignalPermitResponse)
    rw [ControlCall.perform]
    split
    · exact hasked.same rfl rfl
    · exact hasked
  | retireObservedExit =>
    refine htick.write ?_ c c.flag
    split
    · exact ControlWorld.ordered_unlink _
    · exact htick
  | detachRequester => exact (htick.ask c ()).same rfl rfl
  | detach =>
    rw [ControlCall.perform, ControlWorld.detach]
    split
    · exact h
    split
    · exact h
    · split <;> exact h.same rfl rfl
  | ready =>
    rw [ControlCall.perform, ControlWorld.transition]
    split <;> exact h.same rfl rfl
  | renewClient | revalidate | beginControlDrain | recordGracefulControl | rollbackDrain
  | prepareHardSignal | recordHardSignalOutcome => exact htick.ask c _
  | controlFor | observe | sendHardSignal | waitForExit | sleep => exact htick
  | dropContext | setPlanned | assign => exact h.same rfl rfl
  | aborted | locals => exact h

end BreadboardTui
