import BreadboardTui.Lifecycle.TransitionRules

/-!
# The transitions of a controlled stop

A controlled stop is followed by the state it is in and by its local variables alone
(`ControlView`). From `draining` it goes on to the state that it stops in, and every way out of it
starts there; the `catch` block is never in `draining` when it rolls back on account of an expired
authorization.
-/

namespace BreadboardTui

open Effects

/-- What a controlled stop sees of the world. -/
structure ControlView where
  state : Option LifecycleStateName
  locals : ControlLocals

namespace ControlCall

/-- The table allows what a call does, also where it detaches. -/
def Legal (v : ControlView) : ControlCall → Prop
  | transition name => transitionAllowed v.state name = true
  | ready => transitionAllowed v.state .ready = true
  | detach => transitionAllowed v.state .detachingClient = true
  | _ => True

/-- What a legal call is answered, and what it leaves. -/
def Seen (v : ControlView) : (op : ControlCall) → op.Answer → ControlView → Prop
  | transition name, a, v' => a = .ok () ∧ v' = { v with state := some name }
  | ready, a, v' => a = .ok () ∧ v' = { v with state := some .ready }
  | detach, a, _ => ∃ result, a = .ok result ∧ result ≠ .stopped
  | assign next, a, v' => a = .ok () ∧ v' = { v with locals := next }
  | locals, a, v' => a = .ok v.locals ∧ v' = v
  | markControlAttemptDraining _ _, a, v' =>
    v' = v ∧ ∀ error, a = .error error → error.isAuthorizationExpired = false
  | _, _, v' => v' = v

/-- The calls that leave the view alone. -/
def isPlain : ControlCall → Bool
  | transition _ | ready | detach | assign _ => false
  | _ => true

theorem legal_of_isPlain {op : ControlCall} (hop : op.isPlain = true) (v : ControlView) :
    op.Legal v := by
  cases op with
  | transition => cases hop
  | ready => cases hop
  | detach => cases hop
  | _ => exact trivial

theorem eq_of_seen {op : ControlCall} (hop : op.isPlain = true) {v v' : ControlView}
    {a : op.Answer} (h : op.Seen v a v') : v' = v := by
  cases op with
  | transition => cases hop
  | ready => cases hop
  | detach => cases hop
  | assign => cases hop
  | locals => exact h.2
  | markControlAttemptDraining => exact h.1
  | _ => exact h

end ControlCall

/-- Every call of `p` is legal, and it ends in `Q`. -/
def Within {α : Type} (p : ControlM α) (Q : Except ControlError α → ControlView → Prop)
    (v : ControlView) : Prop :=
  p.Ensures ControlCall.Legal ControlCall.Seen Q v

/-- In the state `name`, with a generation of the drain that satisfies `D`. -/
structure ControlView.At (name : LifecycleStateName) (D : Option ℤ → Prop) (v : ControlView) :
    Prop where
  state : v.state = some name
  drain : D v.locals.drainGeneration

/-- Whatever comes of `p`, it stays in the state `name`. -/
def Remains {α : Type} (name : LifecycleStateName) (D : Option ℤ → Prop) (p : ControlM α) : Prop :=
  ∀ v : ControlView, v.At name D → Within p (fun _ => ControlView.At name D) v

section Rules

variable {α β : Type} {name : LifecycleStateName} {D : Option ℤ → Prop} {v : ControlView}

variable {p : ControlM α}

theorem Within.mono {Q Q' : Except ControlError α → ControlView → Prop}
    (h : Within p Q v) (hQ : ∀ r v', Q r v' → Q' r v') : Within p Q' v :=
  Program.Ensures.mono hQ h

variable {f : α → ControlM β}

theorem within_bind {Q : Except ControlError β → ControlView → Prop} : Within (p >>= f) Q v ↔
      Within p (fun r v' => match r with
        | .ok a => Within (f a) Q v'
        | .error error => Q (.error error) v') v := by
  refine Program.ensures_bind.trans ⟨?_, ?_⟩ <;>
  · refine Program.Ensures.mono fun r v' => ?_
    cases r <;> exact id

variable {Q : Except ControlError α → ControlView → Prop}

variable {handler : ControlError → ControlM α}

theorem within_tryCatch : Within (tryCatch p handler) Q v ↔
      Within p (fun r v' => match r with
        | .ok a => Q (.ok a) v'
        | .error error => Within (handler error) Q v') v := by
  refine Program.ensures_tryCatch.trans ⟨?_, ?_⟩ <;>
  · refine Program.Ensures.mono fun r v' => ?_
    cases r <;> exact id

theorem within_call {op : ControlCall} {Q : Except ControlError op.Value → ControlView → Prop} :
    Within (call op) Q v ↔ op.Legal v ∧ ∀ a v', op.Seen v a v' → Q a v' := by
  rw [call, within_bind]
  refine Program.ensures_ask.trans (and_congr Iff.rfl ?_)
  refine forall_congr' fun a => forall_congr' fun v' => imp_congr Iff.rfl ?_
  cases a <;> exact Iff.rfl

/-- Reading the local variables and going on. -/
theorem within_locals_bind {f : ControlLocals → ControlM α} (h : Within (f v.locals) Q v) :
    Within (call .locals >>= f) Q v := by
  refine within_bind.mpr (within_call.mpr ⟨trivial, ?_⟩)
  rintro a v' ⟨rfl, rfl⟩
  exact h

theorem within_modifyLocals_bind {f : ControlLocals → ControlLocals} {g : Unit → ControlM α}
    (h : Within (g ()) Q { v with locals := f v.locals }) :
    Within (modifyLocals f >>= g) Q v := by
  refine within_bind.mpr (within_locals_bind (within_call.mpr ⟨trivial, ?_⟩))
  rintro a v' ⟨rfl, rfl⟩
  exact h

/-- A part that stays where it is, and what follows it. -/
theorem Remains.within_bind {Q : Except ControlError β → ControlView → Prop}
    (hp : Remains name D p) (hv : v.At name D)
    (herror : ∀ error v', v'.At name D → Q (.error error) v')
    (hf : ∀ a v', v'.At name D → Within (f a) Q v') : Within (p >>= f) Q v := by
  refine BreadboardTui.within_bind.mpr ((hp v hv).mono fun r v' hv' => ?_)
  cases r with
  | ok a => exact hf a v' hv'
  | error error => exact herror error v' hv'

theorem remains_pure {a : α} : Remains name D (pure a) := fun _ hv => hv

theorem remains_throw {error : ControlError} : Remains name D (throw error : ControlM α) :=
  fun _ hv => hv

theorem Remains.bind (hp : Remains name D p)
    (hf : ∀ a, Remains name D (f a)) : Remains name D (p >>= f) :=
  fun _ hv => hp.within_bind hv (fun _ _ h => h) fun a => hf a

theorem Remains.tryCatch
    (hp : Remains name D p) (hhandler : ∀ error, Remains name D (handler error)) :
    Remains name D (tryCatch p handler) := by
  intro v hv
  refine within_tryCatch.mpr ((hp v hv).mono fun r v' hv' => ?_)
  cases r with
  | ok => exact hv'
  | error error => exact hhandler error v' hv'

theorem remains_call (op : ControlCall) (hop : op.isPlain = true) : Remains name D (call op) := by
  intro v hv
  refine within_call.mpr ⟨op.legal_of_isPlain hop v, fun a v' h => ?_⟩
  rw [ControlCall.eq_of_seen hop h]
  exact hv

theorem remains_modifyLocals {f : ControlLocals → ControlLocals}
    (hf : ∀ l, D l.drainGeneration → D (f l).drainGeneration) : Remains name D (modifyLocals f) := by
  intro v hv
  refine within_locals_bind (within_call.mpr ⟨trivial, ?_⟩)
  rintro a v' ⟨rfl, rfl⟩
  exact ⟨hv.state, hf _ hv.drain⟩

theorem Remains.ite {c : Prop} [Decidable c] {p q : ControlM α} (hp : Remains name D p)
    (hq : Remains name D q) : Remains name D (if c then p else q) := by
  split
  · exact hp
  · exact hq

end Rules

/-! ### The parts that stay where they are -/

section Parts

variable {α : Type} {name : LifecycleStateName} {D : Option ℤ → Prop} {operation : ControlM α}

theorem remains_retryAmbiguousControlRequest (h : Remains name D operation) :
    Remains name D (retryAmbiguousControlRequest operation) := by
  have hretry : ∀ n, Remains name D (retryFrom n operation) := by
    intro n
    induction n with
    | zero => exact h
    | succ n ih => exact h.tryCatch fun error => .ite ih remains_throw
  exact hretry 2

theorem remains_withRevalidatedAuthority (h : Remains name D operation)
    (ignoreAbort : Bool) : Remains name D (withRevalidatedAuthority operation ignoreAbort) :=
  (remains_call _ rfl).bind fun _ => .ite (h.bind fun _ => remains_pure) remains_pure

theorem remains_rollbackDrain (drainGeneration : ℤ) : Remains name D (rollbackDrain drainGeneration) :=
  ((remains_retryAmbiguousControlRequest (remains_withRevalidatedAuthority (remains_call _ rfl)
    true)).bind
    fun _ => remains_pure).tryCatch fun _ => remains_pure

theorem remains_clearControlAttempt' : Remains name D clearControlAttempt' :=
  (remains_call .locals rfl).bind fun _ => remains_call _ rfl

theorem remains_unplan : Remains name D unplan :=
  (remains_call .locals rfl).bind fun _ => .ite (remains_call _ rfl) remains_pure

theorem remains_waitForExactExit (process : ProcessIdentity) (timeoutMs : ℤ) :
    Remains name D (waitForExactExit process timeoutMs) := by
  have hpoll : ∀ n, Remains name D (pollExit process n) := by
    intro n
    induction n with
    | zero => exact remains_pure
    | succ n ih =>
      refine (remains_call (.observe process.pid) rfl).bind fun observation => ?_
      cases observation with
      | dead => exact remains_pure
      | alive =>
        refine .ite remains_pure ?_
        exact (remains_call (.sleep 25) rfl).bind fun _ => ih
      | ambiguous => exact remains_pure
  refine (remains_call .locals rfl).bind fun locals => ?_
  cases locals.control with
  | none => exact hpoll _
  | some control =>
    refine (remains_call (.waitForExit control timeoutMs) rfl).bind fun exited => ?_
    refine .ite remains_pure ?_
    exact (remains_call (.observe process.pid) rfl).bind fun _ => remains_pure

theorem remains_prepareHardSignal (session : ControlSession) (drainGeneration : ℤ) :
    Remains name D (prepareHardSignal session drainGeneration) := by
  have hprepare : Remains name D (do
      if (← call .locals).control.isNone then
        retryAmbiguousControlRequest (call (.rollbackDrain drainGeneration))
        return none
      return some (← retryAmbiguousControlRequest
        (call (.prepareHardSignal drainGeneration session.recorded)))) := by
    refine (remains_call .locals rfl).bind fun locals => .ite ?_ ?_
    · exact (remains_retryAmbiguousControlRequest (remains_call _ rfl)).bind fun _ => remains_pure
    · exact (remains_retryAmbiguousControlRequest (remains_call _ rfl)).bind fun _ => remains_pure
  refine remains_withRevalidatedAuthority ?_ false
  refine (remains_call .locals rfl).bind fun locals => .ite ?_ hprepare
  refine (remains_call (.controlFor session.recorded true) rfl).bind fun found => ?_
  exact .bind (remains_modifyLocals fun _ h => h) fun _ => hprepare

theorem remains_commitHardSignal (session : ControlSession) (drainGeneration : ℤ)
    (authorizationId : String) (signalControl : ProcessIdentity) :
    Remains name D (commitHardSignal session drainGeneration authorizationId signalControl) := by
  have hpermit : Remains name D (requestPermit session drainGeneration authorizationId) := by
    refine (remains_retryAmbiguousControlRequest (remains_call _ rfl)).tryCatch fun error => .ite ?_ ?_
    · exact .bind (remains_modifyLocals fun _ h => h) fun _ => remains_throw
    · exact remains_throw
  have hrecord : ∀ id outcome, Remains name D (retryAmbiguousControlRequest
      (call (.recordHardSignalOutcome drainGeneration id outcome))) :=
    fun id outcome => remains_retryAmbiguousControlRequest (remains_call _ rfl)
  refine remains_withRevalidatedAuthority (hpermit.bind fun permit => .ite remains_throw ?_) false
  refine (remains_call (.observe session.record.pid) rfl).bind fun observation => .ite ?_ ?_
  · exact .ite remains_throw (hrecord _ _)
  refine (remains_call (.sendHardSignal signalControl permit.expiresAtUnix) rfl).bind
    fun outcome => ?_
  exact .ite remains_throw (hrecord _ _)

end Parts

/-! ### The ways out -/

/-- How a stop ends from the state `name`: a failure leaves it there, and so does the end of a stop
for a restart. -/
def Stopping (name : LifecycleStateName) : Except ControlError ControlResult → ControlView → Prop
  | .error _, v => v.state = some name
  | .ok result, v => result = .stopped → name = .restartStopping → v.state = some name

/-- The same for a part that may leave the rest to do. -/
def StoppingPart (name : LifecycleStateName) :
    Except ControlError (Option ControlResult) → ControlView → Prop
  | .error _, v => v.state = some name
  | .ok none, v => v.state = some name
  | .ok (some result), _ => result ≠ .stopped

/-- From `name` the stop can be left as from both of its states. -/
structure Leaves (name : LifecycleStateName) : Prop where
  ready : transitionAllowed (some name) .ready = true
  detaching : transitionAllowed (some name) .detachingClient = true

section WaysOut

variable {name : LifecycleStateName} {v : ControlView}

/-- In the state `name`, whatever the drain. -/
abbrev In (name : LifecycleStateName) : ControlView → Prop := ControlView.At name fun _ => True

theorem within_rollbackResult (hname : Leaves name) (session : ControlSession) (hv : In name v) :
    Within (rollbackResult session) (fun r _ => ∃ result, r = .ok result ∧ result ≠ .stopped) v := by
  rw [rollbackResult]
  split
  · refine within_call.mpr ⟨?_, fun a v' h => h⟩
    rw [ControlCall.Legal, hv.state]
    exact hname.detaching
  refine within_bind.mpr (within_call.mpr ⟨?_, ?_⟩)
  · rw [ControlCall.Legal, hv.state]
    exact hname.ready
  rintro a v' ⟨rfl, rfl⟩
  exact ⟨.ready, rfl, nofun⟩

theorem within_rolledBack (hname : Leaves name) (session : ControlSession) (hv : In name v) :
    Within (rolledBack session)
      (fun r v' => match r with
        | .ok result => result ≠ .stopped
        | .error _ => v'.state = some name) v := by
  refine remains_unplan.within_bind hv (fun _ _ h => h.state) fun _ v₁ h₁ => ?_
  refine remains_clearControlAttempt'.within_bind h₁ (fun _ _ h => h.state) fun _ v₂ h₂ => ?_
  refine (within_rollbackResult hname session h₂).mono fun r v' h => ?_
  obtain ⟨result, rfl, hresult⟩ := h
  exact hresult

theorem within_some_rolledBack (hname : Leaves name) (session : ControlSession) (hv : In name v) :
    Within (do return some (← rolledBack session)) (StoppingPart name) v := by
  refine within_bind.mpr ((within_rolledBack hname session hv).mono fun r v' h => ?_)
  cases r with
  | ok => exact h
  | error => exact h

theorem within_abortBeforeHardCommit (drainGeneration : ℤ) (hv : In name v) :
    Within (abortBeforeHardCommit drainGeneration) (StoppingPart name) v := by
  refine (remains_call .aborted rfl).within_bind hv (fun _ _ h => h.state)
    fun aborted v₁ h₁ => within_locals_bind ?_
  split
  · exact h₁.state
  refine (remains_rollbackDrain drainGeneration).within_bind h₁ (fun _ _ h => h.state)
    fun rolled v₂ h₂ => ?_
  split
  · exact nofun
  refine remains_unplan.within_bind h₂ (fun _ _ h => h.state) fun _ v₃ h₃ => ?_
  exact remains_clearControlAttempt'.within_bind h₃ (fun _ _ h => h.state) fun _ _ _ => nofun

theorem within_checkOwner (hname : Leaves name) (session : ControlSession) (drainGeneration : ℤ)
    (hv : In name v) : Within (checkOwner session drainGeneration) (StoppingPart name) v := by
  refine within_locals_bind ?_
  dsimp only
  split
  · exact hv.state
  split
  · refine (remains_rollbackDrain drainGeneration).within_bind hv (fun _ _ h => h.state)
      fun rolled v₁ h₁ => ?_
    split
    · exact remains_unplan.within_bind h₁ (fun _ _ h => h.state) fun _ _ _ => nofun
    · exact within_some_rolledBack hname session h₁
  split
  · exact remains_unplan.within_bind hv (fun _ _ h => h.state) fun _ _ _ => nofun
  · exact hv.state

theorem within_requestGraceful (hname : Leaves name) (session : ControlSession)
    (drainGeneration : ℤ) (hv : In name v) :
    Within (requestGraceful session drainGeneration) (StoppingPart name) v := by
  refine within_locals_bind ?_
  dsimp only
  split
  · exact hv.state
  refine (remains_retryAmbiguousControlRequest (remains_withRevalidatedAuthority (remains_call _ rfl)
    false)).within_bind hv (fun _ _ h => h.state) fun graceful v₁ h₁ => ?_
  split
  · exact nofun
  split
  · refine (remains_rollbackDrain drainGeneration).within_bind h₁ (fun _ _ h => h.state)
      fun rolled v₂ h₂ => ?_
    split
    · exact nofun
    · exact within_some_rolledBack hname session h₂
  refine (remains_call _ rfl).within_bind h₁ (fun _ _ h => h.state) fun advanced v₂ h₂ => ?_
  refine Remains.within_bind (remains_modifyLocals fun _ h => h) h₂ (fun _ _ h => h.state)
    fun _ v₃ h₃ => h₃.state

theorem within_authorizeHardSignal (hname : Leaves name) (session : ControlSession)
    (drainGeneration : ℤ) (hv : In name v) :
    Within (authorizeHardSignal session drainGeneration) (StoppingPart name) v := by
  refine within_bind.mpr ((within_abortBeforeHardCommit drainGeneration hv).mono fun r v₁ h₁ => ?_)
  rcases r with error | result | _
  · exact h₁
  swap
  · exact h₁
  refine (remains_retryAmbiguousControlRequest (remains_withRevalidatedAuthority (remains_call _ rfl)
    false)).within_bind (D := fun _ => True) ⟨h₁, trivial⟩ (fun _ _ h => h.state)
      fun authorization v₂ h₂ => ?_
  split
  · exact nofun
  split
  · refine (remains_rollbackDrain drainGeneration).within_bind h₂ (fun _ _ h => h.state)
      fun rolled v₃ h₃ => ?_
    split
    · exact nofun
    · exact within_some_rolledBack hname session h₃
  split
  · exact h₂.state
  refine within_locals_bind ?_
  refine (remains_call _ rfl).within_bind h₂ (fun _ _ h => h.state) fun advanced v₃ h₃ => ?_
  exact Remains.within_bind (remains_modifyLocals fun _ h => h) h₃ (fun _ _ h => h.state)
    fun _ v₄ h₄ => h₄.state

theorem within_orReturn {p : ControlM (Option ControlResult)} {next : ControlM ControlResult}
    (hp : Within p (StoppingPart name) v)
    (hnext : ∀ v', In name v' → Within next (Stopping name) v') :
    Within (orReturn p next) (Stopping name) v := by
  refine within_bind.mpr (hp.mono fun r v₁ h₁ => ?_)
  rcases r with error | _ | result
  · exact h₁
  · exact hnext v₁ ⟨h₁, trivial⟩
  · exact fun h => absurd h h₁

end WaysOut

/-! ### The stop from the drain on -/

/-- The state in which an operation stops. -/
def stoppingState : ControlOperation → LifecycleStateName
  | .restart => .restartStopping
  | .stop => .stopping

theorem leaves_stoppingState (operation : ControlOperation) : Leaves (stoppingState operation) := by
  cases operation <;> exact ⟨by decide, by decide⟩

section Drained

variable {session : ControlSession} {drainGeneration : ℤ} {v : ControlView}

theorem within_finishStop (hv : In (stoppingState session.operation) v) (exited : Bool) :
    Within (finishStop session exited) (Stopping (stoppingState session.operation)) v := by
  rw [finishStop]
  split
  · exact nofun
  refine (remains_call .retireObservedExit rfl).within_bind hv (fun _ _ h => h.state)
    fun retired v₁ h₁ => ?_
  split
  · exact nofun
  refine remains_unplan.within_bind h₁ (fun _ _ h => h.state) fun _ v₂ h₂ => ?_
  refine (remains_call .dropContext rfl).within_bind h₂ (fun _ _ h => h.state)
    fun _ v₃ h₃ => ?_
  split
  · next hoperation =>
    refine within_bind.mpr (within_call.mpr ⟨?_, ?_⟩)
    · rw [ControlCall.Legal, h₃.state, hoperation]
      decide
    rintro a v' ⟨rfl, rfl⟩
    intro _ hrestart
    rw [hoperation] at hrestart
    cases hrestart
  · exact fun _ _ => h₃.state

theorem within_hardSignal (hv : In (stoppingState session.operation) v) :
    Within (hardSignal session drainGeneration) (Stopping (stoppingState session.operation)) v := by
  refine within_orReturn (within_abortBeforeHardCommit drainGeneration hv) fun v₁ h₁ => ?_
  refine (remains_prepareHardSignal session drainGeneration).within_bind h₁ (fun _ _ h => h.state)
    fun prepared v₂ h₂ => ?_
  split
  · exact fun h => by cases h
  · refine (within_rolledBack (leaves_stoppingState _) session h₂).mono fun r v' h => ?_
    cases r with
    | ok => exact fun hr => absurd hr h
    | error => exact h
  next authorizationId =>
  refine within_orReturn (within_abortBeforeHardCommit drainGeneration h₂) fun v₃ h₃ => ?_
  -- the signal and the wait for the exit
  have hsignal : ∀ u, In (stoppingState session.operation) u →
      Within (sendHardSignal session drainGeneration authorizationId)
        (Stopping (stoppingState session.operation)) u := by
    intro u hu
    refine within_locals_bind ?_
    split
    · exact hu.state
    refine Remains.within_bind (remains_modifyLocals fun _ h => h) hu (fun _ _ h => h.state)
      fun _ u₁ hu₁ => ?_
    refine (remains_commitHardSignal session drainGeneration authorizationId _).within_bind hu₁
      (fun _ _ h => h.state) fun committed u₂ hu₂ => ?_
    split
    · exact fun h => by cases h
    exact (remains_waitForExactExit _ _).within_bind hu₂ (fun _ _ h => h.state)
      fun exited u₃ hu₃ => within_finishStop hu₃ exited
  refine within_locals_bind ?_
  dsimp only
  split
  · refine (remains_call _ rfl).within_bind h₃ (fun _ _ h => h.state) fun advanced v₄ h₄ => ?_
    exact Remains.within_bind (remains_modifyLocals fun _ h => h) h₄ (fun _ _ h => h.state)
      fun _ v₅ h₅ => hsignal v₅ h₅
  · exact hsignal v₃ h₃

theorem within_exitOrSignal (hv : In (stoppingState session.operation) v) :
    Within (exitOrSignal session drainGeneration) (Stopping (stoppingState session.operation)) v := by
  refine within_locals_bind ?_
  dsimp only
  split
  · exact within_hardSignal hv
  refine (remains_waitForExactExit _ _).within_bind hv (fun _ _ h => h.state) fun exited v₁ h₁ => ?_
  split
  · exact within_finishStop h₁ true
  exact within_orReturn (within_authorizeHardSignal (leaves_stoppingState _) session
    drainGeneration h₁) fun v₂ h₂ => within_hardSignal h₂

/-- In `draining`, or where the stop has gone on to. -/
def Draining (session : ControlSession) : Except ControlError ControlResult → ControlView → Prop
  | .error error, v => v.state = some (stoppingState session.operation) ∨
      v.state = some .draining ∧
        (v.locals.drainGeneration = none ∨ error.isAuthorizationExpired = false)
  | .ok result, v => result = .stopped → session.operation = .restart →
      v.state = some .restartStopping

theorem Stopping.draining {r : Except ControlError ControlResult}
    (h : Stopping (stoppingState session.operation) r v) : Draining session r v := by
  cases r with
  | error => exact .inl h
  | ok =>
    intro hresult hoperation
    rw [hoperation] at h
    exact h hresult rfl

theorem within_stopDrained (hv : In .draining v) :
    Within (stopDrained session) (Draining session) v := by
  refine within_locals_bind ?_
  split
  · next hnone => exact .inr ⟨hv.state, .inl hnone⟩
  next drainGeneration hsome =>
  have htransition : (if session.operation = .restart then LifecycleStateName.restartStopping
      else .stopping) = stoppingState session.operation := by
    cases session.operation <;> rfl
  rw [htransition]
  refine within_bind.mpr (within_call.mpr ⟨?_, ?_⟩)
  · rw [ControlCall.Legal, hv.state]
    cases session.operation <;> decide
  rintro a v₁ ⟨rfl, rfl⟩
  refine Within.mono (Q := Stopping (stoppingState session.operation)) ?_ fun _ _ => Stopping.draining
  have hstop : ∀ u, In (stoppingState session.operation) u → Within
      (orReturn (abortBeforeHardCommit drainGeneration) <|
        orReturn (checkOwner session drainGeneration) <|
          orReturn (requestGraceful session drainGeneration) <|
            orReturn (abortBeforeHardCommit drainGeneration)
              (exitOrSignal session drainGeneration))
      (Stopping (stoppingState session.operation)) u := by
    intro u hu
    have hleaves := leaves_stoppingState session.operation
    refine within_orReturn (within_abortBeforeHardCommit drainGeneration hu) fun u₁ h₁ => ?_
    refine within_orReturn (within_checkOwner hleaves session drainGeneration h₁) fun u₂ h₂ => ?_
    refine within_orReturn (within_requestGraceful hleaves session drainGeneration h₂)
      fun u₃ h₃ => ?_
    exact within_orReturn (within_abortBeforeHardCommit drainGeneration h₃)
      fun u₄ h₄ => within_exitOrSignal h₄
  refine within_locals_bind ?_
  have hin : In (stoppingState session.operation)
      { v with state := some (stoppingState session.operation) } := ⟨rfl, trivial⟩
  split
  · exact (remains_call _ rfl).within_bind hin (fun _ _ h => h.state) fun _ u hu => hstop u hu
  · exact hstop _ hin

/-! ### The drain -/

/-- In `draining`, without a generation of the drain. -/
abbrev Undrained : ControlView → Prop := ControlView.At .draining (· = none)

/-- How the request for a drain ends. -/
def Begun : Except ControlError (Option ControlResult) → ControlView → Prop
  | .error error, v => v.state = some .draining ∧
      (v.locals.drainGeneration = none ∨ error.isAuthorizationExpired = false)
  | .ok none, v => v.state = some .draining
  | .ok (some result), _ => result ≠ .stopped

theorem within_requestDrain (hv : Undrained v) (admissionEpoch : ℤ) (again : Bool) :
    Within (requestDrain session admissionEpoch again)
      (fun r v' => Undrained v' ∧ r ≠ .ok (.returned .stopped)) v := by
  refine within_locals_bind (within_tryCatch.mpr ?_)
  refine (remains_retryAmbiguousControlRequest (remains_withRevalidatedAuthority (remains_call _ rfl)
    false)).within_bind hv (fun error v₁ h₁ => ?_) fun drain v₁ h₁ => ?_
  · dsimp only
    split
    · refine (remains_call _ rfl).within_bind h₁ (fun _ _ h => ⟨h, nofun⟩) fun attempt v₂ h₂ => ?_
      exact Remains.within_bind (remains_modifyLocals fun _ h => h) h₂ (fun _ _ h => ⟨h, nofun⟩)
        fun _ v₃ h₃ => ⟨h₃, nofun⟩
    split
    · refine remains_clearControlAttempt'.within_bind h₁ (fun _ _ h => ⟨h, nofun⟩)
        fun _ v₂ h₂ => ?_
      exact (remains_call .detachRequester rfl).within_bind h₂ (fun _ _ h => ⟨h, nofun⟩)
        fun _ v₃ h₃ => ⟨h₃, nofun⟩
    · exact ⟨h₁, nofun⟩
  split
  · exact ⟨h₁, nofun⟩
  · exact ⟨h₁, nofun⟩

theorem within_beginDrain (n : ℕ) (hv : Undrained v) (admissionEpoch : ℤ) :
    Within (beginDrain session admissionEpoch n) Begun v := by
  induction n generalizing v with
  | zero => exact hv.state
  | succ n ih =>
    refine within_locals_bind ?_
    refine (remains_call (.readControlAttemptSecret _) rfl).within_bind hv
      (fun _ _ h => ⟨h.state, .inl h.drain⟩) fun _ v₁ h₁ => ?_
    refine within_bind.mpr ((within_requestDrain h₁ admissionEpoch _).mono fun r v₂ h₂ => ?_)
    obtain ⟨h₂, hresult⟩ := h₂
    rcases r with error | drainGeneration | _ | result
    · exact ⟨h₂.state, .inl h₂.drain⟩
    · -- a failure to record the generation is one of the store
      refine within_modifyLocals_bind (within_bind.mpr (within_call.mpr ⟨trivial, ?_⟩))
      rintro a v₃ ⟨rfl, herror⟩
      cases a with
      | ok => exact within_modifyLocals_bind h₂.state
      | error error => exact ⟨h₂.state, .inr (herror error rfl)⟩
    · refine within_locals_bind ?_
      split
      · exact ih h₂
      · exact within_modifyLocals_bind h₂.state
    · exact fun h => hresult (by rw [h])

theorem within_tryStop (hv : Undrained v) (admissionEpoch : ℤ) :
    Within (tryStop session admissionEpoch) (Draining session) v := by
  refine within_locals_bind ?_
  split
  · exact within_modifyLocals_bind (within_stopDrained ⟨hv.state, trivial⟩)
  refine within_bind.mpr ((within_beginDrain 2 hv admissionEpoch).mono fun r v₁ h₁ => ?_)
  rcases r with error | _ | result
  · exact .inr h₁
  · exact within_stopDrained ⟨h₁, trivial⟩
  · exact fun h => absurd h h₁

/-- How a controlled stop ends. -/
def Stopped (restart : Bool) (r : Except ControlError ControlResult) (v : ControlView) : Prop :=
  r = .ok .stopped → restart = true → v.state = some .restartStopping

theorem within_catchStop {error : ControlError} (hv : Draining session (.error error) v) :
    Within (catchStop session error)
      (fun r _ => r ≠ .ok .stopped) v := by
  refine within_locals_bind ?_
  have hmapped : ∀ name u, In name u → Within (do
      unplan
      return ControlResult.mapped error) (fun r _ => r ≠ .ok .stopped) u :=
    fun name u hu => remains_unplan.within_bind hu (fun _ _ _ => nofun) fun _ _ _ => nofun
  have hin : ∃ name, In name v ∧ (name = stoppingState session.operation ∨
      v.locals.drainGeneration = none ∨ error.isAuthorizationExpired = false) := by
    rcases hv with hv | ⟨hv, h⟩
    · exact ⟨_, ⟨hv, trivial⟩, .inl rfl⟩
    · exact ⟨_, ⟨hv, trivial⟩, .inr h⟩
  obtain ⟨name, hname, hexpired⟩ := hin
  split
  · next drainGeneration hsome =>
    split
    · refine (remains_rollbackDrain drainGeneration).within_bind hname (fun _ _ _ => nofun)
        fun rolled v₁ h₁ => ?_
      split
      · exact nofun
      refine remains_clearControlAttempt'.within_bind h₁ (fun _ _ _ => nofun) fun _ v₂ h₂ => ?_
      split
      · next hexpired' =>
        refine remains_unplan.within_bind h₂ (fun _ _ _ => nofun) fun _ v₃ h₃ => ?_
        rcases hexpired with rfl | hnone | hfalse
        · refine (within_rollbackResult (leaves_stoppingState _) session h₃).mono ?_
          rintro r v' ⟨result, rfl, hresult⟩ hr
          exact hresult (Except.ok.inj hr)
        · rw [hsome] at hnone
          cases hnone
        rw [hexpired'] at hfalse
        cases hfalse
      · exact hmapped name v₂ h₂
    · exact hmapped name v hname
  · exact hmapped name v hname

theorem within_stopSession (hv : transitionAllowed v.state .draining = true)
    (process : Option ProcessIdentity) :
    Within (stopSession session process) (Stopped (session.operation = .restart)) v := by
  -- from the transition on
  have hstop : ∀ control, Within
      (do
        call (.transition .draining)
        let admissionEpoch ← call .renewClient
        let controlAttempt ← call (.prepareControlAttempt session.fresh session.operation
          admissionEpoch)
        call (.assign ⟨control, none, false, controlAttempt⟩)
        tryCatch (tryStop session admissionEpoch) (catchStop session))
      (Stopped (session.operation = .restart)) v := by
    intro control
    refine within_bind.mpr (within_call.mpr ⟨hv, ?_⟩)
    rintro a v₁ ⟨rfl, rfl⟩
    have hin : In .draining { v with state := some .draining } := ⟨rfl, trivial⟩
    refine (remains_call .renewClient rfl).within_bind hin (fun _ _ _ => nofun)
      fun admissionEpoch v₂ h₂ => ?_
    refine (remains_call _ rfl).within_bind h₂ (fun _ _ _ => nofun) fun controlAttempt v₃ h₃ => ?_
    refine within_bind.mpr (within_call.mpr ⟨trivial, ?_⟩)
    rintro a v₄ ⟨rfl, rfl⟩
    have hundrained : Undrained ⟨v₃.state, ⟨control, none, false, controlAttempt⟩⟩ :=
      ⟨h₃.state, rfl⟩
    refine within_tryCatch.mpr ((within_tryStop hundrained admissionEpoch).mono fun r v₅ h₅ => ?_)
    cases r with
    | ok => exact fun hr hrestart => h₅ (Except.ok.inj hr) (of_decide_eq_true hrestart)
    | error => exact (within_catchStop h₅).mono fun r v' h hr => absurd hr h
  cases process with
  | some process => exact hstop (some process)
  | none =>
    refine within_bind.mpr (within_call.mpr ⟨trivial, fun a v' h => ?_⟩)
    obtain rfl : v' = v := h
    cases a with
    | ok control => exact hstop control
    | error => exact nofun

end Drained

theorem within_controlledStop {v : ControlView} (hv : transitionAllowed v.state .draining = true)
    (platform : Platform) (requestTimeoutMs : ℤ) (requester : ControlAttemptRequester)
    (context : ReadyContext) (restart : Bool) :
    Within (controlledStop platform requestTimeoutMs requester context restart) (Stopped restart)
      v := by
  rw [controlledStop]
  split
  · refine (within_stopSession hv _).mono fun r v' h hr hrestart => h hr ?_
    subst hrestart
    rfl
  · exact nofun

/-! ### As a task of the supervisor -/

namespace ControlWorld

def view (w : ControlWorld) : ControlView := ⟨w.currentState, w.locals⟩

@[simp] theorem view_ask {α : Type} (w : ControlWorld) (c : ControlChoice) (value : α) :
    (w.ask c value).2.view = w.view := by
  rw [ask]
  split <;> rfl

@[simp] theorem view_observe {α : Type} (w : ControlWorld) (c : ControlChoice) (value : α) :
    (w.observe c value).2.view = w.view := rfl

theorem view_write {α : Type} {w written : ControlWorld} (c : ControlChoice) (value : α)
    (hwritten : written.view = w.view) : (w.write c value written).2.view = w.view := by
  rw [write]
  split
  · exact hwritten
  split
  · rfl
  · exact hwritten

variable (w : ControlWorld)

theorem view_prepareControlAttempt (c : ControlChoice)
    (fresh : LocalControlAttempt) (operation : ControlOperation) :
    (w.prepareControlAttempt c fresh operation).2.view = w.view := by
  rw [prepareControlAttempt]
  split
  · split <;> rfl
  · exact view_write c fresh rfl

theorem view_replaceExpired (c : ControlChoice)
    (fresh expired : LocalControlAttempt) (operation : ControlOperation) :
    (w.replaceExpiredBeginControlAttempt c fresh expired operation).2.view = w.view := by
  rw [replaceExpiredBeginControlAttempt]
  split
  · exact view_prepareControlAttempt w c fresh operation
  split
  · exact view_prepareControlAttempt w c fresh operation
  split
  · rfl
  · split
    · rfl
    · dsimp only
      split
      · rfl
      · split <;> rfl

theorem view_clearControlAttempt (c : ControlChoice)
    (expected : LocalControlAttempt) : (w.clearControlAttempt c expected).2.view = w.view := by
  rw [clearControlAttempt]
  split
  · exact view_write c () rfl
  · rfl

theorem view_rewriteAttempt (c : ControlChoice)
    (next : Option LocalControlAttempt) : (w.rewriteAttempt c next).2.view = w.view := by
  cases next with
  | none => rfl
  | some attempt => exact view_write c attempt rfl

theorem isAuthorizationExpired_rewriteAttempt {w : ControlWorld} {c : ControlChoice}
    {next : Option LocalControlAttempt} {error : ControlError}
    (h : (w.rewriteAttempt c next).1 = .error error) : error.isAuthorizationExpired = false := by
  cases next with
  | none =>
    cases h
    rfl
  | some =>
    rw [rewriteAttempt, write] at h
    split at h
    · cases h
    cases h
    rfl

end ControlWorld

variable {op : ControlCall} {c : ControlChoice}

/-- A call that leaves the supervisor, with the lease renewed on its own. -/
theorem ControlCall.seen_perform (hop : op.isAwaited = true)
    (hdetach : op ≠ .detach) (hc : c.lease = none) (w : ControlWorld) :
    op.Seen w.view (op.perform c w).1 (op.perform c w).2.view := by
  have htick : w.leaseTick c.lease = w := by
    rw [hc]
    rfl
  cases op with
  | transition | ready | dropContext | aborted | setPlanned | locals | assign => cases hop
  | detach => exact absurd rfl hdetach
  | renewClient | revalidate | beginControlDrain | recordGracefulControl | rollbackDrain
  | prepareHardSignal | recordHardSignalOutcome =>
    simp [Seen, perform, htick]
  | controlFor | observe | sendHardSignal | waitForExit | sleep =>
    simp [Seen, perform, htick]
  | prepareControlAttempt fresh operation =>
    simp only [Seen, perform, htick]
    exact w.view_prepareControlAttempt c _ operation
  | readControlAttemptSecret =>
    simp only [Seen, perform, htick]
    exact ControlWorld.view_write c () rfl
  | replaceExpiredBeginControlAttempt fresh expired operation =>
    simp only [Seen, perform, htick]
    exact w.view_replaceExpired c _ expired operation
  | markControlAttemptDraining =>
    simp only [Seen, perform, htick]
    exact ⟨w.view_rewriteAttempt c _, fun _ => ControlWorld.isAuthorizationExpired_rewriteAttempt⟩
  | advanceControlAttempt =>
    simp only [Seen, perform, htick]
    exact w.view_rewriteAttempt c _
  | clearControlAttempt expected =>
    simp only [Seen, perform, htick]
    exact w.view_clearControlAttempt c expected
  | commitHardSignal =>
    simp only [Seen, perform, htick]
    split
    · exact w.view_ask c _
    · exact w.view_ask c _
  | retireObservedExit =>
    simp only [Seen, perform, htick]
    refine ControlWorld.view_write c c.flag ?_
    split <;> rfl
  | detachRequester =>
    simp only [Seen, perform, htick]
    exact w.view_ask c ()

/-- A call that the supervisor answers itself. -/
theorem ControlCall.seen_performOwn (hop : op.isAwaited = false)
    {w : ControlWorld} (hlegal : op.Legal w.view) (c : ControlChoice) :
    op.Seen w.view (op.perform c w).1 (op.perform c w).2.view := by
  cases op with
  | transition name =>
    have hallowed : transitionAllowed w.currentState name = true := hlegal
    simp only [Seen, perform, ControlWorld.transition, if_pos hallowed]
    exact ⟨trivial, rfl⟩
  | ready =>
    have hallowed : transitionAllowed w.currentState .ready = true := hlegal
    simp only [Seen, perform, ControlWorld.transition, if_pos hallowed]
    exact ⟨trivial, rfl⟩
  | assign => exact ⟨rfl, rfl⟩
  | locals => exact ⟨rfl, rfl⟩
  | dropContext | aborted | setPlanned => rfl
  | _ => cases hop

theorem ControlCall.legal_of_view {w : ControlWorld} (h : op.Legal w.view) : op.legal w = true := by
  cases op with
  | transition => exact h
  | ready => exact h
  | _ => rfl

namespace Supervisor

def view (s : SupervisorState) : ControlView := s.world.view

theorem Undisturbed.view {s t : SupervisorState} (h : Undisturbed s t) :
    Supervisor.view t = Supervisor.view s := by
  rw [Supervisor.view, h.world]
  rfl

section Tasks

variable {config : SupervisorConfig} {i : ℕ} {v : ControlView} {α : Type}

variable {P : SupervisorState → Prop} {R : Except ControlError op.Answer → SupervisorState → Prop}

/-- A call under a choice of the environment, where the table allows it. -/
theorem lawful_performWith (hlegal : ∀ s, P s → op.legal s.world = true)
    (hR : ∀ s t, P s → t.world = (op.perform c s.world).2 → R (.ok (op.perform c s.world).1) t) :
    Lawful config i P R (performWith op c) := by
  intro s hs hP
  refine Contract.verifies_get_bind.mpr (Contract.verifies_bind.mpr
    (Contract.verifies_modify.mpr fun _ => ⟨fun j hj hbusy => ?_, ?_⟩))
  · rw [hs.busy] at hbusy
    exact absurd (Option.some.inj hbusy).symm hj
  refine ⟨⟨hs.busy, ?_⟩, hR s _ hP rfl⟩
  simp [hs.legal, hlegal s hP]

theorem lawful_performOwn (hlegal : ∀ s, P s → op.legal s.world = true)
    (hR : ∀ s t c, P s → t.world = (op.perform c s.world).2 → R (.ok (op.perform c s.world).1) t) :
    Lawful config i P R (performOwn op) :=
  lawful_get_bind fun _ => lawful_performWith hlegal fun s t hP ht => hR s t _ hP ht

theorem Lawful.always {R R' : Except ControlError α → SupervisorState → Prop} {p : SupervisorM α}
    {cleanup : SupervisorM Unit} (hp : Lawful config i P R p)
    (hcleanup : ∀ r, Lawful config i (R r) (fun c t => c = .ok () ∧ R' r t) cleanup) :
    Lawful config i P R' (p.always cleanup) := by
  intro s hs hP
  refine Contract.verifies_always.mpr ((hp s hs hP).mono fun r t ht => ?_)
  refine (hcleanup r t ht.1 ht.2).mono fun c u hu => ?_
  obtain ⟨hown, rfl, hR⟩ := hu
  exact ⟨hown, hR⟩

theorem lawful_detach (hv : transitionAllowed v.state .detachingClient = true) :
    Lawful config i (fun s => view s = v)
      (fun r _ => ∃ result, r = .ok result ∧ result ≠ .stopped) detach := by
  refine lawful_get_bind fun s => .ite (fun _ => lawful_pure fun _ _ => ⟨_, rfl, nofun⟩) fun _ => ?_
  have htransition : Lawful config i (fun s => view s = v)
      (fun r => fun t => r = .ok () ∧ At .detachingClient t)
      (transition .detachingClient) := by
    have hknown : ∀ s, view s = v → Known (· = v.state) s :=
      fun s hs => congrArg ControlView.state hs
    refine (lawful_transition fun state hstate => ?_).mono hknown fun _ _ h => h
    rw [hstate]
    exact hv
  refine htransition.bind (fun _ _ h => nomatch h.1) fun _ => ?_
  refine Lawful.always (R := fun r _ => ∃ result, r = .ok result ∧ result ≠ .stopped) ?_ fun r => ?_
  · refine Lawful.tryCatch (R := fun r _ => ∀ result, r = .ok result → result ≠ .stopped) ?_
      (fun result _ h => ⟨result, rfl, h result rfl⟩)
      fun error => lawful_pure fun _ _ => ⟨_, rfl, nofun⟩
    refine ((lawful_step .detachClient).mono (fun _ h => h.2) fun _ _ h => h).bind
      (fun _ _ _ _ h => nomatch h) fun _ => ?_
    refine (lawful_transition fun state hstate => ?_).bind (fun _ _ _ _ h => nomatch h) fun _ =>
      lawful_pure fun _ _ result h => ?_
    · rw [hstate]
      decide
    cases h
    nofun
  · exact lawful_modify fun s hs h _ => ⟨⟨hs.busy, hs.legal⟩, rfl, h⟩

theorem perform_awaited (hop : op.isAwaited = true) (hdetach : op ≠ .detach) : perform op = (do
      let c ← Fiber.call (SupervisorCall.control op)
      performWith op c) := by
  cases op with
  | detach => exact absurd rfl hdetach
  | transition | ready | dropContext | aborted | setPlanned | locals | assign => cases hop
  | _ => rfl

theorem perform_own (hop : op.isAwaited = false) : perform op = performOwn op := by
  cases op with
  | transition | ready | dropContext | aborted | setPlanned | locals | assign => rfl
  | _ => cases hop

/-- The step lemma: a call of a controlled stop, as the supervisor answers it. -/
theorem lawful_perform (hlegal : op.Legal v) :
    Lawful config i (fun s => view s = v) (fun r t => ∃ a, r = .ok a ∧ op.Seen v a (view t))
      (perform op) := by
  have hcontrol : ∀ s, view s = v → op.legal s.world = true := by
    rintro s rfl
    exact ControlCall.legal_of_view hlegal
  by_cases hdetach : op = .detach
  · subst hdetach
    refine (lawful_detach hlegal).attempted.mono (fun _ h => h) ?_
    rintro r t ⟨outcome, rfl, h⟩
    exact ⟨outcome, rfl, h⟩
  cases hop : op.isAwaited with
  | true =>
    rw [perform_awaited hop hdetach]
    intro s hs hP
    refine Contract.verifies_call_bind.mpr ⟨hs.legal, fun t choice c hrely hinv hreply => ?_⟩
    have ht := hrely hs.busy
    have hlease : c.lease = none := by
      cases hreply
      rfl
    refine lawful_performWith hcontrol (fun u u' hu hworld => ⟨_, rfl, ?_⟩) t
      ⟨ht.busy.trans hs.busy, hinv⟩ (ht.view.trans hP)
    subst hu
    rw [view, view, hworld]
    exact ControlCall.seen_perform hop hdetach hlease u.world
  | false =>
    rw [perform_own hop]
    refine lawful_performOwn hcontrol fun s t c hs hworld => ⟨_, rfl, ?_⟩
    subst hs
    rw [view, view, hworld]
    exact ControlCall.seen_performOwn hop hlegal c

/-- A part of a controlled stop is lawful as a task where it is `Within` the table. -/
theorem Within.lawful {Q : Except ControlError α → ControlView → Prop} {p : ControlM α}
    (h : Within p Q v) :
    Lawful config i (fun s => view s = v) (fun r t => Q r (view t)) (runControl p) := by
  induction p generalizing v with
  | ret =>
    intro s hs hP
    subst hP
    exact ⟨hs, h⟩
  | request op next ih =>
    refine Lawful.bind (lawful_perform h.1) (fun _ _ he => ?_) fun answer => ?_
    · obtain ⟨_, he, _⟩ := he
      cases he
    intro s hs hP
    obtain ⟨a, ha, hseen⟩ := hP
    cases ha
    exact ih _ (h.2 _ _ hseen) s hs rfl

end Tasks

end Supervisor

end BreadboardTui
