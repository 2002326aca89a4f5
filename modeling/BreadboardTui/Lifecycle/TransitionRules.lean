import BreadboardTui.Lifecycle.SupervisorFlows

/-!
# Rules for the transitions of the supervisor

`Lawful` is the rule for a flow that is under way: whatever its calls are answered, it calls
`transition` only where the table allows it. The others leave it alone meanwhile, but for dropping
its context.
-/

namespace BreadboardTui

open Effects

/-- The states that a flow can take over. -/
def FlowEntry.accepts (state : Option LifecycleStateName) : FlowEntry → Bool
  | .controlledStop => state.all fun name => name = .ready ∨ name = .draining
  | .restartStart => state.all fun name => name = .backingOff ∨ name = .restartStopping
  | .detachedClose =>
    state.all fun name => name = .ready ∨ name = .stopping ∨ name = .restartStopping
  | .detachedCloseAgain => state = some .detachingClient

namespace Supervisor

/-- An update of an orderly run: no flow begins and no lease is lost while another flow is under way,
and a flow takes over a state that it can go on from. -/
def Orderly (s t : SupervisorState) : Prop :=
  (t.busy ≠ s.busy → t.busy ≠ none → s.busy = none) ∧
    (t.leaseFailures ≠ s.leaseFailures → s.busy = none) ∧
    ∀ entry, t.entries = entry :: s.entries → FlowEntry.accepts s.world.currentState entry = true

/-- What the flow of a task relies on while it is under way. -/
structure Undisturbed (s t : SupervisorState) : Prop where
  busy : t.busy = s.busy
  world : t.world = { s.world with contextHeld := t.world.contextHeld }

/-- No transition has been illegal, and the flow under way is left alone. -/
def tabled (config : SupervisorConfig) : Contract (machine config) where
  inv s := s.illegal = false
  rely i s t := s.busy = some i → Undisturbed s t
  idle _ _ := True
  pre _ _ _ := True
  allowed := Orderly

theorem Undisturbed.refl (s : SupervisorState) : Undisturbed s s := ⟨rfl, rfl⟩

theorem Undisturbed.trans {s t u : SupervisorState} (h : Undisturbed s t) (h' : Undisturbed t u) :
    Undisturbed s u where
  busy := h'.busy.trans h.busy
  world := by
    rw [h'.world, h.world]

theorem Undisturbed.currentState {s t : SupervisorState} (h : Undisturbed s t) :
    t.world.currentState = s.world.currentState := by
  rw [h.world]

/-- What a flow knows of the current state. -/
def Known (S : Option LifecycleStateName → Prop) (s : SupervisorState) : Prop :=
  S s.world.currentState

/-- In the state `name`. -/
abbrev At (name : LifecycleStateName) : SupervisorState → Prop := Known (· = some name)

/-- In whatever state. -/
abbrev Anywhere : SupervisorState → Prop := Known fun _ => True

section Rules

variable {config : SupervisorConfig} {i : ℕ} {s t : SupervisorState} {α β : Type}
  {S : Option LifecycleStateName → Prop}

theorem Known.undisturbed (h : Known S s) (ht : Undisturbed s t) : Known S t := by
  rw [Known, ht.currentState]
  exact h

/-- Under way as the flow of task `i`, and all transitions were legal. -/
structure Own (i : ℕ) (s : SupervisorState) : Prop where
  busy : s.busy = some i
  legal : s.illegal = false

/-- Run as the flow of task `i` from a state with `P`, the program is lawful and ends with `R`. -/
def Lawful (config : SupervisorConfig) (i : ℕ) (P : SupervisorState → Prop)
    (R : Except ControlError α → SupervisorState → Prop) (p : SupervisorM α) : Prop :=
  ∀ s, Own i s → P s → (tabled config).Verifies i p (fun r t => Own i t ∧ R r t) s

/-- The same, where only results matter. -/
abbrev Goes (config : SupervisorConfig) (i : ℕ) (P : SupervisorState → Prop)
    (M : α → SupervisorState → Prop) (p : SupervisorM α) : Prop :=
  Lawful config i P (fun r t => ∀ a, r = .ok a → M a t) p

variable {P P' : SupervisorState → Prop} {R R' : Except ControlError α → SupervisorState → Prop}

variable {p : SupervisorM α}

theorem Lawful.mono (h : Lawful config i P R p) (hP : ∀ s, P' s → P s)
    (hR : ∀ r s, R r s → R' r s) : Lawful config i P' R' p :=
  fun s hs hPs => (h s hs (hP s hPs)).mono fun r t ht => ⟨ht.1, hR r t ht.2⟩

theorem lawful_pure {a : α} (h : ∀ s, P s → R (.ok a) s) : Lawful config i P R (pure a) :=
  fun s hs hP => ⟨hs, h s hP⟩

variable {e : ControlError}

theorem lawful_throw (h : ∀ s, P s → R (.error e) s) :
    Lawful config i P R (throw e : SupervisorM α) :=
  fun s hs hP => ⟨hs, h s hP⟩

theorem Lawful.bind {f : α → SupervisorM β}
    {R' : Except ControlError β → SupervisorState → Prop} (hp : Lawful config i P R p)
    (herror : ∀ e s, R (.error e) s → R' (.error e) s)
    (hf : ∀ a, Lawful config i (R (.ok a)) R' (f a)) : Lawful config i P R' (p >>= f) := by
  intro s hs hP
  refine Contract.verifies_bind.mpr ((hp s hs hP).mono fun r t ht => ?_)
  cases r with
  | ok a => exact hf a t ht.1 ht.2
  | error e => exact ⟨ht.1, herror e t ht.2⟩

theorem Lawful.attempted (hp : Lawful config i P R p) :
    Lawful config i P (fun r t => ∃ outcome, r = .ok outcome ∧ R outcome t) p.attempt :=
  fun s hs hP => Program.ensures_attempt.mpr
    ((hp s hs hP).mono fun r _ ht => ⟨ht.1, r, rfl, ht.2⟩)

theorem Lawful.attempt (hp : Lawful config i P R p) :
    Goes config i P (fun r t => R r t) p.attempt := by
  refine hp.attempted.mono (fun _ h => h) ?_
  rintro r t ⟨outcome, rfl, h⟩ outcome' houtcome
  cases houtcome
  exact h

theorem Lawful.tryCatch {handler : ControlError → SupervisorM α}
    (hp : Lawful config i P R p) (hok : ∀ a s, R (.ok a) s → R' (.ok a) s)
    (hhandler : ∀ e, Lawful config i (R (.error e)) R' (handler e)) :
    Lawful config i P R' (tryCatch p handler) := by
  intro s hs hP
  refine Contract.verifies_tryCatch.mpr ((hp s hs hP).mono fun r t ht => ?_)
  cases r with
  | ok a => exact ⟨ht.1, hok a t ht.2⟩
  | error e => exact hhandler e t ht.1 ht.2

variable {M : α → SupervisorState → Prop}

/-- One thing after another, where only results matter. -/
theorem Lawful.goes_bind {N : β → SupervisorState → Prop}
    {f : α → SupervisorM β} (hp : Goes config i P M p)
    (hf : ∀ a, Goes config i (M a) N (f a)) : Goes config i P N (p >>= f) :=
  hp.bind (fun _ _ _ _ h => nomatch h) fun a => (hf a).mono (fun _ h => h a rfl) fun _ _ h => h

theorem goes_pure {a : α} (h : ∀ s, P s → M a s) : Goes config i P M (pure a) :=
  lawful_pure fun s hs _ ha => Except.ok.inj ha ▸ h s hs

theorem goes_throw : Goes config i P M (throw e : SupervisorM α) :=
  lawful_throw fun _ _ _ ha => nomatch ha

theorem Lawful.goes
    (h : Lawful config i P R p) (hM : ∀ a s, R (.ok a) s → M a s) : Goes config i P M p :=
  h.mono (fun _ hs => hs) fun _ s hr a ha => hM a s (ha ▸ hr)

variable {f : SupervisorState → SupervisorM β}

/-- Reading a field decides the way, and says nothing else. -/
theorem lawful_get_bind {R : Except ControlError β → SupervisorState → Prop}
    (h : ∀ s, Lawful config i P R (f s)) : Lawful config i P R (Fiber.get >>= f) :=
  fun s hs hP => Contract.verifies_get_bind.mpr (h s s hs hP)

theorem lawful_get_bind_of {R : Except ControlError β → SupervisorState → Prop}
    (h : ∀ s, P s → Lawful config i (fun t => t = s ∧ P t) R (f s)) :
    Lawful config i P R (Fiber.get >>= f) :=
  fun s hs hP => Contract.verifies_get_bind.mpr (h s hP s hs ⟨rfl, hP⟩)

theorem Lawful.ite {c : Prop} [Decidable c] {p q : SupervisorM α} (hp : c → Lawful config i P R p)
    (hq : ¬ c → Lawful config i P R q) : Lawful config i P R (if c then p else q) := by
  split
  · next h => exact hp h
  · next h => exact hq h

theorem lawful_modify {f : SupervisorState → SupervisorState}
    {R : Except ControlError Unit → SupervisorState → Prop}
    (h : ∀ s, Own i s → P s → Orderly s (f s) → Own i (f s) ∧ R (.ok ()) (f s)) :
    Lawful config i P R (Fiber.modify f) := by
  intro s hs hP
  refine Contract.verifies_modify.mpr fun horderly => ⟨fun j hj hbusy => ?_, h s hs hP horderly⟩
  -- no other flow is under way
  rw [hs.busy] at hbusy
  exact absurd (Option.some.inj hbusy).symm hj

theorem lawful_call {c : SupervisorCall} {R : Except ControlError c.Reply → SupervisorState → Prop}
    (h : ∀ s t a, P s → Undisturbed s t → R (.ok a) t) :
    Lawful config i P R (Fiber.call c) := by
  intro s hs hP
  refine Contract.verifies_call.mpr ⟨hs.legal, fun t choice a hrely hinv _ => ?_⟩
  have ht := hrely hs.busy
  exact ⟨⟨ht.busy.trans hs.busy, hinv⟩, h s t a hP ht⟩

/-- An awaited step changes nothing that the flow knows. -/
theorem lawful_step (x : SupervisorStep) :
    Lawful config i (Known S) (fun _ => Known S) (step x) := by
  refine (lawful_call (R := fun _ => Known S) fun s t a hs ht => hs.undisturbed ht).bind
    (fun _ _ h => h) fun answer => ?_
  split
  · exact lawful_pure fun _ h => h
  · exact lawful_throw fun _ h => h

theorem lawful_observe : Lawful config i (Known S) (fun _ => Known S) observe := by
  refine (lawful_call (R := fun _ => Known S) fun s t a hs ht => hs.undisturbed ht).bind
    (fun _ _ h => h) fun answer => ?_
  split
  · exact lawful_pure fun _ h => h
  · exact lawful_throw fun _ h => h

theorem goes_neverBack : Goes config i P M (neverBack : SupervisorM α) :=
  Lawful.bind (R := fun _ _ => True) (lawful_call fun _ _ _ _ _ => trivial)
    (fun _ _ _ _ h => nomatch h) fun nothing => nothing.elim

/-- A call that the supervisor answers itself, where the table allows it. -/
theorem lawful_transition {name : LifecycleStateName}
    (hS : ∀ state, S state → transitionAllowed state name = true) :
    Lawful config i (Known S)
      (fun r t => r = .ok () ∧ At name t) (transition name) := by
  intro s hs hP
  have hallowed := hS _ hP
  have hperform : ∀ c, (ControlCall.transition name).perform c s.world =
      (.ok (), { s.world with currentState := some name }) := by
    intro c
    rw [ControlCall.perform, ControlWorld.transition, if_pos hallowed]
  refine Contract.verifies_bind.mpr (Contract.verifies_get_bind.mpr
    (Contract.verifies_get_bind.mpr (Contract.verifies_bind.mpr
      (Contract.verifies_modify.mpr fun _ => ⟨fun j hj hbusy => ?_, ?_⟩))))
  · rw [hs.busy] at hbusy
    exact absurd (Option.some.inj hbusy).symm hj
  rw [hperform]
  refine ⟨⟨hs.busy, ?_⟩, rfl, rfl⟩
  simp [hs.legal, ControlCall.legal, hallowed]

end Rules

end Supervisor

end BreadboardTui
