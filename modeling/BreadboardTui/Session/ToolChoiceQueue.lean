import BreadboardTui.Lib.Runs
import Mathlib.Tactic

/-!
# The queue of tool choices

Callers push sequences of tool choices; the session serves them to the model one at a time, and
tells the sequence what became of each. A value that was rejected may be queued again, in a
directive of its own with a label of its own.

* `nextToolChoice`, `resolve`, `reject`, `removeByLabel`: the operations. What a callback answers is
  an argument of the operation that calls it.
-/

namespace BreadboardTui.ToolChoice

open List Bool

/-! ### The queue -/

/-- `RejectOutcome`. What is not one of the others drops the value. -/
inductive RejectOutcome where
  | requeue
  | drop
  | dropSequence
  deriving DecidableEq

/-- A directive, with the directive that its values were pushed with: itself, or its
`sequenceRoot`. -/
structure Directive (V : Type) where
  sequence : ℕ
  sequenceLabel : String
  /-- What the generator yields, one value after another. -/
  values : ℕ → Option V
  position : ℕ := 0
  label : String
  /-- There is a handler `onInvoked`. -/
  onInvoked : Bool

structure InFlight (V : Type) where
  directive : Directive V
  yielded : V
  invoked : Bool
  /-- How many values were served before this one. -/
  serial : ℕ

/-- What the callers see. -/
inductive Event (V : Type) where
  | pushed (sequence : ℕ) (label : String) (values : ℕ → Option V)
  | served (serial sequence : ℕ) (value : V)
  | resolved (serial : ℕ)
  | rejected (serial : ℕ) (outcome : RejectOutcome)
  | removed (label : String)

structure ToolChoiceQueue (V : Type) where
  queue : List (Directive V) := []
  inFlight : Option (InFlight V) := none
  lastResolvedLabel : Option String := none
  /-- How many sequences have been pushed, and how many values served. -/
  pushed : ℕ := 0
  served : ℕ := 0
  log : List (Event V) := []

/-- The value that the generator is at. -/
def Directive.current {V : Type} (d : Directive V) : Option V := d.values d.position

def onceGen {V : Type} (choice : V) : ℕ → Option V := fun position =>
  if position = 0 then some choice else none

namespace ToolChoiceQueue

variable {V : Type}

def push (s : ToolChoiceQueue V) (values : ℕ → Option V) (label : String) (onInvoked now : Bool) :
    ToolChoiceQueue V :=
  let directive : Directive V :=
    { sequence := s.pushed, sequenceLabel := label, values := values, label := label,
      onInvoked := onInvoked }
  { s with
    queue := if now then directive :: s.queue else s.queue ++ [directive]
    pushed := s.pushed + 1
    log := s.log ++ [.pushed s.pushed label values] }

/-- The loop of `nextToolChoice`: the first directive with a value left, and what is behind it. -/
def nextLoop : List (Directive V) → Option (V × Directive V × List (Directive V))
  | [] => none
  | head :: rest =>
    match head.current with
    | none => nextLoop rest
    | some value => some (value, head, rest)

def nextToolChoice (s : ToolChoiceQueue V) : ToolChoiceQueue V :=
  match nextLoop s.queue with
  | none => { s with queue := [] }
  | some (value, head, rest) =>
    let directive := { head with position := head.position + 1 }
    { s with
      queue := directive :: rest
      inFlight := some ⟨directive, value, false, s.served⟩
      served := s.served + 1
      log := s.log ++ [.served s.served head.sequence value] }

def reject (s : ToolChoiceQueue V) (outcome : RejectOutcome) : ToolChoiceQueue V :=
  match s.inFlight with
  | none => s
  | some inFlight =>
    let s' := { s with inFlight := none, log := s.log ++ [.rejected inFlight.serial outcome] }
    let directive := inFlight.directive
    match outcome with
    | .dropSequence =>
      { s' with queue := s.queue.filter fun d => d.sequence ≠ directive.sequence }
    | .requeue =>
      { s' with
        queue :=
          { sequence := directive.sequence, sequenceLabel := directive.sequenceLabel,
            values := onceGen inFlight.yielded, label := directive.label ++ "-requeued",
            onInvoked := directive.onInvoked } :: s.queue }
    | .drop => s'

def resolve (s : ToolChoiceQueue V) (outcome : RejectOutcome) : ToolChoiceQueue V :=
  match s.inFlight with
  | none => s
  | some inFlight =>
    if inFlight.directive.onInvoked && !inFlight.invoked then s.reject outcome
    else
      { s with
        inFlight := none
        lastResolvedLabel := some inFlight.directive.label
        log := s.log ++ [.resolved inFlight.serial] }

/-- The handler that `peekInFlightInvoker` returned for a value is called. -/
def invoke (s : ToolChoiceQueue V) (serial : ℕ) : ToolChoiceQueue V :=
  { s with
    inFlight := s.inFlight.map fun inFlight =>
      if inFlight.directive.onInvoked ∧ inFlight.serial = serial then
        { inFlight with invoked := true }
      else inFlight }

def dropLabel (s : ToolChoiceQueue V) (label : String) : ToolChoiceQueue V :=
  { s with queue := s.queue.filter fun d => d.label ≠ label }

def removeByLabel (s : ToolChoiceQueue V) (label : String) (outcome : RejectOutcome) :
    ToolChoiceQueue V :=
  let s' := { s with log := s.log ++ [Event.removed label] }
  if s.inFlight.any fun inFlight => inFlight.directive.label = label then
    (s'.reject outcome).dropLabel label
  else s'.dropLabel label

def clear (s : ToolChoiceQueue V) (outcome : RejectOutcome) : ToolChoiceQueue V :=
  { s.reject outcome with queue := [], lastResolvedLabel := none }

end ToolChoiceQueue

inductive Action (V : Type) where
  | push (values : ℕ → Option V) (label : String) (onInvoked now : Bool)
  | nextToolChoice
  | invoke (serial : ℕ)
  | resolve (outcome : RejectOutcome)
  | reject (outcome : RejectOutcome)
  | removeByLabel (label : String) (outcome : RejectOutcome)
  | clear (outcome : RejectOutcome)

/-- The next value is asked for when nothing is in flight. -/
def step {V : Type} (s : ToolChoiceQueue V) : Action V → Option (ToolChoiceQueue V)
  | .push values label onInvoked now => some (s.push values label onInvoked now)
  | .nextToolChoice => if s.inFlight.isNone then some s.nextToolChoice else none
  | .invoke serial => some (s.invoke serial)
  | .resolve outcome => some (s.resolve outcome)
  | .reject outcome => some (s.reject outcome)
  | .removeByLabel label outcome => some (s.removeByLabel label outcome)
  | .clear outcome => some (s.clear outcome)

/-! ### The course of a sequence -/

inductive Stage where
  /-- The value at an index is the next. If it is a replay, it has a label of its own. -/
  | due (index : ℕ) (replay : Option String)
  /-- The value is in flight, under a label. The sequence may have been removed since. -/
  | serving (index : ℕ) (label : String) (serial : ℕ) (removed : Bool)
  /-- No value is served any more. -/
  | ended

structure Course (V : Type) where
  label : String
  values : ℕ → Option V
  stage : Stage

/-- What a value that is not replayed leaves: the next one, unless the sequence was removed. -/
def Stage.unless (removed : Bool) (stage : Stage) : Stage := if removed then .ended else stage

section Course

variable {V : Type} [DecidableEq V]

/-- The stage after an event that is not the push of the sequence; `none` if the event is not
allowed. -/
def Course.stageAfter (c : Course V) (sequence : ℕ) : Event V → Option Stage
  | .pushed id _ _ => if id = sequence then none else some c.stage
  | .served serial id value =>
    match c.stage with
    | .due index replay =>
      if id ≠ sequence then some (.due index replay)
      else if c.values index = some value then
        some (.serving index (replay.getD c.label) serial false)
      else none
    | .serving .. => none
    | .ended => if id = sequence then none else some .ended
  | .resolved serial =>
    match c.stage with
    | .serving index _ serial' removed =>
      if serial = serial' then some (.unless removed (.due (index + 1) none)) else none
    | stage => some stage
  | .rejected serial outcome =>
    match c.stage with
    | .serving index label serial' removed =>
      if serial ≠ serial' then none
      else match outcome with
        | .requeue => some (.unless removed (.due index (some (label ++ "-requeued"))))
        | .drop => some (.unless removed (.due (index + 1) none))
        | .dropSequence => some .ended
    | stage => some stage
  | .removed label =>
    match c.stage with
    | .due index replay =>
      if label = c.label then some .ended
      else if replay = some label then some (.due (index + 1) none)
      else some (.due index replay)
    | .serving index label' serial removed =>
      some (.serving index label' serial (removed || label = c.label))
    | .ended => some .ended

/-- The course after an event. Before its push a sequence has none. -/
def Course.next (sequence : ℕ) : Option (Course V) → Event V → Option (Option (Course V))
  | none, .pushed id label values =>
    some (if id = sequence then some ⟨label, values, .due 0 none⟩ else none)
  | none, .served _ id _ => if id = sequence then none else some none
  | none, _ => some none
  | some c, event => (c.stageAfter sequence event).map fun stage => some { c with stage := stage }

/-- The course after a log; `none` if the log breaks it. -/
def follow (sequence : ℕ) (log : List (Event V)) : Option (Option (Course V)) :=
  log.foldlM (Course.next sequence) none

end Course

/-- The event that makes an end of a value. -/
def Event.finalizes {V : Type} (serial : ℕ) : Event V → Bool
  | .resolved serial' => serial' = serial
  | .rejected serial' _ => serial' = serial
  | _ => false

/-- Every sequence has kept its course, and every value but the one in flight has been resolved or
rejected, once. -/
structure Faithful {V : Type} [DecidableEq V] (s : ToolChoiceQueue V) : Prop where
  follow_isSome (sequence : ℕ) : (follow sequence s.log).isSome
  finalized (serial : ℕ) (hserved : serial < s.served) : s.log.countP (Event.finalizes serial) =
    if s.inFlight.any fun inFlight => inFlight.serial = serial then 0 else 1

/-- A removal leaves no value of the label behind: none is queued as a replay, none is in flight as
one, and the one in flight is not queued again. -/
def removesAll {V : Type} (s : ToolChoiceQueue V) : Action V → Bool
  | .removeByLabel label outcome =>
    (s.queue.all fun d =>
      decide (d.sequenceLabel = label → d.current.isSome → d.label = label)) &&
      s.inFlight.all fun inFlight => decide (inFlight.directive.sequenceLabel = label →
        inFlight.directive.label = label ∧ outcome ≠ .requeue)
  | _ => true

/-! ### What is left of a sequence -/

section Agenda

variable {V : Type}

/-- The directives of a sequence that have a value left. -/
def agenda (sequence : ℕ) (queue : List (Directive V)) : List (Directive V) :=
  queue.filter fun d => decide (d.sequence = sequence) && d.current.isSome

theorem agenda_append (sequence : ℕ) (queue queue' : List (Directive V)) :
    agenda sequence (queue ++ queue') = agenda sequence queue ++ agenda sequence queue' :=
  filter_append ..

variable {d : Directive V}

theorem agenda_cons_of_ne {sequence : ℕ} (h : d.sequence ≠ sequence)
    (queue : List (Directive V)) : agenda sequence (d :: queue) = agenda sequence queue :=
  filter_cons_of_neg (by simp [h])

theorem agenda_cons_of_none {sequence : ℕ} (h : d.current = none)
    (queue : List (Directive V)) : agenda sequence (d :: queue) = agenda sequence queue :=
  filter_cons_of_neg (by simp [h])

theorem agenda_cons {value : V} (h : d.current = some value) (queue : List (Directive V)) :
    agenda d.sequence (d :: queue) = d :: agenda d.sequence queue :=
  filter_cons_of_pos (by simp [h])

theorem agenda_filter (sequence : ℕ) (p : Directive V → Bool) (queue : List (Directive V)) :
    agenda sequence (queue.filter p) = (agenda sequence queue).filter p := by
  rw [agenda, agenda, filter_filter, filter_filter]
  exact filter_congr fun d _ => Bool.and_comm _ _

/-- The directive is the pushed one, at an index. -/
structure IsOriginal (label : String) (values : ℕ → Option V) (index : ℕ) (d : Directive V) :
    Prop where
  values_eq : d.values = values
  position_eq : d.position = index
  label_eq : d.label = label
  sequenceLabel_eq : d.sequenceLabel = label

/-- Nothing is left, or the pushed directive is, at an index. -/
def IsTail (label : String) (values : ℕ → Option V) (index : ℕ) (ds : List (Directive V)) : Prop :=
  ds = [] ∨ ∃ d, ds = [d] ∧ IsOriginal label values index d

/-- The directive is the replay of the value at an index. -/
structure IsReplay (label : String) (values : ℕ → Option V) (index : ℕ) (replay : String)
    (d : Directive V) : Prop where
  values_eq : ∃ value, values index = some value ∧ d.values = onceGen value
  position_eq : d.position = 0
  label_eq : d.label = replay
  sequenceLabel_eq : d.sequenceLabel = label

/-- What is queued of a sequence at a stage, and if it is in flight. A label is under removal while
its value in flight is still to be rejected. -/
def Matches (sequence : ℕ) (removing : Option String) (c : Course V) (s : ToolChoiceQueue V) : Prop :=
  match c.stage with
  | .due index none => (∀ f ∈ s.inFlight, f.directive.sequence ≠ sequence) ∧
      IsTail c.label c.values index (agenda sequence s.queue)
  | .due index (some label) => (∀ f ∈ s.inFlight, f.directive.sequence ≠ sequence) ∧
      (agenda sequence s.queue = [] ∨ ∃ d ds, agenda sequence s.queue = d :: ds ∧
        IsReplay c.label c.values index label d ∧ IsTail c.label c.values (index + 1) ds)
  | .serving index label serial removed => ∃ f ∈ s.inFlight, f.directive.sequence = sequence ∧
      f.serial = serial ∧ f.directive.label = label ∧ f.directive.sequenceLabel = c.label ∧
      c.values index = some f.yielded ∧ IsTail c.label c.values (index + 1) (agenda sequence s.queue) ∧
      (removed = true → agenda sequence s.queue = [] ∧ removing = some c.label)
  | .ended => (∀ f ∈ s.inFlight, f.directive.sequence ≠ sequence) ∧ agenda sequence s.queue = []

/-- The state goes with the course of a sequence. -/
def Holds (sequence : ℕ) (removing : Option String) (s : ToolChoiceQueue V) :
    Option (Course V) → Prop
  | none => s.pushed ≤ sequence ∧ (∀ f ∈ s.inFlight, f.directive.sequence ≠ sequence) ∧
      agenda sequence s.queue = []
  | some c => sequence < s.pushed ∧ Matches sequence removing c s

end Agenda

/-! ### Steps -/

section Steps

variable {V : Type} {s : ToolChoiceQueue V} {sequence : ℕ}
  {course : Option (Course V)} {removing : Option String}

variable {label : String} {index : ℕ}

theorem isTail_filter {values : ℕ → Option V}
    {ds : List (Directive V)} (h : IsTail label values index ds) (p : Directive V → Bool) :
    IsTail label values index (ds.filter p) := by
  rcases h with rfl | ⟨d, rfl, horiginal⟩
  · exact .inl rfl
  by_cases hd : p d = true
  · exact .inr ⟨d, filter_cons_of_pos hd, horiginal⟩
  · exact .inl (filter_cons_of_neg hd)

theorem Holds.cleared (h : Holds sequence none s course) (hnone : s.inFlight = none) :
    Holds sequence none { s with queue := [], lastResolvedLabel := none } course := by
  cases course with
  | none => exact ⟨h.1, h.2.1, rfl⟩
  | some =>
    obtain ⟨hpushed, hmatches⟩ := h
    refine ⟨hpushed, ?_⟩
    rw [Matches] at hmatches ⊢
    split at hmatches
    · exact ⟨hmatches.1, .inl rfl⟩
    · exact ⟨hmatches.1, .inl rfl⟩
    · obtain ⟨f, hf, -⟩ := hmatches
      rw [hnone] at hf
      cases hf
    · exact ⟨hmatches.1, rfl⟩

/-- The sequence has a value in flight. -/
def Stage.IsServing : Stage → Prop
  | .serving .. => True
  | _ => False

/-- A sequence that is not in flight stays as it is when other sequences change. -/
theorem Holds.other (h : Holds sequence removing s course)
    (hflight : ∀ f ∈ s.inFlight, f.directive.sequence ≠ sequence) (s' : ToolChoiceQueue V)
    (hflight' : ∀ f ∈ s'.inFlight, f.directive.sequence ≠ sequence)
    (hagenda : agenda sequence s'.queue = agenda sequence s.queue) (hpushed : s'.pushed = s.pushed) :
    Holds sequence none s' course ∧ ∀ c ∈ course, ¬ c.stage.IsServing := by
  cases course with
  | none => exact ⟨⟨hpushed ▸ h.1, hflight', hagenda.trans h.2.2⟩, fun c hc => by cases hc⟩
  | some c =>
    obtain ⟨hlt, hmatches⟩ := h
    rw [Holds, Matches, hagenda]
    rw [Matches] at hmatches
    have hserving (hc : ¬ c.stage.IsServing) : ∀ c' ∈ some c, ¬ c'.stage.IsServing := by
      intro c' hc'
      rw [Option.mem_def, Option.some_inj] at hc'
      rwa [← hc']
    split at hmatches
    · next hstage => exact ⟨⟨hpushed ▸ hlt, hflight', hmatches.2⟩, hserving (by rw [hstage]; exact id)⟩
    · next hstage => exact ⟨⟨hpushed ▸ hlt, hflight', hmatches.2⟩, hserving (by rw [hstage]; exact id)⟩
    · obtain ⟨f, hf, hsequence, -⟩ := hmatches
      exact absurd hsequence (hflight f hf)
    · next hstage => exact ⟨⟨hpushed ▸ hlt, hflight', hmatches.2⟩, hserving (by rw [hstage]; exact id)⟩

/-- The end of a value of another sequence is none of the sequence's events. -/
theorem next_of_not_serving [DecidableEq V] {event : Event V}
    (hevent : (∃ serial, event = .resolved serial) ∨
      ∃ serial outcome, event = .rejected serial outcome)
    (h : ∀ c ∈ course, ¬ c.stage.IsServing) : Course.next sequence course event = some course := by
  cases course with
  | none => rcases hevent with ⟨serial, rfl⟩ | ⟨serial, outcome, rfl⟩ <;> rfl
  | some c =>
    have hstage := h c rfl
    obtain ⟨label, values, stage⟩ := c
    cases stage with
    | serving => exact absurd trivial hstage
    | due | ended => rcases hevent with ⟨serial, rfl⟩ | ⟨serial, outcome, rfl⟩ <;> rfl

theorem holds_push [DecidableEq V] (h : Holds sequence none s course) (values : ℕ → Option V)
    (label : String)
    (onInvoked now : Bool) :
    ∃ course', Course.next sequence course (.pushed s.pushed label values) = some course' ∧
      Holds sequence none (s.push values label onInvoked now) course' := by
  by_cases hid : s.pushed = sequence
  · -- The sequence is this one.
    cases course with
    | some => exact absurd h.1 (by omega)
    | none =>
      obtain ⟨-, hflight, hagenda⟩ := h
      refine ⟨_, congrArg some (if_pos hid), hid ▸ Nat.lt_succ_self _, hflight, ?_⟩
      subst hid
      let d : Directive V :=
        { sequence := s.pushed, sequenceLabel := label, values := values, label := label,
          onInvoked := onInvoked }
      have hone : agenda s.pushed (s.push values label onInvoked now).queue =
          agenda s.pushed [d] := by
        rw [ToolChoiceQueue.push]
        cases now
        · rw [if_neg Bool.false_ne_true, agenda_append, hagenda, nil_append]
        · rw [if_pos rfl, ← singleton_append, agenda_append, hagenda, append_nil]
      rw [hone]
      cases hcurrent : d.current with
      | none => exact .inl (agenda_cons_of_none hcurrent [])
      | some => exact .inr ⟨d, agenda_cons hcurrent [], rfl, rfl, rfl, rfl⟩
  -- The sequence is another one.
  have hagenda : agenda sequence (s.push values label onInvoked now).queue =
      agenda sequence s.queue := by
    rw [ToolChoiceQueue.push]
    cases now
    · rw [if_neg Bool.false_ne_true, agenda_append, agenda_cons_of_ne hid]
      exact append_nil _
    · rw [if_pos rfl, agenda_cons_of_ne hid]
  cases course with
  | none =>
    refine ⟨none, congrArg some (if_neg hid), ?_, h.2.1, hagenda.trans h.2.2⟩
    have hle := h.1
    show s.pushed + 1 ≤ sequence
    omega
  | some c =>
    refine ⟨some c, ?_, Nat.lt_succ_of_lt h.1, ?_⟩
    · rw [Course.next, Course.stageAfter, if_neg hid]
      rfl
    have hmatches := h.2
    rw [Matches] at hmatches ⊢
    rwa [hagenda]

variable {head : Directive V} {queue rest : List (Directive V)}

theorem nextLoop_agenda {value : V}
    (h : ToolChoiceQueue.nextLoop queue = some (value, head, rest)) (sequence : ℕ) :
    head.current = some value ∧ agenda sequence queue = agenda sequence (head :: rest) := by
  induction queue with
  | nil => cases h
  | cons d queue ih =>
    rw [ToolChoiceQueue.nextLoop] at h
    split at h
    · next hnone =>
      obtain ⟨hcurrent, hagenda⟩ := ih h
      exact ⟨hcurrent, (agenda_cons_of_none hnone queue).trans hagenda⟩
    next hsome =>
    obtain ⟨rfl, rfl, rfl⟩ : _ ∧ _ ∧ _ := by simpa using h
    exact ⟨hsome, rfl⟩

theorem holds_next [DecidableEq V] (h : Holds sequence none s course) (hnone : s.inFlight = none)
    {value : V}
    (hloop : ToolChoiceQueue.nextLoop s.queue = some (value, head, rest)) :
    ∃ course', Course.next sequence course (.served s.served head.sequence value) = some course' ∧
      Holds sequence none s.nextToolChoice course' := by
  obtain ⟨hcurrent, hagenda⟩ := nextLoop_agenda hloop sequence
  have hnext : s.nextToolChoice = { s with
      queue := { head with position := head.position + 1 } :: rest
      inFlight := some ⟨{ head with position := head.position + 1 }, value, false, s.served⟩
      served := s.served + 1
      log := s.log ++ [.served s.served head.sequence value] } := by
    rw [ToolChoiceQueue.nextToolChoice, hloop]
  by_cases hsequence : head.sequence = sequence
  · subst hsequence
    rw [agenda_cons hcurrent] at hagenda
    cases course with
    | none =>
      rw [h.2.2] at hagenda
      cases hagenda
    | some c =>
      obtain ⟨hpushed, hmatches⟩ := h
      -- The tail of the agenda is what is left when the value is served.
      have hserving {index : ℕ} {label : String} (hvalue : c.values index = some value)
          (hlabel : head.label = label) (hroot : head.sequenceLabel = c.label)
          (htail : IsTail c.label c.values (index + 1)
            (agenda head.sequence ({ head with position := head.position + 1 } :: rest))) :
          Holds head.sequence none s.nextToolChoice
            (some { c with stage := .serving index label s.served false }) := by
        rw [hnext]
        exact ⟨hpushed, _, rfl, rfl, rfl, hlabel, hroot, hvalue, htail, nofun⟩
      rw [Matches] at hmatches
      rw [Course.next, Course.stageAfter]
      split at hmatches
      · next index hstage =>
        rw [hagenda] at hmatches
        obtain ⟨-, hnil | ⟨d, hd, horiginal⟩⟩ := hmatches
        · cases hnil
        obtain ⟨rfl, hrest⟩ := List.cons.inj hd
        have hvalue : c.values index = some value := by
          rw [← hcurrent, Directive.current, horiginal.values_eq, horiginal.position_eq]
        rw [hstage]
        dsimp only
        rw [if_neg (not_not.mpr rfl), if_pos hvalue]
        refine ⟨_, rfl, hserving hvalue horiginal.label_eq horiginal.sequenceLabel_eq ?_⟩
        let d' : Directive V := { head with position := head.position + 1 }
        cases hcurrent' : d'.current with
        | none => exact .inl ((agenda_cons_of_none hcurrent' rest).trans hrest)
        | some =>
          refine .inr ⟨d', ?_, horiginal.values_eq, ?_, horiginal.label_eq,
            horiginal.sequenceLabel_eq⟩
          · have hcons := agenda_cons hcurrent' rest
            rw [hcons]
            exact congrArg (d' :: ·) hrest
          · exact congrArg (· + 1) horiginal.position_eq
      · next hstage =>
        rw [hagenda] at hmatches
        obtain ⟨-, hnil | ⟨d, ds, hd, hreplay, htail⟩⟩ := hmatches
        · cases hnil
        obtain ⟨rfl, hrest⟩ := List.cons.inj hd
        obtain ⟨value', hvalue', honce⟩ := hreplay.values_eq
        have hsame : value' = value := by
          have hfirst := hcurrent
          rw [Directive.current, honce, hreplay.position_eq] at hfirst
          exact Option.some.inj hfirst
        subst hsame
        rw [hstage]
        dsimp only
        rw [if_neg (not_not.mpr rfl), if_pos hvalue']
        refine ⟨_, rfl, hserving hvalue' hreplay.label_eq hreplay.sequenceLabel_eq ?_⟩
        rw [agenda_cons_of_none, hrest]
        · exact htail
        rw [Directive.current, honce, hreplay.position_eq]
        rfl
      · obtain ⟨f, hf, -⟩ := hmatches
        rw [hnone] at hf
        cases hf
      rw [hmatches.2] at hagenda
      cases hagenda
  have hother : agenda sequence s.nextToolChoice.queue = agenda sequence s.queue := by
    rw [hnext, hagenda, agenda_cons_of_ne hsequence, agenda_cons_of_ne (by exact hsequence)]
  have hflight : ∀ f ∈ s.nextToolChoice.inFlight, f.directive.sequence ≠ sequence := by
    rw [hnext]
    rintro f ⟨⟩
    exact hsequence
  have hflight₀ : ∀ f ∈ s.inFlight, f.directive.sequence ≠ sequence := by
    rw [hnone]
    rintro f ⟨⟩
  obtain ⟨hholds, hserving⟩ := h.other hflight₀ s.nextToolChoice hflight hother (by rw [hnext])
  refine ⟨course, ?_, hholds⟩
  cases course with
  | none => exact if_neg hsequence
  | some c =>
    have hstage := hserving c rfl
    obtain ⟨label, values, stage⟩ := c
    cases stage with
    | serving => exact absurd trivial hstage
    | due =>
      rw [Course.next, Course.stageAfter]
      dsimp only
      rw [if_pos hsequence]
      rfl
    | ended =>
      rw [Course.next, Course.stageAfter]
      rw [if_neg hsequence]
      rfl

variable {f : InFlight V}

theorem Holds.serving (h : Holds sequence removing s course)
    (hf : s.inFlight = some f) (hsequence : f.directive.sequence = sequence) :
    ∃ c index removed, course = some c ∧ sequence < s.pushed ∧
      c.stage = .serving index f.directive.label f.serial removed ∧
      f.directive.sequenceLabel = c.label ∧ c.values index = some f.yielded ∧
      IsTail c.label c.values (index + 1) (agenda sequence s.queue) ∧
      (removed = true → agenda sequence s.queue = [] ∧ removing = some c.label) := by
  cases course with
  | none => exact absurd hsequence (h.2.1 f hf)
  | some c =>
    obtain ⟨hpushed, hmatches⟩ := h
    rw [Matches] at hmatches
    split at hmatches
    · exact absurd hsequence (hmatches.1 f hf)
    · exact absurd hsequence (hmatches.1 f hf)
    · next index label serial removed hstage =>
      obtain ⟨f', hf', -, hserial, hlabel, hroot, hvalue, htail, hremoved⟩ := hmatches
      rw [hf, Option.mem_def, Option.some_inj] at hf'
      subst hf'
      subst hserial hlabel
      exact ⟨c, index, removed, rfl, hpushed, hstage, hroot, hvalue, htail, hremoved⟩
    · exact absurd hsequence (hmatches.1 f hf)

/-- What a value leaves that is not replayed. -/
theorem holds_unless {c : Course V} {removed : Bool} (hpushed : sequence < s.pushed)
    (hnone : s.inFlight = none) (htail : IsTail c.label c.values index (agenda sequence s.queue))
    (hremoved : removed = true → agenda sequence s.queue = []) :
    Holds sequence none s (some { c with stage := .unless removed (.due index none) }) := by
  have hflight : ∀ f ∈ s.inFlight, f.directive.sequence ≠ sequence := by
    rw [hnone]
    intro f hf
    cases hf
  cases removed
  · exact ⟨hpushed, hflight, htail⟩
  · exact ⟨hpushed, hflight, hremoved rfl⟩

theorem holds_resolved [DecidableEq V] (h : Holds sequence none s course)
    (hf : s.inFlight = some f) (label : Option String) :
    ∃ course', Course.next sequence course (.resolved f.serial) = some course' ∧
      Holds sequence none { s with
        inFlight := none
        lastResolvedLabel := label
        log := s.log ++ [.resolved f.serial] } course' := by
  by_cases hsequence : f.directive.sequence = sequence
  · obtain ⟨c, index, removed, rfl, hpushed, hstage, -, -, htail, hremoved⟩ :=
      h.serving hf hsequence
    rw [Course.next, Course.stageAfter, hstage]
    dsimp only
    rw [if_pos rfl]
    exact ⟨_, rfl, holds_unless hpushed rfl htail fun hr => (hremoved hr).1⟩
  have hflight : ∀ f' ∈ s.inFlight, f'.directive.sequence ≠ sequence := by
    intro f' hf'
    rw [hf, Option.mem_def, Option.some_inj] at hf'
    rwa [← hf']
  obtain ⟨hholds, hserving⟩ := h.other hflight ({ s with
    inFlight := none
    lastResolvedLabel := label
    log := s.log ++ [.resolved f.serial] }) (fun f' hf' => by cases hf') rfl rfl
  exact ⟨course, next_of_not_serving (.inl ⟨_, rfl⟩) hserving, hholds⟩

theorem mem_agenda {d : Directive V} (h : d ∈ agenda sequence queue) : d.sequence = sequence := by
  have hd := (mem_filter.mp h).2
  simp only [Bool.and_eq_true, decide_eq_true_eq] at hd
  exact hd.1

/-- A sequence that is under removal must not be queued again. -/
theorem holds_reject [DecidableEq V] (h : Holds sequence removing s course)
    (hf : s.inFlight = some f) (outcome : RejectOutcome)
    (houtcome : outcome = .requeue → removing ≠ some f.directive.sequenceLabel) :
    ∃ course', Course.next sequence course (.rejected f.serial outcome) = some course' ∧
      Holds sequence none (s.reject outcome) course' := by
  rw [ToolChoiceQueue.reject, hf]
  by_cases hsequence : f.directive.sequence = sequence
  · obtain ⟨c, index, removed, rfl, hpushed, hstage, hroot, hvalue, htail, hremoved⟩ :=
      h.serving hf hsequence
    rw [Course.next, Course.stageAfter, hstage]
    dsimp only
    rw [if_neg (not_not.mpr rfl)]
    cases outcome with
    | drop => exact ⟨_, rfl, holds_unless hpushed rfl htail fun hr => (hremoved hr).1⟩
    | dropSequence =>
      refine ⟨_, rfl, hpushed, ?_⟩
      refine ⟨fun f' hf' => absurd hf' (Option.not_mem_none f'), ?_⟩
      rw [agenda_filter, filter_eq_nil_iff]
      intro d hd
      simp [mem_agenda hd, hsequence]
    | requeue =>
      have hkept : removed = false := by
        rw [← not_eq_true]
        intro hr
        exact houtcome rfl (hroot ▸ (hremoved hr).2)
      subst hkept
      refine ⟨_, rfl, hpushed, ?_⟩
      refine ⟨fun f' hf' => absurd hf' (Option.not_mem_none f'), ?_⟩
      let d : Directive V :=
        { sequence := f.directive.sequence, sequenceLabel := f.directive.sequenceLabel,
          values := onceGen f.yielded, label := f.directive.label ++ "-requeued",
          onInvoked := f.directive.onInvoked }
      refine .inr ⟨d, agenda sequence s.queue, ?_, ⟨⟨_, hvalue, rfl⟩, rfl, rfl, hroot⟩, htail⟩
      subst hsequence
      exact agenda_cons (show d.current = some f.yielded from rfl) s.queue
  have hflight : ∀ f' ∈ s.inFlight, f'.directive.sequence ≠ sequence := by
    intro f' hf'
    rw [hf, Option.mem_def, Option.some_inj] at hf'
    rwa [← hf']
  have hother {s' : ToolChoiceQueue V} (hnone : s'.inFlight = none)
      (hagenda : agenda sequence s'.queue = agenda sequence s.queue)
      (hpushed : s'.pushed = s.pushed) :
      ∃ course', Course.next sequence course (.rejected f.serial outcome) = some course' ∧
        Holds sequence none s' course' := by
    obtain ⟨hholds, hserving⟩ := h.other hflight s'
      (fun f' hf' => by rw [hnone] at hf'; cases hf') hagenda hpushed
    exact ⟨course, next_of_not_serving (.inr ⟨_, _, rfl⟩) hserving, hholds⟩
  cases outcome with
  | drop => exact hother rfl rfl rfl
  | dropSequence =>
    refine hother rfl ?_ rfl
    rw [agenda_filter, filter_eq_self]
    intro d hd
    simpa [mem_agenda hd] using Ne.symm hsequence
  | requeue =>
    refine hother rfl ?_ rfl
    exact agenda_cons_of_ne (by exact hsequence) s.queue

/-- The directives of a label are gone. A value of it that is in flight is still to be rejected. -/
theorem holds_dropLabel [DecidableEq V] (h : Holds sequence none s course)
    (hqueue : ∀ d ∈ s.queue, d.sequenceLabel = label → d.current.isSome → d.label = label) :
    ∃ course', Course.next sequence course (.removed label) = some course' ∧
      Holds sequence (some label)
        ({ s with log := s.log ++ [Event.removed label] }.dropLabel label) course' := by
  have hagenda :
      agenda sequence ({ s with log := s.log ++ [Event.removed label] }.dropLabel label).queue =
        (agenda sequence s.queue).filter fun d => d.label ≠ label := agenda_filter ..
  -- Of the sequences of the label nothing is left.
  have hgone {c : Course V} {ds : List (Directive V)} (hds : ∀ d ∈ ds, d ∈ agenda sequence s.queue)
      (hroot : ∀ d ∈ ds, d.sequenceLabel = c.label) (hlabel : label = c.label) :
      ds.filter (fun d => decide (d.label ≠ label)) = [] := by
    rw [filter_eq_nil_iff]
    intro d hd
    obtain ⟨hmem, hcurrent⟩ := mem_filter.mp (hds d hd)
    simp only [Bool.and_eq_true, decide_eq_true_eq] at hcurrent
    simpa using hqueue d hmem ((hroot d hd).trans hlabel.symm) hcurrent.2
  have htailRoot {c : Course V} {index : ℕ} {ds : List (Directive V)}
      (htail : IsTail c.label c.values index ds) :
      ∀ d ∈ ds, d.sequenceLabel = c.label := by
    rcases htail with rfl | ⟨d, rfl, horiginal⟩
    · exact fun d hd => absurd hd not_mem_nil
    intro d' hd'
    rw [mem_singleton.mp hd']
    exact horiginal.sequenceLabel_eq
  cases course with
  | none =>
    refine ⟨none, rfl, h.1, h.2.1, hagenda.trans ?_⟩
    rw [h.2.2]
    rfl
  | some c =>
    obtain ⟨hpushed, hmatches⟩ := h
    rw [Matches] at hmatches
    rw [Course.next, Course.stageAfter]
    split at hmatches
    · next hstage =>
      obtain ⟨hflight, htail⟩ := hmatches
      rw [hstage]
      dsimp only
      by_cases hlabel : label = c.label
      · rw [if_pos hlabel]
        exact ⟨_, rfl, hpushed, hflight,
          hagenda.trans (hgone (fun d hd => hd) (htailRoot htail) hlabel)⟩
      rw [if_neg hlabel, if_neg (by simp)]
      refine ⟨_, rfl, hpushed, hflight, ?_⟩
      rw [hagenda]
      exact isTail_filter htail _
    · next replay hstage =>
      obtain ⟨hflight, hds⟩ := hmatches
      rw [hstage]
      dsimp only
      by_cases hlabel : label = c.label
      · rw [if_pos hlabel]
        refine ⟨_, rfl, hpushed, hflight, hagenda.trans (hgone (fun d hd => hd) ?_ hlabel)⟩
        rcases hds with hnil | ⟨d, ds, hcons, hreplay, htail⟩
        · rw [hnil]
          exact fun d hd => absurd hd not_mem_nil
        rw [hcons]
        intro d' hd'
        rcases mem_cons.mp hd' with rfl | hd'
        · exact hreplay.sequenceLabel_eq
        · exact htailRoot htail d' hd'
      rw [if_neg hlabel]
      by_cases hreplayLabel : replay = label
      · rw [if_pos (congrArg some hreplayLabel)]
        refine ⟨_, rfl, hpushed, hflight, ?_⟩
        rw [hagenda]
        rcases hds with hnil | ⟨d, ds, hcons, hreplay, htail⟩
        · rw [hnil]
          exact .inl rfl
        rw [hcons, filter_cons_of_neg (by simp [hreplay.label_eq, hreplayLabel])]
        exact isTail_filter htail _
      rw [if_neg (fun heq => hreplayLabel (Option.some.inj heq))]
      refine ⟨_, rfl, hpushed, hflight, ?_⟩
      rw [hagenda]
      rcases hds with hnil | ⟨d, ds, hcons, hreplay, htail⟩
      · rw [hnil]
        exact .inl rfl
      rw [hcons, filter_cons_of_pos (by simp [hreplay.label_eq, hreplayLabel])]
      exact .inr ⟨_, _, rfl, hreplay, isTail_filter htail _⟩
    · next hstage =>
      obtain ⟨f, hf, hsequence, hserial, hflightLabel, hroot, hvalue, htail, hremoved⟩ := hmatches
      rw [hstage]
      refine ⟨_, rfl, hpushed, f, hf, hsequence, hserial, hflightLabel, hroot, hvalue, ?_, ?_⟩
      · rw [hagenda]
        exact isTail_filter htail _
      intro hboth
      rw [or_eq_true, decide_eq_true_eq] at hboth
      rcases hboth with hr | hlabel
      · cases (hremoved hr).2
      exact ⟨hagenda.trans (hgone (fun d hd => hd) (htailRoot htail) hlabel),
        congrArg some hlabel⟩
    next hstage =>
    rw [hstage]
    refine ⟨_, rfl, hpushed, hmatches.1, hagenda.trans ?_⟩
    rw [hmatches.2]
    rfl

/-! ### Runs -/

/-- Removing a label commutes with a rejection, whose replay has another label. -/
theorem dropLabel_reject (s : ToolChoiceQueue V) (hf : s.inFlight = some f)
    (hlabel : f.directive.label = label) (outcome : RejectOutcome) :
    (s.reject outcome).dropLabel label = (s.dropLabel label).reject outcome := by
  rw [ToolChoiceQueue.reject, ToolChoiceQueue.reject, hf,
    show (s.dropLabel label).inFlight = some f from hf]
  cases outcome with
  | drop => rfl
  | dropSequence =>
    rw [ToolChoiceQueue.dropLabel, ToolChoiceQueue.dropLabel]
    dsimp only
    rw [filter_filter, filter_filter]
    congr 1
    exact filter_congr fun d _ => Bool.and_comm _ _
  | requeue =>
    have hne : f.directive.label ++ "-requeued" ≠ label := by
      intro heq
      have hlength := congrArg String.length (heq.trans hlabel.symm)
      rw [String.length_append] at hlength
      have hsuffix : "-requeued".length = 9 := by decide
      omega
    rw [ToolChoiceQueue.dropLabel, ToolChoiceQueue.dropLabel]
    rw [filter_cons_of_pos (by simpa using hne)]

/-- All of what a step adds to the log is allowed. -/
def Goes [DecidableEq V] (s s' : ToolChoiceQueue V) : Prop :=
  ∃ events, s'.log = s.log ++ events ∧ ∀ sequence course, Holds sequence none s course →
    ∃ course', events.foldlM (Course.next sequence) course = some course' ∧
      Holds sequence none s' course'

variable {s' : ToolChoiceQueue V}

theorem goes_one [DecidableEq V] (event : Event V)
    (hlog : s'.log = s.log ++ [event]) (h : ∀ sequence course, Holds sequence none s course →
      ∃ course', Course.next sequence course event = some course' ∧
        Holds sequence none s' course') : Goes s s' := by
  refine ⟨[event], hlog, fun sequence course hholds => ?_⟩
  obtain ⟨course', hnext, hholds'⟩ := h sequence course hholds
  refine ⟨course', ?_, hholds'⟩
  rw [foldlM_cons, hnext]
  rfl

theorem goes_of_same [DecidableEq V] (hlog : s'.log = s.log)
    (h : ∀ sequence course, Holds sequence none s course → Holds sequence none s' course) :
    Goes s s' :=
  ⟨[], hlog.trans (append_nil _).symm, fun sequence course hholds =>
    ⟨course, rfl, h sequence course hholds⟩⟩

theorem goes_reject [DecidableEq V] (s : ToolChoiceQueue V) (outcome : RejectOutcome) :
    Goes s (s.reject outcome) := by
  cases hf : s.inFlight with
  | none =>
    have hsame : s.reject outcome = s := by
      rw [ToolChoiceQueue.reject, hf]
    rw [hsame]
    exact goes_of_same rfl fun _ _ h => h
  | some f =>
    refine goes_one (.rejected f.serial outcome) ?_ fun sequence course h =>
      holds_reject h hf outcome fun _ heq => by cases heq
    rw [ToolChoiceQueue.reject, hf]
    cases outcome <;> rfl

theorem goes_resolve [DecidableEq V] (s : ToolChoiceQueue V) (outcome : RejectOutcome) :
    Goes s (s.resolve outcome) := by
  rw [ToolChoiceQueue.resolve]
  split
  · exact goes_of_same rfl fun _ _ h => h
  next hf =>
  split
  · exact goes_reject s outcome
  · exact goes_one _ rfl fun sequence course h => holds_resolved h hf _

theorem goes_next [DecidableEq V] (hnone : s.inFlight = none) : Goes s s.nextToolChoice := by
  cases hloop : ToolChoiceQueue.nextLoop s.queue with
  | none =>
    have hnext : s.nextToolChoice = { s with queue := [] } := by
      rw [ToolChoiceQueue.nextToolChoice, hloop]
    rw [hnext]
    exact goes_of_same rfl fun sequence course h => h.cleared hnone
  | some parts =>
    obtain ⟨value, head, rest⟩ := parts
    refine goes_one (.served s.served head.sequence value) ?_ fun sequence course h =>
      holds_next h hnone hloop
    rw [ToolChoiceQueue.nextToolChoice, hloop]

theorem goes_removeByLabel [DecidableEq V]
    {outcome : RejectOutcome} (hok : removesAll s (.removeByLabel label outcome) = true) :
    Goes s (s.removeByLabel label outcome) := by
  rw [removesAll, Bool.and_eq_true, all_eq_true] at hok
  have hqueue : ∀ d ∈ s.queue, d.sequenceLabel = label → d.current.isSome → d.label = label :=
    fun d hd => of_decide_eq_true (hok.1 d hd)
  rw [ToolChoiceQueue.removeByLabel]
  split
  · next hany =>
    obtain ⟨f, hf, hlabel⟩ : ∃ f, s.inFlight = some f ∧ f.directive.label = label := by
      cases hf : s.inFlight with
      | none =>
        rw [hf] at hany
        cases hany
      | some f =>
        rw [hf, Option.any_some, decide_eq_true_eq] at hany
        exact ⟨f, rfl, hany⟩
    have hflight := hok.2
    rw [hf, Option.all_some, decide_eq_true_eq] at hflight
    rw [dropLabel_reject { s with log := s.log ++ [Event.removed label] } hf hlabel]
    refine ⟨[.removed label, .rejected f.serial outcome], ?_, fun sequence course h => ?_⟩
    · rw [ToolChoiceQueue.reject, show (ToolChoiceQueue.dropLabel
        { s with log := s.log ++ [Event.removed label] } label).inFlight = some f from hf]
      cases outcome <;> exact append_assoc ..
    obtain ⟨course', hnext, hholds⟩ := holds_dropLabel h hqueue
    obtain ⟨course'', hnext', hholds'⟩ := holds_reject hholds (show _ = some f from hf)
      outcome fun hrequeue heq =>
        (hflight (Option.some.inj heq).symm).2 hrequeue
    refine ⟨course'', ?_, hholds'⟩
    rw [foldlM_cons, hnext]
    show List.foldlM _ _ _ = _
    rw [foldlM_cons, hnext']
    rfl
  next hany =>
  refine goes_one _ rfl fun sequence course h => ?_
  obtain ⟨course', hnext, hholds⟩ := holds_dropLabel h hqueue
  refine ⟨course', hnext, ?_⟩
  cases course' with
  | none => exact hholds
  | some =>
    obtain ⟨hpushed, hmatches⟩ := hholds
    refine ⟨hpushed, ?_⟩
    rw [Matches] at hmatches ⊢
    split at hmatches
    · exact hmatches
    · exact hmatches
    · next removed hstage =>
      obtain ⟨f, hf, hsequence, hserial, hlabel, hroot, hvalue, htail, hremoved⟩ := hmatches
      refine ⟨f, hf, hsequence, hserial, hlabel, hroot, hvalue, htail, fun hr => ?_⟩
      -- It is in flight under another label, and has not been removed.
      have hflight := hok.2
      rw [show s.inFlight = some f from hf, Option.all_some, decide_eq_true_eq] at hflight
      have hroot' := hroot.trans (Option.some.inj (hremoved hr).2).symm
      refine absurd ?_ hany
      rw [show s.inFlight = some f from hf, Option.any_some, decide_eq_true_eq]
      exact (hflight hroot').1
    · exact hmatches

theorem goes_clear [DecidableEq V] (s : ToolChoiceQueue V) (outcome : RejectOutcome) :
    Goes s (s.clear outcome) := by
  obtain ⟨events, hlog, hgoes⟩ := goes_reject s outcome
  refine ⟨events, hlog, fun sequence course h => ?_⟩
  obtain ⟨course', hfold, hholds⟩ := hgoes sequence course h
  refine ⟨course', hfold, hholds.cleared ?_⟩
  rw [ToolChoiceQueue.reject]
  split
  · next hnone => exact hnone
  · cases outcome <;> rfl

theorem goes_invoke [DecidableEq V] (s : ToolChoiceQueue V) (serial : ℕ) :
    Goes s (s.invoke serial) := by
  refine goes_of_same rfl fun sequence course h => ?_
  have hflight (P : Directive V → ℕ → V → Prop) :
      (∃ f ∈ (s.invoke serial).inFlight, P f.directive f.serial f.yielded) ↔
        ∃ f ∈ s.inFlight, P f.directive f.serial f.yielded := by
    rw [ToolChoiceQueue.invoke]
    cases s.inFlight with
    | none => exact Iff.rfl
    | some =>
      rw [Option.map_some]
      simp only [Option.mem_def, Option.some_inj, exists_eq_left']
      split <;> exact Iff.rfl
  have hother : (∀ f ∈ s.inFlight, f.directive.sequence ≠ sequence) →
      ∀ f ∈ (s.invoke serial).inFlight, f.directive.sequence ≠ sequence := by
    intro hall f hf heq
    obtain ⟨f', hf', heq'⟩ := (hflight fun d _ _ => d.sequence = sequence).mp ⟨f, hf, heq⟩
    exact hall f' hf' heq'
  cases course with
  | none => exact ⟨h.1, hother h.2.1, h.2.2⟩
  | some c =>
    obtain ⟨hpushed, hmatches⟩ := h
    refine ⟨hpushed, ?_⟩
    rw [Matches] at hmatches ⊢
    split at hmatches
    · exact ⟨hother hmatches.1, hmatches.2⟩
    · exact ⟨hother hmatches.1, hmatches.2⟩
    · next index label serial' removed hstage =>
      exact (hflight fun d n v => d.sequence = sequence ∧ n = serial' ∧ d.label = label ∧
        d.sequenceLabel = c.label ∧ c.values index = some v ∧
        IsTail c.label c.values (index + 1) (agenda sequence s.queue) ∧
        (removed = true → agenda sequence s.queue = [] ∧ none = some c.label)).mpr hmatches
    · exact ⟨hother hmatches.1, hmatches.2⟩

variable {a : Action V}

theorem goes_step [DecidableEq V]
    (hok : removesAll s a = true) (h : step s a = some s') : Goes s s' := by
  cases a with
  | push values label onInvoked now =>
    cases h
    exact goes_one _ rfl fun sequence course hholds => holds_push hholds values label onInvoked now
  | nextToolChoice =>
    rw [step] at h
    split at h
    · next hnone =>
      cases h
      exact goes_next (Option.isNone_iff_eq_none.mp hnone)
    · cases h
  | invoke serial =>
    cases h
    exact goes_invoke s serial
  | resolve outcome =>
    cases h
    exact goes_resolve s outcome
  | reject outcome =>
    cases h
    exact goes_reject s outcome
  | removeByLabel =>
    cases h
    exact goes_removeByLabel hok
  | clear outcome =>
    cases h
    exact goes_clear s outcome

theorem follows [DecidableEq V] (h : Runs.Reached (Runs.guarded removesAll step) {} s)
    (sequence : ℕ) :
    ∃ course, follow sequence s.log = some course ∧ Holds sequence none s course := by
  induction h with
  | start => exact ⟨none, rfl, Nat.zero_le _, fun f hf => absurd hf (Option.not_mem_none f), rfl⟩
  | step hreached hs ih =>
    obtain ⟨course, hfollow, hholds⟩ := ih
    obtain ⟨hok, hs⟩ := Runs.guarded_eq_some.mp hs
    obtain ⟨events, hlog, hgoes⟩ := goes_step hok hs
    obtain ⟨course', hfold, hholds'⟩ := hgoes sequence course hholds
    refine ⟨course', ?_, hholds'⟩
    rw [follow] at hfollow ⊢
    rw [hlog, foldlM_append, hfollow]
    exact hfold

/-! ### Ends -/

/-- Every value that was served and is not in flight has had its end, and no other. -/
structure Counted (s : ToolChoiceQueue V) : Prop where
  serial_lt : ∀ f ∈ s.inFlight, f.serial < s.served
  countP_eq (serial : ℕ) : s.log.countP (Event.finalizes serial) =
    if serial < s.served ∧ s.inFlight.all (fun f => decide (f.serial ≠ serial)) = true then 1 else 0

theorem Counted.of_neutral (h : Counted s) (events : List (Event V))
    (hlog : s'.log = s.log ++ events)
    (hneutral : ∀ serial, events.countP (Event.finalizes serial) = 0)
    (hserved : s'.served = s.served) (hflight : s'.inFlight.map InFlight.serial =
      s.inFlight.map InFlight.serial) : Counted s' := by
  have hall (p : ℕ → Bool) : s'.inFlight.all (fun f => p f.serial) =
      s.inFlight.all fun f => p f.serial := by
    have hmap (o : Option (InFlight V)) :
        o.all (fun f => p f.serial) = (o.map InFlight.serial).all p := by
      cases o <;> rfl
    rw [hmap, hmap, hflight]
  constructor
  · intro f hf
    have hmem : f.serial ∈ s.inFlight.map InFlight.serial := by
      rw [← hflight]
      exact Option.mem_map_of_mem _ hf
    obtain ⟨f', hf', heq⟩ := Option.mem_map.mp hmem
    rw [← heq, hserved]
    exact h.serial_lt f' hf'
  intro serial
  rw [hlog, countP_append, hneutral, h.countP_eq, hserved,
    hall fun n => decide (n ≠ serial), add_zero]

/-- The value in flight gets its end. -/
theorem Counted.of_end (h : Counted s) (hf : s.inFlight = some f) (event : Event V)
    (hevent : ∀ serial, event.finalizes serial = decide (f.serial = serial))
    (hlog : s'.log = s.log ++ [event]) (hserved : s'.served = s.served)
    (hnone : s'.inFlight = none) : Counted s' := by
  constructor
  · intro f' hf'
    rw [hnone] at hf'
    cases hf'
  intro serial
  have hlt := h.serial_lt f hf
  rw [hlog, countP_append, h.countP_eq, hserved, hnone, hf, countP_singleton, hevent]
  by_cases hserial : f.serial = serial
  · subst hserial
    simp [hlt]
  · simp [hserial]

theorem Counted.reject (h : Counted s) (outcome : RejectOutcome) : Counted (s.reject outcome) := by
  cases hf : s.inFlight with
  | none =>
    have hsame : s.reject outcome = s := by
      rw [ToolChoiceQueue.reject, hf]
    rwa [hsame]
  | some f =>
    rw [ToolChoiceQueue.reject, hf]
    cases outcome <;>
      exact h.of_end hf (.rejected f.serial _) (fun serial => rfl) rfl rfl rfl

theorem counted_step (h : Counted s) (hstep : step s a = some s') : Counted s' := by
  cases a with
  | push values label =>
    cases hstep
    exact h.of_neutral [.pushed s.pushed label values] rfl (fun _ => rfl) rfl rfl
  | nextToolChoice =>
    rw [step] at hstep
    split at hstep
    · next hnone =>
      cases hstep
      have hflight := Option.isNone_iff_eq_none.mp hnone
      rw [ToolChoiceQueue.nextToolChoice]
      split
      · exact h.of_neutral [] (append_nil _).symm (fun _ => rfl) rfl rfl
      next value head rest hloop =>
      constructor
      · intro f hf
        cases hf
        exact Nat.lt_succ_self _
      intro serial
      have hcount := h.countP_eq serial
      rw [hflight] at hcount
      rw [countP_append, hcount]
      show _ + 0 = _
      by_cases hserial : serial = s.served
      · subst hserial
        simp
      have hiff : serial < s.served + 1 ↔ serial < s.served := by omega
      simp [hiff, Ne.symm hserial]
    · cases hstep
  | invoke =>
    cases hstep
    refine h.of_neutral [] (append_nil _).symm (fun _ => rfl) rfl ?_
    rw [ToolChoiceQueue.invoke, Option.map_map]
    refine congrArg (Option.map · s.inFlight) (funext fun f => ?_)
    rw [Function.comp_apply]
    split <;> rfl
  | resolve outcome =>
    cases hstep
    rw [ToolChoiceQueue.resolve]
    split
    · exact h
    next f hf =>
    split
    · exact h.reject outcome
    · exact h.of_end hf (.resolved f.serial) (fun serial => rfl) rfl rfl rfl
  | reject outcome =>
    cases hstep
    exact h.reject outcome
  | removeByLabel label outcome =>
    cases hstep
    have hlogged : Counted { s with log := s.log ++ [Event.removed label] } :=
      h.of_neutral [.removed label] rfl (fun _ => rfl) rfl rfl
    rw [ToolChoiceQueue.removeByLabel]
    split
    · exact (hlogged.reject outcome).of_neutral [] (append_nil _).symm (fun _ => rfl) rfl rfl
    · exact hlogged.of_neutral [] (append_nil _).symm (fun _ => rfl) rfl rfl
  | clear outcome =>
    cases hstep
    exact (h.reject outcome).of_neutral [] (append_nil _).symm (fun _ => rfl) rfl rfl

/-- Nothing is lost or repeated, and removal is complete, in every run in which no removal leaves a
replay behind. -/
theorem queue_faithful [DecidableEq V] (s : ToolChoiceQueue V)
    (h : Runs.Reached (Runs.guarded removesAll step) {} s) : Faithful s := by
  have hcounted : Counted s := by
    refine h.of_guarded.invariant Counted ⟨fun f hf => absurd hf (Option.not_mem_none f),
      fun serial => ?_⟩ fun _ _ _ hs hstep => counted_step hs hstep
    exact (if_neg fun hlt => Nat.not_lt_zero _ hlt.1).symm
  refine ⟨fun sequence => ?_, fun serial hserved => ?_⟩
  · obtain ⟨course, hfollow, -⟩ := follows h sequence
    rw [hfollow]
    rfl
  rw [hcounted.countP_eq]
  cases s.inFlight with
  | none => simp [hserved]
  | some f => by_cases hserial : f.serial = serial <;> simp [hserved, hserial]

end Steps

/-! ### Two runs -/

/-- A value is pushed, served, rejected and queued again; then its label is removed. -/
def replayRemoved (label : String) : List (Action ℕ) :=
  [.push (onceGen 7) "plan-mode-decision" false false, .nextToolChoice, .reject .requeue,
    .removeByLabel label .drop, .nextToolChoice]

/-- Removing another label is complete. -/
theorem queue_faithful_replay : ∃ s, Runs.exec (Runs.guarded removesAll step) {}
    (replayRemoved "eager-todo") = some s ∧ Faithful s := by
  obtain ⟨s, hs⟩ : ∃ s, Runs.exec (Runs.guarded removesAll step) {}
      (replayRemoved "eager-todo") = some s := Option.isSome_iff_exists.mp (by decide)
  exact ⟨s, hs, queue_faithful s (Runs.Reached.start.of_exec hs)⟩

/-- The replay of a removed value is served. -/
theorem replay_served_after_removal : ∃ s, Runs.Reached (step (V := ℕ)) {} s ∧ ¬ Faithful s := by
  obtain ⟨s, hs⟩ : ∃ s, Runs.exec step {} (replayRemoved "plan-mode-decision") = some s :=
    Option.isSome_iff_exists.mp (by decide)
  refine ⟨s, Runs.Reached.start.of_exec hs, fun hfaithful => ?_⟩
  have hbroken : ((Runs.exec step {} (replayRemoved "plan-mode-decision")).map fun s =>
      (follow 0 s.log).isSome) = some false := by decide
  rw [hs, Option.map_some, Option.some_inj] at hbroken
  rw [hfaithful.follow_isSome 0] at hbroken
  cases hbroken

end BreadboardTui.ToolChoice
