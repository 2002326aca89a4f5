import BreadboardTui.Runtime.Replacement

/-!
# Every run of the recoverable runtime is safe

The functions of the runtime are verified one at a time against `replacementContract`, whose
invariant is `Exclusive`. `replacementSafe_of_run` reads off what this says about every run whose
updates are `Steady`.
-/

namespace BreadboardTui

open Effects RecoverableRuntime Option Bool

/-- The rely-guarantee argument. A stream that has not been started yet has waited for nothing. -/
def replacementContract : Contract recoverableRuntime where
  inv := Exclusive
  rely := Rely
  idle i s := s.replacements i = none ∧ s.waitsOf i = []
  pre i job s :=
    match job with
    | .replacement expected binding _ => s.replacements i = some ⟨expected, binding, .retiring⟩
    | _ => s.waitsOf i = []
  allowed := RecoverableRuntime.Steady

/-- A task of the runtime keeps the contract and ends as `Q` says. -/
abbrev Keeps {α : Type} (i : ℕ) (p : RuntimeM α)
    (Q : Except RuntimeFailure α → RecoverableRuntime → Prop) (s : RecoverableRuntime) : Prop :=
  replacementContract.Verifies i p Q s

section Verification

variable {α : Type} {i g id : ℕ} {s : RecoverableRuntime}

variable {Q : Except RuntimeFailure Unit → RecoverableRuntime → Prop}

theorem keeps_sameCore
    {f : RecoverableRuntime → RecoverableRuntime} (h : SameCore s (f s)) (hQ : Q (.ok ()) (f s)) :
    Keeps i (Fiber.modify f) Q s :=
  Contract.verifies_modify.mpr fun _ => ⟨fun j _ => h.rely j, hQ⟩

variable {r : Except RuntimeFailure α}

theorem keeps_unwrap {Q : Except RuntimeFailure α → RecoverableRuntime → Prop}
    : Keeps i (unwrap r) Q s ↔ Q r s := by
  cases r <;> rfl

/-- The task is suspended until a call is answered. -/
theorem keeps_awaited {c : RuntimeCall} {Q : Except RuntimeFailure α → RecoverableRuntime → Prop}
    {f : RuntimeCall.Reply c → RuntimeM α} (hs : Exclusive s)
    (h : ∀ t choice a, Rely i s t → Exclusive t → c.reply t choice = some a → Keeps i (f a) Q t) :
    Keeps i (Fiber.call c >>= f) Q s :=
  Contract.verifies_call_bind.mpr ⟨hs, h⟩

/-- `generation.runtime.start()` changes nothing the argument looks at. -/
theorem keeps_startGeneration
    (hQ : ∀ r t, SameCore s t → Q r t) : Keeps i (startGeneration g) Q s := by
  have hsame : SameCore s s := ⟨rfl, rfl, rfl, rfl, rfl, rfl, rfl, fun _ => rfl, fun h => h⟩
  refine Contract.verifies_get_bind.mpr ?_
  split
  · exact hQ _ _ hsame
  split
  · exact hQ _ _ hsame
  split
  · exact hQ _ _ hsame
  have hstart : SameCore s (s.updateGeneration g ({ · with running := true })) :=
    .updateGeneration rfl
  exact keeps_sameCore hstart (hQ _ _ hstart)

/-! ### The body of a replacement -/

/-- The body of the promise `i` may end in an error here. -/
def CanReject (i : ℕ) (s : RecoverableRuntime) : Prop :=
  ∃ r, s.replacements i = some r ∧ r.stage.active = true ∧
    (r.stage = .retiring → s.closed = true) ∧
    ∀ next, r.stage = .closing next → s.closed = true ∧ s.settled next = true

/-- An update of the own promise with everything else the argument looks at unchanged. -/
theorem rely_setStage {j : ℕ} {r : Replacement} {stage : ReplacementStage} (h : Only i r s)
    (hactive : r.stage.active = true) (hj : j ≠ i) : Rely j s (s.setStage i stage) :=
  h.rely hactive (by rw [replacements_setStage, Function.update_of_ne hj])
    (h.setStage stage).others rfl rfl fun _ => rfl

theorem keeps_reject {error : RuntimeFailure} (hs : Exclusive s) (h : CanReject i s) :
    Keeps i (Fiber.modify (·.setStage i (.rejected error))) (fun _ => Exclusive) s := by
  obtain ⟨r, hr, hactive, hretiring, hclosing⟩ := h
  have honly := hs.only hr hactive
  obtain ⟨hpromise, hexpected⟩ := hs.promised i r hr hactive
  refine Contract.verifies_modify.mpr fun hsteady => ?_
  have hstage : (s.setStage i (.rejected error)).stageOf i = some (.rejected error) := by
    rw [stageOf, (honly.setStage _).self, Option.map_some]
  have hend := hsteady.2 i hpromise r hr
  rw [SteadyReplacement, hstage] at hend
  refine ⟨fun j hj => rely_setStage honly hactive hj,
    hs.reject honly hactive hsteady.1 (fun g hg => ?_) fun hopen branch hbranch => ?_⟩
  · cases hstage : r.stage with
    | activating =>
      rw [hstage] at hg hend
      exact some.inj hg ▸ hend.1
    | closing next =>
      rw [hstage] at hg
      exact some.inj hg ▸ (hclosing next hstage).2
    | _ => cases hstage ▸ hg
  cases hstage : r.stage with
  | retiring => cases hopen.symm.trans (hretiring hstage)
  | closing next => cases hopen.symm.trans (hclosing next hstage).1
  | reconnecting =>
    refine hs.latest hopen s.current branch hbranch (.inr ⟨rfl, fun g hg => ?_⟩)
    rw [honly.holds, hstage] at hg
    cases hg
  | activating =>
    rw [hstage] at hend
    have hlength := hend.2.resolve_left (by simp [hopen])
    rw [hexpected, hbranch, Option.map_some, some_inj] at hlength
    exact (hs.snapshots _ branch hbranch).eq_of_length hlength
  | fulfilled => exact absurd hactive (by simp [hstage, ReplacementStage.active])
  | rejected => exact absurd hactive (by simp [hstage, ReplacementStage.active])

/-- What the body of the promise `i` leaves when it ends. -/
def BodyEnds (i : ℕ) (r : Except RuntimeFailure Unit) (s : RecoverableRuntime) : Prop :=
  Exclusive s ∧ ∀ error, r = .error error → CanReject i s

theorem BodyEnds.ok (hs : Exclusive s) : BodyEnds i (.ok ()) s :=
  ⟨hs, fun _ h => nomatch h⟩

theorem keeps_adopt {next : ℕ} {r : Replacement} (hs : Exclusive s) (hr : s.replacements i = some r)
    (hstage : r.stage = .activating next) : Keeps i (adopt i next) (BodyEnds i) s := by
  have hactivated : SameCore s (s.updateGeneration next ({ · with activated := true })) :=
    .updateGeneration rfl
  have hcan : ∀ t, SameCore (s.updateGeneration next ({ · with activated := true })) t →
      Exclusive t ∧ t.replacements i = some r := fun t ht =>
    ⟨ht.exclusive (hactivated.exclusive hs), (ht.replacements.trans hactivated.replacements) ▸ hr⟩
  refine Contract.verifies_bind.mpr (keeps_sameCore hactivated ?_)
  refine Contract.verifies_bind.mpr (Contract.Verifies.mono
    (Q := fun _ t => SameCore (s.updateGeneration next ({ · with activated := true })) t) ?_ ?_)
  · rintro (error | -) t ht
    · refine ⟨(hcan t ht).1, fun _ _ => ⟨r, (hcan t ht).2, ?_, ?_, ?_⟩⟩ <;>
        simp [hstage, ReplacementStage.active]
    · obtain ⟨hexclusive, hrt⟩ := hcan t ht
      have honly := hexclusive.only hrt (by simp [hstage, ReplacementStage.active])
      refine Contract.verifies_modify.mpr fun hsteady => ⟨fun j hj => ?_, ?_⟩
      · exact honly.rely (by simp [hstage, ReplacementStage.active])
          (Function.update_of_ne hj ..) (honly.setStage _).others rfl rfl fun _ => rfl
      · exact .ok (hexclusive.fulfil honly hstage hsteady.1)
  refine Contract.verifies_get_bind.mpr ?_
  split
  · exact keeps_startGeneration fun _ _ ht => ht
  · exact ⟨rfl, rfl, rfl, rfl, rfl, rfl, rfl, fun _ => rfl, fun h => h⟩

variable {binding : BreadboardSessionBindingData} {store : ℕ}

theorem keeps_replaceWith {expected : ℕ}
    (hs : Exclusive s) (hr : s.replacements i = some ⟨expected, binding, .retiring⟩) :
    Keeps i (replaceWith i expected binding store) (BodyEnds i) s := by
  refine keeps_awaited hs fun t choice a hrely ht hreply => ?_
  have hrt := hrely.own.trans hr
  have honly := ht.only hrt rfl
  have hsettled : t.settled expected = true := by
    by_contra hopen
    simp [RuntimeCall.reply, hopen] at hreply
  refine Contract.verifies_get_bind.mpr ?_
  split
  · next hclosed =>
    exact ⟨ht, fun _ _ => ⟨_, hrt, rfl, fun _ => hclosed, fun next h => nomatch h⟩⟩
  next hclosed =>
  have hclosed : t.closed = false := eq_false_iff.mpr hclosed
  refine Contract.verifies_bind.mpr (Contract.verifies_modify.mpr fun hsteady =>
    ⟨fun j hj => rely_setStage honly rfl hj, ?_⟩)
  have ht' := ht.reconnect honly rfl hclosed hsettled hsteady.1
  refine keeps_awaited ht' fun u choice a hrely hu _ => ?_
  have hru := hrely.own.trans (honly.setStage .reconnecting).self
  have honlyu := hu.only hru rfl
  refine Contract.verifies_bind.mpr (keeps_unwrap.mpr ?_)
  cases a with
  | error => exact ⟨hu, fun _ _ => ⟨_, hru, rfl, by simp, by simp⟩⟩
  | ok =>
  refine Contract.verifies_get_bind.mpr ?_
  show Keeps i (if _ then _ else _) _ _
  have hrely : ∀ stage, stage.held = some u.generationCount → ∀ j, j ≠ i →
      Rely j u { u.setStage i stage with generationCount := u.generationCount + 1 } :=
    fun stage _ j hj => honlyu.rely rfl (Function.update_of_ne hj ..) (honlyu.setStage stage).others
      rfl rfl fun _ => rfl
  split
  · next hclosedu =>
    have hbegin : SameCore
        { u.setStage i (.closing u.generationCount) with generationCount := u.generationCount + 1 }
        { (u.setStage i (.closing u.generationCount)).beginClose u.generationCount with
          generationCount := u.generationCount + 1 } :=
      SameCore.updateGeneration (g := u.generationCount) (f := ({ · with closeCalled := true }))
        (s := { u.setStage i (.closing u.generationCount) with
          generationCount := u.generationCount + 1 }) rfl
    refine Contract.verifies_bind.mpr (Contract.verifies_modify.mpr fun hsteady =>
      ⟨fun j hj => (hrely _ rfl j hj).trans (hbegin.rely j), ?_⟩)
    have hheld := hu.hold honlyu rfl rfl hsteady.1
    refine keeps_awaited (hbegin.exclusive hheld) fun v choice a hrely hv hreply => ?_
    have hrv := hrely.own.trans (honlyu.setStage (.closing u.generationCount)).self
    have hend : v.closed = true ∧ v.settled u.generationCount = true := by
      refine ⟨hrely.closed hclosedu, ?_⟩
      by_contra hopen
      simp [RuntimeCall.reply, hopen] at hreply
    have hcan : CanReject i v := ⟨_, hrv, rfl, by simp, by simpa using hend⟩
    refine Contract.verifies_bind.mpr (keeps_unwrap.mpr ?_)
    cases a with
    | error => exact ⟨hv, fun _ _ => hcan⟩
    | ok => exact ⟨hv, fun _ _ => hcan⟩
  refine Contract.verifies_bind.mpr (Contract.verifies_modify.mpr fun hsteady =>
    ⟨fun j hj => hrely _ rfl j hj, ?_⟩)
  refine keeps_awaited (hu.hold honlyu rfl rfl hsteady.1) fun v choice a hrely hv _ => ?_
  have hrv := hrely.own.trans (honlyu.setStage (.activating u.generationCount)).self
  refine Contract.verifies_bind.mpr (keeps_unwrap.mpr ?_)
  cases a with
  | error => exact ⟨hv, fun _ _ => ⟨_, hrv, rfl, by simp, by simp⟩⟩
  | ok => exact keeps_adopt hv hrv rfl

theorem keeps_replacementBody {expected : ℕ}
    (hs : Exclusive s) (hr : s.replacements i = some ⟨expected, binding, .retiring⟩) :
    Keeps i (replacementBody i expected binding store) (fun _ => Exclusive) s := by
  refine Contract.verifies_tryCatch.mpr ((keeps_replaceWith hs hr).mono ?_)
  rintro (error | -) t ⟨ht, hcan⟩
  · exact keeps_reject ht (hcan error rfl)
  · exact ht

/-! ### Streams -/

/-- What a stream has come to: if it failed without having been closed, it has not waited for a
replacement. -/
def StreamEnds (i : ℕ) (r : Except RuntimeFailure α) (s : RecoverableRuntime) : Prop :=
  Exclusive s ∧ ∀ error, r = .error error → s.closed = true ∨ s.waitsOf i = []

theorem StreamEnds.rely {t : RecoverableRuntime}
    (h : StreamEnds i r s) (hrely : Rely i s t) (ht : Exclusive t) : StreamEnds i r t :=
  ⟨ht, fun error herror => (h.2 error herror).imp hrely.closed fun hwaits => hrely.waits.trans hwaits⟩

/-- What `replace` returns to a stream that saw an error event. -/
def ReplaceEnds (i : ℕ) (fromEvent : Bool) (r : Except RuntimeFailure ℕ)
    (s : RecoverableRuntime) : Prop :=
  Exclusive s ∧ (fromEvent = true → StreamEnds i r s)

variable {fromEvent : Bool}

theorem keeps_awaitReplacement (hs : Exclusive s) (hwaits : s.waitsOf i = []) :
    Keeps i (awaitReplacement i g fromEvent id)
      (fun r t => ReplaceEnds i fromEvent r t ∧ ¬ t.Active id) s := by
  refine Contract.verifies_bind.mpr (Contract.verifies_modify.mpr fun hsteady =>
    ⟨fun j hj => ?_, ?_⟩)
  · refine ⟨rfl, ?_, fun h => h, fun _ _ h => h, fun _ _ => ⟨rfl, rfl⟩, fun _ h => h⟩
    rw [waitsOf_cons, if_neg (Ne.symm hj)]
  refine keeps_awaited (hs.wait hwaits hsteady.1) fun t choice a hrely ht hreply => ?_
  obtain ⟨r, hr, houtcome⟩ := bind_eq_some_iff.mp hreply
  have hwait : (⟨i, g, id, fromEvent⟩ : ReplacementWait) ∈ t.replacementWaits := by
    have hmem : (⟨i, g, id, fromEvent⟩ : ReplacementWait) ∈ t.waitsOf i := by
      rw [hrely.waits, waitsOf_cons, if_pos rfl]
      exact List.mem_cons_self
    exact List.mem_of_mem_filter hmem
  have hend : ReplaceEnds i fromEvent a t := by
    refine ⟨ht, fun hevent => ⟨ht, fun error herror => .inl (ht.quiet _ hwait hevent ?_)⟩⟩
    rw [stageOf, hr]
    cases hstage : r.stage <;> simp_all [ReplacementStage.outcome, ReplacementStage.isRejected]
  have hidle : ¬ t.Active id := by
    rintro ⟨r', hr', hactive⟩
    obtain rfl := some.inj (hr.symm.trans hr')
    cases hstage : r.stage <;> simp_all [ReplacementStage.outcome, ReplacementStage.active]
  exact keeps_unwrap.mpr ⟨hend, hidle⟩

theorem keeps_replace (hs : Exclusive s) (hclosed : s.closed = false) (hwaits : s.waitsOf i = []) :
    Keeps i (replace i g fromEvent) (ReplaceEnds i fromEvent) s := by
  have hthrow : ∀ error : RuntimeFailure, ReplaceEnds i fromEvent (.error error) s :=
    fun _ => ⟨hs, fun _ => ⟨hs, fun _ _ => .inr hwaits⟩⟩
  refine Contract.verifies_get_bind.mpr ?_
  split
  · exact ⟨hs, fun _ => ⟨hs, fun _ h => nomatch h⟩⟩
  next hcurrent =>
  split
  · exact (keeps_awaitReplacement hs hwaits).mono fun r t h => h.1
  · exact hthrow _
  · exact hthrow _
  · exact hthrow _
  next hpromise hstore hbinding =>
  have hretire : SameCore s
      { s.beginClose g with retiredClosures := s.retiredClosures ++ [g] } :=
    ⟨rfl, rfl, rfl, rfl, rfl, rfl, rfl, (SameCore.beginClose g).closedAt, fun h => h⟩
  refine Contract.verifies_bind.mpr (keeps_sameCore hretire ?_)
  refine Contract.verifies_bind.mpr (Contract.verifies_spawn.mpr fun k hk hidle hsteady => ?_)
  obtain rfl : s.current = g := not_not.mp hcurrent
  have hbegin := (hretire.exclusive hs).begin (i := k) hclosed hpromise hbinding hsteady.1
  refine ⟨⟨Function.update_self .., fun j _ hjk => ?_⟩, ?_⟩
  · exact ⟨Function.update_of_ne hjk .., rfl, fun h => h,
      fun h => absurd h (by simp [beginClose, updateGeneration, hclosed]),
      fun _ _ => ⟨rfl, rfl⟩, fun _ h => h⟩
  refine Contract.verifies_always.mpr ((keeps_awaitReplacement hbegin hwaits).mono ?_)
  rintro r t ⟨ht, hidle⟩
  -- only the promise that has just been awaited is cleared, and its body has ended
  have hclear : Exclusive (if t.replacementPromise = some k then
      { t with replacementPromise := none } else t) := by
    split
    · next hpromise => exact ht.1.clearPromise hidle hpromise
    · exact ht.1
  refine Contract.verifies_modify.mpr fun _ => ⟨fun j _ => ?_, ?_⟩
  · split <;> exact ⟨rfl, rfl, fun h => h, fun _ _ h => h, fun _ _ => ⟨rfl, rfl⟩, fun _ h => h⟩
  refine ⟨hclear, fun hevent => ⟨hclear, fun error herror => ?_⟩⟩
  split <;> exact (ht.2 hevent).2 error herror

theorem not_closed_of_sawDiscontinuity (h : s.sawDiscontinuity i g = true) : s.closed = false := by
  simp only [sawDiscontinuity, and_eq_true, not_eq_true'] at h
  exact h.1.1.1

theorem keeps_relay {n : ℕ} (hs : Exclusive s) (hwaits : s.waitsOf i = []) :
    Keeps i (relay i g n) (StreamEnds i) s := by
  induction n generalizing s with
  | zero => exact keeps_awaited hs fun t choice a _ _ _ => nomatch a
  | succ n ih =>
    refine keeps_awaited hs fun t choice a hrely ht _ => ?_
    have hwaits' : t.waitsOf i = [] := hrely.waits.trans hwaits
    have hpush : ∀ event, SameCore t (t.push i event) := fun event => .push i event
    refine Contract.verifies_bind.mpr (keeps_unwrap.mpr ?_)
    rcases a with error | - | event
    · exact ⟨ht, fun _ _ => .inr hwaits'⟩
    · exact keeps_sameCore (.fail i _) ⟨(SameCore.fail i _).exclusive ht, fun _ h => nomatch h⟩
    refine Contract.verifies_get_bind.mpr ?_
    split
    · next hsaw =>
      have hclosed := not_closed_of_sawDiscontinuity hsaw.2
      refine Contract.verifies_bind.mpr (Contract.verifies_await.mpr
        ((keeps_replace ht hclosed hwaits').mono fun r u hu => ⟨hu.1, fun v hrely hv => ?_⟩))
      have hend := (hu.2 rfl).rely hrely hv
      rcases r with error | next
      · exact ⟨hv, fun _ _ => hend.2 error rfl⟩
      have hpush := SameCore.push (s := v) i event
      exact keeps_sameCore hpush ⟨hpush.exclusive hv, fun _ h => nomatch h⟩
    exact Contract.verifies_bind.mpr (keeps_sameCore (hpush event)
      (ih ((hpush event).exclusive ht) (((hpush event).rely i).waits.trans hwaits')))

theorem keeps_stream (hs : Exclusive s) (hwaits : s.waitsOf i = []) :
    Keeps i (stream i) (fun _ => Exclusive) s := by
  have hrun : Keeps i (runStream i) (fun _ => Exclusive) s := by
    refine Contract.verifies_get_bind.mpr (Contract.verifies_tryCatch.mpr ?_)
    refine Contract.Verifies.mono (Q := StreamEnds i) ?_ (keeps_awaited hs ?_)
    · rintro (error | ⟨⟩) t ht
      · refine Contract.verifies_get_bind.mpr ?_
        split
        · next hsaw =>
          have hclosed := not_closed_of_sawDiscontinuity hsaw
          have hwaits' := (ht.2 error rfl).resolve_left (by simp [hclosed])
          refine Contract.verifies_bind.mpr (Contract.verifies_await.mpr
            ((keeps_replace ht.1 hclosed hwaits').mono fun r u hu => ⟨hu.1, fun v _ hv => ?_⟩))
          cases r <;> exact hv
        · exact ht.1
      · exact ht.1
    intro t choice a hrely ht _
    have hwaits' : t.waitsOf i = [] := hrely.waits.trans hwaits
    refine Contract.verifies_bind.mpr (keeps_unwrap.mpr ?_)
    cases a with
    | error => exact ⟨ht, fun _ _ => .inr hwaits'⟩
    | ok =>
      exact keeps_awaited ht fun u choice a hrely hu _ =>
        keeps_relay hu (hrely.waits.trans hwaits')
  refine Contract.verifies_tryCatch.mpr (Contract.verifies_await.mpr
    (hrun.mono fun r t ht => ⟨ht, fun u _ hu => ?_⟩))
  rcases r with error | -
  · exact keeps_sameCore (.fail i error) ((SameCore.fail i error).exclusive hu)
  · exact hu

/-! ### Activation and start -/

theorem keeps_activate (hs : Exclusive s) : Keeps i (activate store) (fun _ => Exclusive) s := by
  refine Contract.verifies_get_bind.mpr ?_
  split
  · exact hs
  split
  · refine keeps_awaited hs fun t choice a _ ht _ => ?_
    exact keeps_unwrap.mpr ht
  have hpending : SameCore s { s with activationPromise := some .pending } :=
    ⟨rfl, rfl, rfl, rfl, rfl, rfl, rfl, fun _ => rfl, fun h => h⟩
  refine Contract.verifies_bind.mpr (keeps_sameCore hpending ?_)
  refine keeps_awaited (hpending.exclusive hs) fun t choice a _ ht _ => ?_
  cases a with
  | error =>
    have hrejected : SameCore t { t with activationPromise := some .rejected } :=
      ⟨rfl, rfl, rfl, rfl, rfl, rfl, rfl, fun _ => rfl, fun h => h⟩
    exact keeps_sameCore hrejected (hrejected.exclusive ht)
  | ok =>
    have hactivated : SameCore t
        { t.updateGeneration s.current ({ · with activated := true }) with
          activatedStore := some store
          activationPromise := some .fulfilled } :=
      ⟨rfl, rfl, rfl, rfl, rfl, rfl, rfl,
        (SameCore.updateGeneration (f := ({ · with activated := true })) rfl).closedAt, fun h => h⟩
    exact keeps_sameCore hactivated (hactivated.exclusive ht)

theorem keeps_start (hs : Exclusive s) : Keeps i start (fun _ => Exclusive) s := by
  refine Contract.verifies_get_bind.mpr ?_
  split
  · exact hs
  split
  · exact hs
  have hstarted : SameCore s { s with started := true } :=
    ⟨rfl, rfl, rfl, rfl, rfl, rfl, rfl, fun _ => rfl, fun h => h⟩
  refine Contract.verifies_bind.mpr (keeps_sameCore hstarted ?_)
  exact keeps_startGeneration fun r t ht => ht.exclusive (hstarted.exclusive hs)

/-! ### Closing -/

/-- The replacement that was under way when `close()` was called has ended. -/
theorem keeps_settleReplacement (hs : Exclusive s) (hclosed : s.closed = true) :
    Keeps i settleReplacement
      (fun r t => r = .ok () ∧ Exclusive t ∧ t.closed = true ∧ ∀ k, ¬ t.Active k) s := by
  refine Contract.verifies_get_bind.mpr ?_
  split
  · next hpromise =>
    refine keeps_awaited hs fun t choice a hrely ht hreply => ?_
    refine ⟨rfl, ht, hrely.closed hclosed, fun k' hk' => ?_⟩
    obtain ⟨r, hr, hactive⟩ := hrely.frozen hclosed k' hk'
    obtain rfl := some.inj (hpromise.symm.trans (hs.promised k' r hr hactive).1)
    obtain ⟨r', hr', hactive'⟩ := hk'
    obtain ⟨r'', hr'', houtcome⟩ := bind_eq_some_iff.mp hreply
    obtain rfl := some.inj (hr'.symm.trans hr'')
    cases hstage : r'.stage <;> simp_all [ReplacementStage.outcome, ReplacementStage.active]
  next hpromise =>
  refine ⟨rfl, hs, hclosed, ?_⟩
  rintro k ⟨r, hr, hactive⟩
  cases hpromise.symm.trans (hs.promised k r hr hactive).1

theorem keeps_closeRuntime (hs : Exclusive s) :
    Keeps i closeRuntime (fun r t => Exclusive t ∧ (r = .ok () →
      t.closed = true ∧ (∀ k, ¬ t.Active k) ∧ t.settled t.current = true)) s := by
  refine Contract.verifies_bind.mpr (Contract.verifies_modify.mpr fun _ => ⟨fun j _ => ?_, ?_⟩)
  · exact ⟨rfl, rfl, fun _ => rfl, fun _ _ h => h, fun _ _ => ⟨rfl, rfl⟩, fun _ h => h⟩
  refine Contract.verifies_bind.mpr ((keeps_settleReplacement hs.beginClosing rfl).mono ?_)
  rintro _ t ⟨rfl, ht, hclosed, hidle⟩
  refine Contract.verifies_get_bind.mpr ?_
  have hbegin : SameCore t (t.beginClose t.current) := .beginClose _
  refine Contract.verifies_bind.mpr (keeps_sameCore hbegin ?_)
  refine keeps_awaited (hbegin.exclusive ht) fun u choice a hrely hu hreply => ?_
  have hsettled : u.settled t.current = true := by
    by_contra hopen
    simp [RuntimeCall.reply, hopen] at hreply
  have hidle' : ∀ k, ¬ (t.beginClose t.current).Active k := fun k hk =>
    hidle k ((hbegin.active k).mp hk)
  have hclosed' : (t.beginClose t.current).closed = true := hclosed
  have hstill := hrely.still hclosed' hidle'
  refine Contract.verifies_bind.mpr (keeps_unwrap.mpr ?_)
  cases a with
  | error => exact ⟨hu, fun h => nomatch h⟩
  | ok =>
    refine Contract.verifies_get_bind.mpr ?_
    refine Contract.verifies_call.mpr ⟨hu, fun v choice _ hrely' hv _ => ⟨hv, fun _ => ?_⟩⟩
    have hidleu : ∀ k, ¬ u.Active k := fun k hk => hidle' k (hrely.frozen hclosed' k hk)
    have hclosedu := hrely.closed hclosed'
    refine ⟨hrely'.closed hclosedu, fun k hk => hidleu k (hrely'.frozen hclosedu k hk), ?_⟩
    rw [(hrely'.still hclosedu hidleu).1, hstill.1]
    exact hrely'.settled _ hsettled

theorem keeps_close (hs : Exclusive s) : Keeps i close (fun _ => Exclusive) s := by
  refine Contract.verifies_get_bind.mpr ?_
  split
  · refine keeps_awaited hs fun t choice a _ ht _ => ?_
    exact keeps_unwrap.mpr ht
  refine Contract.verifies_bind.mpr (Program.ensures_attempt.mpr
    ((keeps_closeRuntime hs).mono fun r t ht => ?_))
  rcases r with error | ⟨⟩
  · have hrejected : SameCore t { t with closePromise := some .rejected } :=
      ⟨rfl, rfl, rfl, rfl, rfl, rfl, rfl, fun _ => rfl, fun h => nomatch h⟩
    exact keeps_sameCore hrejected (hrejected.exclusive ht.1)
  obtain ⟨hclosed, hidle, hsettled⟩ := ht.2 rfl
  refine Contract.verifies_modify.mpr fun _ => ⟨fun j _ => ?_, ht.1.resolveClose hclosed hidle hsettled⟩
  exact ⟨rfl, rfl, fun h => h, fun _ _ h => h, fun _ _ => ⟨rfl, rfl⟩, fun _ h => h⟩

end Verification

/-! ### Runs -/

theorem happen_exclusive {event : RuntimeEvent} {s t : RecoverableRuntime} (hs : Exclusive s)
    (h : event.happen s = some t) (hsteady : RecoverableRuntime.Steady s t) :
    Exclusive t ∧ ∀ j, Rely j s t := by
  have hsame : SameCore s t → Exclusive t ∧ ∀ j, Rely j s t := fun hsame =>
    ⟨hsame.exclusive hs, hsame.rely⟩
  cases event with
  | settle =>
    simp only [RuntimeEvent.happen, ite_none_right_eq_some, some.injEq,
      and_eq_true, not_eq_true', decide_eq_true_eq] at h
    obtain ⟨⟨⟨-, hopen⟩, hlt⟩, rfl⟩ := h
    exact hs.settle hlt hopen
  | append =>
    simp only [RuntimeEvent.happen, ite_none_right_eq_some, some.injEq,
      and_eq_true, not_eq_true', decide_eq_true_eq] at h
    obtain ⟨⟨hlt, hopen⟩, rfl⟩ := h
    exact ⟨hs.append hlt hopen hsteady, fun j => ⟨rfl, rfl, fun h => h, fun _ _ h => h,
      fun _ _ => ⟨rfl, rfl⟩, fun _ h => h⟩⟩
  | lifecycleFailure g =>
    cases h
    have hfailed := SameCore.updateGeneration (s := s.beginClose g) (g := g)
      (f := ({ · with lifecycleFailed := true })) rfl
    exact ⟨hfailed.exclusive ((SameCore.beginClose g).exclusive hs),
      fun j => ((SameCore.beginClose g).rely j).trans (hfailed.rely j)⟩
  | selfClose g =>
    cases h
    exact hsame (.beginClose g)
  | discontinue =>
    cases h
    exact hsame (.updateGeneration rfl)
  | abort =>
    cases h
    exact hsame ⟨rfl, rfl, rfl, rfl, rfl, rfl, rfl, fun _ => rfl, fun h => h⟩
  | forget =>
    simp only [RuntimeEvent.happen, ite_none_right_eq_some, some.injEq] at h
    obtain ⟨-, rfl⟩ := h
    exact hsame ⟨rfl, rfl, rfl, rfl, rfl, rfl, rfl, fun _ => rfl, fun h => h⟩

theorem replacementContract_sound : replacementContract.Sound where
  refl := Rely.refl
  trans := Rely.trans
  idle_rely h hrely := ⟨hrely.own.trans h.1, hrely.waits.trans h.2⟩
  pre_rely {i job s t} h hrely := by
    cases job with
    | replacement => exact hrely.own.trans h
    | _ => exact hrely.waits.trans h
  start {i job s} _ hidle hadmits := by
    cases job with
    | replacement => cases hadmits
    | _ => exact hidle.2
  happen := happen_exclusive
  body {i job s} hs hpre := by
    cases job with
    | stream => exact keeps_stream hs hpre
    | activate => exact keeps_activate hs
    | start => exact keeps_start hs
    | close => exact keeps_close hs
    | replacement => exact keeps_replacementBody hs hpre

theorem exclusive_initial (branch : List BreadboardSessionBindingEntry) :
    Exclusive (.initial branch) := by
  refine Exclusive.of_idle ?_ zero_lt_one (fun _ _ => rfl) (fun g hg hne => ?_)
    (fun _ _ h => nomatch h) (fun _ _ h => nomatch h) (fun _ h => nomatch h)
    (fun _ _ => Nat.zero_le _) fun h => nomatch h
  · rintro k ⟨r, hr, -⟩
    cases hr
  have hlt : g < 1 := hg
  exact absurd (Nat.lt_one_iff.mp hlt) hne

/-- What the replacement of generations promises. -/
structure ReplacementSafe (s : RecoverableRuntime) : Prop where
  /-- While `reconnect` is running, no other is, and every generation there is has been closed. -/
  exclusive : ∀ id r, s.replacements id = some r → r.stage = .reconnecting →
    (∀ id' r', s.replacements id' = some r' → r'.stage = .reconnecting → id' = id) ∧
      ∀ g < s.generationCount, s.settled g = true
  /-- It was given the binding that was durable when the replaced generation's close settled. -/
  current : ∀ id r, s.replacements id = some r → r.stage = .reconnecting →
    ∃ branch, (s.generations r.expected).closedAt = some branch ∧
      readBreadboardSessionBinding branch = .ok (some r.binding)
  /-- No stream has waited for two replacements of one generation. -/
  waitsOnce : ∀ stream g, (s.waitsOf stream).countP (·.generation == g) ≤ 1
  /-- Once `close()` has resolved, every generation has been closed and none will follow. -/
  leakFree : s.closePromise = some .fulfilled →
    (∀ g < s.generationCount, s.settled g = true) ∧
      ∀ id r, s.replacements id = some r → r.stage.active = false

theorem RecoverableRuntime.Exclusive.safe {s : RecoverableRuntime} (hs : Exclusive s) :
    ReplacementSafe s where
  exclusive id r hr hstage := by
    have hactive : r.stage.active = true := by rw [hstage]; rfl
    refine ⟨fun id' r' hr' hstage' => hs.unique ⟨r', hr', by rw [hstage']; rfl⟩ ⟨r, hr, hactive⟩,
      fun g hg => ?_⟩
    by_cases hcurrent : g = s.current
    · rw [hcurrent, ← (hs.promised id r hr hactive).2]
      exact hs.underway id r hr hactive (by simp [hstage])
    refine (hs.retired g hg hcurrent).resolve_right fun hheld => ?_
    rw [(hs.only hr hactive).holds, hstage] at hheld
    cases hheld
  current := hs.received
  waitsOnce := hs.waitsOnce
  leakFree hclose := by
    refine ⟨(hs.leakFree hclose).2.1, fun id r hr => ?_⟩
    by_contra hactive
    exact (hs.leakFree hclose).2.2 id ⟨r, hr, not_eq_false _ ▸ hactive⟩

/-- **Replacement is exclusive, current and leak-free** in every steady run. -/
theorem replacementSafe_of_run {branch : List BreadboardSessionBindingEntry}
    {moves : List (Move RuntimeJob RuntimeChoice RuntimeEvent)}
    {w : World RecoverableRuntime RuntimeJob RuntimeCall.Reply RuntimeFailure}
    (hrun : recoverableRuntime.run moves ⟨.initial branch, []⟩ = some w)
    (hsteady : ∀ u ∈ recoverableRuntime.updates moves ⟨.initial branch, []⟩,
      RecoverableRuntime.Steady u.1 u.2) :
    ReplacementSafe w.state := by
  have hinitial : replacementContract.WorldOk ⟨.initial branch, []⟩ :=
    Contract.WorldOk.initial (exclusive_initial branch) fun i => ⟨rfl, rfl⟩
  exact (replacementContract_sound.run hinitial hrun hsteady).inv.safe

/-! ### Two runs -/

/-- The transcript as a session starts, with its first binding. -/
def firstBinding : BreadboardSessionBindingData where
  sessionId := "session-1"
  replayConfigurationDigest := "sha256:replay"
  cursor := ⟨none, 0⟩
  ownedSubmissions := []
  sessionId_safe := by decide
  digest_safe := by decide
  cursor_valid := ⟨by decide, by decide⟩
  owned_valid := ⟨by decide, by simp, by decide, by decide, by decide⟩

/-- The binding after the first event was projected. -/
def secondBinding : BreadboardSessionBindingData :=
  { firstBinding with
    cursor := ⟨some "event-1", 1⟩
    cursor_valid := ⟨by decide, by decide, by decide⟩ }

/-- A stream sees the discontinuity of the initial generation in an error event. -/
def discontinuity : List (Move RuntimeJob RuntimeChoice RuntimeEvent) :=
  [.start (.activate 0), .resume 0 .succeed, .resume 0 .succeed, .start .start, .resume 1 .succeed,
    .start .stream, .resume 2 .succeed, .resume 2 .succeed, .resume 2 (.count 1),
    .happen (.discontinue 0), .resume 2 (.event (some .error))]

/-- The generation is replaced, the stream delivers the error and the runtime is closed. -/
def replacedAndClosed : List (Move RuntimeJob RuntimeChoice RuntimeEvent) :=
  discontinuity ++
    [.happen (.settle 0 true), .resume 3 .succeed, .resume 3 .succeed, .resume 3 .succeed,
      .resume 2 .succeed, .resume 2 .succeed, .start .close, .resume 4 .succeed,
      .happen (.settle 1 true), .resume 4 .succeed, .resume 4 .succeed]

theorem replacementSafe_of_run_replacedAndClosed : ∃ w,
    recoverableRuntime.run replacedAndClosed ⟨.initial [bindingEntry firstBinding.toJs], []⟩ =
        some w ∧
      w.state.current = 1 ∧ w.state.closePromise = some .fulfilled ∧ ReplacementSafe w.state := by
  have hrun : (recoverableRuntime.run replacedAndClosed
      ⟨.initial [bindingEntry firstBinding.toJs], []⟩).any (fun w =>
        w.state.current = 1 ∧ w.state.closePromise = some .fulfilled) = true := by
    decide +kernel
  obtain ⟨w, hw, hends⟩ := (any_eq_true _ _).mp hrun
  obtain ⟨hcurrent, hclose⟩ := of_decide_eq_true hends
  have hsteady : ∀ u ∈ recoverableRuntime.updates replacedAndClosed
      ⟨.initial [bindingEntry firstBinding.toJs], []⟩, RecoverableRuntime.Steady u.1 u.2 := by
    decide +kernel
  exact ⟨w, hw, hcurrent, hclose, replacementSafe_of_run hw hsteady⟩

/-- The generation appends a binding **after** the replacement has read one and before its close
settles: `reconnect` is given the older binding. -/
theorem replacementSafe_stale_binding : ∃ w, recoverableRuntime.run
        (discontinuity ++ [.happen (.append 0 (bindingEntry secondBinding.toJs)),
          .happen (.settle 0 true), .resume 3 .succeed])
        ⟨.initial [bindingEntry firstBinding.toJs], []⟩ = some w ∧
      ¬ ReplacementSafe w.state := by
  have hrun : (recoverableRuntime.run
      (discontinuity ++ [.happen (.append 0 (bindingEntry secondBinding.toJs)),
        .happen (.settle 0 true), .resume 3 .succeed])
      ⟨.initial [bindingEntry firstBinding.toJs], []⟩).any (fun w =>
        w.state.stageOf 3 = some .reconnecting ∧
        (w.state.replacements 3).map (fun r => (r.expected, r.binding)) = some (0, firstBinding) ∧
        ((w.state.generations 0).closedAt.map readBreadboardSessionBinding).any
          fun read => read.toOption.join = some secondBinding) = true := by
    decide +kernel
  obtain ⟨w, hw, hends⟩ := (any_eq_true _ _).mp hrun
  obtain ⟨hstage, hbinding, hread⟩ := of_decide_eq_true hends
  refine ⟨w, hw, fun hsafe => ?_⟩
  obtain ⟨r, hr, hexpected⟩ := map_eq_some_iff.mp hbinding
  obtain ⟨hexpected, hfirst⟩ := Prod.mk.inj hexpected
  rw [stageOf, hr, Option.map_some] at hstage
  obtain ⟨branch, hclosed, hbranch⟩ := hsafe.current 3 r hr (some.inj hstage)
  rw [hexpected] at hclosed
  rw [hclosed, Option.map_some, Option.any_some, hbranch] at hread
  exact absurd (hfirst.symm.trans (some.inj (of_decide_eq_true hread))) (by decide)

end BreadboardTui
