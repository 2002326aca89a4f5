import BreadboardTui.Runtime.Recoverable

/-!
# Replacement is exclusive, current and leak-free

The argument about `recoverableRuntime`, over every interleaving. Whatever generation is still
open is either current or held by the one replacement under way, and that replacement is the one
in `replacementPromise`; from this follow the four parts of `ReplacementSafe`.

Runs have to be `Steady`: while a generation is being retired it appends no binding, for the
binding was read before `close()` was called; a generation whose activation or start fails has
been closed by itself; and where a replacement fails before `close()`, no stream waits for it
inside its `try`.
-/

namespace BreadboardTui

open Effects Option Bool

def ReplacementStage.isRejected : ReplacementStage → Bool
  | rejected _ => true
  | _ => false

variable {stage : ReplacementStage} {g : ℕ}

theorem ReplacementStage.active_of_held (h : stage.held = some g) : stage.active = true := by
  cases stage <;> simp_all [held, active]

namespace RecoverableRuntime

def stageOf (s : RecoverableRuntime) (id : ℕ) : Option ReplacementStage :=
  (s.replacements id).map (·.stage)

/-- The body of the replacement promise `id` has not ended. -/
def Active (s : RecoverableRuntime) (id : ℕ) : Prop :=
  ∃ r, s.replacements id = some r ∧ r.stage.active = true

/-- A replacement body holds the generation `g`. -/
def Holds (s : RecoverableRuntime) (g : ℕ) : Prop :=
  ∃ id r, s.replacements id = some r ∧ r.stage.held = some g

/-- The waits of one stream. -/
def waitsOf (s : RecoverableRuntime) (stream : ℕ) : List ReplacementWait :=
  s.replacementWaits.filter (·.stream == stream)

/-- No stream waits inside its `try` for a replacement that has failed, unless `close()` has been
called. -/
def FailsQuietly (s : RecoverableRuntime) : Prop :=
  ∀ wait ∈ s.replacementWaits, wait.fromEvent = true →
    (s.stageOf wait.promise).any (·.isRejected) = true → s.closed = true

instance FailsQuietly.decidable (s : RecoverableRuntime) : Decidable (FailsQuietly s) :=
  inferInstanceAs (Decidable (∀ wait ∈ s.replacementWaits, _ → _ → _))

/-- What may happen to the replacement under way in one update. -/
def SteadyReplacement (s t : RecoverableRuntime) (id : ℕ) (r : Replacement) : Prop :=
  match r.stage, t.stageOf id with
  | .retiring, _ => t.branch.length = s.branch.length
  | .activating next, some (.rejected _) => s.settled next = true ∧
      (s.closed = true ∨
        (s.generations r.expected).closedAt.map List.length = some s.branch.length)
  | _, _ => True

instance SteadyReplacement.decidable (s t : RecoverableRuntime) (id : ℕ) (r : Replacement) :
    Decidable (SteadyReplacement s t id r) := by
  unfold SteadyReplacement
  split <;> infer_instance

/-- The condition on one update of a run. -/
def Steady (s t : RecoverableRuntime) : Prop :=
  FailsQuietly t ∧
    ∀ id ∈ s.replacementPromise, ∀ r ∈ s.replacements id, SteadyReplacement s t id r

instance Steady.decidable (s t : RecoverableRuntime) : Decidable (Steady s t) :=
  inferInstanceAs (Decidable (_ ∧ ∀ id ∈ s.replacementPromise, ∀ r ∈ s.replacements id, _))

/-- What holds whenever no task is running. -/
structure Exclusive (s : RecoverableRuntime) : Prop where
  current_lt : s.current < s.generationCount
  unborn : ∀ g, s.generationCount ≤ g → (s.generations g).closedAt = none
  promised : ∀ id r, s.replacements id = some r → r.stage.active = true →
    s.replacementPromise = some id ∧ r.expected = s.current
  held_lt : ∀ g, s.Holds g → g < s.generationCount
  retired : ∀ g < s.generationCount, g ≠ s.current → s.settled g = true ∨ s.Holds g
  underway : ∀ id r, s.replacements id = some r → r.stage.active = true → r.stage ≠ .retiring →
    s.settled r.expected = true
  bound : ∀ id r, s.replacements id = some r → r.stage = .retiring →
    readBreadboardSessionBinding s.branch = .ok (some r.binding)
  received : ∀ id r, s.replacements id = some r → r.stage = .reconnecting →
    ∃ branch, (s.generations r.expected).closedAt = some branch ∧
      readBreadboardSessionBinding branch = .ok (some r.binding)
  latest : s.closed = false → ∀ g branch, (s.generations g).closedAt = some branch →
    (s.Holds g ∨ g = s.current ∧ ∀ g', ¬ s.Holds g') → branch = s.branch
  snapshots : ∀ g branch, (s.generations g).closedAt = some branch → branch <+: s.branch
  quiet : FailsQuietly s
  waitsOnce : ∀ stream g, (s.waitsOf stream).countP (·.generation == g) ≤ 1
  leakFree : s.closePromise = some .fulfilled → s.closed = true ∧
    (∀ g < s.generationCount, s.settled g = true) ∧ ∀ id, ¬ s.Active id

/-- What task `j` relies on while it is suspended. -/
structure Rely (j : ℕ) (s t : RecoverableRuntime) : Prop where
  own : t.replacements j = s.replacements j
  waits : t.waitsOf j = s.waitsOf j
  closed : s.closed = true → t.closed = true
  frozen : s.closed = true → ∀ id, t.Active id → s.Active id
  still : s.closed = true → (∀ id, ¬ s.Active id) →
    t.current = s.current ∧ t.generationCount = s.generationCount
  settled : ∀ g, s.settled g = true → t.settled g = true

variable {i j : ℕ} {s t u : RecoverableRuntime} {r : Replacement}

theorem Rely.refl (j : ℕ) (s : RecoverableRuntime) : Rely j s s :=
  ⟨rfl, rfl, id, fun _ _ => id, fun _ _ => ⟨rfl, rfl⟩, fun _ => id⟩

theorem Rely.trans (h : Rely j s t) (h' : Rely j t u) : Rely j s u where
  own := h'.own.trans h.own
  waits := h'.waits.trans h.waits
  closed hs := h'.closed (h.closed hs)
  frozen hs id hu := h.frozen hs id (h'.frozen (h.closed hs) id hu)
  still hs hidle := by
    obtain ⟨hcurrent, hcount⟩ := h.still hs hidle
    obtain ⟨hcurrent', hcount'⟩ :=
      h'.still (h.closed hs) fun id hid => hidle id (h.frozen hs id hid)
    exact ⟨hcurrent'.trans hcurrent, hcount'.trans hcount⟩
  settled g hs := h'.settled g (h.settled g hs)

/-! ### Updates that leave replacements alone -/

/-- The two states agree in everything the argument looks at. -/
structure SameCore (s t : RecoverableRuntime) : Prop where
  current : t.current = s.current
  count : t.generationCount = s.generationCount
  replacements : t.replacements = s.replacements
  promise : t.replacementPromise = s.replacementPromise
  branch : t.branch = s.branch
  closed : t.closed = s.closed
  waits : t.replacementWaits = s.replacementWaits
  closedAt : ∀ g, (t.generations g).closedAt = (s.generations g).closedAt
  closePromise : t.closePromise = some .fulfilled → s.closePromise = some .fulfilled

namespace SameCore

theorem settled (h : SameCore s t) (g : ℕ) : t.settled g = s.settled g := by
  rw [RecoverableRuntime.settled, h.closedAt, RecoverableRuntime.settled]

theorem active (h : SameCore s t) (id : ℕ) : t.Active id ↔ s.Active id := by
  rw [Active, h.replacements, Active]

theorem holds (h : SameCore s t) (g : ℕ) : t.Holds g ↔ s.Holds g := by
  rw [Holds, h.replacements, Holds]

theorem rely (h : SameCore s t) (j : ℕ) : Rely j s t where
  own := by rw [h.replacements]
  waits := by rw [waitsOf, h.waits, waitsOf]
  closed hs := by rw [h.closed, hs]
  frozen _ id hid := (h.active id).mp hid
  still _ _ := ⟨h.current, h.count⟩
  settled g hg := by rw [h.settled, hg]

theorem exclusive (h : SameCore s t) (hs : Exclusive s) : Exclusive t where
  current_lt := by
    rw [h.current, h.count]
    exact hs.current_lt
  unborn g hg := by
    rw [h.closedAt]
    exact hs.unborn g (h.count ▸ hg)
  promised id r hr hactive := by
    rw [h.promise, h.current]
    exact hs.promised id r (h.replacements ▸ hr) hactive
  held_lt g hg := by
    rw [h.count]
    exact hs.held_lt g ((h.holds g).mp hg)
  retired g hg hne := by
    rw [h.settled, h.holds]
    exact hs.retired g (h.count ▸ hg) (h.current ▸ hne)
  underway id r hr := by
    rw [h.settled]
    exact hs.underway id r (h.replacements ▸ hr)
  bound id r hr := by
    rw [h.branch]
    exact hs.bound id r (h.replacements ▸ hr)
  received id r hr := by
    rw [h.closedAt]
    exact hs.received id r (h.replacements ▸ hr)
  latest hopen g branch hbranch hg := by
    rw [h.branch]
    simp only [h.holds, h.current] at hg
    exact hs.latest (h.closed ▸ hopen) g branch (h.closedAt g ▸ hbranch) hg
  snapshots g branch hbranch := by
    rw [h.branch]
    exact hs.snapshots g branch (h.closedAt g ▸ hbranch)
  quiet := by
    have hquiet := hs.quiet
    rw [FailsQuietly, ← h.waits, ← h.closed] at hquiet
    simpa only [FailsQuietly, stageOf, h.replacements] using hquiet
  waitsOnce stream g := by
    rw [waitsOf, h.waits]
    exact hs.waitsOnce stream g
  leakFree hclose := by
    simp only [h.closed, h.count, h.settled, h.active]
    exact hs.leakFree (h.closePromise hclose)

/-- A change of one generation that does not settle it. -/
theorem updateGeneration {f : Generation → Generation}
    (hf : (f (s.generations g)).closedAt = (s.generations g).closedAt) :
    SameCore s (s.updateGeneration g f) where
  current := rfl
  count := rfl
  replacements := rfl
  promise := rfl
  branch := rfl
  closed := rfl
  waits := rfl
  closedAt g' := by
    by_cases hg : g' = g
    · rw [hg, generations_updateGeneration, Function.update_self, hf]
    · rw [generations_updateGeneration, Function.update_of_ne hg]
  closePromise := id

theorem beginClose (g : ℕ) : SameCore s (s.beginClose g) := updateGeneration rfl

theorem push (stream : ℕ) (event : AssistantEventType) : SameCore s (s.push stream event) := by
  unfold RecoverableRuntime.push
  split <;> exact ⟨rfl, rfl, rfl, rfl, rfl, rfl, rfl, fun _ => rfl, id⟩

theorem fail (stream : ℕ) (error : RuntimeFailure) : SameCore s (s.fail stream error) := by
  unfold RecoverableRuntime.fail
  split <;> exact ⟨rfl, rfl, rfl, rfl, rfl, rfl, rfl, fun _ => rfl, id⟩

end SameCore

/-! ### The replacement under way -/

theorem Exclusive.unique {id id' : ℕ} (hs : Exclusive s) (h : s.Active id) (h' : s.Active id') :
    id = id' := by
  obtain ⟨r, hr, hactive⟩ := h
  obtain ⟨r', hr', hactive'⟩ := h'
  have hpromise := (hs.promised id r hr hactive).1
  rw [(hs.promised id' r' hr' hactive').1] at hpromise
  exact (some.inj hpromise).symm

/-- `Only i r s`: the promise `i` is the only one whose body may not have ended, and `r` is what
it says. -/
structure Only (i : ℕ) (r : Replacement) (s : RecoverableRuntime) : Prop where
  self : s.replacements i = some r
  others : ∀ k, k ≠ i → ¬ s.Active k

theorem Exclusive.only (hs : Exclusive s) (h : s.replacements i = some r)
    (hactive : r.stage.active = true) : Only i r s :=
  ⟨h, fun _ hk hk' => hk (hs.unique hk' ⟨r, h, hactive⟩)⟩

theorem Only.eq {k : ℕ} {r' : Replacement} (h : Only i r s) (hk : s.replacements k = some r')
    (hactive : r'.stage.active = true) : k = i ∧ r' = r := by
  have hki : k = i := by
    by_contra hne
    exact h.others k hne ⟨r', hk, hactive⟩
  subst hki
  exact ⟨rfl, some.inj (hk.symm.trans h.self)⟩

theorem Only.holds (h : Only i r s) (g : ℕ) : s.Holds g ↔ r.stage.held = some g := by
  constructor
  · rintro ⟨k, r', hk, hheld⟩
    rw [← (h.eq hk (ReplacementStage.active_of_held hheld)).2]
    exact hheld
  intro hheld
  exact ⟨i, r, h.self, hheld⟩

theorem Only.setStage (h : Only i r s) (stage : ReplacementStage) :
    Only i { r with stage := stage } (s.setStage i stage) where
  self := by
    rw [replacements_setStage, Function.update_self, h.self]
    rfl
  others k hk := by
    rw [Active, replacements_setStage, Function.update_of_ne hk]
    exact h.others k hk

/-- What has to hold while a body is under way, in terms of its own promise. -/
theorem Only.exclusive (h : Only i r t) (hactive : r.stage.active = true)
    (hpromise : t.replacementPromise = some i) (hexpected : r.expected = t.current)
    (hlt : t.current < t.generationCount)
    (hunborn : ∀ g, t.generationCount ≤ g → (t.generations g).closedAt = none)
    (hheld : ∀ g, r.stage.held = some g → g < t.generationCount)
    (hretired : ∀ g < t.generationCount, g ≠ t.current →
      t.settled g = true ∨ r.stage.held = some g)
    (hunderway : r.stage ≠ .retiring → t.settled r.expected = true)
    (hbound : r.stage = .retiring →
      readBreadboardSessionBinding t.branch = .ok (some r.binding))
    (hreceived : r.stage = .reconnecting →
      ∃ branch, (t.generations r.expected).closedAt = some branch ∧
        readBreadboardSessionBinding branch = .ok (some r.binding))
    (hlatest : t.closed = false → ∀ g branch, (t.generations g).closedAt = some branch →
      (r.stage.held = some g ∨ g = t.current ∧ r.stage.held = none) → branch = t.branch)
    (hsnapshots : ∀ g branch, (t.generations g).closedAt = some branch → branch <+: t.branch)
    (hquiet : FailsQuietly t) (hwaits : ∀ stream g, (t.waitsOf stream).countP (·.generation == g) ≤ 1)
    (hclose : t.closePromise ≠ some .fulfilled) : Exclusive t where
  current_lt := hlt
  unborn := hunborn
  promised k r' hk hactive' := by
    obtain ⟨rfl, rfl⟩ := h.eq hk hactive'
    exact ⟨hpromise, hexpected⟩
  held_lt g hg := hheld g ((h.holds g).mp hg)
  retired g hg hne := by
    rw [h.holds]
    exact hretired g hg hne
  underway k r' hk hactive' := by
    obtain ⟨-, rfl⟩ := h.eq hk hactive'
    exact hunderway
  bound k r' hk hstage := by
    obtain ⟨-, rfl⟩ := h.eq hk (by rw [hstage]; rfl)
    exact hbound hstage
  received k r' hk hstage := by
    obtain ⟨-, rfl⟩ := h.eq hk (by rw [hstage]; rfl)
    exact hreceived hstage
  latest hopen g branch hbranch hg := by
    simp only [h.holds] at hg
    refine hlatest hopen g branch hbranch (hg.imp_right fun ⟨hcurrent, hnone⟩ => ⟨hcurrent, ?_⟩)
    exact eq_none_iff_forall_ne_some.mpr hnone
  snapshots := hsnapshots
  quiet := hquiet
  waitsOnce := hwaits
  leakFree hfulfilled := absurd hfulfilled hclose

/-- While a body is under way, `close()` has not resolved. -/
theorem Exclusive.not_fulfilled (hs : Exclusive s) (h : s.Active i) :
    s.closePromise ≠ some .fulfilled :=
  fun hclose => (hs.leakFree hclose).2.2 i h

/-- An update of a body's own promise, seen by the other tasks. -/
theorem Only.rely (h : Only i r s) (hactive : r.stage.active = true)
    (hown : t.replacements j = s.replacements j) (hothers : ∀ k, k ≠ i → ¬ t.Active k)
    (hwaits : t.replacementWaits = s.replacementWaits) (hclosed : t.closed = s.closed)
    (hsettled : ∀ g, t.settled g = s.settled g) : Rely j s t where
  own := hown
  waits := by rw [waitsOf, hwaits, waitsOf]
  closed hs := by rw [hclosed, hs]
  frozen _ k hk := by
    by_cases hki : k = i
    · exact hki ▸ ⟨r, h.self, hactive⟩
    · exact absurd hk (hothers k hki)
  still _ hidle := absurd ⟨r, h.self, hactive⟩ (hidle i)
  settled g hg := by rw [hsettled, hg]

/-- What has to hold while no body is under way. -/
theorem Exclusive.of_idle (hidle : ∀ k, ¬ t.Active k) (hlt : t.current < t.generationCount)
    (hunborn : ∀ g, t.generationCount ≤ g → (t.generations g).closedAt = none)
    (hretired : ∀ g < t.generationCount, g ≠ t.current → t.settled g = true)
    (hlatest : t.closed = false → ∀ branch, (t.generations t.current).closedAt = some branch →
      branch = t.branch)
    (hsnapshots : ∀ g branch, (t.generations g).closedAt = some branch → branch <+: t.branch)
    (hquiet : FailsQuietly t) (hwaits : ∀ stream g, (t.waitsOf stream).countP (·.generation == g) ≤ 1)
    (hclose : t.closePromise = some .fulfilled → t.closed = true ∧
      ∀ g < t.generationCount, t.settled g = true) : Exclusive t where
  current_lt := hlt
  unborn := hunborn
  promised k r hk hactive := absurd ⟨r, hk, hactive⟩ (hidle k)
  held_lt g := by
    rintro ⟨k, r, hk, hheld⟩
    exact absurd ⟨r, hk, ReplacementStage.active_of_held hheld⟩ (hidle k)
  retired g hg hne := .inl (hretired g hg hne)
  underway k r hk hactive := absurd ⟨r, hk, hactive⟩ (hidle k)
  bound k r hk hstage := absurd ⟨r, hk, by rw [hstage]; rfl⟩ (hidle k)
  received k r hk hstage := absurd ⟨r, hk, by rw [hstage]; rfl⟩ (hidle k)
  latest hopen g branch hbranch hg := by
    rcases hg with ⟨k, r, hk, hheld⟩ | ⟨rfl, -⟩
    · exact absurd ⟨r, hk, ReplacementStage.active_of_held hheld⟩ (hidle k)
    · exact hlatest hopen branch hbranch
  snapshots := hsnapshots
  quiet := hquiet
  waitsOnce := hwaits
  leakFree hfulfilled := ⟨(hclose hfulfilled).1, (hclose hfulfilled).2, hidle⟩

/-! ### The steps of a body -/

/-- `pending` goes on after the expected generation has been closed. -/
theorem Exclusive.reconnect (hs : Exclusive s) (h : Only i r s) (hstage : r.stage = .retiring)
    (hclosed : s.closed = false) (hsettled : s.settled r.expected = true)
    (hquiet : FailsQuietly (s.setStage i .reconnecting)) :
    Exclusive (s.setStage i .reconnecting) := by
  have hactive : r.stage.active = true := by rw [hstage]; rfl
  have hheld : ∀ g, ¬ s.Holds g := fun g hg => by simp [h.holds, hstage, ReplacementStage.held] at hg
  obtain ⟨hpromise, hexpected⟩ := hs.promised i r h.self hactive
  obtain ⟨branch, hbranch⟩ := isSome_iff_exists.mp hsettled
  have hlatest : branch = s.branch := hs.latest hclosed r.expected branch hbranch
    (.inr ⟨hexpected, hheld⟩)
  refine (h.setStage .reconnecting).exclusive rfl hpromise hexpected hs.current_lt hs.unborn
    (fun g hg => nomatch hg) (fun g hg hne => ?_) (fun _ => hsettled) (fun hg => nomatch hg)
    (fun _ => ⟨branch, hbranch, ?_⟩) (fun hopen g b hb hg => ?_) hs.snapshots hquiet
    hs.waitsOnce (hs.not_fulfilled ⟨r, h.self, hactive⟩)
  · exact .inl ((hs.retired g hg hne).resolve_right (hheld g))
  · rw [hlatest]
    exact hs.bound i r h.self hstage
  rcases hg with hg | ⟨rfl, -⟩
  · cases hg
  · exact hs.latest hopen _ b hb (.inr ⟨rfl, hheld⟩)

/-- `reconnect` has returned the generation `s.generationCount`. -/
theorem Exclusive.hold (hs : Exclusive s) (h : Only i r s)
    (hr : r.stage = .reconnecting) (hheld : stage.held = some s.generationCount)
    (hquiet : FailsQuietly { s.setStage i stage with generationCount := s.generationCount + 1 }) :
    Exclusive { s.setStage i stage with generationCount := s.generationCount + 1 } := by
  have hactive : r.stage.active = true := by rw [hr]; rfl
  have hnone : ∀ g, ¬ s.Holds g := fun g hg => by simp [h.holds, hr, ReplacementStage.held] at hg
  obtain ⟨hpromise, hexpected⟩ := hs.promised i r h.self hactive
  have hstage : stage ≠ .retiring ∧ stage ≠ .reconnecting := by
    constructor <;> rintro rfl <;> cases hheld
  have honly : Only i { r with stage := stage }
      { s.setStage i stage with generationCount := s.generationCount + 1 } :=
    ⟨(h.setStage stage).self, (h.setStage stage).others⟩
  have hnew : (s.generations s.generationCount).closedAt = none := hs.unborn _ le_rfl
  refine honly.exclusive (ReplacementStage.active_of_held hheld) hpromise hexpected
    (Nat.lt_succ_of_lt hs.current_lt) (fun g hg => hs.unborn g (Nat.le_of_succ_le hg))
    (fun g hg => ?_) (fun g hg hne => ?_) (fun _ => hs.underway i r h.self hactive (by simp [hr]))
    (fun hg => absurd hg hstage.1) (fun hg => absurd hg hstage.2) (fun hopen g b hb hg => ?_)
    hs.snapshots hquiet hs.waitsOnce (hs.not_fulfilled ⟨r, h.self, hactive⟩)
  · obtain rfl := some.inj (hheld.symm.trans hg)
    exact Nat.lt_succ_self _
  · by_cases hnext : g = s.generationCount
    · exact .inr (hnext ▸ hheld)
    · have hlt : g < s.generationCount + 1 := hg
      exact .inl ((hs.retired g (by omega) hne).resolve_right (hnone g))
  rcases hg with hg | ⟨-, hg⟩
  · obtain rfl := some.inj (hheld.symm.trans hg)
    exact nomatch hb.symm.trans hnew
  · exact nomatch hg.symm.trans hheld

theorem Only.idle_setStage (h : Only i r s)
    (hstage : stage.active = false) (k : ℕ) : ¬ (s.setStage i stage).Active k := by
  by_cases hk : k = i
  · subst hk
    rintro ⟨r', hr', hactive⟩
    rw [(h.setStage stage).self] at hr'
    cases hr'
    exact false_ne_true (hstage.symm.trans hactive)
  · exact (h.setStage stage).others k hk

/-- The body ends in an error and leaves no generation open. -/
theorem Exclusive.reject {e : RuntimeFailure} (hs : Exclusive s) (h : Only i r s)
    (hactive : r.stage.active = true) (hquiet : FailsQuietly (s.setStage i (.rejected e)))
    (hheld : ∀ g, r.stage.held = some g → s.settled g = true)
    (hlatest : s.closed = false → ∀ branch, (s.generations s.current).closedAt = some branch →
      branch = s.branch) :
    Exclusive (s.setStage i (.rejected e)) := by
  refine Exclusive.of_idle (h.idle_setStage rfl) hs.current_lt hs.unborn (fun g hg hne => ?_)
    hlatest hs.snapshots hquiet hs.waitsOnce
    fun hfulfilled => absurd hfulfilled (hs.not_fulfilled ⟨r, h.self, hactive⟩)
  rcases hs.retired g hg hne with hsettled | hholds
  · exact hsettled
  · exact hheld g ((h.holds g).mp hholds)

/-- The replacement is made current. -/
theorem Exclusive.fulfil {next : ℕ} (hs : Exclusive s) (h : Only i r s)
    (hr : r.stage = .activating next)
    (hquiet : FailsQuietly { s.setStage i (.fulfilled next) with current := next }) :
    Exclusive { s.setStage i (.fulfilled next) with current := next } := by
  have hactive : r.stage.active = true := by rw [hr]; rfl
  have hheld : s.Holds next := (h.holds next).mpr (by rw [hr]; rfl)
  obtain ⟨-, hexpected⟩ := hs.promised i r h.self hactive
  have hsettled : s.settled s.current = true :=
    hexpected ▸ hs.underway i r h.self hactive (by simp [hr])
  refine Exclusive.of_idle (h.idle_setStage rfl) (hs.held_lt next hheld) hs.unborn
    (fun g hg hne => ?_) (fun hopen b hb => hs.latest hopen next b hb (.inl hheld))
    hs.snapshots hquiet hs.waitsOnce
    fun hfulfilled => absurd hfulfilled (hs.not_fulfilled ⟨r, h.self, hactive⟩)
  · by_cases hcurrent : g = s.current
    · exact hcurrent ▸ hsettled
    · refine (hs.retired g hg hcurrent).resolve_right fun hg' => hne ?_
      rw [h.holds, hr] at hg'
      exact (some.inj hg').symm

/-! ### The other updates -/

/-- A stream has found nothing under way and starts a replacement. -/
theorem Exclusive.begin {binding : BreadboardSessionBindingData} (hs : Exclusive s)
    (hclosed : s.closed = false) (hpromise : s.replacementPromise = none)
    (hbinding : readBreadboardSessionBinding s.branch = .ok (some binding))
    (hquiet : FailsQuietly { s with
      replacements := Function.update s.replacements i (some ⟨s.current, binding, .retiring⟩)
      replacementPromise := some i }) :
    Exclusive { s with
      replacements := Function.update s.replacements i (some ⟨s.current, binding, .retiring⟩)
      replacementPromise := some i } := by
  have hidle : ∀ k, ¬ s.Active k := by
    rintro k ⟨r, hk, hactive⟩
    exact nomatch hpromise.symm.trans (hs.promised k r hk hactive).1
  have hnone : ∀ g, ¬ s.Holds g := by
    rintro g ⟨k, r, hk, hheld⟩
    exact hidle k ⟨r, hk, ReplacementStage.active_of_held hheld⟩
  have honly : Only i ⟨s.current, binding, .retiring⟩
      { s with
        replacements := Function.update s.replacements i (some ⟨s.current, binding, .retiring⟩)
        replacementPromise := some i } := by
    refine ⟨Function.update_self .., ?_⟩
    rintro k hk ⟨r, hr, hactive⟩
    exact hidle k ⟨r, (Function.update_of_ne hk ..).symm.trans hr, hactive⟩
  refine honly.exclusive rfl rfl rfl hs.current_lt hs.unborn (fun g hg => nomatch hg)
    (fun g hg hne => .inl ((hs.retired g hg hne).resolve_right (hnone g)))
    (fun hg => absurd rfl hg) (fun _ => hbinding) (fun hg => nomatch hg) (fun hopen g b hb hg => ?_)
    hs.snapshots hquiet hs.waitsOnce fun hclose => ?_
  · rcases hg with hg | ⟨rfl, -⟩
    · cases hg
    · exact hs.latest hopen _ b hb (.inr ⟨rfl, hnone⟩)
  · exact false_ne_true (hclosed.symm.trans (hs.leakFree hclose).1)

theorem Exclusive.clearPromise {id : ℕ} (hs : Exclusive s) (hidle : ¬ s.Active id)
    (hpromise : s.replacementPromise = some id) :
    Exclusive { s with replacementPromise := none } :=
  { hs with
    promised := by
      intro k r hk hactive
      obtain rfl := some.inj (hpromise.symm.trans (hs.promised k r hk hactive).1)
      exact absurd ⟨r, hk, hactive⟩ hidle }

theorem waitsOf_cons (s : RecoverableRuntime) (wait : ReplacementWait) (stream : ℕ) :
    waitsOf { s with replacementWaits := wait :: s.replacementWaits } stream =
      if wait.stream = stream then wait :: s.waitsOf stream else s.waitsOf stream := by
  simp [waitsOf, List.filter_cons]

theorem Exclusive.wait {wait : ReplacementWait} (hs : Exclusive s)
    (hwaits : s.waitsOf wait.stream = [])
    (hquiet : FailsQuietly { s with replacementWaits := wait :: s.replacementWaits }) :
    Exclusive { s with replacementWaits := wait :: s.replacementWaits } :=
  { hs with
    quiet := hquiet
    waitsOnce := by
      intro stream g
      rw [waitsOf_cons]
      split
      · next hstream =>
        rw [← hstream, hwaits]
        exact List.countP_le_length
      · exact hs.waitsOnce stream g }

theorem Exclusive.beginClosing (hs : Exclusive s) : Exclusive { s with
      closePromise := some .pending, cleanupRegistered := false, closed := true } :=
  { hs with
    latest := fun hopen => nomatch hopen
    quiet := fun _ _ _ _ => rfl
    leakFree := fun hclose => nomatch hclose }

theorem Exclusive.resolveClose (hs : Exclusive s) (hclosed : s.closed = true)
    (hidle : ∀ k, ¬ s.Active k) (hsettled : s.settled s.current = true) :
    Exclusive { s with closePromise := some .fulfilled } :=
  { hs with
    leakFree := by
      refine fun _ => ⟨hclosed, fun g hg => ?_, hidle⟩
      by_cases hcurrent : g = s.current
      · exact hcurrent ▸ hsettled
      refine (hs.retired g hg hcurrent).resolve_right ?_
      rintro ⟨k, r, hk, hheld⟩
      exact hidle k ⟨r, hk, ReplacementStage.active_of_held hheld⟩ }

/-- The promise of `close()` of one generation settles. -/
theorem Exclusive.settle {succeeded : Bool} (hs : Exclusive s)
    (hlt : g < s.generationCount) (hopen : s.settled g = false) : Exclusive (s.updateGeneration g
      ({ · with closedAt := some s.branch, closeSucceeded := succeeded })) ∧
    ∀ j, Rely j s (s.updateGeneration g
      ({ · with closedAt := some s.branch, closeSucceeded := succeeded })) := by
  set t := s.updateGeneration g ({ · with closedAt := some s.branch, closeSucceeded := succeeded })
    with ht
  have hself : (t.generations g).closedAt = some s.branch := by
    rw [ht, generations_updateGeneration, Function.update_self]
  have hother : ∀ g', g' ≠ g → (t.generations g').closedAt = (s.generations g').closedAt := by
    intro g' hg
    rw [ht, generations_updateGeneration, Function.update_of_ne hg]
  have hmono : ∀ g', s.settled g' = true → t.settled g' = true := by
    intro g' hg
    by_cases hg' : g' = g
    · rw [hg', settled, hself]
      rfl
    · rwa [settled, hother g' hg']
  refine ⟨{ hs with
      unborn := ?_, retired := ?_, underway := ?_, received := ?_, latest := ?_, snapshots := ?_
      leakFree := ?_ },
    fun j => ⟨rfl, rfl, id, fun _ _ => id, fun _ _ => ⟨rfl, rfl⟩, hmono⟩⟩
  · intro g' hg
    rw [hother g' (by rintro rfl; exact absurd hlt (not_lt.mpr hg))]
    exact hs.unborn g' hg
  · exact fun g' hg hne => (hs.retired g' hg hne).imp_left (hmono g')
  · exact fun k r hk hactive hstage => hmono _ (hs.underway k r hk hactive hstage)
  · intro k r hk hstage
    have hexpected : s.settled r.expected = true :=
      hs.underway k r hk (by rw [hstage]; rfl) (by simp [hstage])
    rw [hother _ (by rintro rfl; exact false_ne_true (hopen.symm.trans hexpected))]
    exact hs.received k r hk hstage
  · intro hclosed g' b hb hg
    by_cases hg' : g' = g
    · subst hg'
      exact (some.inj (hself.symm.trans hb)).symm
    rw [hother g' hg'] at hb
    exact hs.latest hclosed g' b hb hg
  · intro g' b hb
    by_cases hg' : g' = g
    · subst hg'
      rw [some.inj (hb.symm.trans hself)]
      exact List.prefix_rfl
    · exact hs.snapshots g' b ((hother g' hg').symm.trans hb)
  exact fun hclose => ⟨(hs.leakFree hclose).1, fun g' hg => hmono g' ((hs.leakFree hclose).2.1 g' hg),
    (hs.leakFree hclose).2.2⟩

/-- An open generation appends a binding, while none is being retired. -/
theorem Exclusive.append {g : ℕ} {entry : BreadboardSessionBindingEntry} (hs : Exclusive s)
    (hlt : g < s.generationCount) (hopen : s.settled g = false)
    (hsteady : Steady s { s with branch := s.branch ++ [entry] }) :
    Exclusive { s with branch := s.branch ++ [entry] } := by
  have hretiring : ∀ k r, s.replacements k = some r → r.stage ≠ .retiring := by
    intro k r hk hstage
    have hpromise := (hs.promised k r hk (by rw [hstage]; rfl)).1
    have hlength := hsteady.2 k hpromise r hk
    rw [SteadyReplacement, hstage, List.length_append, List.length_singleton] at hlength
    omega
  refine { hs with bound := ?_, latest := ?_, snapshots := ?_ }
  · exact fun k r hk hstage => absurd hstage (hretiring k r hk)
  · intro hclosed g' b hb hg
    have hsettled : s.settled g' = true := by rw [settled, hb]; rfl
    have hne : g' ≠ g := by
      rintro rfl
      exact false_ne_true (hopen.symm.trans hsettled)
    have hheld : s.Holds g ∨ g = s.current := by
      by_cases hcurrent : g = s.current
      · exact .inr hcurrent
      · exact .inl ((hs.retired g hlt hcurrent).resolve_left (by simp [hopen]))
    rcases hg with ⟨k, r, hk, hheld'⟩ | ⟨hcurrent, hnone⟩
    · have hactive := ReplacementStage.active_of_held hheld'
      rcases hheld with hg | hg
      · rw [(hs.only hk hactive).holds, hheld'] at hg
        exact absurd (some.inj hg) hne
      have hexpected := hs.underway k r hk hactive (hretiring k r hk)
      rw [(hs.promised k r hk hactive).2, ← hg, hopen] at hexpected
      cases hexpected
    rcases hheld with hg | hg
    · exact absurd hg (hnone g)
    · exact absurd (hcurrent.trans hg.symm) hne
  · exact fun g' b hb => (hs.snapshots g' b hb).trans (List.prefix_append ..)

end RecoverableRuntime

end BreadboardTui
