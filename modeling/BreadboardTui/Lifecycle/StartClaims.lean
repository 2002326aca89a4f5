import BreadboardTui.Lifecycle.RecordSecrets

/-!
# Who may start an engine

The calls on the start claim of an endpoint, which its lock puts one after the other. Once
`claimStart` has answered `claimed`, the start belongs to that token, whichever steps throw, until
someone releases it, retires its claim or sees its starter dead.
-/

namespace BreadboardTui

open Effects

def rollbackOwnerAttempt (platform : Platform) (temporaryId endpoint : String)
    (expected : LocalStartClaim) : StoreM LocalStartClaim := do
  let key := endpointKey platform endpoint
  let claim ← readStartClaim key
  throwIf (claim != expected || claim.engine.isNone || claim.ownerAttemptGeneration.all (· < 2))
    .generationConflict "start claim owner attempt cannot be rolled back"
  let rolledBack ← check (assertStartClaim
    { claim with ownerAttemptGeneration := claim.ownerAttemptGeneration.map (· - 1) })
  atomicWrite temporaryId (.starting key) (.startClaim rolledBack)
  return rolledBack

/-- A call on the start claim of an endpoint. -/
inductive ClaimCall where
  | claimStart (seams : ClaimSeams)
  | prepareStartClaim (temporaryId token : String) (input : PrepareStartClaimInput)
      (secret : PendingStartSecret)
  | bindStartClaimProcess (temporaryId token : String) (engine : ProcessIdentity)
  | markOwnerAttempt (temporaryId : String) (expected : LocalStartClaim)
  | rollbackOwnerAttempt (temporaryId : String) (expected : LocalStartClaim)
  | verifyStartClaim (expected : LocalStartClaim)
  | releaseStartClaim (token : String)
  | retireDeadStartClaim (retiredId : String) (expected : LocalStartClaim)

/-- The program of a call, with the verdict of `claimStart`. -/
def claimProgram (platform : Platform) (endpoint : String) :
    ClaimCall → StoreM (Option StartClaimResult)
  | .claimStart seams => some <$> claimStart platform seams endpoint
  | .prepareStartClaim temporaryId token input secret =>
    (fun _ => none) <$> prepareStartClaim platform temporaryId endpoint token input secret
  | .bindStartClaimProcess temporaryId token engine =>
    (fun _ => none) <$> bindStartClaimProcess platform temporaryId endpoint token engine
  | .markOwnerAttempt temporaryId expected =>
    (fun _ => none) <$> markOwnerAttempt platform temporaryId endpoint expected
  | .rollbackOwnerAttempt temporaryId expected =>
    (fun _ => none) <$> rollbackOwnerAttempt platform temporaryId endpoint expected
  | .verifyStartClaim expected => (fun _ => none) <$> verifyStartClaim platform endpoint expected
  | .releaseStartClaim token => (fun _ => none) <$> releaseStartClaim platform endpoint token
  | .retireDeadStartClaim retiredId expected =>
    (fun _ => none) <$> retireDeadStartClaim platform retiredId endpoint expected

/-- A call leaves the claim of `token` to its holder: it neither releases nor retires that claim
and does not take the starter for dead. -/
def ClaimCall.Spares (token : String) (starter : ProcessIdentity) : ClaimCall → Prop
  | claimStart seams => seams.isLockOwnerAlive starter ≠ .dead
  | releaseStartClaim token' => token' ≠ token
  | retireDeadStartClaim _ expected => expected.token ≠ token
  | _ => True

abbrev ClaimAnswer := Except StoreFailure (Option StartClaimResult)

/-- What a call is told while `token` holds the start. If it returns, the start is occupied, or
the call has named that token. -/
def ClaimCall.Told (token : String) : ClaimCall → ClaimAnswer → Prop
  | _, .error _ => True
  | claimStart _, .ok verdict => ∃ claim, verdict = some (.occupied claim) ∧ claim.token = token
  | prepareStartClaim _ token' .., .ok _ | bindStartClaimProcess _ token' _, .ok _
  | releaseStartClaim token', .ok _ => token' = token
  | markOwnerAttempt _ expected, .ok _ | rollbackOwnerAttempt _ expected, .ok _
  | verifyStartClaim expected, .ok _ | retireDeadStartClaim _ expected, .ok _ =>
    expected.token = token

/-- The claim file of `key` holds a claim of `token` by `starter`. -/
def Held (key token : String) (starter : ProcessIdentity) (d : StoreDirectory) : Prop :=
  ∃ claim, contentAt d (.starting key) = some (.startClaim claim) ∧ claim.token = token ∧
    claim.starter = starter

/-- `Upholds P p d R`: whatever fails in the call, `P` holds at its end, and a result satisfies
`R`. -/
def Upholds {α : Type} (P : StoreDirectory → Prop) (p : StoreM α) (d : StoreDirectory)
    (R : α → StoreDirectory → Prop) : Prop :=
  Calls (fun r d' _ => P d' ∧ ∀ a, r = .ok a → R a d') p d .quiet

section Rules

variable {α β : Type} {P : StoreDirectory → Prop} {p : StoreM α} {f : α → StoreM β}
  {d : StoreDirectory} {R : α → Prop} {S : β → StoreDirectory → Prop} {A : Prop}

theorem upholds_pure {b : β} (hd : P d) (hb : S b d) : Upholds P (pure b) d S :=
  ⟨hd, by rintro _ ⟨⟩; exact hb⟩

theorem upholds_reads (hp : Reads p d R A) (hd : P d)
    (hf : ∀ a, R a → Upholds P (f a) d S) : Upholds P (p >>= f) d S := by
  refine calls_bind.mpr ((hp .quiet).mono fun r d' m' hr => ?_)
  cases r with
  | ok a =>
    obtain ⟨rfl, rfl, ha⟩ := hr
    exact hf a ha
  | error =>
    obtain ⟨rfl, -⟩ := hr
    exact ⟨hd, by simp⟩

theorem upholds_throwIf {c : Prop} [Decidable c] {code : AuthorityStoreErrorCode}
    {message : String} {f : Unit → StoreM β} (hd : P d) (hf : ¬ c → Upholds P (f ()) d S) :
    Upholds P (throwIf c code message >>= f) d S :=
  upholds_reads (A := True) reads_throwIf hd fun _ h => hf h

theorem upholds_touches {names : List StoreFile} {T : α → StoreDirectory → Prop}
    (hp : Touches names p d T) (hP : ∀ d', SameExcept names d d' → P d')
    (hf : ∀ a d', SameExcept names d d' → T a d' → Upholds P (f a) d' S) :
    Upholds P (p >>= f) d S := by
  refine calls_bind.mpr (Calls.mono (fun r d' m' hr => ?_) hp)
  obtain ⟨rfl, hsame, hT⟩ := hr
  cases r with
  | ok a => exact hf a d' hsame (hT a rfl)
  | error => exact ⟨hP d' hsame, by simp⟩

theorem Upholds.map {g : α → β} (hp : Upholds P p d fun a => S (g a)) :
    Upholds P (g <$> p) d S := by
  refine calls_bind.mpr (Calls.mono (fun r d' m' hr => ?_) hp)
  cases r with
  | ok a => exact ⟨hr.1, by rintro _ ⟨⟩; exact hr.2 a rfl⟩
  | error => exact ⟨hr.1, by simp⟩

/-- The last step of a call that writes. -/
theorem upholds_last {b : β} (hp : Calls (fun _ d' _ => P d') p d .quiet) (hS : ∀ d', S b d') :
    Upholds P (p >>= fun _ => pure b) d S :=
  Upholds.map (g := fun _ => b) (hp.mono fun _ d' _ hr => ⟨hr, fun _ _ => hS d'⟩)

end Rules

/-! ### One call -/

section Calls

variable {platform : Platform} {endpoint key token token' : String} {starter : ProcessIdentity}
  {d d' : StoreDirectory} {claim claim' : LocalStartClaim}

theorem reads_currentClaim {handler : StoreFailure → StoreM (Option LocalStartClaim)}
    (hmissing : handler (.errno .missing) = pure none)
    (hpresent : handler (.errno .present) = throw (.errno .present))
    (hfailed : handler (.errno .failed) = throw (.errno .failed))
    (hstore : ∀ error, handler (.store error) = throw (.store error)) :
    Reads (tryCatch (some <$> readStartClaim key) handler) d
      (fun current => current.elim (.starting key ∉ d) fun claim =>
        contentAt d (.starting key) = some (.startClaim claim) ∧ claim.isValid = true) False := by
  refine reads_readStartClaim.orNone hmissing fun e he => ?_
  cases e with
  | store error => exact hstore error
  | errno error =>
    cases error with
    | missing => exact (he rfl).elim
    | present => exact hpresent
    | failed => exact hfailed

/-- A claim that a verdict says was made is in the file. -/
def Written (key : String) (verdict : StartClaimResult) (d : StoreDirectory) : Prop :=
  ∀ claim, verdict = .claimed claim → contentAt d (.starting key) = some (.startClaim claim)

theorem upholds_writeClaim (seams : ClaimSeams) : Upholds (fun _ => True)
    (writeClaim platform seams endpoint) d (Written (endpointKey platform endpoint)) := by
  refine upholds_reads reads_probeCurrent trivial fun current _ => ?_
  have hcleanup : Calls (fun _ _ m => m = .quiet)
      (onlyIf (current = none) (cleanupOrphanAuthoritySecrets (endpointKey platform endpoint)))
      d .quiet := by
    unfold onlyIf
    split
    · exact (calls_cleanupMatching _ d).mono fun _ _ _ h => h.1
    · exact rfl
  refine calls_bind.mpr (hcleanup.mono fun r d₁ m₁ hr => ?_)
  obtain rfl := hr
  cases r with
  | error => exact ⟨trivial, by simp⟩
  | ok =>
    refine upholds_touches touches_exclusiveWrite (fun _ _ => trivial) fun _ d₂ _ hcontent => ?_
    refine upholds_pure trivial ?_
    rintro _ ⟨⟩
    exact hcontent

theorem judgeClaim_ne_claimed {isLockOwnerAlive : ProcessIdentity → Liveness} :
    judgeClaim isLockOwnerAlive claim ≠ some (.claimed claim') := by
  unfold judgeClaim
  repeat' split
  all_goals simp

theorem upholds_claimStart (seams : ClaimSeams) : Upholds (fun _ => True)
    (claimStart platform seams endpoint) d (Written (endpointKey platform endpoint)) := by
  refine upholds_reads reads_assertRootIdentity trivial fun _ _ => ?_
  refine upholds_reads (reads_currentClaim rfl rfl rfl fun _ => rfl) trivial
    fun current hcurrent => ?_
  cases current with
  | none => exact upholds_writeClaim seams
  | some current =>
    obtain ⟨file, hlookup, -⟩ := contentAt_eq_some.mp hcurrent.1
    simp only []
    split
    · next verdict hverdict =>
      refine upholds_pure trivial ?_
      rintro claim rfl
      exact (judgeClaim_ne_claimed hverdict).elim
    refine calls_bind.mpr ((calls_renameAt_cases hlookup).mono fun r d₁ m₁ hr => ?_)
    cases r with
    | error => exact ⟨trivial, by simp⟩
    | ok =>
      obtain rfl : m₁ = .quiet := hr.elim (fun h => h.2.1) fun h => h.2
      exact upholds_reads settles_syncParent.reads trivial fun _ _ => upholds_writeClaim seams

theorem Held.of_claim (hd : Held key token starter d)
    (h : contentAt d (.starting key) = some (.startClaim claim)) :
    claim.token = token ∧ claim.starter = starter := by
  obtain ⟨held, hheld, hsame⟩ := hd
  obtain rfl : held = claim := by simpa [hheld] using h
  exact hsame

theorem Held.congr (hd : Held key token starter d)
    (h : d'.lookup (.starting key) = d.lookup (.starting key)) : Held key token starter d' := by
  obtain ⟨held, hheld, hsame⟩ := hd
  exact ⟨held, by rwa [contentAt, h], hsame⟩

/-- Rewriting a claim keeps who holds it. -/
theorem calls_atomicWrite_held (hd : Held key token starter d) (id : String)
    (hsame : claim.token = token ∧ claim.starter = starter) :
    Calls (fun _ d' _ => Held key token starter d')
      (atomicWrite id (.starting key) (.startClaim claim)) d .quiet := by
  refine (calls_atomicWrite id _ _ d).mono fun r d' m' hr => ?_
  cases r with
  | ok => exact ⟨claim, hr.result.1, hsame⟩
  | error => exact hr.result.elim (fun h => hd.congr h.1) fun h => ⟨claim, h.1, hsame⟩

theorem calls_publishOrRevoke_held (hd : Held key token starter d) (id : String)
    {secret : StoreFile} (hsame : claim.token = token ∧ claim.starter = starter)
    (hsecret : .starting key ∉ [secret]) :
    Calls (fun _ d' _ => Held key token starter d')
      (publishOrRevoke id (.starting key) (.startClaim claim) secret) d .quiet := by
  refine calls_tryCatch.mpr ((calls_atomicWrite_held hd id hsame).mono fun r d₁ m₁ hd₁ => ?_)
  cases r with
  | ok => exact hd₁
  | error =>
    -- the secret is taken back, the claim stays
    refine calls_bind.mpr (calls_bind.mpr ((calls_unlinkAt secret true d₁ m₁).mono
      fun r d₂ m₂ hr => ?_))
    have hd₂ := hd₁.congr (hr.others _ hsecret)
    cases r with
    | error => exact hd₂
    | ok =>
      refine (settles_syncParent d₂ m₂).mono fun r d₃ m₃ hr => ?_
      obtain ⟨rfl, -⟩ := hr
      cases r <;> exact hd₂

/-- A call that reads the claim and checks that it is the one of `token'`. -/
theorem Held.guarded {α : Type} {guard : LocalStartClaim → Bool} {code : AuthorityStoreErrorCode}
    {message : String} {rest : LocalStartClaim → Unit → StoreM α} {S : α → StoreDirectory → Prop}
    (hd : Held key token starter d) (token' : String)
    (hguard : ∀ claim, guard claim = false → claim.token = token')
    (hrest : ∀ claim, claim.token = token ∧ claim.starter = starter → token' = token →
      Upholds (Held key token starter) (rest claim ()) d S) :
    Upholds (Held key token starter) (do
      let claim ← readStartClaim key
      throwIf (guard claim) code message >>= rest claim) d S := by
  refine upholds_reads reads_readStartClaim hd fun claim hclaim => ?_
  refine upholds_throwIf hd fun hpass => ?_
  have hsame := hd.of_claim hclaim.1
  exact hrest claim hsame ((hguard claim (Bool.eq_false_iff.mpr hpass)).symm.trans hsame.1)

/-- The end of a call that changes what a claim says, but not who holds it. -/
theorem Held.rewritten {S : LocalStartClaim → StoreDirectory → Prop}
    (hd : Held key token starter d) {id : String}
    (hsame : claim.token = token ∧ claim.starter = starter) (hS : ∀ d', S claim d') :
    Upholds (Held key token starter) (do
      let claim ← check (assertStartClaim claim)
      atomicWrite id (.starting key) (.startClaim claim)
      return claim) d S := by
  refine upholds_reads (A := True) (reads_check fun _ h => h) hd fun written hwritten => ?_
  obtain ⟨rfl, -⟩ := assertStartClaim_eq_ok.mp hwritten
  exact upholds_last (calls_atomicWrite_held hd id hsame) hS

/-- **One call of anybody**, with any failures, while a token holds a start. -/
theorem ClaimCall.upholds (call : ClaimCall)
    (hd : Held (endpointKey platform endpoint) token starter d)
    (hspares : call.Spares token starter) :
    Upholds (Held (endpointKey platform endpoint) token starter)
      (claimProgram platform endpoint call) d fun verdict _ => call.Told token (.ok verdict) := by
  have hmem : .starting (endpointKey platform endpoint) ∈ d := by
    obtain ⟨held, hheld, -⟩ := hd
    obtain ⟨file, hlookup, -⟩ := contentAt_eq_some.mp hheld
    exact AList.lookup_isSome.mp (by rw [hlookup]; rfl)
  cases call with
  | claimStart seams =>
    refine Upholds.map (upholds_reads reads_assertRootIdentity hd fun _ _ =>
      upholds_reads (reads_currentClaim rfl rfl rfl fun _ => rfl) hd fun current hcurrent => ?_)
    cases current with
    | none => exact (hcurrent hmem).elim
    | some current =>
      obtain ⟨htoken, hstarter⟩ := hd.of_claim hcurrent.1
      have halive : seams.isLockOwnerAlive current.starter ≠ .dead := by
        rw [hstarter]
        exact hspares
      have hverdict : judgeClaim seams.isLockOwnerAlive current = some (.occupied current) :=
        if_pos halive
      simp only [hverdict]
      exact upholds_pure hd ⟨current, rfl, htoken⟩
  | prepareStartClaim temporaryId token' input secret =>
    refine Upholds.map (upholds_throwIf hd fun _ => upholds_throwIf hd fun _ => ?_)
    refine hd.guarded token' (by simp_all) fun claim hsame hnames =>
      upholds_reads (A := True) (reads_check fun _ h => h) hd fun _ _ => ?_
    refine upholds_touches touches_exclusiveWrite (fun _ h => hd.congr (h _ (by simp)))
      fun _ d₁ h₁ _ => ?_
    have hd₁ := hd.congr (h₁ _ (by simp))
    refine upholds_reads (A := True) (reads_check fun _ h => h) hd₁
      fun prepared hprepared => ?_
    obtain ⟨rfl, -⟩ := assertStartClaim_eq_ok.mp hprepared
    exact upholds_last (calls_publishOrRevoke_held hd₁ temporaryId hsame (by simp))
      fun _ => hnames
  | bindStartClaimProcess temporaryId token' engine =>
    exact Upholds.map (hd.guarded token' (by simp_all) fun claim hsame hnames =>
      hd.rewritten hsame fun _ => hnames)
  | markOwnerAttempt temporaryId expected =>
    exact Upholds.map (hd.guarded expected.token (by simp_all) fun claim hsame hnames =>
      upholds_throwIf hd fun _ => hd.rewritten hsame fun _ => hnames)
  | rollbackOwnerAttempt temporaryId expected =>
    exact Upholds.map (hd.guarded expected.token (by simp_all) fun claim hsame hnames =>
      hd.rewritten hsame fun _ => hnames)
  | verifyStartClaim expected =>
    refine Upholds.map (upholds_reads reads_readStartClaim hd fun claim hclaim =>
      ((reads_throwIf : Reads _ d _ True) .quiet).mono fun r d' m' hr => ?_)
    obtain ⟨rfl, hr⟩ := hr
    refine ⟨hd, ?_⟩
    rintro _ rfl
    obtain rfl : claim = expected := by simpa using hr.2
    exact (hd.of_claim hclaim.1).1
  | releaseStartClaim token' =>
    refine Upholds.map (upholds_reads (reads_currentClaim rfl rfl rfl fun _ => rfl) hd
      fun current hcurrent => ?_)
    cases current with
    | none => exact (hcurrent hmem).elim
    | some current =>
      -- only the holder gets past the guard, and it is not spared
      refine upholds_throwIf hd fun hguard => (hspares ?_).elim
      rw [← (hd.of_claim hcurrent.1).1]
      exact (by simpa using hguard : current.token = token').symm
  | retireDeadStartClaim retiredId expected =>
    exact Upholds.map (hd.guarded expected.token (by simp_all) fun _ _ hnames =>
      (hspares hnames).elim)

end Calls

/-! ### Runs -/

/-- The answer of a call and the directory it leaves, if the choices of the environment last. -/
def ClaimCall.run (platform : Platform) (endpoint : String) (call : ClaimCall)
    (choices : List Choice) (d : StoreDirectory) : Option (ClaimAnswer × StoreDirectory) :=
  match (claimProgram platform endpoint call).run (FileOp.performObserved Rollback.observe) choices
      (d, .quiet) with
  | (.ret answer, d', _) => some (answer, d')
  | (.request .., _) => none

/-- One call after the other. -/
def runClaims (platform : Platform) (endpoint : String) :
    List (ClaimCall × List Choice) → StoreDirectory → Option (List ClaimAnswer × StoreDirectory)
  | [], d => some ([], d)
  | (call, choices) :: calls, d => do
    let (answer, d') ← call.run platform endpoint choices d
    let (answers, d'') ← runClaims platform endpoint calls d'
    return (answer :: answers, d'')

section Runs

variable {platform : Platform} {endpoint token : String} {starter : ProcessIdentity}
  {d d' d'' : StoreDirectory} {answer : ClaimAnswer} {answers : List ClaimAnswer}
  {calls : List (ClaimCall × List Choice)} {choices : List Choice}

theorem ClaimCall.run_upholds {call : ClaimCall} {P : StoreDirectory → Prop}
    {R : Option StartClaimResult → StoreDirectory → Prop}
    (hcall : Upholds P (claimProgram platform endpoint call) d R)
    (hrun : call.run platform endpoint choices d = some (answer, d')) :
    P d' ∧ ∀ verdict, answer = .ok verdict → R verdict d' := by
  have hends := Program.Ensures.run hcall fun c (_ : c ∈ choices) => trivial
  unfold ClaimCall.run at hrun
  split at hrun
  · next heq =>
    cases hrun
    rw [heq] at hends
    exact hends
  · cases hrun

theorem Held.run (hd : Held (endpointKey platform endpoint) token starter d)
    (hspares : ∀ call ∈ calls, call.1.Spares token starter)
    (hrun : runClaims platform endpoint calls d = some (answers, d')) :
    Held (endpointKey platform endpoint) token starter d' ∧
      List.Forall₂ (fun call answer => call.1.Told token answer) calls answers := by
  induction calls generalizing d answers with
  | nil =>
    cases hrun
    exact ⟨hd, .nil⟩
  | cons call calls ih =>
    simp only [runClaims, Option.bind_eq_bind, Option.bind_eq_some_iff, Prod.exists,
      Option.pure_def, Option.some.injEq, Prod.mk.injEq] at hrun
    obtain ⟨answer, d₁, hcall, answers, d₂, hcalls, rfl, rfl⟩ := hrun
    obtain ⟨hd₁, htold⟩ :=
      ClaimCall.run_upholds (call.1.upholds hd (hspares call List.mem_cons_self)) hcall
    obtain ⟨hd₂, hanswers⟩ := ih hd₁ (fun c hc => hspares c (List.mem_cons_of_mem _ hc)) hcalls
    refine ⟨hd₂, .cons ?_ hanswers⟩
    cases answer with
    | error => trivial
    | ok verdict => exact htold verdict rfl

/-- **A start has one holder.** In every run of calls, with any failures, that spares a claim which
`claimStart` has answered, the claim file keeps its token and its starter, every `claimStart` that
returns is told that the start is occupied, and every other call that returns has named the
token. -/
theorem claimStart_reserves {seams : ClaimSeams} {claim : LocalStartClaim}
    (hclaimed : ClaimCall.run platform endpoint (.claimStart seams) choices d =
      some (.ok (some (.claimed claim)), d'))
    (hspares : ∀ call ∈ calls, call.1.Spares claim.token claim.starter)
    (hrun : runClaims platform endpoint calls d' = some (answers, d'')) :
    Held (endpointKey platform endpoint) claim.token claim.starter d'' ∧
      List.Forall₂ (fun call answer => call.1.Told claim.token answer) calls answers := by
  have hstarted : Upholds (fun _ => True) _ d fun answer d' => ∀ claim,
      answer = some (StartClaimResult.claimed claim) →
        contentAt d' (.starting (endpointKey platform endpoint)) = some (.startClaim claim) :=
    Upholds.map (g := some) ((upholds_claimStart seams).mono fun _ _ _ hr => ⟨trivial,
      fun verdict h claim hclaim => hr.2 verdict h claim (Option.some.inj hclaim)⟩)
  exact Held.run ⟨claim, (ClaimCall.run_upholds hstarted hclaimed).2 _ rfl claim rfl, rfl, rfl⟩
    hspares hrun

end Runs

def sampleStarter (pid : ℤ) (token : String) : ClaimCall × List Choice :=
  (.claimStart ⟨fun _ => .alive, ⟨pid, "linux:1000"⟩, "retired-id-000000001", token, 7⟩,
    List.replicate 60 .calm)

def sampleRival := sampleStarter 2 "start-token-00000002"

def wasClaimed : ClaimAnswer → Bool
  | .ok (some (.claimed _)) => true
  | _ => false

theorem claimStart_reserves_rival : ∃ claim d answers d',
    (sampleStarter 1 "start-token-00000001").1.run samplePlatform "" (List.replicate 60 .calm) ∅ =
      some (.ok (some (.claimed claim)), d) ∧
    runClaims samplePlatform "" [sampleRival] d = some (answers, d') ∧
    Held (endpointKey samplePlatform "") claim.token claim.starter d' := by
  have hruns : ((sampleStarter 1 "start-token-00000001").1.run samplePlatform ""
      (List.replicate 60 .calm) ∅).any (fun x => wasClaimed x.1 &&
        (runClaims samplePlatform "" [sampleRival] x.2).isSome) = true := by
    decide +kernel
  obtain ⟨⟨answer, d⟩, hfirst, hboth⟩ := (Option.any_eq_true _ _).mp hruns
  obtain ⟨hclaimed, hsecond⟩ := (Bool.and_eq_true _ _).mp hboth
  obtain ⟨⟨answers, d'⟩, hsecond⟩ := Option.isSome_iff_exists.mp hsecond
  unfold wasClaimed at hclaimed
  split at hclaimed
  · next claim heq =>
    subst heq
    refine ⟨claim, d, answers, d', hfirst, hsecond, (claimStart_reserves hfirst ?_ hsecond).1⟩
    simp [sampleRival, sampleStarter, ClaimCall.Spares]
  · cases hclaimed

end BreadboardTui
