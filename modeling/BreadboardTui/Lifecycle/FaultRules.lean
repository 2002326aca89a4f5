import BreadboardTui.Lifecycle.LocalAuthorityStore

/-!
# What the store's calls do when any step may throw

Rules for the store's building blocks under injected failures. A call is watched by an observer,
`Rollback`, that remembers whether the call has published a record, whether a step has thrown
since, and whether an unlink of a secret took effect after that.

`Reads` covers the calls that only read: they leave the directory alone, whatever fails. The
calls that write have one specification each, which says what can be left behind.
-/

namespace BreadboardTui

open Effects

/-- The files that name a secret. -/
def StoreFile.isRecord : StoreFile → Bool
  | authority _ | starting _ | control _ => true
  | _ => false

/-- How far a call has come: nothing published, a record published, a step thrown after the
publication, and a secret unlinked after that. -/
inductive Rollback where
  | quiet
  | published
  | failed
  | rolledBack
  deriving DecidableEq, Repr

/-- One observed step. A call that throws **after** it took effect has taken effect. -/
def Rollback.observe (phase : Rollback) (op : FileOp StoreFile StoreContent)
    (fault : Option Fault) : Rollback :=
  match phase, op, fault with
  | quiet, .renameFile _ target, none => if target.isRecord then published else quiet
  | quiet, .renameFile _ target, some .after => if target.isRecord then failed else quiet
  | published, _, some _ => failed
  | failed, .unlinkFile name, none | failed, .unlinkFile name, some .after =>
    if name.isSecret then rolledBack else failed
  | phase, _, _ => phase

attribute [local simp] Rollback.observe

/-- What a thrown step that unlinks and renames nothing does to the phase. -/
def Rollback.fault : Rollback → Rollback
  | published => failed
  | phase => phase

@[simp] theorem Rollback.fault_fault (m : Rollback) : m.fault.fault = m.fault := by
  cases m <;> rfl

/-- The phases a call can end in that unlinks and renames nothing. -/
def Rollback.Drift (m m' : Rollback) : Prop :=
  m' = m ∨ m' = m.fault

theorem Rollback.Drift.refl (m : Rollback) : m.Drift m := .inl rfl

theorem Rollback.Drift.trans {m₁ m₂ m₃ : Rollback} (h : m₁.Drift m₂) (h' : m₂.Drift m₃) :
    m₁.Drift m₃ := by
  rcases h with rfl | rfl
  · exact h'
  rcases h' with rfl | rfl
  · exact .inr rfl
  · exact .inr m₁.fault_fault

@[simp] theorem Rollback.drift_quiet {m : Rollback} : Rollback.quiet.Drift m ↔ m = .quiet := by
  simp [Rollback.Drift, Rollback.fault]

/-- `Calls Q p d m`: run from the directory `d` in phase `m`, with any failures, the program
ends with a result, a directory and a phase that satisfy `Q`. -/
def Calls {α : Type} (Q : Except StoreFailure α → StoreDirectory → Rollback → Prop)
    (p : StoreM α) (d : StoreDirectory) (m : Rollback) : Prop :=
  p.Ensures (fun _ _ => True)
    (Program.environment (FileOp.performObserved Rollback.observe) fun _ => True)
    (fun r s => Q r s.1 s.2) (d, m)

section Rules

variable {α β : Type} {d : StoreDirectory} {m : Rollback}

variable {p : StoreM α}

theorem Calls.mono {Q Q' : Except StoreFailure α → StoreDirectory → Rollback → Prop}
    (hQ : ∀ r d' m', Q r d' m' → Q' r d' m') (h : Calls Q p d m) :
    Calls Q' p d m := by
  unfold Calls at h ⊢
  exact Program.Ensures.mono (fun r (s : StoreDirectory × Rollback) => hQ r s.1 s.2) h

variable {Q : Except StoreFailure α → StoreDirectory → Rollback → Prop}

theorem calls_pure {a : α} : Calls Q (pure a) d m ↔ Q (.ok a) d m := Iff.rfl

variable {e : StoreFailure}

theorem calls_throw : Calls Q (throw e) d m ↔ Q (.error e) d m := Iff.rfl

theorem calls_bind {Q : Except StoreFailure β → StoreDirectory → Rollback → Prop}
    {f : α → StoreM β} :
    Calls Q (p >>= f) d m ↔
      Calls (fun r d' m' => match r with
        | .ok a => Calls Q (f a) d' m'
        | .error e => Q (.error e) d' m') p d m := by
  unfold Calls
  rw [Program.ensures_bind]
  refine ⟨Program.Ensures.mono ?_, Program.Ensures.mono ?_⟩ <;>
    (rintro (e | a) s h <;> exact h)

variable {handler : StoreFailure → StoreM α}

theorem calls_tryCatch : Calls Q (tryCatch p handler) d m ↔
      Calls (fun r d' m' => match r with
        | .ok a => Q (.ok a) d' m'
        | .error e => Calls Q (handler e) d' m') p d m := by
  unfold Calls
  rw [Program.ensures_tryCatch]
  refine ⟨Program.Ensures.mono ?_, Program.Ensures.mono ?_⟩ <;>
    (rintro (e | a) s h <;> exact h)

theorem calls_always {cleanup : StoreM Unit} : Calls Q (p.always cleanup) d m ↔
      Calls (fun r d' m' => Calls (fun c d'' m'' => match c with
        | .ok _ => Q r d'' m''
        | .error e => Q (.error e) d'' m'') cleanup d' m') p d m := by
  unfold Calls
  rw [Program.ensures_always]
  refine ⟨Program.Ensures.mono ?_, Program.Ensures.mono ?_⟩ <;>
    exact fun r s => Program.Ensures.mono (by rintro (e | a) s' h <;> exact h)

/-- One system call: it succeeds, it reports its own error, or it throws before or after its
effect. -/
theorem calls_file {op : FileOp StoreFile StoreContent}
    {Q : Except StoreFailure op.Value → StoreDirectory → Rollback → Prop}
    (hok : ∀ order v, op.arrange order (op.effect d).1 = .ok v →
      Q (.ok v) (op.effect d).2 (m.observe op none))
    (herror : ∀ order e, op.arrange order (op.effect d).1 = .error e →
      Q (.error (.errno e)) (op.effect d).2 (m.observe op none))
    (hbefore : Q (.error (.errno .failed)) d (m.observe op (some .before)))
    (hafter : Q (.error (.errno .failed)) (op.effect d).2 (m.observe op (some .after))) :
    Calls Q (file op) d m := by
  refine calls_bind.mpr ⟨trivial, ?_⟩
  rintro answer s' ⟨⟨fault, order⟩, -, hs⟩
  cases hs
  rcases fault with _ | _ | _
  · rcases hanswer : op.arrange order (op.effect d).1 with e | v
    · simpa [FileOp.perform, FileOp.performObserved, hanswer, calls_throw] using
        herror order e hanswer
    · simpa [FileOp.perform, FileOp.performObserved, hanswer, calls_pure] using
        hok order v hanswer
  · exact hbefore
  · exact hafter

/-! ### Calls that only read -/

attribute [local simp] FileOp.effect FileOp.arrange

/-- `Reads p d R absent`: the call leaves `d` as it is, returns only what satisfies `R`, and
fails with `ENOENT` only if `absent`, no step having thrown. -/
def Reads (p : StoreM α) (d : StoreDirectory) (R : α → Prop) (absent : Prop) : Prop :=
  ∀ m, Calls (fun r d' m' => d' = d ∧ match r with
    | .ok a => m' = m ∧ R a
    | .error e => m.Drift m' ∧ (e = .errno .missing → m' = m ∧ absent)) p d m

variable {absent : Prop} {R : α → Prop}

theorem reads_pure {a : α} (h : R a) : Reads (pure a) d R absent :=
  fun _ => ⟨rfl, rfl, h⟩

theorem reads_throw (h : e = .errno .missing → absent) : Reads (throw e : StoreM α) d R absent :=
  fun _ => ⟨rfl, .refl _, fun he => ⟨rfl, h he⟩⟩

variable {code : AuthorityStoreErrorCode} {message : String}

theorem reads_storeError : Reads (storeError code message : StoreM α) d R absent :=
  reads_throw (by simp)

theorem reads_check {r : Except LocalAuthorityStoreError α}
    (h : ∀ a, r = .ok a → R a) : Reads (check r) d R absent := by
  cases r with
  | ok a => exact reads_pure (h a rfl)
  | error => exact reads_throw (by simp)

variable {absent' : Prop}

theorem Reads.mono {R' : α → Prop}
    (h : Reads p d R absent) (hR : ∀ a, R a → R' a) (habsent : absent → absent') :
    Reads p d R' absent' := by
  intro m
  refine (h m).mono fun r d' m' hr => ⟨hr.1, ?_⟩
  cases r with
  | ok a => exact ⟨hr.2.1, hR a hr.2.2⟩
  | error => exact ⟨hr.2.1, fun he => (hr.2.2 he).imp_right habsent⟩

theorem Reads.bind {f : α → StoreM β} {R' : β → Prop}
    (h : Reads p d R absent) (hf : ∀ a, R a → Reads (f a) d R' absent) :
    Reads (p >>= f) d R' absent := by
  intro m
  refine calls_bind.mpr ((h m).mono fun r d' m' hr => ?_)
  cases r with
  | ok a =>
    obtain ⟨rfl, rfl, ha⟩ := hr
    exact hf a ha _
  | error => exact hr

/-- An error handler that may replace only `ENOENT` by a result. -/
theorem Reads.tryCatch (h : Reads p d R absent)
    (hmissing : absent → Reads (handler (.errno .missing)) d R absent')
    (hother : ∀ e, e ≠ .errno .missing → Reads (handler e) d (fun _ => False) False) :
    Reads (tryCatch p handler) d R absent' := by
  intro m
  refine calls_tryCatch.mpr ((h m).mono fun r d' m' hr => ?_)
  cases r with
  | ok => exact hr
  | error e =>
    obtain ⟨rfl, hdrift, hr⟩ := hr
    by_cases he : e = .errno .missing
    · subst he
      obtain ⟨rfl, habsent⟩ := hr rfl
      exact hmissing habsent _
    refine (hother e he m').mono fun r' d'' m'' hr' => ⟨hr'.1, ?_⟩
    cases r' with
    | ok => exact hr'.2.2.elim
    | error => exact ⟨hdrift.trans hr'.2.1, fun he' => (hr'.2.2 he').2.elim⟩

/-- A system call that changes nothing and that the observer only watches for failures. -/
structure Neutral (op : FileOp StoreFile StoreContent) : Prop where
  effect : ∀ d, (op.effect d).2 = d
  quiet : ∀ m : Rollback, m.observe op none = m
  fault : ∀ (m : Rollback) fault, m.observe op (some fault) = m.fault

theorem neutral_verifyRoot : Neutral .verifyRoot :=
  ⟨fun _ => rfl, fun m => by cases m <;> rfl,
    fun m _ => by cases m <;> rfl⟩

theorem neutral_syncRoot : Neutral .syncRoot :=
  ⟨fun _ => rfl, fun m => by cases m <;> rfl,
    fun m _ => by cases m <;> rfl⟩

theorem neutral_listRoot : Neutral .listRoot :=
  ⟨fun _ => rfl, fun m => by cases m <;> rfl,
    fun m _ => by cases m <;> rfl⟩

variable (name : StoreFile)

theorem neutral_openFile : Neutral (.openFile name) :=
  ⟨fun _ => rfl, fun m => by cases m <;> rfl,
    fun m _ => by cases m <;> rfl⟩

theorem neutral_readFile : Neutral (.readFile name) :=
  ⟨fun d => by cases h : d.lookup name <;> simp [FileOp.effect, h], fun m => by cases m <;> rfl,
    fun m _ => by cases m <;> rfl⟩

variable {op : FileOp StoreFile StoreContent}

theorem Neutral.reads (hop : Neutral op) {R : op.Value → Prop}
    (hok : ∀ order v, op.arrange order (op.effect d).1 = .ok v → R v)
    (hmissing : ∀ order, op.arrange order (op.effect d).1 = .error .missing → absent) :
    Reads (file op) d R absent := by
  intro m
  refine calls_file (fun order v hv => ⟨hop.effect d, hop.quiet m, hok order v hv⟩)
    (fun order e he => ⟨hop.effect d, .inl (hop.quiet m), fun heq => ⟨hop.quiet m, ?_⟩⟩)
    ⟨rfl, .inr (hop.fault m _), by simp⟩ ⟨hop.effect d, .inr (hop.fault m _), by simp⟩
  cases heq
  exact hmissing order he

/-- `Settles p`: the call changes nothing, and it throws only because a step threw. -/
def Settles (p : StoreM α) : Prop :=
  ∀ d m, Calls (fun r d' m' => d' = d ∧ match r with
    | .ok _ => m' = m
    | .error e => m' = m.fault ∧ e ≠ .errno .missing) p d m

theorem Settles.reads (h : Settles p) : Reads p d (fun _ => True) False := by
  intro m
  refine (h d m).mono fun r d' m' hr => ⟨hr.1, ?_⟩
  cases r with
  | ok => exact ⟨hr.2, trivial⟩
  | error => exact ⟨.inr hr.2.1, fun he => (hr.2.2 he).elim⟩

theorem Settles.bind {q : α → StoreM β} (hp : Settles p) (hq : ∀ a, Settles (q a)) :
    Settles (p >>= q) := by
  intro d m
  refine calls_bind.mpr ((hp d m).mono fun r d' m' hr => ?_)
  cases r with
  | ok a =>
    obtain ⟨rfl, rfl⟩ := hr
    exact hq a _ _
  | error => exact hr

/-- A neutral call that cannot report an error of its own settles. -/
theorem Neutral.settles (hop : Neutral op)
    (hok : ∀ d order e, op.arrange order (op.effect d).1 ≠ .error e) : Settles (file op) := by
  intro d m
  refine calls_file (fun order v _ => ⟨hop.effect d, hop.quiet m⟩)
    (fun order e he => (hok d order e he).elim) ⟨rfl, hop.fault m _, by simp⟩
    ⟨hop.effect d, hop.fault m _, by simp⟩

theorem settles_assertRootIdentity : Settles assertRootIdentity :=
  neutral_verifyRoot.settles (by simp [FileOp.effect, FileOp.arrange])

theorem settles_syncParent : Settles syncParent :=
  settles_assertRootIdentity.bind fun _ =>
    (neutral_syncRoot.settles (by simp [FileOp.effect, FileOp.arrange])).bind fun _ =>
      settles_assertRootIdentity

theorem reads_assertRootIdentity : Reads assertRootIdentity d (fun _ => True) False :=
  settles_assertRootIdentity.reads

theorem reads_openAt {name : StoreFile} : Reads (openAt name) d (fun _ => name ∈ d) (name ∉ d) := by
  have hopen : Reads (file (.openFile name)) d (fun _ => name ∈ d) (name ∉ d) := by
    refine (neutral_openFile name).reads ?_ ?_ <;>
      · intro order
        by_cases h : name ∈ d <;> simp [FileOp.effect, FileOp.arrange, h]
  exact (reads_assertRootIdentity.mono (fun _ h => h) False.elim).bind fun _ _ =>
    hopen.bind fun _ h => reads_assertRootIdentity.mono (fun _ _ => h) False.elim

theorem reads_readSecureBytes {name : StoreFile} : Reads (readSecureBytes name) d
      (fun content => ∃ f, d.lookup name = some f ∧ f.content = content) (name ∉ d) := by
  have hread : Reads (file (.readFile name)) d
      (fun content => ∃ f, d.lookup name = some f ∧ f.content = content) (name ∉ d) := by
    cases hlookup : d.lookup name with
    | none =>
      refine (neutral_readFile name).reads (fun order v hv => ?_)
        (fun order _ => AList.lookup_eq_none.mp hlookup)
      simp [FileOp.effect, FileOp.arrange, hlookup] at hv
    | some f =>
      refine (neutral_readFile name).reads (fun order v hv => ?_) (fun order h => ?_)
      · simp only [FileOp.effect, FileOp.arrange, hlookup, Except.ok.injEq] at hv
        exact ⟨f, rfl, hv⟩
      · simp [FileOp.effect, FileOp.arrange, hlookup] at h
  exact (reads_openAt.mono (fun _ h => h) id).bind fun _ _ =>
    hread.bind fun content h =>
      (reads_assertRootIdentity.mono (fun _ h => h) False.elim).bind fun _ _ => reads_pure h

/-- Reading a document returns what the file holds. -/
theorem reads_readSecureJson {name : StoreFile} : Reads (readSecureJson name code) d
      (fun content => ∃ f, d.lookup name = some f ∧ f.content = some content) (name ∉ d) := by
  refine Reads.tryCatch (?_ : Reads _ d _ (name ∉ d)) (fun h => reads_throw fun _ => h) ?_
  · refine reads_readSecureBytes.bind fun content? h => ?_
    split
    · exact reads_throw (by simp)
    · exact reads_throw (by simp)
    · exact reads_pure h
  intro e he
  match e, he with
  | .errno .missing, he => exact (he rfl).elim
  | .errno .present, _ | .errno .failed, _ => exact reads_storeError
  | .store error, _ => exact reads_throw (by simp)

theorem Reads.orNone {handler : StoreFailure → StoreM (Option α)}
    (h : Reads p d R absent) (hmissing : handler (.errno .missing) = pure none)
    (hother : ∀ e, e ≠ .errno .missing → handler e = throw e) :
    Reads (MonadExcept.tryCatch (some <$> p) handler) d
      (fun r => r.elim absent R) absent' := by
  have hsome : Reads (some <$> p) d (fun r => r.elim absent R) absent :=
    h.bind (f := fun a => pure (some a)) fun a ha => reads_pure ha
  refine hsome.tryCatch (fun habsent => ?_) (fun e he => ?_)
  · rw [hmissing]
    exact reads_pure habsent
  rw [hother e he]
  exact reads_throw fun heq => (he heq).elim

/-! ### The store's own reads -/

/-- The complete content of a file. -/
def contentAt (d : StoreDirectory) (name : StoreFile) : Option StoreContent :=
  (d.lookup name).bind File.content

variable {content : StoreContent}

theorem contentAt_eq_some {name : StoreFile} :
    contentAt d name = some content ↔ ∃ f, d.lookup name = some f ∧ f.content = some content :=
  Option.bind_eq_some_iff

variable {record : LocalAuthorityRecord}

theorem assertRecord_eq_ok {platform : Platform} {key : String} {a : LocalAuthorityRecord} :
    assertRecord platform key record = .ok a ↔ record = a ∧ record.isValid platform key = true := by
  unfold assertRecord
  split <;> simp_all

theorem assertStartClaim_eq_ok {claim a : LocalStartClaim} :
    assertStartClaim claim = .ok a ↔ claim = a ∧ claim.isValid = true := by
  unfold assertStartClaim
  split <;> simp_all

variable {attempt : LocalControlAttempt}

theorem assertControlAttempt_eq_ok {a : LocalControlAttempt} :
    assertControlAttempt attempt = .ok a ↔ attempt = a ∧ attempt.isValid = true := by
  unfold assertControlAttempt
  split <;> simp_all

variable {platform : Platform} {endpoint key : String}

/-- `probeCurrent` returns the valid record of the endpoint, or `null` when there is no record
file at all. -/
theorem reads_probeCurrent : Reads (probeCurrent platform endpoint) d
      (fun r => r.elim (.authority (endpointKey platform endpoint) ∉ d) fun record =>
        contentAt d (.authority (endpointKey platform endpoint)) = some (.authority record) ∧
          record.isValid platform (endpointKey platform endpoint) = true) False := by
  refine reads_assertRootIdentity.bind fun _ _ => ?_
  refine Reads.tryCatch
    (?_ : Reads _ d _ (.authority (endpointKey platform endpoint) ∉ d)) (fun h => ?_) ?_
  · refine reads_readSecureBytes.bind fun content? h => ?_
    split
    · next record =>
      refine (reads_check (R := fun a => record = a ∧ _) fun a ha =>
        assertRecord_eq_ok.mp ha).bind fun a ha => reads_pure ?_
      obtain ⟨rfl, hvalid⟩ := ha
      exact ⟨contentAt_eq_some.mpr h, hvalid⟩
    · exact reads_throw (by simp)
    · exact reads_throw (by simp)
    · exact reads_storeError
  · exact reads_pure h
  intro e he
  match e, he with
  | .errno .missing, he => exact (he rfl).elim
  | .errno .present, _ | .errno .failed, _ => exact reads_storeError
  | .store error, _ => exact reads_throw (by simp)

theorem reads_readStartClaim : Reads (readStartClaim key) d
      (fun claim => contentAt d (.starting key) = some (.startClaim claim) ∧ claim.isValid = true)
      (.starting key ∉ d) := by
  refine reads_readSecureJson.bind fun content h => ?_
  split
  · next claim =>
    refine reads_check fun a ha => ?_
    obtain ⟨rfl, hvalid⟩ := assertStartClaim_eq_ok.mp ha
    exact ⟨contentAt_eq_some.mpr h, hvalid⟩
  · exact reads_storeError

theorem reads_readControl : Reads (readControl key) d
      (fun attempt => contentAt d (.control key) = some (.control attempt) ∧
        attempt.isValid = true) (.control key ∉ d) := by
  refine reads_readSecureJson.bind fun content h => ?_
  split
  · next attempt =>
    refine reads_check fun a ha => ?_
    obtain ⟨rfl, hvalid⟩ := assertControlAttempt_eq_ok.mp ha
    exact ⟨contentAt_eq_some.mpr h, hvalid⟩
  · exact reads_storeError

theorem reads_readControlAttempt : Reads (readControlAttempt platform endpoint record) d
      (fun r => r.elim (.control (endpointKey platform endpoint) ∉ d) fun attempt =>
        contentAt d (.control (endpointKey platform endpoint)) = some (.control attempt) ∧
          attempt.isValid = true) False := by
  refine (reads_readControl.orNone rfl ?_).bind fun attempt? h => ?_
  · intro e he
    match e, he with
    | .errno .missing, he => exact (he rfl).elim
    | .errno .present, _ | .errno .failed, _ | .store _, _ => rfl
  cases attempt? with
  | none => exact reads_pure h
  | some =>
    simp only []
    split
    · exact reads_pure h
    · exact reads_storeError

theorem reads_readSecretBytes {name : StoreFile} :
    Reads (readSecretBytes name) d (fun _ => True) True := by
  refine (reads_readSecureBytes.mono (fun _ h => h) fun _ => trivial).bind fun content? _ => ?_
  split <;> exact reads_pure trivial

theorem reads_throwIf {c : Prop} [Decidable c] :
    Reads (throwIf c code message) d (fun _ => ¬ c) absent := by
  unfold throwIf
  split
  · exact reads_storeError
  · next h => exact reads_pure h

theorem reads_readSecret : Reads (readSecret platform record) d (fun _ => True) True :=
  reads_throwIf.bind fun _ _ =>
    reads_readSecretBytes.bind fun _ _ =>
      (reads_check (R := fun _ => True) fun _ _ => trivial).bind fun _ _ =>
        reads_throwIf.bind fun _ _ => reads_pure trivial

theorem reads_readControlAttemptSecret :
    Reads (readControlAttemptSecret platform attempt) d (fun _ => True) True :=
  reads_throwIf.bind fun _ _ =>
    reads_readSecretBytes.bind fun _ _ =>
      (reads_check (R := fun _ => True) fun _ _ => trivial).bind fun _ _ =>
        reads_throwIf.bind fun _ _ => reads_pure trivial

/-! ### What writing leaves behind -/

/-- `d'` differs from `d` at most in the files `names`. -/
def SameExcept (names : List StoreFile) (d d' : StoreDirectory) : Prop :=
  ∀ n, n ∉ names → d'.lookup n = d.lookup n

theorem SameExcept.refl (names : List StoreFile) (d : StoreDirectory) : SameExcept names d d :=
  fun _ _ => rfl

variable {names : List StoreFile}

theorem SameExcept.trans {d₁ d₂ d₃ : StoreDirectory}
    (h : SameExcept names d₁ d₂) (h' : SameExcept names d₂ d₃) : SameExcept names d₁ d₃ :=
  fun n hn => (h' n hn).trans (h n hn)

variable {d' : StoreDirectory}

theorem SameExcept.mono {names' : List StoreFile}
    (h : SameExcept names d d') (hsub : names ⊆ names') : SameExcept names' d d' :=
  fun n hn => h n fun hmem => hn (hsub hmem)

variable {f : File StoreContent}

theorem sameExcept_insert {name : StoreFile} : SameExcept [name] d (d.insert name f) :=
  fun _ hn => AList.lookup_insert_ne (by simpa using hn)

theorem sameExcept_erase {name : StoreFile} : SameExcept [name] d (d.erase name) :=
  fun _ hn => AList.lookup_erase_ne (by simpa using hn)

/-- `Touches names p d R`: before anything was published, the call changes only `names`,
whatever fails, and a result satisfies `R`. -/
def Touches (names : List StoreFile) (p : StoreM α) (d : StoreDirectory)
    (R : α → StoreDirectory → Prop) : Prop :=
  Calls (fun r d' m' => m' = .quiet ∧ SameExcept names d d' ∧ ∀ a, r = .ok a → R a d') p d .quiet

theorem Reads.touches (h : Reads p d R absent)
    (names : List StoreFile) : Touches names p d fun a d' => d' = d ∧ R a := by
  refine (h .quiet).mono fun r d' m' hr => ?_
  obtain ⟨rfl, hr⟩ := hr
  cases r with
  | ok =>
    refine ⟨hr.1, .refl _ _, ?_⟩
    rintro _ ⟨⟩
    exact ⟨rfl, hr.2⟩
  | error => exact ⟨Rollback.drift_quiet.mp hr.1, .refl _ _, by simp⟩

theorem Reads.keeps (h : Reads p d R absent) {P : StoreDirectory → Prop} (hP : P d) :
    Touches names p d fun _ d' => P d' := by
  refine Calls.mono (fun r d' m' hr => ⟨hr.1, hr.2.1, fun a ha => ?_⟩) (h.touches names)
  rw [(hr.2.2 a ha).1]
  exact hP

theorem Touches.bind {f : α → StoreM β}
    {R : α → StoreDirectory → Prop} {R' : β → StoreDirectory → Prop} (h : Touches names p d R)
    (hf : ∀ a d', SameExcept names d d' → R a d' → Touches names (f a) d' R') :
    Touches names (p >>= f) d R' := by
  refine calls_bind.mpr (Calls.mono (fun r d' m' hr => ?_) h)
  obtain ⟨rfl, hsame, hR⟩ := hr
  cases r with
  | ok a =>
    exact (hf a d' hsame (hR a rfl)).mono fun r' d'' m'' hr' =>
      ⟨hr'.1, hsame.trans hr'.2.1, hr'.2.2⟩
  | error => exact ⟨rfl, hsame, by simp⟩

/-- A system call on one file that publishes nothing. -/
theorem touches_file {name : StoreFile} {R : op.Value → StoreDirectory → Prop}
    (hquiet : ∀ fault, Rollback.observe .quiet op fault = .quiet)
    (hsame : SameExcept [name] d (op.effect d).2)
    (hok : ∀ order v, op.arrange order (op.effect d).1 = .ok v → R v (op.effect d).2) :
    Touches [name] (file op) d R := by
  refine calls_file (fun order v hv => ⟨hquiet _, hsame, ?_⟩)
    (fun order e he => ⟨hquiet _, hsame, by simp⟩) ⟨hquiet _, .refl _ _, by simp⟩
    ⟨hquiet _, hsame, by simp⟩
  rintro _ ⟨⟩
  exact hok order v hv

theorem touches_createAt {name : StoreFile} :
    Touches [name] (createAt name) d fun _ d' => name ∈ d' := by
  have hcreate : ∀ d₁ : StoreDirectory,
      Touches [name] (file (.createFile name)) d₁ fun _ d' => name ∈ d' := by
    intro d₁
    by_cases hmem : name ∈ d₁
    · refine touches_file (fun _ => rfl) ?_ ?_ <;> simp [FileOp.effect, hmem, SameExcept.refl]
    refine touches_file (fun _ => rfl) ?_ ?_ <;>
      simp [FileOp.effect, hmem, sameExcept_insert]
  exact (reads_assertRootIdentity.touches _).bind fun _ _ _ _ =>
    (hcreate _).bind fun _ _ _ hmem => reads_assertRootIdentity.keeps hmem

theorem touches_writeFile {name : StoreFile} (hmem : name ∈ d) :
    Touches [name] (file (.writeFile name content)) d
      fun _ d' => contentAt d' name = some content := by
  refine touches_file (fun _ => rfl) ?_ fun _ _ _ => ?_ <;>
    simp [FileOp.effect, hmem, sameExcept_insert, contentAt]

theorem touches_syncFile {name : StoreFile} (h : contentAt d name = some content) :
    Touches [name] (file (.syncFile name)) d fun _ d' => contentAt d' name = some content := by
  obtain ⟨f, hlookup, hf⟩ := contentAt_eq_some.mp h
  refine touches_file (fun _ => rfl) ?_ fun _ _ _ => ?_ <;>
    simp [FileOp.effect, hlookup, sameExcept_insert, contentAt, hf]

/-- Written in place: after a failure the file may be there in any state. -/
theorem touches_exclusiveWrite {name : StoreFile} :
    Touches [name] (exclusiveWrite name content code) d
      fun _ d' => contentAt d' name = some content := by
  -- the file is created, or nothing has happened
  refine (?_ : Touches [name] _ d fun _ d' => name ∈ d').bind fun _ _ _ hmem =>
    (touches_writeFile hmem).bind fun _ _ _ hwritten =>
      (touches_syncFile hwritten).bind fun _ _ _ hsynced => settles_syncParent.reads.keeps hsynced
  refine calls_tryCatch.mpr (Calls.mono (fun r d' m' hr => ?_) touches_createAt)
  cases r with
  | ok => exact hr
  | error e =>
    obtain ⟨rfl, hsame, -⟩ := hr
    cases e with
    | errno error => cases error <;> exact ⟨rfl, hsame, by simp⟩
    | store => exact ⟨rfl, hsame, by simp⟩

/-- What can become of one `unlink`: the file goes or stays. A secret that goes after a failed
publication is noticed; otherwise the phase says whether a step threw. -/
structure UnlinkOutcome (name : StoreFile) (force : Bool) (d : StoreDirectory) (m : Rollback)
    (r : Except StoreFailure Unit) (d' : StoreDirectory) (m' : Rollback) : Prop where
  others : SameExcept [name] d d'
  target : d'.lookup name = d.lookup name ∨ d'.lookup name = none
  gone : ∀ u, r = .ok u → d'.lookup name = none
  phase : (m = .failed ∧ name.isSecret = true ∧ m' = .rolledBack) ∨
    (m = .failed → name.isSecret = true → d'.lookup name = d.lookup name) ∧
      match r with
      | .ok _ => m' = m
      | .error _ => m' = m.fault ∨ force = false ∧ m' = m

theorem UnlinkOutcome.unchanged {name : StoreFile} {force : Bool}
    {m' : Rollback} (h : m' = m.fault ∨ force = false ∧ m' = m) :
    UnlinkOutcome name force d m (.error e) d m' :=
  ⟨.refl _ _, .inl rfl, by simp, .inr ⟨fun _ _ => rfl, h⟩⟩

/-- Where the observer stands after an `unlink` that took effect. -/
theorem observe_unlinkFile (m : Rollback) (name : StoreFile) :
    (m.observe (.unlinkFile name) none = m ∧
        m.observe (.unlinkFile name) (some .after) = m.fault ∧
        ¬ (m = .failed ∧ name.isSecret = true)) ∨
      (m = .failed ∧ name.isSecret = true ∧ m.observe (.unlinkFile name) none = .rolledBack ∧
        m.observe (.unlinkFile name) (some .after) = .rolledBack) := by
  cases m <;> cases h : name.isSecret <;> simp [Rollback.observe, Rollback.fault, h]

private theorem calls_unlinkFile (force : Bool) (d : StoreDirectory) (m : Rollback) :
    Calls (UnlinkOutcome name force d m) (tryCatch (file (.unlinkFile name)) fun error =>
      if force && error == .errno .missing then pure () else throw error) d m := by
  have hgone : (FileOp.effect (.unlinkFile name) d).2.lookup name = none := by
    by_cases hmem : name ∈ d
    · simp [FileOp.effect, hmem]
    · simpa only [FileOp.effect, if_neg hmem] using AList.lookup_eq_none.mpr hmem
  have hothers : SameExcept [name] d (FileOp.effect (.unlinkFile name) d).2 := by
    by_cases hmem : name ∈ d <;> simp [FileOp.effect, hmem, SameExcept.refl, sameExcept_erase]
  refine calls_tryCatch.mpr (@calls_file d m (.unlinkFile name) _ ?_ ?_ ?_ ?_)
  · intro order v _
    refine ⟨hothers, .inr hgone, fun _ _ => hgone, ?_⟩
    rcases observe_unlinkFile m name with ⟨hm, -, hno⟩ | ⟨hm, hsecret, hroll, -⟩
    · exact .inr ⟨fun hf hs => (hno ⟨hf, hs⟩).elim, hm⟩
    · exact .inl ⟨hm, hsecret, hroll⟩
  · intro order e he
    have hmem : name ∉ d := by
      intro hmem
      simp [FileOp.effect, FileOp.arrange, hmem] at he
    obtain rfl : FileError.missing = e := by
      simpa [FileOp.effect, FileOp.arrange, hmem] using he
    have hsame : (FileOp.effect (.unlinkFile name) d).2 = d := by simp [FileOp.effect, hmem]
    have habsent : d.lookup name = none := AList.lookup_eq_none.mpr hmem
    rw [hsame]
    cases force with
    | true =>
      refine ⟨.refl _ _, .inl rfl, fun _ _ => habsent, ?_⟩
      rcases observe_unlinkFile m name with ⟨hm, -, -⟩ | ⟨hm, hsecret, hroll, -⟩
      · exact .inr ⟨fun _ _ => rfl, hm⟩
      · exact .inl ⟨hm, hsecret, hroll⟩
    | false =>
      refine ⟨.refl _ _, .inl rfl, by simp, ?_⟩
      rcases observe_unlinkFile m name with ⟨hm, -, -⟩ | ⟨hm, hsecret, hroll, -⟩
      · exact .inr ⟨fun _ _ => rfl, .inr ⟨rfl, hm⟩⟩
      · exact .inl ⟨hm, hsecret, hroll⟩
  · change Calls _ (if _ then _ else _) _ _
    rw [if_neg (by simp), calls_throw]
    exact .unchanged (.inl (by cases m <;> rfl))
  change Calls _ (if _ then _ else _) _ _
  rw [if_neg (by simp), calls_throw]
  refine ⟨hothers, .inr hgone, by simp, ?_⟩
  rcases observe_unlinkFile m name with ⟨-, hm, hno⟩ | ⟨hm, hsecret, -, hroll⟩
  · exact .inr ⟨fun hf hs => (hno ⟨hf, hs⟩).elim, .inl hm⟩
  · exact .inl ⟨hm, hsecret, hroll⟩

theorem calls_unlinkAt (force : Bool) (d : StoreDirectory) (m : Rollback) :
    Calls (UnlinkOutcome name force d m) (unlinkAt name force) d m := by
  refine calls_bind.mpr ((settles_assertRootIdentity d m).mono fun r d₁ m₁ hr => ?_)
  cases r with
  | error =>
    obtain ⟨rfl, rfl, -⟩ := hr
    exact .unchanged (.inl rfl)
  | ok _ =>
    obtain ⟨rfl, rfl⟩ := hr
    refine calls_bind.mpr ((calls_unlinkFile name force d₁ m₁).mono fun r d₂ m₂ hr => ?_)
    cases r with
    | error => exact hr
    | ok _ =>
      refine (settles_assertRootIdentity d₂ m₂).mono fun r' d₃ m₃ hr' => ?_
      obtain ⟨rfl, hr'⟩ := hr'
      refine ⟨hr.others, hr.target, fun _ _ => hr.gone _ rfl, ?_⟩
      rcases hr.phase with ⟨hm, hsecret, hphase⟩ | ⟨hkept, hphase⟩
      · subst hphase
        refine .inl ⟨hm, hsecret, ?_⟩
        cases r' with
        | ok => exact hr'
        | error => exact hr'.1
      have hphase : m₂ = m₁ := hphase
      subst hphase
      refine .inr ⟨hkept, ?_⟩
      cases r' with
      | ok => exact hr'
      | error => exact .inl hr'.1

/-- The phase after a rename onto `name` that went well. -/
def StoreFile.publishedPhase (name : StoreFile) : Rollback :=
  if name.isRecord then .published else .quiet

/-- What can become of publishing `content` under `name`: it is there, or the file is as it was,
or the content is there although a step threw, which is noticed when `name` is a record. -/
structure PublishOutcome (temporary name : StoreFile) (content : StoreContent)
    (d : StoreDirectory) (r : Except StoreFailure Unit) (d' : StoreDirectory) (m' : Rollback) :
    Prop where
  others : SameExcept [name, temporary] d d'
  result : match r with
    | .ok _ => contentAt d' name = some content ∧ m' = name.publishedPhase
    | .error _ => (d'.lookup name = d.lookup name ∧ m' = .quiet) ∨
        (contentAt d' name = some content ∧ m' = name.publishedPhase.fault)

variable {temporary : StoreFile}

theorem PublishOutcome.unpublished {name : StoreFile} (hothers : SameExcept [temporary] d d')
    (hne : name ≠ temporary) : PublishOutcome temporary name content d (.error e) d' .quiet :=
  ⟨hothers.mono (by simp), .inl ⟨hothers name (by simpa using hne), rfl⟩⟩

theorem observe_renameFile (temporary name : StoreFile) :
    Rollback.observe .quiet (.renameFile temporary name) none = name.publishedPhase ∧
      Rollback.observe .quiet (.renameFile temporary name) (some .after) =
        name.publishedPhase.fault := by
  cases h : name.isRecord <;>
    simp [Rollback.observe, StoreFile.publishedPhase, Rollback.fault, h]

/-- A check that follows a publication throws in time to be noticed, or not at all. -/
theorem Settles.afterPublish {p : StoreM Unit} (hp : Settles p) {name : StoreFile}
    (hothers : SameExcept [name, temporary] d d') (hcontent : contentAt d' name = some content) :
    Calls (PublishOutcome temporary name content d) p d' name.publishedPhase := by
  refine (hp d' _).mono fun r d'' m'' hr => ?_
  obtain ⟨rfl, hr⟩ := hr
  cases r with
  | ok => exact ⟨hothers, hcontent, hr⟩
  | error => exact ⟨hothers, .inr ⟨hcontent, hr.1⟩⟩

/-- A rename is done or it is not, and the phase says whether a step threw after it. -/
theorem calls_renameAt_cases {source target : StoreFile} (hlookup : d.lookup source = some f) :
    Calls (fun r d' m' => (d' = d ∧ m' = .quiet ∧ ∀ u, r ≠ .ok u) ∨
      (d' = (d.erase source).insert target f ∧ match r with
        | .ok _ => m' = target.publishedPhase
        | .error _ => m' = target.publishedPhase.fault)) (renameAt source target) d .quiet := by
  have heffect : FileOp.effect (.renameFile source target) d =
      (.ok (), (d.erase source).insert target f) := by simp [FileOp.effect, hlookup]
  obtain ⟨hquiet, hafter⟩ := observe_renameFile source target
  refine calls_bind.mpr ((settles_assertRootIdentity d .quiet).mono fun r d₁ m₁ hr => ?_)
  cases r with
  | error =>
    obtain ⟨rfl, rfl, -⟩ := hr
    exact .inl ⟨rfl, rfl, by simp⟩
  | ok _ =>
    obtain ⟨rfl, rfl⟩ := hr
    refine calls_bind.mpr (@calls_file _ _ (.renameFile source target) _ ?_ ?_ ?_ ?_)
    · intro order v _
      rw [hquiet, heffect]
      refine (settles_assertRootIdentity _ _).mono fun r d₂ m₂ hr => .inr ⟨hr.1, ?_⟩
      cases r with
      | ok => exact hr.2
      | error => exact hr.2.1
    · intro order e he
      rw [heffect] at he
      cases he
    · exact .inl ⟨rfl, rfl, by simp⟩
    rw [hafter, heffect]
    exact .inr ⟨rfl, rfl⟩

theorem sameExcept_rename {source target : StoreFile} :
    SameExcept [target, source] d ((d.erase source).insert target f) := by
  intro n hn
  simp only [List.mem_cons, List.not_mem_nil, or_false, not_or] at hn
  rw [AList.lookup_insert_ne hn.1, AList.lookup_erase_ne hn.2]

theorem calls_renameAt {name : StoreFile}
    (hne : name ≠ temporary) (htemp : contentAt d temporary = some content) :
    Calls (PublishOutcome temporary name content d) (renameAt temporary name) d .quiet := by
  obtain ⟨f, hlookup, hf⟩ := contentAt_eq_some.mp htemp
  have hcontent : contentAt ((d.erase temporary).insert name f) name = some content := by
    simp [contentAt, hf]
  refine (calls_renameAt_cases hlookup).mono fun r d' m' hr => ?_
  rcases hr with ⟨rfl, rfl, hr⟩ | ⟨rfl, hphase⟩
  · cases r with
    | ok u => exact (hr u rfl).elim
    | error => exact .unpublished (.refl _ _) hne
  refine ⟨sameExcept_rename, ?_⟩
  cases r with
  | ok => exact ⟨hcontent, hphase⟩
  | error => exact .inr ⟨hcontent, hphase⟩

theorem calls_publish {name : StoreFile}
    (hne : name ≠ temporary) (htemp : contentAt d temporary = some content) :
    Calls (PublishOutcome temporary name content d) (publish temporary name) d .quiet := by
  refine calls_bind.mpr (((?_ : Reads _ d (fun _ => True) False) .quiet).mono
    fun r d₁ m₁ hr => ?_)
  · refine (reads_openAt.mono (fun _ _ => trivial) id).tryCatch
      (fun _ => reads_pure trivial) fun e he => ?_
    cases e with
    | store => exact reads_throw (by simp)
    | errno error =>
      cases error with
      | missing => exact (he rfl).elim
      | _ => exact reads_throw (by simp)
  cases r with
  | error =>
    obtain ⟨rfl, hdrift, -⟩ := hr
    rw [Rollback.drift_quiet.mp hdrift]
    exact .unpublished (.refl _ _) hne
  | ok _ =>
    obtain ⟨rfl, rfl, -⟩ := hr
    refine calls_bind.mpr ((calls_renameAt hne htemp).mono fun r d₂ m₂ hr => ?_)
    cases r with
    | error => exact hr
    | ok =>
      obtain ⟨hothers, hcontent, hphase⟩ := hr
      subst hphase
      exact settles_syncParent.afterPublish hothers hcontent

theorem StoreFile.temporary_ne (id : String) : name ≠ .temporary name id := by
  intro h
  have hsize := congrArg sizeOf h
  simp at hsize
  omega

theorem touches_writeTemporary {name : StoreFile} : Touches [name] (writeTemporary name content) d
      fun _ d' => contentAt d' name = some content :=
  touches_createAt.bind fun _ _ _ hmem => (touches_writeFile hmem).bind fun _ _ _ hwritten =>
    touches_syncFile hwritten

variable {id : String}

/-- Removing the temporary changes nothing about what was published. -/
theorem PublishOutcome.cleanup {name : StoreFile}
    {r c : Except StoreFailure Unit} {d'' : StoreDirectory} {m' m'' : Rollback}
    (h : PublishOutcome (.temporary name id) name content d r d' m')
    (hc : UnlinkOutcome (.temporary name id) true d' m' c d'' m'') :
    PublishOutcome (.temporary name id) name content d (c.bind fun _ => r) d'' m'' := by
  have hlookup : d''.lookup name = d'.lookup name :=
    hc.others name (by simpa using name.temporary_ne id)
  have hcontent : contentAt d'' name = contentAt d' name := by rw [contentAt, hlookup, contentAt]
  have hphase : match c with
      | .ok _ => m'' = m'
      | .error _ => m'' = m'.fault := by
    rcases hc.phase with ⟨-, hsecret, -⟩ | ⟨-, hphase⟩
    · cases hsecret
    cases c with
    | ok => exact hphase
    | error => exact hphase.resolve_right (by simp)
  have hdrift : m'.Drift m'' := by
    cases c with
    | ok => exact .inl hphase
    | error => exact .inr hphase
  refine ⟨h.others.trans (hc.others.mono (by simp)), ?_⟩
  cases r with
  | ok _ =>
    obtain ⟨hok, rfl⟩ := h.result
    cases c with
    | ok => exact ⟨hcontent.trans hok, hphase⟩
    | error => exact .inr ⟨hcontent.trans hok, hphase⟩
  | error =>
    have hresult : (d''.lookup name = d.lookup name ∧ m'' = .quiet) ∨
        (contentAt d'' name = some content ∧ m'' = name.publishedPhase.fault) := by
      rcases h.result with ⟨hsame, rfl⟩ | ⟨hnew, rfl⟩
      · exact .inl ⟨hlookup.trans hsame, Rollback.drift_quiet.mp hdrift⟩
      · exact .inr ⟨hcontent.trans hnew, by simpa [Rollback.Drift] using hdrift⟩
    cases c <;> exact hresult

theorem calls_atomicWrite (id : String) (name : StoreFile) (content : StoreContent)
    (d : StoreDirectory) :
    Calls (PublishOutcome (.temporary name id) name content d) (atomicWrite id name content) d
      .quiet := by
  have hne := name.temporary_ne id
  refine calls_bind.mpr (Calls.mono (fun r d₁ m₁ hr => ?_) touches_writeTemporary)
  obtain ⟨rfl, hstaged, hcontent⟩ := hr
  cases r with
  | error => exact .unpublished hstaged hne
  | ok _ =>
    refine calls_always.mpr ((calls_publish hne (hcontent _ rfl)).mono fun r d₂ m₂ hr => ?_)
    have hr' : PublishOutcome (.temporary name id) name content d r d₂ m₂ := by
      refine ⟨(hstaged.mono (by simp)).trans hr.others, ?_⟩
      have hresult := hr.result
      rw [hstaged name (by simpa using hne)] at hresult
      exact hresult
    refine (calls_unlinkAt _ true d₂ m₂).mono fun c d₃ m₃ hc => ?_
    cases c <;> exact hr'.cleanup hc

theorem touches_atomicWrite {name : StoreFile} (hname : name.isRecord = false) :
    Touches [name, .temporary name id] (atomicWrite id name content) d
      fun _ d' => contentAt d' name = some content := by
  have hphase : name.publishedPhase = .quiet := by simp [StoreFile.publishedPhase, hname]
  refine (calls_atomicWrite id name content d).mono fun r d' m' hr => ?_
  obtain ⟨hothers, hresult⟩ := hr
  rw [hphase] at hresult
  cases r with
  | ok _ => exact ⟨hresult.2, hothers, fun _ _ => hresult.1⟩
  | error =>
    refine ⟨?_, hothers, by simp⟩
    rcases hresult with ⟨-, hm⟩ | ⟨-, hm⟩ <;> exact hm

/-- What a cleanup can leave: some of the matching files are gone. -/
theorem calls_cleanupMatching (matching : StoreFile → Bool) (d : StoreDirectory) :
    Calls (fun _ d' m' => m' = .quiet ∧ ∀ n, d'.lookup n = d.lookup n ∨
      (matching n = true ∧ d'.lookup n = none)) (cleanupMatching matching) d .quiet := by
  have hloop : ∀ (names : List StoreFile) (d : StoreDirectory),
      Calls (fun _ d' m' => m' = .quiet ∧ ∀ n, d'.lookup n = d.lookup n ∨
        (matching n = true ∧ d'.lookup n = none)) (unlinkMatching matching names) d .quiet := by
    intro names
    induction names with
    | nil => exact fun d => ⟨rfl, fun _ => .inl rfl⟩
    | cons name names ih =>
      intro d
      rw [unlinkMatching]
      split
      · next hmatch =>
        refine calls_bind.mpr ((calls_unlinkAt name true d .quiet).mono fun r d₁ m₁ hr => ?_)
        have hm₁ : m₁ = .quiet := by
          rcases hr.phase with ⟨hm, -⟩ | ⟨-, hphase⟩
          · cases hm
          cases r with
          | ok => exact hphase
          | error => simpa [Rollback.fault] using hphase
        have hd₁ : ∀ n, d₁.lookup n = d.lookup n ∨ (matching n = true ∧ d₁.lookup n = none) := by
          intro n
          by_cases hn : n = name
          · subst hn
            exact hr.target.imp_right fun hnone => ⟨hmatch, hnone⟩
          · exact .inl (hr.others n (by simpa using hn))
        subst hm₁
        cases r with
        | error => exact ⟨rfl, hd₁⟩
        | ok _ =>
          refine calls_bind.mpr ((ih d₁).mono fun r d₂ m₂ hr₂ => ?_)
          have hd₂ : ∀ n, d₂.lookup n = d.lookup n ∨ (matching n = true ∧ d₂.lookup n = none) := by
            intro n
            rcases hr₂.2 n with hn | hn
            · rw [hn]
              exact hd₁ n
            · exact .inr hn
          cases r <;> exact ⟨hr₂.1, hd₂⟩
      · exact ih d
  have hlist : Reads (file .listRoot) d (fun _ => True) False :=
    neutral_listRoot.reads (fun _ _ _ => trivial) (by simp [FileOp.effect, FileOp.arrange])
  refine calls_bind.mpr ((hlist .quiet).mono fun r d₁ m₁ hr => ?_)
  cases r with
  | error =>
    obtain ⟨rfl, hdrift, -⟩ := hr
    exact ⟨Rollback.drift_quiet.mp hdrift, fun _ => .inl rfl⟩
  | ok names =>
    obtain ⟨rfl, rfl, -⟩ := hr
    refine calls_bind.mpr ((hloop names d₁).mono fun r d₂ m₂ hr => ?_)
    cases r with
    | error => exact hr
    | ok removed =>
      obtain ⟨rfl, hd₂⟩ := hr
      cases removed with
      | false => exact ⟨rfl, hd₂⟩
      | true =>
        refine (settles_syncParent d₂ .quiet).mono fun r d₃ m₃ hr => ?_
        obtain ⟨rfl, hr⟩ := hr
        cases r with
        | ok => exact ⟨hr, hd₂⟩
        | error => exact ⟨hr.1, hd₂⟩

end Rules

end BreadboardTui
