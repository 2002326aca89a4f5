import BreadboardTui.Lifecycle.FaultRules

/-!
# Records and their secrets

Three kinds of record name a secret: the authority record, the prepared start claim and the
control attempt. `SoundStore` says that every record names the secret its place prescribes and
that the secret opens. Each call of the store is shown to keep this, whatever step throws, with
one exception that `Rollback` watches for: a step throws **after** the rename that published a
record, and the call then unlinks the secret of the record it has published.
-/

namespace BreadboardTui

open Effects Option

/-! ### What a record says about its secret -/

/-- The secret a record names, the name its place prescribes, and the test the secret has to
pass. -/
structure Credential where
  ref : StoreFile
  canonical : StoreFile
  opens : List UInt8 → Bool

/-- Whether `decode` accepts the bytes with a secret that satisfies `matching`. -/
def opensWith {S : Type} (decode : List UInt8 → Except LocalAuthorityStoreError S)
    (matching : S → Bool) (bytes : List UInt8) : Bool :=
  match decode bytes with
  | .ok secret => matching secret
  | .error _ => false

section Credentials

variable (platform : Platform)

def LocalAuthorityRecord.credential (key : String) (record : LocalAuthorityRecord) :
    Credential where
  ref := record.ownerCredentialRef
  canonical := .ownerSecret key record.ownerGeneration record.recordRevision
  opens := opensWith decodeAuthoritySecret fun secret =>
    credentialVerifier platform secret.ownerCredential == record.ownerCredentialVerifier

def LocalControlAttempt.credential (key : String) (attempt : LocalControlAttempt) :
    Credential where
  ref := attempt.requesterCredentialRef
  canonical := .controlSecret key attempt.controlRequestId
  opens := opensWith decodeControlSecret fun secret =>
    controlSecretVerifier platform secret.requesterRegistrationCredential ==
      attempt.requesterCredentialVerifier

def PendingStart.credential (key token : String) (pending : PendingStart) : Credential where
  ref := pending.pendingSecretRef
  canonical := .pendingSecret key token
  opens := opensWith decodePendingSecret fun secret =>
    BreadboardTui.pendingSecretVerifier platform secret == pending.pendingSecretVerifier

/-- The credential a file speaks of, when it holds a valid record of its kind. -/
def StoreContent.credential (name : StoreFile) (content : StoreContent) : Option Credential :=
  match name, content with
  | .authority key, .authority record =>
    if record.isValid platform key then some (record.credential platform key) else none
  | .control key, .control attempt =>
    if attempt.isValid then some (attempt.credential platform key) else none
  | .starting key, .startClaim claim =>
    if claim.isValid then claim.pending.map (·.credential platform key claim.token) else none
  | _, _ => none

def credentialAt (d : StoreDirectory) (name : StoreFile) : Option Credential :=
  (contentAt d name).bind (·.credential platform name)

/-- Every record names the secret of its place, and the secret is there and opens. -/
def SoundStore (d : StoreDirectory) : Prop :=
  ∀ name c, credentialAt platform d name = some c → c.ref = c.canonical ∧
    ∃ bytes, contentAt d c.ref = some (.secret bytes) ∧ c.opens bytes = true

end Credentials

/-- The record a secret belongs to. -/
def StoreFile.owner? : StoreFile → Option StoreFile
  | ownerSecret key _ _ => some (authority key)
  | pendingSecret key _ => some (starting key)
  | controlSecret key _ => some (control key)
  | _ => none

section Sound

variable {platform : Platform} {d d' : StoreDirectory} {name : StoreFile} {c : Credential}

variable {content : StoreContent}

theorem StoreContent.credential_canonical (h : content.credential platform name = some c) :
    c.canonical.owner? = some name ∧ name.isRecord = true := by
  unfold StoreContent.credential at h
  split at h
  · split at h
    · cases h
      exact ⟨rfl, rfl⟩
    · cases h
  · split at h
    · cases h
      exact ⟨rfl, rfl⟩
    · cases h
  · split at h
    · obtain ⟨pending, -, rfl⟩ := map_eq_some_iff.mp h
      exact ⟨rfl, rfl⟩
    · cases h
  · cases h

theorem credentialAt_congr (h : d'.lookup name = d.lookup name) :
    credentialAt platform d' name = credentialAt platform d name := by
  rw [credentialAt, contentAt, h, credentialAt, contentAt]

theorem credentialAt_none (h : d.lookup name = none) : credentialAt platform d name = none := by
  rw [credentialAt, contentAt, h]
  rfl

theorem soundStore_empty (platform : Platform) : SoundStore platform ∅ := by
  rintro name c hc
  rw [credentialAt_none (AList.lookup_empty name)] at hc
  cases hc

/-- In a sound store the name of a secret tells the record that names it. -/
theorem SoundStore.owner_ref (hd : SoundStore platform d)
    (h : credentialAt platform d name = some c) : c.ref.owner? = some name := by
  obtain ⟨content, -, hcontent⟩ := Option.bind_eq_some_iff.mp h
  rw [(hd name c h).1]
  exact (StoreContent.credential_canonical hcontent).1

/-- `Unnamed d n`: no record names the secret `n`. -/
def Unnamed (platform : Platform) (d : StoreDirectory) (n : StoreFile) : Prop :=
  ∀ name c, credentialAt platform d name = some c → c.ref ≠ n

variable {n : StoreFile}

/-- A secret is unnamed as soon as the record it belongs to does not name it. -/
theorem SoundStore.unnamed (hd : SoundStore platform d)
    (h : ∀ name c, n.owner? = some name → credentialAt platform d name = some c → c.ref ≠ n) :
    Unnamed platform d n := by
  rintro name c hc rfl
  exact h name c (hd.owner_ref hc) hc rfl

/-- What is no secret is named by no record. -/
theorem SoundStore.unnamed_of_owner_none (hd : SoundStore platform d)
    (h : n.owner? = none) : Unnamed platform d n :=
  hd.unnamed fun name c hname => by simp [h] at hname

/-- Records that stay, with the secrets they name, stay sound. -/
theorem SoundStore.of_records (hd : SoundStore platform d)
    (h : ∀ name c, credentialAt platform d' name = some c →
      credentialAt platform d name = some c ∧ d'.lookup c.ref = d.lookup c.ref) :
    SoundStore platform d' := by
  intro name c hc
  obtain ⟨hold, hlookup⟩ := h name c hc
  rw [contentAt, hlookup]
  exact hd name c hold

variable {names : List StoreFile}

/-- Files that are no records and that no record names may change freely. -/
theorem SoundStore.sameExcept (hd : SoundStore platform d) (h : SameExcept names d d')
    (hnames : ∀ n ∈ names, n.isRecord = false ∧ Unnamed platform d n) :
    SoundStore platform d' := by
  refine hd.of_records fun name c hc => ?_
  have hname : name ∉ names := by
    intro hmem
    obtain ⟨content, -, hcontent⟩ := Option.bind_eq_some_iff.mp hc
    have hrecord := (StoreContent.credential_canonical hcontent).2
    rw [(hnames name hmem).1] at hrecord
    cases hrecord
  rw [credentialAt_congr (h name hname)] at hc
  exact ⟨hc, h _ fun hmem => (hnames _ hmem).2 name c hc rfl⟩

/-- A record is untouched by changes to files that are none. -/
theorem credentialAt_sameExcept (h : SameExcept names d d')
    (hnames : ∀ n ∈ names, n.isRecord = false) :
    credentialAt platform d' name = some c ↔ credentialAt platform d name = some c := by
  have hnone : ∀ d₁ : StoreDirectory, name ∈ names → credentialAt platform d₁ name ≠ some c := by
    intro d₁ hmem hc
    obtain ⟨content, -, hcontent⟩ := Option.bind_eq_some_iff.mp hc
    have hrecord := (StoreContent.credential_canonical hcontent).2
    rw [hnames name hmem] at hrecord
    cases hrecord
  by_cases hmem : name ∈ names
  · exact iff_of_false (hnone d' hmem) (hnone d hmem)
  · rw [credentialAt_congr (h name hmem)]

theorem Unnamed.sameExcept (hn : Unnamed platform d n)
    (h : SameExcept names d d') (hnames : ∀ n ∈ names, n.isRecord = false) :
    Unnamed platform d' n :=
  fun name c hc => hn name c ((credentialAt_sameExcept h hnames).mp hc)

/-- Files may go, as long as the records that stay do not name them. -/
theorem SoundStore.shrink (hd : SoundStore platform d)
    (h : ∀ n, d'.lookup n = d.lookup n ∨ d'.lookup n = none ∧ Unnamed platform d' n) :
    SoundStore platform d' := by
  refine hd.of_records fun name c hc => ?_
  have hsame : d'.lookup name = d.lookup name := by
    refine (h name).resolve_right fun hnone => ?_
    rw [credentialAt_none hnone.1] at hc
    cases hc
  have href := (h c.ref).resolve_right fun hnone => hnone.2 name c hc rfl
  rw [credentialAt_congr hsame] at hc
  exact ⟨hc, href⟩

/-- A record may be published once its secret is in place. -/
theorem SoundStore.publish
    {bytes : List UInt8} (hd : SoundStore platform d) (h : SameExcept (name :: names) d d')
    (hnames : ∀ n ∈ names, n.isRecord = false ∧ n.owner? = none)
    (hcontent : contentAt d' name = some content)
    (hcredential : content.credential platform name = some c) (hcanonical : c.ref = c.canonical)
    (hsecret : contentAt d c.ref = some (.secret bytes)) (hopens : c.opens bytes = true) :
    SoundStore platform d' := by
  obtain ⟨howner, hrecord⟩ := StoreContent.credential_canonical hcredential
  have hsecrets : ∀ n, n.owner? ≠ none → n ∉ name :: names := by
    intro n hn hmem
    rcases List.mem_cons.mp hmem with rfl | hmem
    · cases n <;> simp [StoreFile.owner?, StoreFile.isRecord] at hn hrecord
    · exact hn (hnames n hmem).2
  intro name' c' hc'
  by_cases hname : name' = name
  · subst hname
    obtain rfl : c = c' := by
      rw [credentialAt, hcontent] at hc'
      exact some.inj (hcredential.symm.trans hc')
    refine ⟨hcanonical, bytes, ?_, hopens⟩
    rw [contentAt, h _ (hsecrets _ (by rw [hcanonical, howner]; simp))]
    exact hsecret
  have hname' : name' ∉ name :: names := by
    simp only [List.mem_cons, not_or]
    refine ⟨hname, fun hmem => ?_⟩
    obtain ⟨content', -, hcontent'⟩ := Option.bind_eq_some_iff.mp hc'
    have hrec := (StoreContent.credential_canonical hcontent').2
    rw [(hnames name' hmem).1] at hrec
    cases hrec
  rw [credentialAt_congr (h name' hname')] at hc'
  rw [contentAt, h _ (hsecrets _ (by rw [hd.owner_ref hc']; simp))]
  exact hd name' c' hc'

end Sound

/-! ### The calls -/

/-- What every call leaves: a sound store, unless it took back a published secret. -/
def Good (platform : Platform) (d : StoreDirectory) (m : Rollback) : Prop :=
  m = .rolledBack ∨ SoundStore platform d

section Calls

variable {platform : Platform} {α β : Type} {d d' : StoreDirectory} {name : StoreFile}

variable {m : Rollback}

theorem Good.fault (h : Good platform d m) : Good platform d m.fault := by
  rcases h with rfl | h
  · exact .inl rfl
  · exact .inr h

/-- What a sequence of steps may leave: at least every sound store, with nothing published. -/
def Admits (platform : Platform) (G : StoreDirectory → Rollback → Prop) : Prop :=
  ∀ d, SoundStore platform d → G d .quiet

theorem good_admits : Admits platform (Good platform) := fun _ h => .inr h

section Steps

variable {G : StoreDirectory → Rollback → Prop}

variable {f : α → StoreM β} {p : StoreM α}

theorem Admits.reads (hG : Admits platform G) {R : α → Prop}
    {absent : Prop} (hp : Reads p d R absent) (hd : SoundStore platform d)
    (hf : ∀ a, R a → Calls (fun _ => G) (f a) d .quiet) :
    Calls (fun _ => G) (p >>= f) d .quiet := by
  refine calls_bind.mpr ((hp .quiet).mono fun r d₁ m₁ hr => ?_)
  cases r with
  | ok a =>
    obtain ⟨rfl, rfl, ha⟩ := hr
    exact hf a ha
  | error =>
    obtain ⟨rfl, hdrift, -⟩ := hr
    rw [Rollback.drift_quiet.mp hdrift]
    exact hG _ hd

theorem Admits.throwIf (hG : Admits platform G) {condition : Prop} [Decidable condition]
    {code : AuthorityStoreErrorCode} {message : String} {f : Unit → StoreM β}
    (hd : SoundStore platform d)
    (hf : ¬ condition → Calls (fun _ => G) (f ()) d .quiet) :
    Calls (fun _ => G) (throwIf condition code message >>= f) d .quiet :=
  hG.reads (reads_throwIf : Reads _ d _ False) hd fun _ h => hf h

theorem Admits.check (hG : Admits platform G) {r : Except LocalAuthorityStoreError α}
    (hd : SoundStore platform d)
    (hf : ∀ a, r = .ok a → Calls (fun _ => G) (f a) d .quiet) :
    Calls (fun _ => G) (check r >>= f) d .quiet :=
  hG.reads (reads_check fun _ h => h : Reads _ d (fun a => r = .ok a) False) hd hf

/-- A call that touches only files no record names hands a sound store on. -/
theorem Admits.touches (hG : Admits platform G)
    {names : List StoreFile} {R : α → StoreDirectory → Prop} (hp : Touches names p d R)
    (hd : SoundStore platform d) (hnames : ∀ n ∈ names, n.isRecord = false ∧ Unnamed platform d n)
    (hf : ∀ a d', SameExcept names d d' → SoundStore platform d' → R a d' →
      Calls (fun _ => G) (f a) d' .quiet) : Calls (fun _ => G) (p >>= f) d .quiet := by
  refine calls_bind.mpr (Calls.mono (fun r d₁ m₁ hr => ?_) hp)
  obtain ⟨rfl, hsame, hR⟩ := hr
  have hd₁ := hd.sameExcept hsame hnames
  cases r with
  | ok a => exact hf a d₁ hsame hd₁ (hR a rfl)
  | error => exact hG _ hd₁

end Steps

/-- `d'` is `d` with some files gone. -/
def Shrinks (d d' : StoreDirectory) : Prop :=
  ∀ n, d'.lookup n = d.lookup n ∨ d'.lookup n = none

theorem credentialAt_of_shrinks {c : Credential} (h : Shrinks d d')
    (hc : credentialAt platform d' name = some c) : credentialAt platform d name = some c := by
  rcases h name with hsame | hnone
  · rwa [credentialAt_congr hsame] at hc
  rw [credentialAt_none hnone] at hc
  cases hc

theorem Unnamed.shrinks {n : StoreFile} (hn : Unnamed platform d n) (h : Shrinks d d') :
    Unnamed platform d' n :=
  fun name c hc => hn name c (credentialAt_of_shrinks h hc)

variable {r : Except StoreFailure Unit} {force : Bool} {m' : Rollback}

theorem UnlinkOutcome.shrinks (h : UnlinkOutcome name force d m r d' m') : Shrinks d d' := by
  intro n
  by_cases hn : n = name
  · subst hn
    exact h.target
  · exact .inl (h.others n (by simpa using hn))

/-- An `unlink` of what no record names keeps a store sound. -/
theorem UnlinkOutcome.sound (h : UnlinkOutcome name force d m r d' m') (hd : SoundStore platform d)
    (hname : Unnamed platform d name) : SoundStore platform d' := by
  refine hd.shrink fun n => ?_
  by_cases hn : n = name
  · subst hn
    exact h.target.imp_right fun hnone => ⟨hnone, hname.shrinks h.shrinks⟩
  · exact .inl (h.others n (by simpa using hn))

/-- Before anything was published, an `unlink` publishes nothing. -/
theorem UnlinkOutcome.quiet (h : UnlinkOutcome name force d .quiet r d' m') : m' = .quiet := by
  rcases h.phase with ⟨hm, -⟩ | ⟨-, hphase⟩
  · cases hm
  cases r with
  | ok => exact hphase
  | error => exact hphase.elim id And.right

theorem Admits.unlinkAt {G : StoreDirectory → Rollback → Prop} (hG : Admits platform G)
    {f : Unit → StoreM β} (hd : SoundStore platform d)
    (hname : Unnamed platform d name)
    (hf : ∀ d', SoundStore platform d' → Shrinks d d' → d'.lookup name = none →
      Calls (fun _ => G) (f ()) d' .quiet) :
    Calls (fun _ => G) (unlinkAt name force >>= f) d .quiet := by
  refine calls_bind.mpr ((calls_unlinkAt name force d .quiet).mono fun r d₁ m₁ hr => ?_)
  obtain rfl := hr.quiet
  cases r with
  | ok _ => exact hf d₁ (hr.sound hd hname) hr.shrinks (hr.gone _ rfl)
  | error => exact hG _ (hr.sound hd hname)

/-- Every rollback and every disposal of an old secret ends here. -/
theorem good_unlinkAndSync
    (h : ∀ r d' m', UnlinkOutcome name true d m r d' m' → Good platform d' m') :
    Calls (fun _ => Good platform) (unlinkAndSync name) d m := by
  refine calls_bind.mpr ((calls_unlinkAt name true d m).mono fun r d₁ m₁ hr => ?_)
  cases r with
  | error => exact h _ _ _ hr
  | ok _ =>
    refine (settles_syncParent d₁ m₁).mono fun r d₂ m₂ hr' => ?_
    obtain ⟨rfl, hr'⟩ := hr'
    cases r with
    | ok _ =>
      have hm : m₂ = m₁ := hr'
      subst hm
      exact h _ _ _ hr
    | error =>
      rw [hr'.1]
      exact (h _ _ _ hr).fault

/-- Publishing a record whose secret is in place, with the rollback: the store ends sound unless
the secret of the published record was taken back. -/
theorem good_publishOrRevoke {id : String} {content : StoreContent} {c : Credential}
    {bytes : List UInt8} (hd : SoundStore platform d)
    (hcredential : content.credential platform name = some c) (hcanonical : c.ref = c.canonical)
    (hsecret : contentAt d c.ref = some (.secret bytes)) (hopens : c.opens bytes = true)
    (hunnamed : Unnamed platform d c.ref) :
    Calls (fun r d' m' => Good platform d' m' ∧ (∀ u, r = .ok u → SoundStore platform d' ∧
        contentAt d' name = some content))
      (publishOrRevoke id name content c.ref) d .quiet := by
  have hsecretName : c.ref.isSecret = true := by
    have howner := (StoreContent.credential_canonical hcredential).1
    rw [← hcanonical] at howner
    cases href : c.ref <;> simp [href, StoreFile.owner?] at howner <;> rfl
  have htemp : ∀ n ∈ [StoreFile.temporary name id], n.isRecord = false ∧ n.owner? = none := by
    simp [StoreFile.isRecord, StoreFile.owner?]
  refine calls_tryCatch.mpr ((calls_atomicWrite id name content d).mono fun r d₁ m₁ hr => ?_)
  obtain ⟨hothers, hresult⟩ := hr
  cases r with
  | ok _ =>
    have hd₁ := hd.publish hothers htemp hresult.1 hcredential hcanonical hsecret hopens
    exact ⟨.inr hd₁, fun _ _ => ⟨hd₁, hresult.1⟩⟩
  | error =>
    suffices hrollback : Calls (fun _ => Good platform) (unlinkAndSync c.ref) d₁ m₁ by
      refine calls_bind.mpr (hrollback.mono fun r d₂ m₂ hr => ?_)
      cases r <;> exact ⟨hr, by simp⟩
    refine good_unlinkAndSync fun r d₂ m₂ hr => ?_
    rcases hresult with ⟨hsame, rfl⟩ | ⟨hnew, rfl⟩
    · have hothers' : SameExcept [.temporary name id] d d₁ := by
        intro n hn
        by_cases hname : n = name
        · rw [hname, hsame]
        · exact hothers n (by simpa [hname] using hn)
      have hd₁ : SoundStore platform d₁ := hd.sameExcept hothers' fun n hn =>
        ⟨(htemp n hn).1, hd.unnamed_of_owner_none (htemp n hn).2⟩
      refine .inr (hr.sound hd₁ fun name' c' hc' => ?_)
      refine hunnamed name' c' ?_
      by_cases hname : name' ∈ [StoreFile.temporary name id]
      · obtain rfl : name' = .temporary name id := by simpa using hname
        obtain ⟨_, -, hcontent⟩ := Option.bind_eq_some_iff.mp hc'
        cases (StoreContent.credential_canonical hcontent).2
      · rwa [credentialAt_congr (hothers' name' hname)] at hc'
    have hd₁ := hd.publish hothers htemp hnew hcredential hcanonical hsecret hopens
    have hfailed : name.publishedPhase.fault = .failed := by
      simp [StoreFile.publishedPhase, Rollback.fault,
        (StoreContent.credential_canonical hcredential).2]
    rcases hr.phase with ⟨-, -, hrolled⟩ | ⟨hkept, -⟩
    · exact .inl hrolled
    refine .inr (hd₁.of_records fun name' c' hc' => ?_)
    have hsame : ∀ n, d₂.lookup n = d₁.lookup n := by
      intro n
      by_cases hn : n = c.ref
      · rw [hn]
        exact hkept hfailed hsecretName
      · exact hr.others n (by simpa using hn)
    rw [credentialAt_congr (hsame name')] at hc'
    exact ⟨hc', hsame _⟩

/-- `commit` writes the new secret under a name the current record cannot have, since the
generation has to increase. -/
theorem good_commit (seams : CommitSeams) (endpoint : String)
    (expected : Option LocalAuthorityRecord) (input : AuthorityRecordInput)
    (secret : AuthoritySecret) (hd : SoundStore platform d) :
    Calls (fun _ => Good platform) (commit platform seams endpoint expected input secret) d
      .quiet := by
  unfold commit
  refine good_admits.throwIf hd fun _ => ?_
  refine good_admits.reads reads_probeCurrent hd fun current hcurrent => ?_
  refine good_admits.throwIf hd fun hexpected => ?_
  refine good_admits.throwIf hd fun hgeneration => ?_
  obtain rfl : expected = current := by simpa using hexpected
  refine good_admits.check hd fun _ hassert => ?_
  refine good_admits.check hd fun bytes hbytes => ?_
  generalize hkey : endpointKey platform endpoint = key at hcurrent hassert ⊢
  generalize hcomplete : completeRecord platform seams key input secret = complete at hassert ⊢
  have href : complete.ownerCredentialRef =
      .ownerSecret key complete.ownerGeneration complete.recordRevision := by
    rw [← hcomplete]
    rfl
  have hgen : complete.ownerGeneration = input.ownerGeneration := by
    rw [← hcomplete]
    rfl
  have hcredential : StoreContent.credential platform (.authority key) (.authority complete) =
      some (complete.credential platform key) := by
    simp [StoreContent.credential, (assertRecord_eq_ok.mp hassert).2]
  have hopens : (complete.credential platform key).opens bytes = true := by
    simp [LocalAuthorityRecord.credential, opensWith, decodeAuthoritySecret_of_encode hbytes,
      ← hcomplete, completeRecord]
  have hunnamed : Unnamed platform d complete.ownerCredentialRef := by
    refine hd.unnamed fun name c hname hc => ?_
    obtain rfl : name = .authority key := by
      rw [href] at hname
      exact (some.inj hname).symm
    cases expected with
    | none =>
      rw [credentialAt_none (AList.lookup_eq_none.mpr hcurrent)] at hc
      cases hc
    | some record =>
      obtain ⟨hcontent, hvalid⟩ := hcurrent
      obtain rfl : record.credential platform key = c := by
        simpa [credentialAt, hcontent, StoreContent.credential, hvalid] using hc
      rw [(hd _ _ hc).1, href, LocalAuthorityRecord.credential]
      simp only [ne_eq, StoreFile.ownerSecret.injEq, true_and, not_and]
      simp only [Option.any_some, decide_eq_true_eq] at hgeneration
      omega
  have hnames : ∀ n ∈ [complete.ownerCredentialRef,
      .temporary complete.ownerCredentialRef seams.secretTemporaryId],
      n.isRecord = false ∧ Unnamed platform d n := by
    simp only [List.mem_cons, List.not_mem_nil, or_false, forall_eq_or_imp, forall_eq]
    exact ⟨⟨by rw [href]; rfl, hunnamed⟩, rfl, hd.unnamed_of_owner_none rfl⟩
  refine good_admits.touches (touches_atomicWrite (by rw [href]; rfl)) hd hnames
    fun _ d₁ hsame hd₁ hsecret => ?_
  have hunnamed₁ := hunnamed.sameExcept hsame fun n hn => (hnames n hn).1
  refine calls_bind.mpr ((good_publishOrRevoke hd₁ hcredential href hsecret hopens
    hunnamed₁).mono fun r d₂ m₂ hr => ?_)
  cases r with
  | error => exact hr.1
  | ok _ =>
    obtain ⟨hd₂, hcontent₂⟩ := hr.2 _ rfl
    cases expected with
    | none => exact .inr hd₂
    | some record =>
      obtain ⟨hcontent, hvalid⟩ := hcurrent
      have hold : credentialAt platform d (.authority key) =
          some (record.credential platform key) := by
        simp [credentialAt, hcontent, StoreContent.credential, hvalid]
      have hdispose : Calls (fun _ => Good platform)
          (onlyIf (record.ownerCredentialRef ≠ complete.ownerCredentialRef)
            (unlinkAndSync record.ownerCredentialRef)) d₂ m₂ := by
        unfold onlyIf
        split
        · next hne =>
          refine good_unlinkAndSync fun r d₃ m₃ hr₃ => .inr (hr₃.sound hd₂ ?_)
          refine hd₂.unnamed fun name c hname hc => ?_
          have howner := hd.owner_ref hold
          obtain rfl : name = .authority key := some.inj (hname.symm.trans howner)
          obtain rfl : complete.credential platform key = c := by
            simpa [credentialAt, hcontent₂, hcredential] using hc
          exact hne.symm
        · exact .inr hd₂
      refine calls_bind.mpr (hdispose.mono fun r d₃ m₃ hr₃ => ?_)
      cases r <;> exact hr₃

/-- `prepareStartClaim` writes the secret of a claim that names none yet. -/
theorem good_prepareStartClaim (temporaryId endpoint token : String)
    (input : PrepareStartClaimInput) (secret : PendingStartSecret) (hd : SoundStore platform d) :
    Calls (fun _ => Good platform)
      (prepareStartClaim platform temporaryId endpoint token input secret) d .quiet := by
  unfold prepareStartClaim
  refine good_admits.throwIf hd fun _ => ?_
  refine good_admits.throwIf hd fun _ => ?_
  generalize hkey : endpointKey platform endpoint = key
  refine good_admits.reads reads_readStartClaim hd fun claim hclaim => ?_
  refine good_admits.throwIf hd fun hfresh => ?_
  refine good_admits.check hd fun bytes hbytes => ?_
  obtain ⟨htoken, hpending⟩ : claim.token = token ∧ claim.pending = none := by
    simpa using hfresh
  have hunnamed : Unnamed platform d (.pendingSecret key token) := by
    refine hd.unnamed fun name c hname hc => ?_
    obtain rfl : name = .starting key := (some.inj hname).symm
    simp [credentialAt, hclaim.1, StoreContent.credential, hclaim.2, hpending] at hc
  have hnames : ∀ n ∈ [StoreFile.pendingSecret key token],
      n.isRecord = false ∧ Unnamed platform d n := by
    simpa using ⟨rfl, hunnamed⟩
  refine good_admits.touches touches_exclusiveWrite hd hnames fun _ d₁ hsame hd₁ hsecret => ?_
  have hunnamed₁ := hunnamed.sameExcept hsame fun n hn => (hnames n hn).1
  refine good_admits.check hd₁ fun prepared hprepared => ?_
  obtain ⟨rfl, hvalid⟩ := assertStartClaim_eq_ok.mp hprepared
  have hcredential : StoreContent.credential platform (.starting key)
      (.startClaim { claim with
        pending := some
          { input with
            pendingSecretRef := .pendingSecret key token
            pendingSecretVerifier := pendingSecretVerifier platform secret } }) =
      some (PendingStart.credential platform key claim.token
        { input with
          pendingSecretRef := .pendingSecret key token
          pendingSecretVerifier := pendingSecretVerifier platform secret }) := by
    simp [StoreContent.credential, hvalid]
  have hopens : opensWith decodePendingSecret (fun s =>
      pendingSecretVerifier platform s == pendingSecretVerifier platform secret) bytes = true := by
    simp [opensWith, decodePendingSecret_of_encode hbytes]
  refine calls_bind.mpr ((good_publishOrRevoke hd₁ hcredential (by rw [htoken]; rfl) hsecret hopens
    hunnamed₁).mono fun r d₂ m₂ hr => ?_)
  cases r <;> exact hr.1

/-- `clearControlAttempt` removes the record before the secret it names. -/
theorem calls_clearControlAttempt (endpoint : String) (expected : LocalControlAttempt)
    (hd : SoundStore platform d) :
    Calls (fun _ d' m' => m' = .quiet ∧ SoundStore platform d')
      (clearControlAttempt platform endpoint expected) d .quiet := by
  have hG : Admits platform fun d' m' => m' = .quiet ∧ SoundStore platform d' := fun _ h => ⟨rfl, h⟩
  unfold clearControlAttempt
  generalize endpointKey platform endpoint = key
  refine hG.reads reads_readControl hd fun attempt hattempt => ?_
  refine hG.throwIf hd fun _ => ?_
  have howner : attempt.requesterCredentialRef.owner? = some (.control key) := by
    refine hd.owner_ref (c := attempt.credential platform key) ?_
    simp [credentialAt, hattempt.1, StoreContent.credential, hattempt.2]
  refine hG.unlinkAt hd (hd.unnamed_of_owner_none rfl) fun d₁ hd₁ _ hgone => ?_
  refine hG.reads settles_syncParent.reads hd₁ fun _ _ => ?_
  have hunnamed : Unnamed platform d₁ attempt.requesterCredentialRef := by
    refine hd₁.unnamed fun name c hname hc => ?_
    obtain rfl : name = .control key := some.inj (hname.symm.trans howner)
    rw [credentialAt_none hgone] at hc
    cases hc
  refine hG.unlinkAt hd₁ hunnamed fun d₂ hd₂ _ _ => ?_
  refine (settles_syncParent d₂ .quiet).mono fun r d₃ m₃ hr => ?_
  obtain ⟨rfl, hr⟩ := hr
  cases r with
  | ok => exact ⟨hr, hd₂⟩
  | error => exact ⟨hr.1, hd₂⟩

/-- `prepareControlAttempt` writes the secret of an attempt where there is none. -/
theorem good_prepareControlAttempt (seams : ControlSeams) (endpoint : String)
    (record : LocalAuthorityRecord) (operation : ControlOperation) (controlRequestId : String)
    (requester : ControlAttemptRequester) (hd : SoundStore platform d) :
    Calls (fun _ => Good platform) (prepareControlAttempt platform seams endpoint record operation
      controlRequestId requester) d .quiet := by
  unfold prepareControlAttempt
  refine good_admits.reads reads_probeCurrent hd fun _ _ => ?_
  refine good_admits.throwIf hd fun _ => ?_
  refine good_admits.reads reads_readControlAttempt hd fun existing hexisting => ?_
  generalize endpointKey platform endpoint = key at hexisting ⊢
  refine calls_bind.mpr ((calls_cleanupMatching _ d).mono fun r d₁ m₁ hr => ?_)
  obtain ⟨rfl, hgone⟩ := hr
  have hshrinks : Shrinks d d₁ := fun n => (hgone n).imp_right And.right
  have hd₁ : SoundStore platform d₁ := by
    refine hd.shrink fun n => (hgone n).imp_right fun hn => ⟨hn.2, ?_⟩
    refine Unnamed.shrinks (hd.unnamed fun name c hname hc => ?_) hshrinks
    cases n with
    | controlSecret key' =>
      obtain rfl : name = .control key' := (some.inj hname).symm
      simp only [Bool.and_eq_true, bne_iff_ne, ne_eq, beq_iff_eq] at hn
      obtain ⟨⟨⟨href, rfl⟩, -⟩, -⟩ := hn
      cases existing with
      | none =>
        rw [credentialAt_none (AList.lookup_eq_none.mpr hexisting)] at hc
        cases hc
      | some attempt =>
        obtain ⟨hcontent, hvalid⟩ := hexisting
        obtain rfl : attempt.credential platform key' = c := by
          simpa [credentialAt, hcontent, StoreContent.credential, hvalid] using hc
        exact fun heq => href (by rw [← heq]; rfl)
    | _ => simp at hn
  cases r with
  | error => exact .inr hd₁
  | ok _ =>
    cases existing with
    | some =>
      exact good_admits.throwIf hd₁ fun _ => .inr hd₁
    | none =>
      refine good_admits.check hd₁ fun bytes hbytes => ?_
      have hunnamed : Unnamed platform d₁ (.controlSecret key controlRequestId) := by
        refine Unnamed.shrinks (hd.unnamed fun name c hname hc => ?_) hshrinks
        obtain rfl : name = .control key := (some.inj hname).symm
        rw [credentialAt_none (AList.lookup_eq_none.mpr hexisting)] at hc
        cases hc
      have hnames : ∀ n ∈ [StoreFile.controlSecret key controlRequestId,
          .temporary (.controlSecret key controlRequestId) seams.secretTemporaryId],
          n.isRecord = false ∧ Unnamed platform d₁ n := by
        simp only [List.mem_cons, List.not_mem_nil, or_false, forall_eq_or_imp, forall_eq]
        exact ⟨⟨rfl, hunnamed⟩, rfl, hd₁.unnamed_of_owner_none rfl⟩
      refine good_admits.touches (touches_atomicWrite rfl) hd₁ hnames
        fun _ d₂ hsame hd₂ hsecret => ?_
      have hunnamed₂ := hunnamed.sameExcept hsame fun n hn => (hnames n hn).1
      refine good_admits.check hd₂ fun attempt hattempt => ?_
      obtain ⟨rfl, hvalid⟩ := assertControlAttempt_eq_ok.mp hattempt
      generalize hnew : newControlAttempt platform seams key record operation controlRequestId
        requester = attempt at hvalid ⊢
      have hcredential : StoreContent.credential platform (.control key) (.control attempt) =
          some (attempt.credential platform key) := by
        simp [StoreContent.credential, hvalid]
      have href : attempt.requesterCredentialRef = .controlSecret key controlRequestId := by
        rw [← hnew]
        rfl
      have hcanonical : (attempt.credential platform key).ref =
          (attempt.credential platform key).canonical := by
        rw [← hnew]
        rfl
      have hopens : (attempt.credential platform key).opens bytes = true := by
        simp [LocalControlAttempt.credential, opensWith, decodeControlSecret_of_encode hbytes,
          ← hnew, newControlAttempt]
      rw [← href] at hsecret hunnamed₂ ⊢
      refine calls_bind.mpr ((good_publishOrRevoke hd₂ hcredential hcanonical hsecret hopens
        hunnamed₂).mono fun r d₃ m₃ hr => ?_)
      cases r <;> exact hr.1

/-- `replaceExpiredBeginControlAttempt` clears before it prepares. -/
theorem good_replaceExpiredBeginControlAttempt (seams : ControlSeams) (endpoint : String)
    (record : LocalAuthorityRecord) (expired : LocalControlAttempt) (operation : ControlOperation)
    (controlRequestId : String) (requester : ControlAttemptRequester)
    (hd : SoundStore platform d) :
    Calls (fun _ => Good platform) (replaceExpiredBeginControlAttempt platform seams endpoint
      record expired operation controlRequestId requester) d .quiet := by
  unfold replaceExpiredBeginControlAttempt
  refine good_admits.reads reads_probeCurrent hd fun _ _ => ?_
  refine good_admits.throwIf hd fun _ => ?_
  refine good_admits.reads reads_readControlAttempt hd fun current? _ => ?_
  cases current? with
  | none => exact good_prepareControlAttempt _ _ _ _ _ _ hd
  | some current =>
    simp only []
    split
    · exact good_admits.throwIf hd fun _ => .inr hd
    refine good_admits.throwIf hd fun _ => ?_
    refine good_admits.reads reads_readControlAttemptSecret hd fun _ _ => ?_
    refine calls_bind.mpr ((calls_clearControlAttempt endpoint current hd).mono
      fun r d₁ m₁ hr => ?_)
    obtain ⟨rfl, hd₁⟩ := hr
    cases r with
    | error => exact .inr hd₁
    | ok _ => exact good_prepareControlAttempt _ _ _ _ _ _ hd₁

/-- Moving a record away keeps a store sound; nothing is published by it. -/
theorem Admits.renameAway {G : StoreDirectory → Rollback → Prop} (hG : Admits platform G)
    {source target : StoreFile} {file : File StoreContent} {f : Unit → StoreM β}
    (hd : SoundStore platform d) (hlookup : d.lookup source = some file) (hne : source ≠ target)
    (hsource : source.owner? = none) (htarget : target.isRecord = false ∧ target.owner? = none)
    (hf : ∀ d', SoundStore platform d' → (∀ n, n ≠ target → d'.lookup n = d.lookup n ∨
      d'.lookup n = none) → d'.lookup source = none → Calls (fun _ => G) (f ()) d' .quiet) :
    Calls (fun _ => G) (renameAt source target >>= f) d .quiet := by
  have hquiet : target.publishedPhase = .quiet := by simp [StoreFile.publishedPhase, htarget.1]
  have hgone : ((d.erase source).insert target file).lookup source = none := by
    rw [AList.lookup_insert_ne hne, AList.lookup_erase]
  have hshrink : ∀ n, n ≠ target → ((d.erase source).insert target file).lookup n = d.lookup n ∨
      ((d.erase source).insert target file).lookup n = none := by
    intro n hn
    by_cases hs : n = source
    · rw [hs]
      exact .inr hgone
    · exact .inl (sameExcept_rename n (by simpa using ⟨hn, hs⟩))
  have hd' : SoundStore platform ((d.erase source).insert target file) := by
    have herase : SoundStore platform (d.erase source) := by
      refine hd.shrink fun n => ?_
      by_cases hs : n = source
      · rw [hs]
        refine .inr ⟨AList.lookup_erase _ _, ?_⟩
        refine Unnamed.shrinks (hd.unnamed_of_owner_none hsource) fun n => ?_
        by_cases hn : n = source
        · rw [hn]
          exact .inr (AList.lookup_erase _ _)
        · exact .inl (AList.lookup_erase_ne hn)
      · exact .inl (AList.lookup_erase_ne hs)
    exact herase.sameExcept sameExcept_insert (by
      simpa using ⟨htarget.1, herase.unnamed_of_owner_none htarget.2⟩)
  refine calls_bind.mpr ((calls_renameAt_cases hlookup).mono fun r d₁ m₁ hr => ?_)
  rcases hr with ⟨rfl, rfl, hr⟩ | ⟨rfl, hphase⟩
  · cases r with
    | ok u => exact (hr u rfl).elim
    | error => exact hG _ hd
  rw [hquiet] at hphase
  cases r with
  | ok _ =>
    have hm : m₁ = .quiet := hphase
    subst hm
    exact hf _ hd' hshrink hgone
  | error =>
    have hm : m₁ = .quiet := hphase
    subst hm
    exact hG _ hd'

/-- `retireDeadGeneration` moves the record away, then removes the attempt, then the secrets of
both. -/
theorem good_retireDeadGeneration (now : ℤ) (retiredId endpoint : String)
    (expected : LocalAuthorityRecord) (hd : SoundStore platform d) :
    Calls (fun _ => Good platform) (retireDeadGeneration platform now retiredId endpoint expected)
      d .quiet := by
  have hsync : ∀ d : StoreDirectory, SoundStore platform d →
      Calls (fun _ => Good platform) syncParent d .quiet := by
    intro d hd
    refine (settles_syncParent d .quiet).mono fun r d₁ m₁ hr => ?_
    rw [hr.1]
    exact .inr hd
  unfold retireDeadGeneration
  refine good_admits.reads reads_probeCurrent hd fun current hcurrent => ?_
  cases current with
  | none => exact .inr hd
  | some record =>
    obtain ⟨hcontent, hvalid⟩ := hcurrent
    refine good_admits.throwIf hd fun _ => ?_
    refine good_admits.reads reads_readControlAttempt hd fun attempt? hattempt => ?_
    refine good_admits.reads reads_readSecret hd fun _ _ => ?_
    generalize endpointKey platform endpoint = key at hcontent hvalid hattempt ⊢
    obtain ⟨file, hlookup, -⟩ := contentAt_eq_some.mp hcontent
    have hrecordOwner : record.ownerCredentialRef.owner? = some (.authority key) := by
      refine hd.owner_ref (c := record.credential platform key) ?_
      simp [credentialAt, hcontent, StoreContent.credential, hvalid]
    refine good_admits.renameAway hd hlookup (by simp) rfl ⟨rfl, rfl⟩ fun d₁ hd₁ hsub₁ hgone₁ => ?_
    refine good_admits.reads settles_syncParent.reads hd₁ fun _ _ => ?_
    refine good_admits.unlinkAt hd₁ (hd₁.unnamed_of_owner_none rfl) fun d₂ hd₂ hsub₂ hgone₂ => ?_
    have hrecord₂ : ∀ d' : StoreDirectory, Shrinks d₂ d' → d'.lookup (.authority key) = none := by
      intro d' hsub
      have h₂ : d₂.lookup (.authority key) = none := by
        rcases hsub₂ (.authority key) with h | h
        · rw [h, hgone₁]
        · exact h
      rcases hsub (.authority key) with h | h
      · rw [h, h₂]
      · exact h
    have hlast : ∀ d' : StoreDirectory, SoundStore platform d' → Shrinks d₂ d' →
        Calls (fun _ => Good platform)
          (do unlinkAt record.ownerCredentialRef true; syncParent) d' .quiet := by
      intro d' hd' hsub
      have hunnamed : Unnamed platform d' record.ownerCredentialRef := by
        refine hd'.unnamed fun name c hname hc => ?_
        obtain rfl : name = .authority key := some.inj (hname.symm.trans hrecordOwner)
        rw [credentialAt_none (hrecord₂ d' hsub)] at hc
        cases hc
      exact good_admits.unlinkAt hd' hunnamed fun d'' hd'' _ _ => hsync d'' hd''
    cases attempt? with
    | none => exact hlast d₂ hd₂ fun _ => .inl rfl
    | some attempt =>
      obtain ⟨hacontent, havalid⟩ := hattempt
      have hattemptOwner : attempt.requesterCredentialRef.owner? = some (.control key) := by
        refine hd.owner_ref (c := attempt.credential platform key) ?_
        simp [credentialAt, hacontent, StoreContent.credential, havalid]
      have hunnamed : Unnamed platform d₂ attempt.requesterCredentialRef := by
        refine hd₂.unnamed fun name c hname hc => ?_
        obtain rfl : name = .control key := some.inj (hname.symm.trans hattemptOwner)
        rw [credentialAt_none hgone₂] at hc
        cases hc
      exact good_admits.unlinkAt hd₂ hunnamed fun d₃ hd₃ hsub₃ _ => hlast d₃ hd₃ hsub₃

end Calls

/-! ### Runs -/

/-- The calls that write, replace or remove a record with its secret. -/
inductive SecretCall where
  | commit (seams : CommitSeams) (endpoint : String) (expected : Option LocalAuthorityRecord)
      (input : AuthorityRecordInput) (secret : AuthoritySecret)
  | prepareStartClaim (temporaryId endpoint token : String) (input : PrepareStartClaimInput)
      (secret : PendingStartSecret)
  | prepareControlAttempt (seams : ControlSeams) (endpoint : String)
      (record : LocalAuthorityRecord) (operation : ControlOperation) (controlRequestId : String)
      (requester : ControlAttemptRequester)
  | replaceExpiredBeginControlAttempt (seams : ControlSeams) (endpoint : String)
      (record : LocalAuthorityRecord) (expired : LocalControlAttempt)
      (operation : ControlOperation) (controlRequestId : String)
      (requester : ControlAttemptRequester)
  | clearControlAttempt (endpoint : String) (expected : LocalControlAttempt)
  | retireDeadGeneration (now : ℤ) (retiredId endpoint : String) (expected : LocalAuthorityRecord)

/-- The program of a call; what it returns does not matter to the store. -/
def SecretCall.program (platform : Platform) : SecretCall → StoreM Unit
  | commit seams endpoint expected input secret => do
    let _ ← BreadboardTui.commit platform seams endpoint expected input secret
  | prepareStartClaim temporaryId endpoint token input secret => do
    let _ ← BreadboardTui.prepareStartClaim platform temporaryId endpoint token input secret
  | prepareControlAttempt seams endpoint record operation controlRequestId requester => do
    let _ ← BreadboardTui.prepareControlAttempt platform seams endpoint record operation
      controlRequestId requester
  | replaceExpiredBeginControlAttempt seams endpoint record expired operation controlRequestId
      requester => do
    let _ ← BreadboardTui.replaceExpiredBeginControlAttempt platform seams endpoint record expired
      operation controlRequestId requester
  | clearControlAttempt endpoint expected =>
    BreadboardTui.clearControlAttempt platform endpoint expected
  | retireDeadGeneration now retiredId endpoint expected =>
    BreadboardTui.retireDeadGeneration platform now retiredId endpoint expected

/-- A call with the choices the environment makes in it, run to its end: whether it returned or
threw, the directory it leaves and what the observer saw. Without enough choices it has not
ended. -/
def SecretCall.run (platform : Platform) (call : SecretCall) (choices : List Choice)
    (d : StoreDirectory) : Option (Except StoreFailure Unit × StoreDirectory × Rollback) :=
  match (call.program platform).run (FileOp.performObserved Rollback.observe) choices
      (d, .quiet) with
  | (.ret result, d', phase) => some (result, d', phase)
  | (.request .., _) => none

/-- One call after the other; the directory after the last. -/
def runCalls (platform : Platform) :
    List (SecretCall × List Choice) → StoreDirectory → Option StoreDirectory
  | [], d => some d
  | (call, choices) :: calls, d =>
    match call.run platform choices d with
    | some (_, d', _) => runCalls platform calls d'
    | none => none

/-- What the observer has seen at the end of each call of a run. -/
def phases (platform : Platform) :
    List (SecretCall × List Choice) → StoreDirectory → List Rollback
  | [], _ => []
  | (call, choices) :: calls, d =>
    match call.run platform choices d with
    | some (_, d', phase) => phase :: phases platform calls d'
    | none => []

/-- In no call of the run does a step throw after the rename that published a record, with an
unlink of a secret taking effect after that. -/
def NeverRollsBack (platform : Platform) (calls : List (SecretCall × List Choice))
    (d : StoreDirectory) : Prop :=
  Rollback.rolledBack ∉ phases platform calls d

/-- What a call of the store returns on a quiet directory. -/
def readNow {α : Type} (p : StoreM α) (d : StoreDirectory) : Except StoreFailure α :=
  (p.eval FileOp.perform .calm d).1

/-- Every readable record has its secret. -/
structure SecretsReadable (platform : Platform) (d : StoreDirectory) : Prop where
  record : ∀ endpoint record, readNow (probeCurrent platform endpoint) d = .ok (some record) →
    ∃ secret, readNow (readSecret platform record) d = .ok secret
  attempt : ∀ endpoint record attempt,
    readNow (readControlAttempt platform endpoint record) d = .ok (some attempt) →
      ∃ secret, readNow (readControlAttemptSecret platform attempt) d = .ok secret
  claim : ∀ endpoint claim, readNow (readStartClaim (endpointKey platform endpoint)) d = .ok claim →
    claim.pending.isSome → readNow (probeCurrent platform endpoint) d = .ok none →
      ∃ secret, readNow (readPendingSecret platform claim) d = .ok secret

section Runs

variable {platform : Platform} {d : StoreDirectory}

/-- Every call keeps a sound store, or takes back the secret of a record it has published. -/
theorem SecretCall.good (call : SecretCall) (hd : SoundStore platform d) :
    Calls (fun _ => Good platform) (call.program platform) d .quiet := by
  have hdiscard : ∀ {α : Type} {p : StoreM α}, Calls (fun _ => Good platform) p d .quiet →
      Calls (fun _ => Good platform) (do let _ ← p) d .quiet := fun hp =>
    calls_bind.mpr (hp.mono fun r d' m' hr => by cases r <;> exact hr)
  cases call with
  | commit => exact hdiscard (good_commit _ _ _ _ _ hd)
  | prepareStartClaim => exact hdiscard (good_prepareStartClaim _ _ _ _ _ hd)
  | prepareControlAttempt => exact hdiscard (good_prepareControlAttempt _ _ _ _ _ _ hd)
  | replaceExpiredBeginControlAttempt =>
    exact hdiscard (good_replaceExpiredBeginControlAttempt _ _ _ _ _ _ _ hd)
  | clearControlAttempt endpoint expected =>
    exact (calls_clearControlAttempt endpoint expected hd).mono fun _ _ _ hr => .inr hr.2
  | retireDeadGeneration => exact good_retireDeadGeneration _ _ _ _ hd

/-- The step lemma of a run. -/
theorem SecretCall.run_sound {call : SecretCall} {choices : List Choice}
    {result : Except StoreFailure Unit} {d' : StoreDirectory} {phase : Rollback}
    (hd : SoundStore platform d) (hrun : call.run platform choices d = some (result, d', phase))
    (hphase : phase ≠ .rolledBack) : SoundStore platform d' := by
  have hgood := Program.Ensures.run (call.good hd) fun c (_ : c ∈ choices) => trivial
  unfold SecretCall.run at hrun
  split at hrun
  · next heq =>
    cases hrun
    rw [heq] at hgood
    exact hgood.resolve_left hphase
  · cases hrun

theorem runCalls_sound {calls : List (SecretCall × List Choice)} {d' : StoreDirectory}
    (hd : SoundStore platform d) (hrun : runCalls platform calls d = some d')
    (hnever : NeverRollsBack platform calls d) : SoundStore platform d' := by
  induction calls generalizing d with
  | nil => cases hrun; exact hd
  | cons callChoices calls ih =>
    obtain ⟨call, choices⟩ := callChoices
    simp only [runCalls, NeverRollsBack, phases] at hrun hnever
    split at hrun
    · next heq =>
      simp only [heq, List.mem_cons, not_or] at hnever
      exact ih (SecretCall.run_sound hd heq (Ne.symm hnever.1)) hrun hnever.2
    · cases hrun

theorem readNow_of_reads {α : Type} {p : StoreM α} {R : α → Prop} {absent : Prop} {a : α}
    (hp : Reads p d R absent) (h : readNow p d = .ok a) : R a := by
  have heval := @Program.Ensures.eval _ _ _ _ _ _ _ .calm _ _ _ _ _ (hp .quiet) trivial
  rw [← FileOp.eval_performObserved Rollback.observe .calm p (d, .quiet)] at heval
  unfold readNow at h
  rw [h] at heval
  exact heval.2.2

/-! ### Reading a secret that is there -/

theorem readNow_bind {α β : Type} {p : StoreM α} {f : α → StoreM β} {a : α}
    (h : p.eval FileOp.perform .calm d = (.ok a, d)) : readNow (p >>= f) d = readNow (f a) d := by
  rw [readNow, Program.eval_bind, h, readNow]

variable {bytes : List UInt8}

theorem eval_readSecretBytes {name : StoreFile} (h : contentAt d name = some (.secret bytes)) :
    (readSecretBytes name).eval FileOp.perform .calm d = (.ok bytes, d) := by
  obtain ⟨f, hlookup, hf⟩ := contentAt_eq_some.mp h
  have hmem : name ∈ d := by
    rw [← AList.lookup_isSome, hlookup]
    rfl
  have hverify : assertRootIdentity.eval FileOp.perform .calm d = (.ok (), d) := rfl
  have hopen : (openAt name).eval FileOp.perform .calm d = (.ok (), d) := by
    have hfile : (file (.openFile name)).eval FileOp.perform .calm d = (.ok (), d) := by
      simp [file, Program.eval_bind, FileOp.perform, Choice.calm, FileOp.effect, FileOp.arrange,
        hmem]
    rw [openAt, Program.eval_bind, hverify]
    simp only []
    rw [Program.eval_bind, hfile]
    exact hverify
  have hread : (file (.readFile name)).eval FileOp.perform .calm d = (.ok f.content, d) := by
    simp [file, Program.eval_bind, FileOp.perform, Choice.calm, FileOp.effect, FileOp.arrange,
      hlookup]
  have hbytes : (readSecureBytes name).eval FileOp.perform .calm d = (.ok f.content, d) := by
    rw [readSecureBytes, Program.eval_bind, hopen]
    simp only []
    rw [Program.eval_bind, hread]
    simp only []
    rw [Program.eval_bind, hverify]
    rfl
  rw [readSecretBytes, Program.eval_bind, hbytes, hf]
  rfl

theorem eval_throwIf {condition : Prop} [Decidable condition] {code : AuthorityStoreErrorCode}
    {message : String} (h : ¬ condition) :
    (throwIf condition code message).eval FileOp.perform .calm d = (.ok (), d) := by
  rw [throwIf, if_neg h]
  rfl

theorem eval_check {α : Type} {r : Except LocalAuthorityStoreError α} {a : α} (h : r = .ok a) :
    (check r).eval FileOp.perform .calm d = (.ok a, d) := by
  rw [h]
  rfl

theorem opensWith_eq_true {S : Type} {decode : List UInt8 → Except LocalAuthorityStoreError S}
    {matching : S → Bool} (h : opensWith decode matching bytes = true) :
    ∃ secret, decode bytes = .ok secret ∧ matching secret = true := by
  unfold opensWith at h
  split at h
  · next secret hdecode => exact ⟨secret, hdecode, h⟩
  · cases h

theorem SoundStore.secretsReadable (hd : SoundStore platform d) : SecretsReadable platform d where
  record endpoint record hrecord := by
    obtain ⟨hcontent, hvalid⟩ := readNow_of_reads reads_probeCurrent hrecord
    have hcredential : credentialAt platform d (.authority (endpointKey platform endpoint)) =
        some (record.credential platform (endpointKey platform endpoint)) := by
      simp [credentialAt, hcontent, StoreContent.credential, hvalid]
    obtain ⟨-, bytes, hbytes, hopens⟩ := hd _ _ hcredential
    obtain ⟨secret, hdecode, hverifier⟩ := opensWith_eq_true hopens
    have hbytes : contentAt d record.ownerCredentialRef = some (.secret bytes) := hbytes
    have href : record.ownerCredentialRef.isSecretRef = true := by
      simp only [LocalAuthorityRecord.isValid, Bool.and_eq_true] at hvalid
      exact hvalid.1.1.1.2
    refine ⟨secret, ?_⟩
    rw [readSecret, readNow_bind (eval_throwIf (by simp [href])),
      readNow_bind (eval_readSecretBytes hbytes), readNow_bind (eval_check hdecode),
      readNow_bind (eval_throwIf (by simpa using hverifier))]
    rfl
  attempt endpoint record attempt hattempt := by
    obtain ⟨hcontent, hvalid⟩ := readNow_of_reads reads_readControlAttempt hattempt
    have hcredential : credentialAt platform d (.control (endpointKey platform endpoint)) =
        some (attempt.credential platform (endpointKey platform endpoint)) := by
      simp [credentialAt, hcontent, StoreContent.credential, hvalid]
    obtain ⟨-, bytes, hbytes, hopens⟩ := hd _ _ hcredential
    obtain ⟨secret, hdecode, hverifier⟩ := opensWith_eq_true hopens
    have hbytes : contentAt d attempt.requesterCredentialRef = some (.secret bytes) := hbytes
    have href : attempt.requesterCredentialRef.isControlSecretRef = true := by
      simp only [LocalControlAttempt.isValid, Bool.and_eq_true] at hvalid
      exact hvalid.1.1.1.1.2
    refine ⟨secret, ?_⟩
    rw [readControlAttemptSecret, readNow_bind (eval_throwIf (by simp [href])),
      readNow_bind (eval_readSecretBytes hbytes), readNow_bind (eval_check hdecode),
      readNow_bind (eval_throwIf (by simpa using hverifier))]
    rfl
  claim endpoint claim hclaim hpending _ := by
    obtain ⟨hcontent, hvalid⟩ := readNow_of_reads reads_readStartClaim hclaim
    obtain ⟨pending, hpending⟩ := isSome_iff_exists.mp hpending
    have hcredential : credentialAt platform d (.starting (endpointKey platform endpoint)) =
        some (pending.credential platform (endpointKey platform endpoint) claim.token) := by
      simp [credentialAt, hcontent, StoreContent.credential, hvalid, hpending]
    obtain ⟨-, bytes, hbytes, hopens⟩ := hd _ _ hcredential
    obtain ⟨secret, hdecode, hverifier⟩ := opensWith_eq_true hopens
    have hbytes : contentAt d pending.pendingSecretRef = some (.secret bytes) := hbytes
    refine ⟨secret, ?_⟩
    rw [readPendingSecret, hpending]
    simp only []
    rw [readNow_bind (eval_readSecretBytes hbytes), readNow_bind (eval_check hdecode),
      readNow_bind (eval_throwIf (by simpa using hverifier))]
    rfl

/-- **A record never outlives its secret**, over every run of the six calls with any failures in
which no call takes back the secret of a record it has published. -/
theorem secretsReadable_of_runCalls {calls : List (SecretCall × List Choice)}
    {d' : StoreDirectory} (hd : SoundStore platform d)
    (hrun : runCalls platform calls d = some d') (hnever : NeverRollsBack platform calls d) :
    SecretsReadable platform d' :=
  (runCalls_sound hd hrun hnever).secretsReadable

end Runs

/-! ### A first commit -/

/-- A platform that knows the digests of one endpoint and one credential. -/
def samplePlatform : Platform where
  sha256 bytes :=
    if bytes = utf8 "http://127.0.0.1:9099" then
      "2598dc06b836bcbb829ffaa4cc22577608e1121c5c4981345e426ee6e2cc5595"
    else if bytes = utf8 "breadboard-owner-credential-v2\x00owner-credential-0001" then
      "0c642186b3f00c2ef8063003c5c73216acacbfe0229a1a432e043a83e4431ece"
    else "e3b0c44298fc1c149afbf4c8996fb92427ae41e4649b934ca495991b7852b855"
  isDate text := text = "2026-07-20T00:00:00Z"

def sampleInput : AuthorityRecordInput where
  engineInstanceId := "engine-instance-0001"
  engineBootId := "engine-boot-00000001"
  launchId := "launch-0000000000001"
  ownerGeneration := 1
  pid := 4242
  osProcessStartToken := "linux:1000"
  normalizedEndpoint := "http://127.0.0.1:9099"
  executableSha256 := "sha256:2598dc06b836bcbb829ffaa4cc22577608e1121c5c4981345e426ee6e2cc5595"
  executablePathSha256 := "sha256:2598dc06b836bcbb829ffaa4cc22577608e1121c5c4981345e426ee6e2cc5595"
  argvSha256 := "sha256:2598dc06b836bcbb829ffaa4cc22577608e1121c5c4981345e426ee6e2cc5595"
  engineArtifactSha256 := "sha256:2598dc06b836bcbb829ffaa4cc22577608e1121c5c4981345e426ee6e2cc5595"
  servedBackendCommit := "2598dc06b836bcbb829ffaa4cc22577608e1121c"
  ownerExitPolicy := .attached
  createdAt := "2026-07-20T00:00:00Z"
  lastVerifiedAt := "2026-07-20T00:00:00Z"

/-- The commit of a first record. -/
def sampleCommit : SecretCall :=
  .commit ⟨"record-revision-0001", "temporary-0000000001", "temporary-0000000002"⟩
    "http://127.0.0.1:9099" none sampleInput ⟨utf8 "owner-credential-0001"⟩

/-- Whether the store holds a record, and whether its secret can be read. -/
def recordAndSecret (d : StoreDirectory) : Bool × Bool :=
  match readNow (probeCurrent samplePlatform "http://127.0.0.1:9099") d with
  | .ok (some record) => (true, (readNow (readSecret samplePlatform record) d).isOk)
  | _ => (false, false)

theorem secretsReadable_of_runCalls_commit : ∃ d,
    runCalls samplePlatform [(sampleCommit, List.replicate 60 .calm)] ∅ = some d ∧
      (recordAndSecret d).1 = true ∧ SecretsReadable samplePlatform d := by
  have hrun : (runCalls samplePlatform [(sampleCommit, List.replicate 60 .calm)] ∅).any
      (fun d => (recordAndSecret d).1) = true := by decide +kernel
  obtain ⟨d, hd, hrecord⟩ := (any_eq_true _ _).mp hrun
  have hnever : Rollback.rolledBack ∉
      phases samplePlatform [(sampleCommit, List.replicate 60 .calm)] ∅ := by decide +kernel
  exact ⟨d, hd, hrecord, secretsReadable_of_runCalls (soundStore_empty samplePlatform) hd hnever⟩

/-- The identity check **after** the rename of the record throws: the record stays, and its
secret is unlinked. -/
theorem secretsReadable_commit_revokes_published : ∃ d,
    runCalls samplePlatform [(sampleCommit, List.replicate 28 .calm ++
      ⟨some .before, 0⟩ :: List.replicate 31 .calm)] ∅ = some d ∧
    ¬ SecretsReadable samplePlatform d := by
  have hrun : (runCalls samplePlatform [(sampleCommit, List.replicate 28 .calm ++
      ⟨some .before, 0⟩ :: List.replicate 31 .calm)] ∅).any
      (fun d => recordAndSecret d = (true, false)) = true := by decide +kernel
  obtain ⟨d, hd, hpair⟩ := (any_eq_true _ _).mp hrun
  refine ⟨d, hd, fun hreadable => ?_⟩
  rw [decide_eq_true_eq, recordAndSecret] at hpair
  split at hpair
  · next record hrecord =>
    obtain ⟨secret, hsecret⟩ := hreadable.record _ record hrecord
    rw [hsecret] at hpair
    cases hpair
  · cases hpair

end BreadboardTui
