import BreadboardTui.Lib.Directory
import BreadboardTui.Lifecycle.AuthorityRecord

/-!
# The local authority store

The store of a supervisor as programs over one directory: what each call reads, which checks it
makes, and in which order it creates, writes, syncs, renames and unlinks. A call that holds the
endpoint's lock runs alone, so the programs are sequential; every file-system call in them can
throw, and the process can die between any two.

The values a call draws from `randomId`, `now` and the process table are arguments. The checks
of owner, mode and link count that the store makes on what it opens concern files that others
put into the directory; all files here are the store's own.
-/

namespace BreadboardTui

open Effects

/-- What a complete file holds. -/
inductive StoreContent where
  | authority (record : LocalAuthorityRecord)
  | startClaim (claim : LocalStartClaim)
  | control (attempt : LocalControlAttempt)
  | secret (bytes : List UInt8)
  deriving DecidableEq, Repr

abbrev StoreDirectory := Directory StoreFile StoreContent

/-- What a call of the store throws: an error of the operating system, or one of its own. -/
inductive StoreFailure where
  | errno (error : FileError)
  | store (error : LocalAuthorityStoreError)
  deriving DecidableEq, Repr

/-- A call of the store. -/
abbrev StoreM := Program (FileOp StoreFile StoreContent) FileOp.Answer StoreFailure

/-- One call of the operating system, with its error thrown. -/
def file (op : FileOp StoreFile StoreContent) : StoreM op.Value := do
  match ← Program.ask op with
  | .ok value => pure value
  | .error error => throw (.errno error)

/-- `throw new LocalAuthorityStoreError(code, message)`. -/
def storeError {α : Type} (code : AuthorityStoreErrorCode) (message : String) : StoreM α :=
  throw (.store ⟨code, message⟩)

/-- A pure check of the store, with its error thrown. -/
def check {α : Type} : Except LocalAuthorityStoreError α → StoreM α
  | .ok a => pure a
  | .error error => throw (.store error)

/-- `if (condition) throw new LocalAuthorityStoreError(code, message)`. -/
def throwIf (condition : Prop) [Decidable condition] (code : AuthorityStoreErrorCode)
    (message : String) : StoreM Unit :=
  if condition then storeError code message else pure ()

/-- `if (condition) await action`. -/
def onlyIf (condition : Prop) [Decidable condition] (action : StoreM Unit) : StoreM Unit :=
  if condition then action else pure ()

/-! ### Calls under the root descriptor -/

def assertRootIdentity : StoreM Unit := file .verifyRoot

/-- `#openAt` without `O_CREAT`. -/
def openAt (name : StoreFile) : StoreM Unit := do
  assertRootIdentity
  file (.openFile name)
  assertRootIdentity

/-- `#openAt` with `O_CREAT | O_EXCL`. -/
def createAt (name : StoreFile) : StoreM Unit := do
  assertRootIdentity
  file (.createFile name)
  assertRootIdentity

def renameAt (source target : StoreFile) : StoreM Unit := do
  assertRootIdentity
  file (.renameFile source target)
  assertRootIdentity

/-- `#unlinkAt`: with `force`, an absent name is no error. -/
def unlinkAt (name : StoreFile) (force : Bool) : StoreM Unit := do
  assertRootIdentity
  tryCatch (file (.unlinkFile name)) fun error =>
    if force && error == .errno .missing then pure () else throw error
  assertRootIdentity

def syncParent : StoreM Unit := do
  assertRootIdentity
  file .syncRoot
  assertRootIdentity

/-- `#readSecureBytes`: the content of a file, `none` where it is torn. -/
def readSecureBytes (name : StoreFile) : StoreM (Option StoreContent) := do
  openAt name
  let content ← file (.readFile name)
  assertRootIdentity
  return content

/-- `#readSecureJson` up to the validator: a torn file is no JSON, and so is a secret. -/
def readSecureJson (name : StoreFile) (code : AuthorityStoreErrorCode) : StoreM StoreContent :=
  tryCatch
    (do
      match ← readSecureBytes name with
      | none | some (.secret _) => throw (.errno .failed)
      | some content => pure content)
    fun
      | .errno .missing => throw (.errno .missing)
      | .errno _ => storeError code "authority file JSON is invalid"
      | .store error => throw (.store error)

/-- `#exclusiveWrite`: written in place, under a name that must be new. -/
def exclusiveWrite (name : StoreFile) (content : StoreContent) (code : AuthorityStoreErrorCode) :
    StoreM Unit := do
  tryCatch (createAt name) fun
    | .errno .present => storeError code "authority file already exists"
    | error => throw error
  file (.writeFile name content)
  file (.syncFile name)
  syncParent

/-- The first part of `#atomicWrite`: the content is written to a new file and synced. -/
def writeTemporary (temporary : StoreFile) (content : StoreContent) : StoreM Unit := do
  createAt temporary
  file (.writeFile temporary content)
  file (.syncFile temporary)

/-- The part of `#atomicWrite` under `finally`: the target must be openable or absent, and the
temporary is renamed over it. -/
def publish (temporary name : StoreFile) : StoreM Unit := do
  tryCatch (openAt name) fun
    | .errno .missing => pure ()
    | error => throw error
  renameAt temporary name
  syncParent

/-- `#atomicWrite`, drawing `id` for the temporary. -/
def atomicWrite (id : String) (name : StoreFile) (content : StoreContent) : StoreM Unit := do
  writeTemporary (.temporary name id) content
  (publish (.temporary name id) name).always (unlinkAt (.temporary name id) true)

/-- `unlinkAt(name, true)` followed by `syncParent`, as every rollback does. -/
def unlinkAndSync (name : StoreFile) : StoreM Unit := do
  unlinkAt name true
  syncParent

/-- `try { atomicWrite(record) } catch { unlink the secret; throw }`. -/
def publishOrRevoke (id : String) (name : StoreFile) (content : StoreContent)
    (secret : StoreFile) : StoreM Unit :=
  tryCatch (atomicWrite id name content) fun error => do
    unlinkAndSync secret
    throw error

/-- The loop of the two cleanups over a directory listing: what matches is unlinked. -/
def unlinkMatching (matching : StoreFile → Bool) : List StoreFile → StoreM Bool
  | [] => pure false
  | name :: names => do
    if matching name then
      unlinkAt name true
      let _ ← unlinkMatching matching names
      return true
    else unlinkMatching matching names

/-- `for (const entry of await readdir(root)) …; if (removed) await syncParent()`. -/
def cleanupMatching (matching : StoreFile → Bool) : StoreM Unit := do
  let names ← file .listRoot
  if ← unlinkMatching matching names then syncParent

/-- What `#cleanupOrphanAuthoritySecrets` unlinks. -/
def StoreFile.isOrphanOf (key : String) (name : StoreFile) : Bool :=
  match name with
  | control key' => key' == key
  | ownerSecret key' _ _ => key' == key && name.isSecretRef
  | controlSecret key' _ => key' == key && name.isControlSecretRef
  | _ => false

def cleanupOrphanAuthoritySecrets (key : String) : StoreM Unit :=
  cleanupMatching (StoreFile.isOrphanOf key)

def cleanupUnreferencedControlSecrets (key : String) (referenced : Option StoreFile) :
    StoreM Unit :=
  cleanupMatching fun name =>
    match name with
    | .controlSecret key' _ => some name != referenced && key' == key && name.isControlSecretRef
    | _ => false

/-! ### Reading -/

section Store

variable (platform : Platform)

def probeCurrent (endpoint : String) : StoreM (Option LocalAuthorityRecord) := do
  assertRootIdentity
  tryCatch
    (do
      match ← readSecureBytes (.authority (endpointKey platform endpoint)) with
      | some (.authority record) =>
        return some (← check (assertRecord platform (endpointKey platform endpoint) record))
      | none | some (.secret _) => throw (.errno .failed)
      | some _ => storeError .authorityRecordInvalid "authority record fields are invalid")
    fun
      | .errno .missing => pure none
      | .errno _ => storeError .authorityRecordInvalid "authority record JSON is invalid"
      | .store error => throw (.store error)

def readStartClaim (key : String) : StoreM LocalStartClaim := do
  match ← readSecureJson (.starting key) .startClaimIntegrity with
  | .startClaim claim => check (assertStartClaim claim)
  | _ => storeError .startClaimIntegrity "start claim is invalid"

/-- The control attempt as every control call reads it. -/
def readControl (key : String) : StoreM LocalControlAttempt := do
  match ← readSecureJson (.control key) .controlAttemptIntegrity with
  | .control attempt => check (assertControlAttempt attempt)
  | _ => storeError .controlAttemptIntegrity "control attempt is invalid"

/-- An attempt belongs to the engine of the record, and a pending begin to the record itself. -/
def LocalControlAttempt.belongsTo (attempt : LocalControlAttempt) (record : LocalAuthorityRecord) :
    Bool :=
  attempt.engineInstanceId == record.engineInstanceId &&
    attempt.engineBootId == record.engineBootId && attempt.launchId == record.launchId &&
    (attempt.phase != .beginPending || (attempt.recordRevision == record.recordRevision &&
      attempt.ownerGeneration == record.ownerGeneration))

def readControlAttempt (endpoint : String) (record : LocalAuthorityRecord) :
    StoreM (Option LocalControlAttempt) := do
  let attempt? ← tryCatch (some <$> readControl (endpointKey platform endpoint)) fun
    | .errno .missing => pure none
    | error => throw error
  match attempt? with
  | none => return none
  | some attempt =>
    if attempt.belongsTo record then return some attempt
    else storeError .generationConflict "control attempt authority changed"

/-- The bytes of a secret file; a torn one decodes to nothing. -/
def readSecretBytes (name : StoreFile) : StoreM (List UInt8) := do
  match ← readSecureBytes name with
  | some (.secret bytes) => return bytes
  | _ => return []

def readSecret (record : LocalAuthorityRecord) : StoreM AuthoritySecret := do
  throwIf (!record.ownerCredentialRef.isSecretRef) .secretIntegrity
    "authority secret reference is invalid"
  let bytes ← readSecretBytes record.ownerCredentialRef
  let secret ← check (decodeAuthoritySecret bytes)
  throwIf (credentialVerifier platform secret.ownerCredential != record.ownerCredentialVerifier)
    .secretVerifierMismatch "authority secret verifier does not match"
  return secret

def readPendingSecret (claim : LocalStartClaim) : StoreM PendingStartSecret := do
  match claim.pending with
  | none => storeError .secretIntegrity "pending launch secret reference is unavailable"
  | some pending =>
    let bytes ← readSecretBytes pending.pendingSecretRef
    let secret ← check (decodePendingSecret bytes)
    throwIf (pendingSecretVerifier platform secret != pending.pendingSecretVerifier)
      .secretVerifierMismatch "pending launch secret verifier does not match"
    return secret

def readControlAttemptSecret (attempt : LocalControlAttempt) : StoreM ControlAttemptSecret := do
  throwIf (!attempt.requesterCredentialRef.isControlSecretRef) .secretIntegrity
    "control requester secret reference is invalid"
  let bytes ← readSecretBytes attempt.requesterCredentialRef
  let secret ← check (decodeControlSecret bytes)
  throwIf (controlSecretVerifier platform secret.requesterRegistrationCredential !=
      attempt.requesterCredentialVerifier) .secretVerifierMismatch
    "control requester secret verifier does not match"
  return secret

/-! ### Start claims -/

/-- The answer of `isLockOwnerAlive`. -/
inductive Liveness where
  | alive
  | dead
  | ambiguous
  deriving DecidableEq, Repr

inductive StartClaimResult where
  | claimed (claim : LocalStartClaim)
  | recoverable (claim : LocalStartClaim)
  | unbound (claim : LocalStartClaim)
  | deadBound (claim : LocalStartClaim)
  | occupied (claim : LocalStartClaim)
  deriving DecidableEq, Repr

/-- The verdict of `claimStart` on a claim it finds; `none` means that the claim is retired and
a new one written. -/
def judgeClaim (isLockOwnerAlive : ProcessIdentity → Liveness) (claim : LocalStartClaim) :
    Option StartClaimResult :=
  if isLockOwnerAlive claim.starter ≠ .dead then some (.occupied claim)
  else
    match claim.pending, claim.engine with
    | some _, none => some (.unbound claim)
    | some _, some engine =>
      match isLockOwnerAlive engine with
      | .alive => some (.recoverable claim)
      | .ambiguous => some (.occupied claim)
      | .dead => some (.deadBound claim)
    | none, _ => none

/-- The values `claimStart` draws while it runs. -/
structure ClaimSeams where
  isLockOwnerAlive : ProcessIdentity → Liveness
  self : ProcessIdentity
  retiredId : String
  token : String
  now : ℤ

/-- The end of `claimStart`: with no record, what an earlier generation left is removed, and a
bare claim is written in place. -/
def writeClaim (seams : ClaimSeams) (endpoint : String) : StoreM StartClaimResult := do
  let key := endpointKey platform endpoint
  let current ← probeCurrent platform endpoint
  onlyIf (current = none) (cleanupOrphanAuthoritySecrets key)
  let claim : LocalStartClaim :=
    { schemaVersion := startClaimSchemaVersion
      token := seams.token
      starter := seams.self
      createdAtUnix := seams.now
      pending := none
      engine := none
      ownerAttemptGeneration := none }
  exclusiveWrite (.starting key) (.startClaim claim) .startClaimIntegrity
  return .claimed claim

/-- `claimStart`. A claim whose starter is dead is retired unless it was prepared. -/
def claimStart (seams : ClaimSeams) (endpoint : String) : StoreM StartClaimResult := do
  assertRootIdentity
  let key := endpointKey platform endpoint
  let current? ← tryCatch (some <$> readStartClaim key) fun
    | .errno .missing => pure none
    | error => throw error
  match current? with
  | none => writeClaim platform seams endpoint
  | some current =>
    match judgeClaim seams.isLockOwnerAlive current with
    | some verdict => return verdict
    | none =>
      renameAt (.starting key) (.deadStarting key current.token seams.retiredId)
      syncParent
      writeClaim platform seams endpoint

def prepareStartClaim (temporaryId : String) (endpoint token : String)
    (input : PrepareStartClaimInput) (secret : PendingStartSecret) : StoreM LocalStartClaim := do
  throwIf (!input.isValid) .startClaimIntegrity "pending launch identity is invalid"
  throwIf (!secret.isValid) .secretIntegrity "pending launch credential is invalid"
  let key := endpointKey platform endpoint
  let claim ← readStartClaim key
  throwIf (claim.token != token || claim.pending.isSome) .generationConflict
    "start claim generation changed"
  let pendingSecretRef := StoreFile.pendingSecret key token
  let bytes ← check (encodePendingSecret secret)
  exclusiveWrite pendingSecretRef (.secret bytes) .secretIntegrity
  let prepared ← check (assertStartClaim { claim with
    pending := some
      { input with
        pendingSecretRef := pendingSecretRef
        pendingSecretVerifier := pendingSecretVerifier platform secret } })
  publishOrRevoke temporaryId (.starting key) (.startClaim prepared) pendingSecretRef
  return prepared

def bindStartClaimProcess (temporaryId : String) (endpoint token : String)
    (engine : ProcessIdentity) : StoreM LocalStartClaim := do
  let key := endpointKey platform endpoint
  let claim ← readStartClaim key
  throwIf (claim.token != token || claim.pending.isNone) .generationConflict
    "start claim generation changed"
  let bound ← check (assertStartClaim { claim with engine := some engine })
  atomicWrite temporaryId (.starting key) (.startClaim bound)
  return bound

def markOwnerAttempt (temporaryId : String) (endpoint : String) (expected : LocalStartClaim) :
    StoreM LocalStartClaim := do
  let key := endpointKey platform endpoint
  let claim ← readStartClaim key
  throwIf (claim != expected || claim.engine.isNone) .generationConflict
    "start claim identity changed"
  let nextGeneration := claim.ownerAttemptGeneration.getD 0 + 1
  throwIf (maxSafeInteger < nextGeneration.natAbs) .startClaimIntegrity
    "owner attempt generation overflow"
  let attempted ← check (assertStartClaim
    { claim with ownerAttemptGeneration := some nextGeneration })
  atomicWrite temporaryId (.starting key) (.startClaim attempted)
  return attempted

def verifyStartClaim (endpoint : String) (expected : LocalStartClaim) : StoreM Unit := do
  let current ← readStartClaim (endpointKey platform endpoint)
  throwIf (current != expected) .generationConflict "start claim identity changed"

def releaseStartClaim (endpoint token : String) : StoreM Unit := do
  let key := endpointKey platform endpoint
  let current? ← tryCatch (some <$> readStartClaim key) fun
    | .errno .missing => pure none
    | error => throw error
  match current? with
  | none => return ()
  | some current =>
    throwIf (current.token != token) .generationConflict "start claim generation changed"
    current.pending.forM fun pending => unlinkAt pending.pendingSecretRef true
    unlinkAt (.starting key) false
    syncParent

def retireDeadStartClaim (retiredId : String) (endpoint : String) (expected : LocalStartClaim) :
    StoreM Unit := do
  let key := endpointKey platform endpoint
  let claim ← readStartClaim key
  throwIf (claim != expected) .generationConflict "start claim identity changed"
  claim.pending.forM fun pending => unlinkAt pending.pendingSecretRef true
  renameAt (.starting key) (.deadStarting key claim.token retiredId)
  syncParent

/-! ### Records -/

/-- The values `commit` draws from `randomId`. -/
structure CommitSeams where
  recordRevision : String
  secretTemporaryId : String
  recordTemporaryId : String

/-- The record `commit` writes. -/
def completeRecord (seams : CommitSeams) (key : String) (input : AuthorityRecordInput)
    (secret : AuthoritySecret) : LocalAuthorityRecord :=
  { input with
    schemaVersion := authorityRecordSchemaVersion
    recordRevision := seams.recordRevision
    ownerCredentialRef := .ownerSecret key input.ownerGeneration seams.recordRevision
    ownerCredentialVerifier := credentialVerifier platform secret.ownerCredential }

def commit (seams : CommitSeams) (endpoint : String) (expected : Option LocalAuthorityRecord)
    (input : AuthorityRecordInput) (secret : AuthoritySecret) : StoreM LocalAuthorityRecord := do
  throwIf (!isOpaqueBuffer secret.ownerCredential) .secretIntegrity "owner credential is invalid"
  let current ← probeCurrent platform endpoint
  throwIf (expected ≠ current) .generationConflict "authority record identity changed"
  throwIf (expected.any (fun record => decide (input.ownerGeneration ≤ record.ownerGeneration)))
    .generationConflict "authority generation must increase"
  let key := endpointKey platform endpoint
  let complete := completeRecord platform seams key input secret
  let _ ← check (assertRecord platform key complete)
  let bytes ← check (encodeAuthoritySecret secret)
  atomicWrite seams.secretTemporaryId complete.ownerCredentialRef (.secret bytes)
  publishOrRevoke seams.recordTemporaryId (.authority key) (.authority complete)
    complete.ownerCredentialRef
  expected.forM fun record =>
    onlyIf (record.ownerCredentialRef ≠ complete.ownerCredentialRef)
      (unlinkAndSync record.ownerCredentialRef)
  return complete

def retireDeadGeneration (now : ℤ) (retiredId : String) (endpoint : String)
    (expected : LocalAuthorityRecord) : StoreM Unit := do
  let key := endpointKey platform endpoint
  let some current ← probeCurrent platform endpoint
    | storeError .generationConflict "authority record identity changed before retirement"
  throwIf (current ≠ expected) .generationConflict
    "authority record identity changed before retirement"
  let controlAttempt ← readControlAttempt platform endpoint current
  let _ ← readSecret platform current
  renameAt (.authority key)
    (.retiredAuthority key expected.ownerGeneration expected.recordRevision now retiredId)
  syncParent
  unlinkAt (.control key) true
  controlAttempt.forM fun attempt => unlinkAt attempt.requesterCredentialRef true
  unlinkAt current.ownerCredentialRef true
  syncParent

/-! ### Control attempts -/

/-- What a controller presents with a control request. -/
structure ControlAttemptRequester where
  registrationId : String
  registrationGeneration : ℤ
  clientInstanceId : String
  registrationCredential : String
  admissionEpoch : ℤ

/-- The values a control call draws from `randomId` and the clock. -/
structure ControlSeams where
  secretTemporaryId : String
  attemptTemporaryId : String
  now : ℤ

/-- The attempt `prepareControlAttempt` writes. -/
def newControlAttempt (seams : ControlSeams) (key : String) (record : LocalAuthorityRecord)
    (operation : ControlOperation) (controlRequestId : String)
    (requester : ControlAttemptRequester) : LocalControlAttempt where
  schemaVersion := controlAttemptSchemaVersion
  recordRevision := record.recordRevision
  engineInstanceId := record.engineInstanceId
  engineBootId := record.engineBootId
  launchId := record.launchId
  ownerGeneration := record.ownerGeneration
  operation := operation
  controlRequestId := controlRequestId
  registrationId := requester.registrationId
  requesterRegistrationGeneration := requester.registrationGeneration
  requesterClientInstanceId := requester.clientInstanceId
  requesterCredentialRef := .controlSecret key controlRequestId
  requesterCredentialVerifier :=
    controlSecretVerifier platform (utf8 requester.registrationCredential)
  expectedAdmissionEpoch := requester.admissionEpoch
  phase := .beginPending
  createdAtUnix := seams.now

def prepareControlAttempt (seams : ControlSeams) (endpoint : String)
    (record : LocalAuthorityRecord) (operation : ControlOperation) (controlRequestId : String)
    (requester : ControlAttemptRequester) : StoreM LocalControlAttempt := do
  let key := endpointKey platform endpoint
  let current ← probeCurrent platform endpoint
  throwIf (current ≠ some record) .generationConflict "authority record changed before control"
  let existing ← readControlAttempt platform endpoint record
  cleanupUnreferencedControlSecrets key (existing.map (·.requesterCredentialRef))
  match existing with
  | some attempt =>
    throwIf (attempt.operation ≠ operation) .generationConflict
      "another control operation is pending"
    return attempt
  | none =>
    let bytes ← check (encodeControlSecret ⟨utf8 requester.registrationCredential⟩)
    atomicWrite seams.secretTemporaryId (.controlSecret key controlRequestId) (.secret bytes)
    let attempt ← check (assertControlAttempt
      (newControlAttempt platform seams key record operation controlRequestId requester))
    publishOrRevoke seams.attemptTemporaryId (.control key) (.control attempt)
      (.controlSecret key controlRequestId)
    return attempt

def clearControlAttempt (endpoint : String) (expected : LocalControlAttempt) : StoreM Unit := do
  let key := endpointKey platform endpoint
  let current ← readControl key
  throwIf (current ≠ expected) .generationConflict "control attempt changed"
  unlinkAt (.control key) false
  syncParent
  unlinkAt current.requesterCredentialRef true
  syncParent

def replaceExpiredBeginControlAttempt (seams : ControlSeams) (endpoint : String)
    (record : LocalAuthorityRecord) (expired : LocalControlAttempt) (operation : ControlOperation)
    (controlRequestId : String) (requester : ControlAttemptRequester) :
    StoreM LocalControlAttempt := do
  let currentAuthority ← probeCurrent platform endpoint
  throwIf (currentAuthority ≠ some record) .generationConflict
    "authority record changed before expired control replacement"
  match ← readControlAttempt platform endpoint record with
  | none =>
    prepareControlAttempt platform seams endpoint record operation controlRequestId requester
  | some current =>
    if current ≠ expired then
      throwIf (current.operation ≠ operation) .generationConflict
        "another control operation replaced the expired attempt"
      return current
    else
      throwIf (current.phase ≠ .beginPending) .generationConflict
        "only a pending begin can be replaced after requester expiry"
      let _ ← readControlAttemptSecret platform current
      clearControlAttempt platform endpoint current
      prepareControlAttempt platform seams endpoint record operation controlRequestId requester

end Store

end BreadboardTui
