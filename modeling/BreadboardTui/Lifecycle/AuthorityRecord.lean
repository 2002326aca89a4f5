import BreadboardTui.Js.Value

/-!
# Authority records, start claims and control attempts

The documents a supervisor keeps about the engine of one endpoint, the names of the files they
live in, and the validators every read goes through.

File names are a datatype: each constructor stands for one of the name patterns of the store, so
two names are equal exactly when the strings are. SHA-256 and `Date.parse` belong to the
platform and are parameters (`Platform`).
-/

namespace BreadboardTui

/-- What the store takes from the platform. -/
structure Platform where
  /-- The hexadecimal SHA-256 digest of some bytes. -/
  sha256 : List UInt8 → String
  /-- `Number.isFinite(Date.parse(text))`. -/
  isDate : String → Bool

/-- The bytes of a string in UTF-8. -/
def utf8 (text : String) : List UInt8 := text.toUTF8.data.toList

def endpointKey (platform : Platform) (endpoint : String) : String :=
  platform.sha256 (utf8 endpoint)

/-! ### The patterns -/

/-- The characters of `[A-Za-z0-9_-]`. -/
def isOpaqueChar (c : Char) : Bool :=
  c.isAlphanum || c == '_' || c == '-'

/-- `OPAQUE`. -/
def isOpaque (text : String) : Bool :=
  20 ≤ text.length && text.length ≤ 128 && text.toList.all isOpaqueChar

/-- The characters of `[0-9a-f]`. -/
def isHexChar (c : Char) : Bool :=
  c.isDigit || ('a' ≤ c && c ≤ 'f')

/-- `[0-9a-f]{64}`. -/
def isHex64 (text : String) : Bool :=
  text.length == 64 && text.toList.all isHexChar

/-- `SHA256`. -/
def isSha256 (text : String) : Bool :=
  match text.toList with
  | 's' :: 'h' :: 'a' :: '2' :: '5' :: '6' :: ':' :: digest =>
    digest.length == 64 && digest.all isHexChar
  | _ => false

/-- `/^[0-9a-f]{40,64}$/`. -/
def isCommit (text : String) : Bool :=
  40 ≤ text.length && text.length ≤ 64 && text.toList.all isHexChar

/-- `Number.isSafeInteger(value) && value >= least`. -/
def isSafeIntegerFrom (least value : ℤ) : Bool :=
  least ≤ value && value.natAbs ≤ maxSafeInteger

def isOpaqueBuffer (value : List UInt8) : Bool :=
  20 ≤ value.length && value.length ≤ 128 &&
    value.all fun byte => isOpaqueChar (Char.ofNat byte.toNat)

/-! ### File names -/

/-- The files of an authority store. -/
inductive StoreFile where
  /-- `<key>.authority.json` -/
  | authority (key : String)
  /-- `<key>.authority.retired.<generation>.<revision>.<now>.<id>` -/
  | retiredAuthority (key : String) (ownerGeneration : ℤ) (recordRevision : String) (now : ℤ)
      (id : String)
  /-- `<key>.authority.invalid.<now>.<digest>` -/
  | invalidAuthority (key : String) (now : ℤ) (digest : String)
  /-- `<key>.secret.<generation>.<revision>.bin` -/
  | ownerSecret (key : String) (ownerGeneration : ℤ) (recordRevision : String)
  /-- `<key>.starting.json` -/
  | starting (key : String)
  /-- `<key>.starting.dead.<token>.<id>` -/
  | deadStarting (key token id : String)
  /-- `<key>.starting.secret.<token>.bin` -/
  | pendingSecret (key token : String)
  /-- `<key>.control.json` -/
  | control (key : String)
  /-- `<key>.control.secret.<request>.bin` -/
  | controlSecret (key controlRequestId : String)
  /-- `.<name>.<id>.tmp` -/
  | temporary (name : StoreFile) (id : String)
  deriving DecidableEq, Repr

/-- `SECRET_REF`. -/
def StoreFile.isSecretRef : StoreFile → Bool
  | ownerSecret key generation revision => isHex64 key && 1 ≤ generation && isOpaque revision
  | _ => false

/-- `PENDING_SECRET_REF`. -/
def StoreFile.isPendingSecretRef : StoreFile → Bool
  | pendingSecret key token => isHex64 key && isOpaque token
  | _ => false

/-- `CONTROL_SECRET_REF`. -/
def StoreFile.isControlSecretRef : StoreFile → Bool
  | controlSecret key request => isHex64 key && isOpaque request
  | _ => false

/-- The three kinds of file that hold a credential. -/
def StoreFile.isSecret : StoreFile → Bool
  | ownerSecret .. | pendingSecret .. | controlSecret .. => true
  | _ => false

/-! ### Errors -/

inductive AuthorityStoreErrorCode where
  | rootIntegrity
  | recordIntegrity
  | authorityRecordInvalid
  | lockTimeout
  | lockIntegrity
  | generationConflict
  | secretIntegrity
  | secretVerifierMismatch
  | controlAttemptIntegrity
  | startClaimIntegrity
  deriving DecidableEq, Repr

structure LocalAuthorityStoreError where
  code : AuthorityStoreErrorCode
  message : String
  deriving DecidableEq, Repr

/-! ### The authority record -/

inductive OwnerExitPolicy where
  | attached
  | detached
  deriving DecidableEq, Repr

/-- The fields of a record that `commit` takes from its caller. -/
structure AuthorityRecordInput where
  engineInstanceId : String
  engineBootId : String
  launchId : String
  ownerGeneration : ℤ
  pid : ℤ
  osProcessStartToken : String
  normalizedEndpoint : String
  executableSha256 : String
  executablePathSha256 : String
  argvSha256 : String
  engineArtifactSha256 : String
  servedBackendCommit : String
  ownerExitPolicy : OwnerExitPolicy
  createdAt : String
  lastVerifiedAt : String
  deriving DecidableEq, Repr

structure LocalAuthorityRecord extends AuthorityRecordInput where
  schemaVersion : String
  recordRevision : String
  ownerCredentialRef : StoreFile
  ownerCredentialVerifier : String
  deriving DecidableEq, Repr

def authorityRecordSchemaVersion : String := "p30.local-authority.v4"

/-- The value checks of `assertRecord`. -/
def LocalAuthorityRecord.isValid (platform : Platform) (expectedKey : String)
    (record : LocalAuthorityRecord) : Bool :=
  record.schemaVersion == authorityRecordSchemaVersion && isOpaque record.recordRevision &&
    isOpaque record.engineInstanceId && isOpaque record.engineBootId && isOpaque record.launchId &&
    isSafeIntegerFrom 1 record.ownerGeneration && isSafeIntegerFrom 1 record.pid &&
    8 ≤ record.osProcessStartToken.length &&
    endpointKey platform record.normalizedEndpoint == expectedKey &&
    isSha256 record.executableSha256 && isSha256 record.executablePathSha256 &&
    isSha256 record.argvSha256 && isSha256 record.engineArtifactSha256 &&
    isCommit record.servedBackendCommit && record.ownerCredentialRef.isSecretRef &&
    isSha256 record.ownerCredentialVerifier && platform.isDate record.createdAt &&
    platform.isDate record.lastVerifiedAt

def assertRecord (platform : Platform) (expectedKey : String) (record : LocalAuthorityRecord) :
    Except LocalAuthorityStoreError LocalAuthorityRecord :=
  if record.isValid platform expectedKey then .ok record
  else .error ⟨.authorityRecordInvalid, "authority record values are invalid"⟩

/-! ### The start claim -/

/-- The launch identity `prepareStartClaim` adds to a claim. -/
structure PrepareStartClaimInput where
  launchId : String
  executableSha256 : String
  executablePathSha256 : String
  argvSha256 : String
  engineArtifactSha256 : String
  servedBackendCommit : String
  deriving DecidableEq, Repr

/-- The pattern checks on a launch identity. -/
def PrepareStartClaimInput.isValid (input : PrepareStartClaimInput) : Bool :=
  isOpaque input.launchId && isSha256 input.executableSha256 &&
    isSha256 input.executablePathSha256 && isSha256 input.argvSha256 &&
    isSha256 input.engineArtifactSha256 && isCommit input.servedBackendCommit

/-- The eight pending fields of a claim, which are present together or not at all. -/
structure PendingStart extends PrepareStartClaimInput where
  pendingSecretRef : StoreFile
  pendingSecretVerifier : String
  deriving DecidableEq, Repr

/-- A process as the operating system names it. -/
structure ProcessIdentity where
  pid : ℤ
  processStartToken : String
  deriving DecidableEq, Repr

structure LocalStartClaim where
  schemaVersion : String
  token : String
  starter : ProcessIdentity
  createdAtUnix : ℤ
  pending : Option PendingStart
  engine : Option ProcessIdentity
  ownerAttemptGeneration : Option ℤ
  deriving DecidableEq, Repr

def startClaimSchemaVersion : String := "p30.local-start-claim.v4"

/-- The value checks of `assertStartClaim`. -/
def LocalStartClaim.isValid (claim : LocalStartClaim) : Bool :=
  claim.schemaVersion == startClaimSchemaVersion && isOpaque claim.token &&
    isSafeIntegerFrom 1 claim.starter.pid && 3 ≤ claim.starter.processStartToken.length &&
    claim.createdAtUnix.natAbs ≤ maxSafeInteger &&
    claim.pending.all (fun pending => pending.isValid &&
      pending.pendingSecretRef.isPendingSecretRef && isSha256 pending.pendingSecretVerifier) &&
    claim.engine.all (fun engine =>
      isSafeIntegerFrom 1 engine.pid && 8 ≤ engine.processStartToken.length) &&
    claim.ownerAttemptGeneration.all fun generation =>
      isSafeIntegerFrom 1 generation && claim.pending.isSome && claim.engine.isSome

def assertStartClaim (claim : LocalStartClaim) : Except LocalAuthorityStoreError LocalStartClaim :=
  if claim.isValid then .ok claim else .error ⟨.startClaimIntegrity, "start claim is invalid"⟩

/-! ### The control attempt -/

inductive ControlOperation where
  | stop
  | restart
  deriving DecidableEq, Repr

/-- The phases of a control attempt; every phase but the first carries the drain. -/
inductive ControlPhase where
  | beginPending
  | draining (drainGeneration : ℤ)
  | gracefulAccepted (drainGeneration : ℤ)
  | hardSignalPending (drainGeneration : ℤ)
  | hardSignalCommitPending (drainGeneration : ℤ)
  deriving DecidableEq, Repr

/-- `drainGeneration`, present exactly in the phases that have one. -/
def ControlPhase.drainGeneration : ControlPhase → Option ℤ
  | beginPending => none
  | draining g | gracefulAccepted g | hardSignalPending g | hardSignalCommitPending g => some g

structure LocalControlAttempt where
  schemaVersion : String
  recordRevision : String
  engineInstanceId : String
  engineBootId : String
  launchId : String
  ownerGeneration : ℤ
  operation : ControlOperation
  controlRequestId : String
  registrationId : String
  requesterRegistrationGeneration : ℤ
  requesterClientInstanceId : String
  requesterCredentialRef : StoreFile
  requesterCredentialVerifier : String
  expectedAdmissionEpoch : ℤ
  phase : ControlPhase
  createdAtUnix : ℤ
  deriving DecidableEq, Repr

def controlAttemptSchemaVersion : String := "p30.local-control-attempt.v3"

/-- The value checks of `assertControlAttempt`. -/
def LocalControlAttempt.isValid (attempt : LocalControlAttempt) : Bool :=
  attempt.schemaVersion == controlAttemptSchemaVersion && isOpaque attempt.recordRevision &&
    isOpaque attempt.engineInstanceId && isOpaque attempt.engineBootId &&
    isOpaque attempt.launchId && isSafeIntegerFrom 1 attempt.ownerGeneration &&
    isOpaque attempt.controlRequestId && isOpaque attempt.registrationId &&
    isSafeIntegerFrom 1 attempt.requesterRegistrationGeneration &&
    isOpaque attempt.requesterClientInstanceId &&
    attempt.requesterCredentialRef.isControlSecretRef &&
    isSha256 attempt.requesterCredentialVerifier &&
    isSafeIntegerFrom 0 attempt.expectedAdmissionEpoch &&
    attempt.phase.drainGeneration.all (isSafeIntegerFrom 1) &&
    isSafeIntegerFrom 0 attempt.createdAtUnix

def assertControlAttempt (attempt : LocalControlAttempt) :
    Except LocalAuthorityStoreError LocalControlAttempt :=
  if attempt.isValid then .ok attempt
  else .error ⟨.controlAttemptIntegrity, "control attempt is invalid"⟩

/-! ### Secret files -/

/-- `writeUInt32BE`. -/
def uint32BE (value : ℕ) : List UInt8 :=
  [(value / 2 ^ 24).toUInt8, (value / 2 ^ 16).toUInt8, (value / 2 ^ 8).toUInt8, value.toUInt8]

/-- `readUInt32BE`, with the bytes that follow. -/
def readUInt32BE : List UInt8 → Option (ℕ × List UInt8)
  | a :: b :: c :: d :: rest =>
    some (2 ^ 24 * a.toNat + 2 ^ 16 * b.toNat + 2 ^ 8 * c.toNat + d.toNat, rest)
  | _ => none

theorem readUInt32BE_uint32BE {value : ℕ} (h : value < 2 ^ 32) (rest : List UInt8) :
    readUInt32BE (uint32BE value ++ rest) = some (value, rest) := by
  simp only [uint32BE, List.cons_append, List.nil_append, readUInt32BE, Nat.toUInt8,
    UInt8.toNat_ofNat', Option.some.injEq, Prod.mk.injEq, and_true]
  omega

def authoritySecretMagic : List UInt8 := utf8 "p30.local-authority-secret.v2\x00"

def pendingSecretMagic : List UInt8 := utf8 "p30.local-start-secret.v3\x00"

def controlSecretMagic : List UInt8 := utf8 "p30.local-control-secret.v1\x00"

/-- A magic, the length of the credential and the credential: the layout that owner and
control secrets share. -/
def encodeCredential (magic credential : List UInt8) : List UInt8 :=
  magic ++ (uint32BE credential.length ++ credential)

/-- Read that layout back. -/
def decodeCredential (magic bytes : List UInt8) : Option (List UInt8) := do
  let body ← magic.isPrefixOf? bytes
  let (length, credential) ← readUInt32BE body
  if length = credential.length ∧ isOpaqueBuffer credential then some credential else none

theorem length_lt_of_isOpaqueBuffer {credential : List UInt8}
    (h : isOpaqueBuffer credential = true) : credential.length < 2 ^ 32 := by
  have hbound : credential.length ≤ 128 := by
    simp only [isOpaqueBuffer, Bool.and_eq_true, decide_eq_true_eq] at h
    exact h.1.2
  omega

theorem decodeCredential_encodeCredential {magic credential : List UInt8}
    (h : isOpaqueBuffer credential = true) :
    decodeCredential magic (encodeCredential magic credential) = some credential := by
  have hlength := length_lt_of_isOpaqueBuffer h
  have hmagic : magic.isPrefixOf? (encodeCredential magic credential) =
      some (uint32BE credential.length ++ credential) := by
    rw [List.isPrefixOf?_eq_some_iff_append_eq, encodeCredential]
  simp [decodeCredential, hmagic, readUInt32BE_uint32BE hlength, h]

/-- The secret behind an authority record. -/
structure AuthoritySecret where
  ownerCredential : List UInt8
  deriving DecidableEq, Repr

/-- The secret behind a prepared start claim. -/
structure PendingStartSecret where
  bootstrapCredential : List UInt8
  ownerCredential : List UInt8
  deriving DecidableEq, Repr

/-- The secret behind a control attempt. -/
structure ControlAttemptSecret where
  requesterRegistrationCredential : List UInt8
  deriving DecidableEq, Repr

def credentialVerifier (platform : Platform) (credential : List UInt8) : String :=
  "sha256:" ++ platform.sha256 (utf8 "breadboard-owner-credential-v2\x00" ++ credential)

def pendingSecretVerifier (platform : Platform) (secret : PendingStartSecret) : String :=
  "sha256:" ++ platform.sha256 (utf8 "breadboard-pending-start-v3\x00" ++
    secret.bootstrapCredential ++ utf8 "\x00" ++ secret.ownerCredential)

def controlSecretVerifier (platform : Platform) (credential : List UInt8) : String :=
  "sha256:" ++ platform.sha256 (utf8 "breadboard-control-requester-credential-v1\x00" ++ credential)

def decodeAuthoritySecret (bytes : List UInt8) : Except LocalAuthorityStoreError AuthoritySecret :=
  match decodeCredential authoritySecretMagic bytes with
  | some credential => .ok ⟨credential⟩
  | none => .error ⟨.secretIntegrity, "owner credential record is invalid"⟩

def decodeControlSecret (bytes : List UInt8) :
    Except LocalAuthorityStoreError ControlAttemptSecret :=
  match decodeCredential controlSecretMagic bytes with
  | some credential => .ok ⟨credential⟩
  | none => .error ⟨.secretIntegrity, "control requester credential record is invalid"⟩

/-- The check that guards the encoding of a pending secret. -/
def PendingStartSecret.isValid (secret : PendingStartSecret) : Bool :=
  secret.bootstrapCredential.length == 32 && isOpaqueBuffer secret.ownerCredential

/-- The layout of a pending secret: both lengths, then both credentials. -/
def pendingSecretBytes (secret : PendingStartSecret) : List UInt8 :=
  pendingSecretMagic ++ (uint32BE secret.bootstrapCredential.length ++
    (uint32BE secret.ownerCredential.length ++
      (secret.bootstrapCredential ++ secret.ownerCredential)))

def decodePendingSecret (bytes : List UInt8) :
    Except LocalAuthorityStoreError PendingStartSecret :=
  let invalid := ⟨.secretIntegrity, "pending launch secret is invalid"⟩
  match pendingSecretMagic.isPrefixOf? bytes with
  | none => .error invalid
  | some body =>
    match readUInt32BE body with
    | none => .error invalid
    | some (bootstrapLength, body) =>
      match readUInt32BE body with
      | none => .error invalid
      | some (ownerLength, body) =>
        if bootstrapLength = 32 ∧ bootstrapLength + ownerLength = body.length ∧
            isOpaqueBuffer (body.drop bootstrapLength) then
          .ok ⟨body.take bootstrapLength, body.drop bootstrapLength⟩
        else .error invalid

variable {secret : PendingStartSecret}

theorem decodePendingSecret_pendingSecretBytes (h : secret.isValid = true) :
    decodePendingSecret (pendingSecretBytes secret) = .ok secret := by
  simp only [PendingStartSecret.isValid, Bool.and_eq_true, beq_iff_eq] at h
  obtain ⟨hbootstrap, howner⟩ := h
  have hmagic : pendingSecretMagic.isPrefixOf? (pendingSecretBytes secret) =
      some (uint32BE secret.bootstrapCredential.length ++
        (uint32BE secret.ownerCredential.length ++
          (secret.bootstrapCredential ++ secret.ownerCredential))) := by
    rw [List.isPrefixOf?_eq_some_iff_append_eq, pendingSecretBytes]
  have htake : (secret.bootstrapCredential ++ secret.ownerCredential).take 32 =
      secret.bootstrapCredential := by rw [← hbootstrap, List.take_left]
  have hdrop : (secret.bootstrapCredential ++ secret.ownerCredential).drop 32 =
      secret.ownerCredential := by rw [← hbootstrap, List.drop_left]
  simp only [decodePendingSecret, hmagic]
  rw [readUInt32BE_uint32BE (by omega)]
  simp only []
  rw [readUInt32BE_uint32BE (length_lt_of_isOpaqueBuffer howner)]
  simp [hbootstrap, htake, hdrop, howner]

def encodeAuthoritySecret (secret : AuthoritySecret) :
    Except LocalAuthorityStoreError (List UInt8) :=
  if isOpaqueBuffer secret.ownerCredential then
    .ok (encodeCredential authoritySecretMagic secret.ownerCredential)
  else .error ⟨.secretIntegrity, "owner credential is invalid"⟩

def encodeControlSecret (secret : ControlAttemptSecret) :
    Except LocalAuthorityStoreError (List UInt8) :=
  if isOpaqueBuffer secret.requesterRegistrationCredential then
    .ok (encodeCredential controlSecretMagic secret.requesterRegistrationCredential)
  else .error ⟨.secretIntegrity, "control requester credential is invalid"⟩

def encodePendingSecret (secret : PendingStartSecret) :
    Except LocalAuthorityStoreError (List UInt8) :=
  if secret.isValid then .ok (pendingSecretBytes secret)
  else .error ⟨.secretIntegrity, "pending launch credential is invalid"⟩

variable {bytes : List UInt8}

theorem decodeAuthoritySecret_of_encode {secret : AuthoritySecret}
    (h : encodeAuthoritySecret secret = .ok bytes) : decodeAuthoritySecret bytes = .ok secret := by
  unfold encodeAuthoritySecret at h
  split at h
  · next hopaque =>
    cases h
    rw [decodeAuthoritySecret, decodeCredential_encodeCredential hopaque]
  · cases h

theorem decodeControlSecret_of_encode {secret : ControlAttemptSecret}
    (h : encodeControlSecret secret = .ok bytes) : decodeControlSecret bytes = .ok secret := by
  unfold encodeControlSecret at h
  split at h
  · next hopaque =>
    cases h
    rw [decodeControlSecret, decodeCredential_encodeCredential hopaque]
  · cases h

theorem decodePendingSecret_of_encode
    (h : encodePendingSecret secret = .ok bytes) : decodePendingSecret bytes = .ok secret := by
  unfold encodePendingSecret at h
  split at h
  · next hvalid =>
    cases h
    exact decodePendingSecret_pendingSecretBytes hvalid
  · cases h

end BreadboardTui
