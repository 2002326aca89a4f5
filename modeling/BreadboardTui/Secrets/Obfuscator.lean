import BreadboardTui.Secrets.Placeholder

/-!
# The obfuscator of plain secrets

What is sent to a provider has no secret in it. A secret is either replaced for good, or hidden
behind a token that the obfuscator can turn back. It replaces the secrets of the one kind first,
then those of the other, the longer ones first, and leaves the tokens that it knows as they are.

This is the obfuscator of plain secrets without friendly names; regular expressions are not
modelled, and neither is what is kept for them. The keyed digest and the replacement of a text are
parameters.
-/

namespace BreadboardTui.Secrets

open Hashline (Units units)

/-- The functions that an obfuscator hides its secrets with. -/
structure Digest where
  /-- The base of a text under a key. -/
  buildHashBase : Units → Units → Units
  generateDeterministicReplacement : Units → Units

inductive SecretMode where
  | obfuscate
  | replace
  deriving DecidableEq, Repr

/-- A plain entry. -/
structure SecretEntry where
  content : Units
  mode : SecretMode
  replacement : Option Units := none
  deriving DecidableEq, Repr

/-- The obfuscator. A token stands for its body: a body in `plainMappings` or `deobfuscateMap` is
the placeholder that has it. -/
structure SecretObfuscator where
  /-- The secrets that are replaced. -/
  replaceMappings : JsMap Units Units := []
  /-- The secrets that are hidden, with their tokens. -/
  plainMappings : JsMap Units Units := []
  /-- The tokens, with their secrets. -/
  deobfuscateMap : JsMap Units Units := []
  configuredSecretValues : List Units := []
  placeholderBaseByKey : JsMap Units Units := []
  placeholderBaseOwners : JsMap Units Units := []
  hasAny : Bool := false
  deriving DecidableEq, Repr

def minObfuscateSecretLen : ℕ := 8

def maxFriendlyNameLen : ℕ := 32

/-! ### Names that are secrets -/

def isLowerCode (code : ℕ) : Bool := decide (97 ≤ code ∧ code ≤ 122)

def isUpperCode (code : ℕ) : Bool := decide (65 ≤ code ∧ code ≤ 90)

def sanitizeForCollisionCheck (value : Units) : Units :=
  (value.filter fun code => isBaseCode code || isLowerCode code).map fun code =>
    if isLowerCode code then code - 32 else code

def sanitizedLabelCollidesWithSecret (label secret : Units) : Bool :=
  secret ≠ [] &&
    (decide (secret <:+: label) || (maxFriendlyNameLen ≤ label.length && label.isPrefixOf secret))

namespace SecretObfuscator

variable (ob : SecretObfuscator)

/-- `#prefixIsSecretShaped`. -/
def nameIsSecretShaped (name : Units) : Bool :=
  (ob.configuredSecretValues ++ ob.plainMappings.map Prod.fst).any fun secret =>
    sanitizedLabelCollidesWithSecret name (sanitizeForCollisionCheck secret)

/-- The secret of a token, which may have another name in front of its base. -/
def lookupLiveAlias (body : Units) : Option Units :=
  match JsMap.get ob.deobfuscateMap body with
  | some secret => some secret
  | none =>
    -- a token that was made under another friendly name is live as well
    match splitName body with
    | none => none
    | some (name, bare) =>
      if ob.nameIsSecretShaped name then none else JsMap.get ob.deobfuscateMap bare

/-- `#isGeneratedPlaceholder`, which makes the same tests. -/
def isGeneratedPlaceholder (body : Units) : Bool := (ob.lookupLiveAlias body).isSome

def placeholderForCurrentInput (body : Units) : Units :=
  match splitName body with
  | none => body
  | some (name, bare) => if ob.nameIsSecretShaped name then bare else body

/-! ### Obfuscation and back -/

/-- The longer texts first; texts of one length stay in their order. -/
def byLength (mappings : JsMap Units Units) : JsMap Units Units :=
  mappings.insertionSort fun a b => b.1.length ≤ a.1.length

/-- One secret is replaced outside of the tokens that are known. -/
def replacePlain (text : Units) (search replacement : Units) : Units :=
  -- `if (search.length === 0) return`
  if search = [] then text
  else
    replaceOutside (fun body => ob.isGeneratedPlaceholder body && token body != search)
      (replaceAll search replacement) [] text

/-- The first phase. -/
def replacePhase (text : Units) : Units :=
  (byLength ob.replaceMappings).foldl (fun text mapping =>
    ob.replacePlain text mapping.1 mapping.2) text

/-- The second phase. -/
def obfuscatePhase (text : Units) : Units :=
  (byLength ob.plainMappings).foldl (fun text mapping =>
    ob.replacePlain text mapping.1 (token (ob.placeholderForCurrentInput mapping.2))) text

def obfuscate (text : Units) : Units :=
  if ob.hasAny then
    ob.obfuscatePhase (stripPrefixes ob.nameIsSecretShaped (ob.replacePhase text))
  else text

/-- The loop of `#deobfuscate` goes on for tokens of regular expressions only. -/
def deobfuscate (text : Units) : Units :=
  if ob.hasAny && decide ([36, 36] <:+: text) then restorePass ob.lookupLiveAlias text else text

/-! ### Construction -/

/-- A replacement that is not the secret. -/
def ensureDistinctReplacement (replacement secret : Units) : Units :=
  match replacement with
  | [] => []
  | first :: rest =>
    if first :: rest = secret then (if first = 65 then 66 else 65) :: rest else first :: rest

def generateSecretReplacement (d : Digest) (secret : Units) : Units :=
  ensureDistinctReplacement (d.generateDeterministicReplacement secret) secret

/-- Upper case, lower case, capitalized or mixed. -/
def inferCaseHint (secret : Units) : Option ℕ :=
  let cased := secret.filter fun code => isUpperCode code || isLowerCode code
  match cased with
  | [] => none
  | first :: rest =>
    if cased.all isUpperCode then some 85
    else if cased.all isLowerCode then some 76
    else if isUpperCode first && rest.all isLowerCode then some 67
    else some 77

/-- The body of `buildPlaceholder`, without a friendly name. -/
def buildPlaceholder (hint : Option ℕ) (base : Units) : Units :=
  match hint with
  | some code => base ++ [58, code]
  | none => base

/-- `${baseKey}\0${attempt}` -/
def numbered (text : Units) (attempt : ℕ) : Units := text ++ 0 :: units (toString attempt)

/-- The base that is tried in an attempt. -/
def preferredBase (d : Digest) (key baseKey : Units) (attempt : ℕ) : Units :=
  d.buildHashBase key (if attempt = 0 then baseKey else numbered baseKey attempt)

/-- The loop of `#resolvePreferredPlaceholderBase`, from an attempt on. -/
def resolveBaseFrom (d : Digest) (key baseKey : Units) (attempt : ℕ) :
    ℕ → Option (Units × SecretObfuscator)
  | 0 => none
  | fuel + 1 =>
    let base := preferredBase d key baseKey attempt
    -- a base that another secret owns is passed over
    if (JsMap.get ob.placeholderBaseOwners base).any fun owner => owner != baseKey then
      resolveBaseFrom d key baseKey (attempt + 1) fuel
    else
      some (base, { ob with
        placeholderBaseOwners := JsMap.set base baseKey ob.placeholderBaseOwners
        placeholderBaseByKey := JsMap.set baseKey base ob.placeholderBaseByKey })

def resolvePreferredPlaceholderBase (d : Digest) (fuel : ℕ) (key baseKey : Units) :
    Option (Units × SecretObfuscator) :=
  match JsMap.get ob.placeholderBaseByKey baseKey with
  | some base => some (base, ob)
  | none => ob.resolveBaseFrom d key baseKey 0 fuel

def reserveFallbackPlaceholderBase (d : Digest) (key baseKey : Units) (attempt : ℕ) :
    ℕ → Option (Units × SecretObfuscator)
  | 0 => none
  | fuel + 1 =>
    let owner := numbered (baseKey ++ 0 :: units "collision") attempt
    let base := d.buildHashBase key owner
    if JsMap.has ob.placeholderBaseOwners base then
      reserveFallbackPlaceholderBase d key baseKey (attempt + 1) fuel
    else
      some (base, { ob with
        placeholderBaseOwners := JsMap.set base owner ob.placeholderBaseOwners })

/-- `#placeholderConflicts`, for a token without a friendly name. -/
def placeholderConflicts (body secret : Units) : Bool :=
  ((JsMap.get ob.deobfuscateMap body).any fun existing => existing != secret) ||
    (ob.configuredSecretValues.contains (token body) && token body != secret)

/-- The loop of `#createPlaceholder` over the fallbacks. -/
def createFallback (d : Digest) (key secret : Units) (ob : SecretObfuscator) (attempt : ℕ) :
    ℕ → Option (Units × SecretObfuscator)
  | 0 => none
  | fuel + 1 =>
    match ob.reserveFallbackPlaceholderBase d key secret attempt (fuel + 1) with
    | none => none
    | some (base, reserved) =>
      let body := buildPlaceholder (inferCaseHint secret) base
      -- the next attempt starts with the bases that have been reserved so far
      if reserved.placeholderConflicts body secret then
        createFallback d key secret reserved (attempt + 1) fuel
      else
        some (body, { reserved with
          deobfuscateMap := JsMap.set body secret reserved.deobfuscateMap })

/-- `#createPlaceholder`. The loops of the source have no bound; here `fuel` is one. -/
def createPlaceholder (d : Digest) (fuel : ℕ) (key secret : Units) :
    Option (Units × SecretObfuscator) :=
  match ob.resolvePreferredPlaceholderBase d fuel key secret with
  | none => none
  | some (base, resolved) =>
    let body := buildPlaceholder (inferCaseHint secret) base
    if resolved.placeholderConflicts body secret then
      createFallback d key secret resolved 1 fuel
    else
      some (body, { resolved with
        deobfuscateMap := JsMap.set body secret resolved.deobfuscateMap })

/-- The body of the constructor's loop over the plain entries. -/
def addEntry (d : Digest) (fuel : ℕ) (key : Units) (entry : SecretEntry) :
    Option SecretObfuscator :=
  match entry.mode with
  | .obfuscate =>
    -- short secrets are passed over, as they are found in ordinary words
    if entry.content.length < minObfuscateSecretLen then some ob
    else
      (ob.createPlaceholder d fuel key entry.content).map fun (body, ob) =>
        { ob with
          plainMappings := JsMap.set entry.content body ob.plainMappings
          hasAny := true }
  | .replace =>
    some { ob with
      replaceMappings := JsMap.set entry.content
        (entry.replacement.getD (generateSecretReplacement d entry.content)) ob.replaceMappings
      hasAny := true }

/-- The constructor, with a key. The key is a secret that is replaced. -/
def construct (d : Digest) (fuel : ℕ) (key : Units) (entries : List SecretEntry) :
    Option SecretObfuscator :=
  entries.foldlM (fun ob entry => ob.addEntry d fuel key entry)
    { replaceMappings := [(key, generateSecretReplacement d key)]
      configuredSecretValues := key :: entries.map SecretEntry.content }

/-! ### The secrets of an obfuscator -/

/-- The obfuscator has this secret. -/
def IsSecret (s : Units) : Prop :=
  s ∈ ob.replaceMappings.map Prod.fst ∨ s ∈ ob.plainMappings.map Prod.fst

/-- The two obfuscators differ in their tokens only. -/
structure SameSecrets (ob ob' : SecretObfuscator) : Prop where
  replaceMappings : ob'.replaceMappings = ob.replaceMappings
  plainMappings : ob'.plainMappings = ob.plainMappings
  hasAny : ob'.hasAny = ob.hasAny

variable {ob} {d : Digest} {key : Units} {entries : List SecretEntry}

theorem SameSecrets.trans {ob' ob'' : SecretObfuscator} (h : SameSecrets ob ob')
    (h' : SameSecrets ob' ob'') : SameSecrets ob ob'' :=
  ⟨h'.replaceMappings.trans h.replaceMappings, h'.plainMappings.trans h.plainMappings,
    h'.hasAny.trans h.hasAny⟩

variable {ob' : SecretObfuscator} {fuel : ℕ} {attempt : ℕ}

theorem sameSecrets_resolveBaseFrom {baseKey base : Units} 
    (h : ob.resolveBaseFrom d key baseKey attempt fuel = some (base, ob')) :
    SameSecrets ob ob' := by
  induction fuel generalizing attempt with
  | zero => cases h
  | succ fuel ih =>
    rw [resolveBaseFrom] at h
    split at h
    · exact ih h
    cases h
    exact ⟨rfl, rfl, rfl⟩

theorem sameSecrets_reserve {baseKey base : Units}
    (h : ob.reserveFallbackPlaceholderBase d key baseKey attempt fuel = some (base, ob')) :
    SameSecrets ob ob' := by
  induction fuel generalizing attempt with
  | zero => cases h
  | succ fuel ih =>
    rw [reserveFallbackPlaceholderBase] at h
    split at h
    · exact ih h
    cases h
    exact ⟨rfl, rfl, rfl⟩

theorem sameSecrets_createFallback {secret body : Units} {ob ob' : SecretObfuscator}
    (h : createFallback d key secret ob attempt fuel = some (body, ob')) : SameSecrets ob ob' := by
  induction fuel generalizing ob attempt with
  | zero => cases h
  | succ fuel ih =>
    rw [createFallback] at h
    split at h
    · cases h
    next hreserve =>
    have hsame := sameSecrets_reserve hreserve
    simp only at h
    split at h
    · exact hsame.trans (ih h)
    cases h
    exact ⟨hsame.replaceMappings, hsame.plainMappings, hsame.hasAny⟩

/-- Making a token leaves the secrets as they are. -/
theorem sameSecrets_createPlaceholder {secret body : Units}
    (h : ob.createPlaceholder d fuel key secret = some (body, ob')) : SameSecrets ob ob' := by
  rw [createPlaceholder] at h
  split at h
  · cases h
  next resolved hresolve =>
  have hsame : SameSecrets ob resolved := by
    rw [resolvePreferredPlaceholderBase] at hresolve
    split at hresolve
    · cases hresolve
      exact ⟨rfl, rfl, rfl⟩
    · exact sameSecrets_resolveBaseFrom hresolve
  simp only at h
  split at h
  · exact hsame.trans (sameSecrets_createFallback h)
  cases h
  exact ⟨hsame.replaceMappings, hsame.plainMappings, hsame.hasAny⟩

/-- The entry is not passed over: a short secret is not hidden. -/
def Active (entry : SecretEntry) : Prop :=
  entry.mode = .replace ∨ minObfuscateSecretLen ≤ entry.content.length

theorem mem_keys_set {m : JsMap Units Units} {k l v : Units} :
    l ∈ (JsMap.set k v m).map Prod.fst ↔ l = k ∨ l ∈ m.map Prod.fst := by
  induction m with
  | nil => simp [JsMap.set]
  | cons first m ih =>
    rw [JsMap.set]
    split
    · next heq => simp [heq]
    rw [List.map_cons, List.mem_cons, ih, List.map_cons, List.mem_cons]
    tauto

/-- The obfuscator has the secrets it had, and that of the entry. -/
structure Covers (ob ob' : SecretObfuscator) (entry : SecretEntry) : Prop where
  kept : ∀ s, ob.IsSecret s → ob'.IsSecret s
  hasAny : ob.hasAny = true → ob'.hasAny = true
  active : Active entry → ob'.IsSecret entry.content ∧ ob'.hasAny = true

theorem covers_addEntry {entry : SecretEntry}
    (h : ob.addEntry d fuel key entry = some ob') : Covers ob ob' entry := by
  rw [addEntry] at h
  split at h
  · next hmode =>
    split at h
    · next hshort =>
      cases h
      refine ⟨fun s hs => hs, fun hany => hany, fun hactive => ?_⟩
      rcases hactive with hreplace | hlong
      · exact nomatch hreplace.symm.trans hmode
      · omega
    obtain ⟨⟨body, created⟩, hcreate, heq⟩ := Option.map_eq_some_iff.mp h
    obtain rfl := heq
    have hsame := sameSecrets_createPlaceholder hcreate
    refine ⟨fun s hs => ?_, fun _ => rfl, fun _ => ⟨.inr (mem_keys_set.mpr (.inl rfl)), rfl⟩⟩
    rcases hs with hs | hs
    · exact .inl (hsame.replaceMappings ▸ hs)
    · exact .inr (mem_keys_set.mpr (.inr (hsame.plainMappings ▸ hs)))
  cases h
  refine ⟨fun s hs => ?_, fun _ => rfl, fun _ => ⟨.inl (mem_keys_set.mpr (.inl rfl)), rfl⟩⟩
  rcases hs with hs | hs
  · exact .inl (mem_keys_set.mpr (.inr hs))
  · exact .inr hs

theorem covers_construct (h : construct d fuel key entries = some ob) :
    ∀ entry ∈ entries, Active entry → ob.IsSecret entry.content ∧ ob.hasAny = true := by
  have hfold : ∀ (rest : List SecretEntry) (start : SecretObfuscator),
      rest.foldlM (fun ob entry => ob.addEntry d fuel key entry) start = some ob →
        (∀ s, start.IsSecret s → ob.IsSecret s) ∧ (start.hasAny = true → ob.hasAny = true) ∧
          ∀ entry ∈ rest, Active entry → ob.IsSecret entry.content ∧ ob.hasAny = true := by
    intro rest
    induction rest with
    | nil =>
      intro start hstart
      cases hstart
      exact ⟨fun s hs => hs, fun hany => hany, fun entry hentry => nomatch hentry⟩
    | cons first rest ih =>
      intro start hstart
      obtain ⟨next, hadd, hrest⟩ := Option.bind_eq_some_iff.mp hstart
      have hcovers := covers_addEntry hadd
      obtain ⟨hkept, hany, hactive⟩ := ih next hrest
      refine ⟨fun s hs => hkept s (hcovers.kept s hs), fun h => hany (hcovers.hasAny h), ?_⟩
      intro entry hentry hact
      rcases List.mem_cons.mp hentry with rfl | hentry
      · obtain ⟨hsecret, h⟩ := hcovers.active hact
        exact ⟨hkept _ hsecret, hany h⟩
      · exact hactive entry hentry hact
  exact (hfold entries _ h).2.2

end SecretObfuscator

end BreadboardTui.Secrets
