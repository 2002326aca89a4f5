import BreadboardTui.Secrets.RoundTrip
import BreadboardTui.Secrets.FixedPoint

/-!
# Obfuscators that hide all their secrets

With a digest that tells its secrets apart, an obfuscator of hidden secrets gives each the token of
its own digest: no base has another owner, and no fallback is tried.
-/

namespace BreadboardTui.Secrets

open List Option

open Hashline (Units units)

variable {secret : Units}

theorem SecretObfuscator.isHintCode_of_inferCaseHint {code : ℕ}
    (h : inferCaseHint secret = some code) : isHintCode code = true := by
  rw [inferCaseHint] at h
  split at h
  · cases h
  · split_ifs at h <;> obtain rfl := some.inj h <;> decide

/-- The body of the token that a secret gets. -/
def hiddenBody (d : Digest) (key secret : Units) : Units :=
  SecretObfuscator.buildPlaceholder (SecretObfuscator.inferCaseHint secret)
    (d.buildHashBase key secret)

/-- The digest under a key tells the secrets apart, and gives twelve codes of a base. -/
structure Digest.Keyed (d : Digest) (key : Units) (secrets : List Units) : Prop where
  injOn : Set.InjOn (d.buildHashBase key) {secret | secret ∈ secrets}
  length : ∀ text, (d.buildHashBase key text).length = 12
  isBase : ∀ text, (d.buildHashBase key text).all isBaseCode = true

theorem hiddenBody_cases (d : Digest) (key secret : Units) :
    hiddenBody d key secret = d.buildHashBase key secret ∨
      ∃ code, isHintCode code = true ∧
        hiddenBody d key secret = d.buildHashBase key secret ++ [58, code] := by
  rw [hiddenBody]
  cases hhint : SecretObfuscator.inferCaseHint secret with
  | none => exact .inl rfl
  | some code => exact .inr ⟨code, SecretObfuscator.isHintCode_of_inferCaseHint hhint, rfl⟩

namespace Digest.Keyed

variable {d : Digest} {key : Units} {secrets : List Units}

theorem validBase (h : d.Keyed key secrets) (text : Units) :
    Secrets.validBase (d.buildHashBase key text) = true := by
  rw [Secrets.validBase, h.length, h.isBase]
  rfl

theorem notMem_base (h : d.Keyed key secrets) (text : Units) {code : ℕ}
    (hcode : isBaseCode code = false) : code ∉ d.buildHashBase key text := fun hmem =>
  absurd (all_eq_true.mp (h.isBase text) code hmem) (by simp [hcode])

theorem hiddenBody_injOn (h : d.Keyed key secrets) :
    Set.InjOn (hiddenBody d key) {secret | secret ∈ secrets} := by
  have htake : ∀ secret, (hiddenBody d key secret).take 12 = d.buildHashBase key secret := by
    intro secret
    rcases hiddenBody_cases d key secret with heq | ⟨code, -, heq⟩
    · rw [heq, take_of_length_le (h.length secret).le]
    · rw [heq, take_left' (h.length secret)]
  -- the first twelve codes are the base, whatever hint stands behind it
  intro secret hsecret secret' hsecret' heq
  exact h.injOn hsecret hsecret' (by rw [← htake, heq, htake])

theorem dropHint_hiddenBody (h : d.Keyed key secrets) (secret : Units) :
    dropHint (hiddenBody d key secret) = d.buildHashBase key secret := by
  rcases hiddenBody_cases d key secret with heq | ⟨code, hcode, heq⟩
  · rw [heq, dropHint]
    split
    · next hreverse =>
      -- no base has a colon
      refine absurd ?_ (h.notMem_base secret (show isBaseCode 58 = false by decide))
      rw [← mem_reverse, hreverse]
      exact mem_cons_of_mem _ mem_cons_self
    · rfl
  have hreverse : (d.buildHashBase key secret ++ [58, code]).reverse =
      code :: 58 :: (d.buildHashBase key secret).reverse := by simp
  rw [heq, dropHint, hreverse]
  simp [hcode]

theorem splitName_eq_none {body : Units} (h : 95 ∉ body) : splitName body = none := by
  have hdrop : (body.dropWhile fun code => decide (code ≠ 95)) = [] :=
    dropWhile_eq_nil_iff.mpr fun code hcode =>
      decide_eq_true fun heq => h (heq ▸ hcode)
  rw [splitName, hdrop]

theorem splitName_hiddenBody (h : d.Keyed key secrets) (secret : Units) :
    splitName (hiddenBody d key secret) = none := by
  have hbase := h.notMem_base secret (show isBaseCode 95 = false by decide)
  refine splitName_eq_none ?_
  rcases hiddenBody_cases d key secret with heq | ⟨code, hcode, heq⟩
  · rwa [heq]
  rw [heq]
  intro hmem
  rcases mem_append.mp hmem with hmem | hmem
  · exact hbase hmem
  simp only [isHintCode, Bool.or_eq_true, decide_eq_true_eq] at hcode
  simp only [mem_cons, not_mem_nil, or_false] at hmem
  omega

theorem validBody_hiddenBody (h : d.Keyed key secrets) (secret : Units) :
    validBody (hiddenBody d key secret) = true := by
  have hsplit := splitName_eq_none (h.notMem_base secret (show isBaseCode 95 = false by decide))
  rw [validBody, h.dropHint_hiddenBody, hsplit]
  exact h.validBase secret

end Digest.Keyed

namespace SecretObfuscator

variable {d : Digest} {key : Units} {secrets : List Units} {ob : SecretObfuscator}

/-- A secret with its token: the token is that of its digest, and no secret. -/
structure Hides (d : Digest) (key : Units) (tokens : JsMap Units Units) (configured : List Units)
    (mapping : Mapping) : Prop where
  body : mapping.2 = hiddenBody d key mapping.1
  known : JsMap.get tokens mapping.2 = some mapping.1
  long : minObfuscateSecretLen ≤ mapping.1.length
  isConfigured : mapping.1 ∈ configured
  apart : token mapping.2 ∉ configured

/-- Every base, and every token, is that of the digest of a secret. -/
structure Keyed (d : Digest) (key : Units) (secrets : List Units) (ob : SecretObfuscator) :
    Prop where
  owned : ∀ base owner, JsMap.get ob.placeholderBaseOwners base = some owner →
    owner ∈ secrets ∧ base = d.buildHashBase key owner
  byKey : ∀ owner base, JsMap.get ob.placeholderBaseByKey owner = some base →
    base = d.buildHashBase key owner
  tokens : ∀ body secret, JsMap.get ob.deobfuscateMap body = some secret →
    secret ∈ secrets ∧ body = hiddenBody d key secret
  hidden : ∀ mapping ∈ ob.plainMappings,
    Hides d key ob.deobfuscateMap ob.configuredSecretValues mapping

/-- A secret gets the base of its own digest. -/
theorem Keyed.resolvePreferredPlaceholderBase (h : ob.Keyed d key secrets)
    (hd : d.Keyed key secrets) (fuel : ℕ) (hsecret : secret ∈ secrets) :
    ∃ owners byKey, ob.resolvePreferredPlaceholderBase d (fuel + 1) key secret =
        some (d.buildHashBase key secret,
          { ob with placeholderBaseOwners := owners, placeholderBaseByKey := byKey }) ∧
      SecretObfuscator.Keyed d key secrets
        { ob with placeholderBaseOwners := owners, placeholderBaseByKey := byKey } := by
  rw [SecretObfuscator.resolvePreferredPlaceholderBase]
  split
  · next base hbase =>
    exact ⟨ob.placeholderBaseOwners, ob.placeholderBaseByKey, by rw [h.byKey secret base hbase], h⟩
  -- an owner of the base has the same digest, and is the secret
  have hfree : ¬ ((JsMap.get ob.placeholderBaseOwners (d.buildHashBase key secret)).any
      fun owner => owner != secret) = true := by
    intro hany
    obtain ⟨owner, howner, hne⟩ := (any_eq_true _ _).mp hany
    obtain ⟨hmem, hbase⟩ := h.owned _ _ howner
    exact absurd (hd.injOn hmem hsecret hbase.symm) (bne_iff_ne.mp hne)
  refine ⟨JsMap.set (d.buildHashBase key secret) secret ob.placeholderBaseOwners,
    JsMap.set secret (d.buildHashBase key secret) ob.placeholderBaseByKey, ?_, ?_, ?_, h.tokens,
    h.hidden⟩
  · rw [resolveBaseFrom]
    exact if_neg hfree
  · intro base owner hget
    by_cases heq : base = d.buildHashBase key secret
    · subst heq
      rw [JsMap.get_set_self, some.injEq] at hget
      exact hget ▸ ⟨hsecret, rfl⟩
    · exact h.owned base owner (by rwa [JsMap.get_set_of_ne heq] at hget)
  intro owner base hget
  by_cases heq : owner = secret
  · subst heq
    rw [JsMap.get_set_self, some.injEq] at hget
    exact hget.symm
  · exact h.byKey owner base (by rwa [JsMap.get_set_of_ne heq] at hget)

theorem Keyed.placeholderConflicts (h : ob.Keyed d key secrets) (hd : d.Keyed key secrets)
    (hsecret : secret ∈ secrets)
    (htoken : token (hiddenBody d key secret) ∉ ob.configuredSecretValues) :
    ob.placeholderConflicts (hiddenBody d key secret) secret = false := by
  refine Bool.eq_false_iff.mpr fun hconflict => ?_
  rcases Bool.or_eq_true_iff.mp hconflict with hother | hconfigured
  · obtain ⟨existing, hget, hne⟩ := (any_eq_true _ _).mp hother
    obtain ⟨hmem, hbody⟩ := h.tokens _ _ hget
    exact absurd (hd.hiddenBody_injOn hmem hsecret hbody.symm) (bne_iff_ne.mp hne)
  · exact htoken (contains_iff_mem.mp (Bool.and_eq_true_iff.mp hconfigured).1)

/-- An entry to be hidden keeps the invariant, the other secrets as they are. -/
theorem Keyed.addEntry (h : ob.Keyed d key secrets) (hd : d.Keyed key secrets) (fuel : ℕ)
    {entry : SecretEntry} (hsecret : entry.content ∈ secrets)
    (hmode : entry.mode = .obfuscate) (hlong : minObfuscateSecretLen ≤ entry.content.length)
    (hconfigured : entry.content ∈ ob.configuredSecretValues)
    (htoken : token (hiddenBody d key entry.content) ∉ ob.configuredSecretValues) :
    ∃ ob', ob.addEntry d (fuel + 1) key entry = some ob' ∧ ob'.Keyed d key secrets ∧
      ob'.configuredSecretValues = ob.configuredSecretValues ∧
        ob'.replaceMappings = ob.replaceMappings := by
  obtain ⟨owners, byKey, hresolve, hkeyed⟩ := h.resolvePreferredPlaceholderBase hd fuel hsecret
  have hfree := hkeyed.placeholderConflicts hd hsecret htoken
  have hcreate : ob.createPlaceholder d (fuel + 1) key entry.content =
      some (hiddenBody d key entry.content,
        { ob with
          placeholderBaseOwners := owners
          placeholderBaseByKey := byKey
          deobfuscateMap := JsMap.set (hiddenBody d key entry.content) entry.content
            ob.deobfuscateMap }) := by
    rw [createPlaceholder, hresolve]
    exact if_neg (by rw [← hiddenBody, hfree]; exact Bool.false_ne_true)
  refine ⟨{ ob with
      placeholderBaseOwners := owners
      placeholderBaseByKey := byKey
      deobfuscateMap := JsMap.set (hiddenBody d key entry.content) entry.content ob.deobfuscateMap
      plainMappings := JsMap.set entry.content (hiddenBody d key entry.content) ob.plainMappings
      hasAny := true }, ?_, ⟨hkeyed.owned, hkeyed.byKey, ?_, ?_⟩, rfl, rfl⟩
  · rw [SecretObfuscator.addEntry, hmode]
    simp only [if_neg (not_lt.mpr hlong), hcreate]
    rfl
  · intro body secret hget
    by_cases heq : body = hiddenBody d key entry.content
    · subst heq
      rw [JsMap.get_set_self, some.injEq] at hget
      exact hget ▸ ⟨hsecret, rfl⟩
    · exact h.tokens body secret (by rwa [JsMap.get_set_of_ne heq] at hget)
  intro mapping hmapping
  rcases JsMap.mem_set hmapping with rfl | hmapping
  · exact ⟨rfl, JsMap.get_set_self, hlong, hconfigured, htoken⟩
  have hhides := h.hidden mapping hmapping
  refine ⟨hhides.body, ?_, hhides.long, hhides.isConfigured, hhides.apart⟩
  -- only the same secret has the same token, so the tokens of the others are still found
  by_cases heq : mapping.2 = hiddenBody d key entry.content
  · have hsame : mapping.1 = entry.content :=
      hd.hiddenBody_injOn (h.tokens _ _ hhides.known).1 hsecret (hhides.body.symm.trans heq)
    rw [heq, hsame, JsMap.get_set_self]
  · rw [JsMap.get_set_of_ne heq, hhides.known]

theorem Keyed.minted (h : ob.Keyed d key secrets) (hd : d.Keyed key secrets) : ob.Minted := by
  refine ⟨fun mapping hmem hnil => ?_, fun mapping hmem => (h.hidden mapping hmem).known,
    fun mapping hmem => ?_, fun mapping hmem => ?_, fun mapping hmem other hother heq => ?_⟩
  · have hlong := (h.hidden mapping hmem).long
    rw [hnil] at hlong
    exact absurd hlong (by decide)
  · rw [(h.hidden mapping hmem).body]
    exact hd.validBody_hiddenBody mapping.1
  · rw [(h.hidden mapping hmem).body]
    exact hd.splitName_hiddenBody mapping.1
  · exact (h.hidden mapping hmem).apart (heq ▸ (h.hidden other hother).isConfigured)

/-- The entries are hidden, and no token of a secret is in one of the secrets, or in the key. -/
structure Hidden (d : Digest) (key : Units) (entries : List SecretEntry) : Prop where
  mode : ∀ entry ∈ entries, entry.mode = .obfuscate
  long : ∀ entry ∈ entries, minObfuscateSecretLen ≤ entry.content.length
  apart : ∀ entry ∈ entries, ∀ secret ∈ key :: entries.map SecretEntry.content,
    ¬ token (hiddenBody d key entry.content) <:+: secret

/-- The construction ends at the first base of each secret, with its tokens in order. -/
theorem exists_construct (d : Digest) (key : Units) {entries : List SecretEntry}
    (hd : d.Keyed key (entries.map SecretEntry.content)) (h : Hidden d key entries) (fuel : ℕ) :
    ∃ ob, construct d (fuel + 1) key entries = some ob ∧ ob.Minted ∧
      ob.replaceMappings.map Prod.fst = [key] := by
  -- the list of all secrets stays fixed while the entries are taken in one by one
  have hfold : ∀ (rest : List SecretEntry), (∀ entry ∈ rest, entry ∈ entries) →
      ∀ start : SecretObfuscator, start.Keyed d key (entries.map SecretEntry.content) →
        start.configuredSecretValues = key :: entries.map SecretEntry.content →
          ∃ ob, rest.foldlM (fun ob entry => ob.addEntry d (fuel + 1) key entry) start = some ob ∧
            ob.Keyed d key (entries.map SecretEntry.content) ∧
              ob.replaceMappings = start.replaceMappings := by
    intro rest
    induction rest with
    | nil => exact fun _ start hstart _ => ⟨start, rfl, hstart, rfl⟩
    | cons entry rest ih =>
      intro hrest start hstart hconfigured
      have hentry := hrest entry mem_cons_self
      have hsecret : entry.content ∈ entries.map SecretEntry.content := mem_map_of_mem hentry
      have hmem : entry.content ∈ start.configuredSecretValues :=
        hconfigured ▸ mem_cons_of_mem _ hsecret
      have hapart : token (hiddenBody d key entry.content) ∉ start.configuredSecretValues := by
        rw [hconfigured]
        exact fun hmem => h.apart entry hentry _ hmem infix_rfl
      obtain ⟨next, hadd, hnext, hsame, hreplace⟩ :=
        hstart.addEntry hd fuel hsecret (h.mode entry hentry) (h.long entry hentry) hmem hapart
      obtain ⟨ob, hfold, hob, hreplace'⟩ :=
        ih (fun entry hmem => hrest entry (mem_cons_of_mem _ hmem)) next hnext
          (hsame.trans hconfigured)
      refine ⟨ob, ?_, hob, hreplace'.trans hreplace⟩
      rw [foldlM_cons, hadd]
      exact hfold
  have hstart : SecretObfuscator.Keyed d key (entries.map SecretEntry.content)
      { replaceMappings := [(key, generateSecretReplacement d key)]
        configuredSecretValues := key :: entries.map SecretEntry.content } :=
    ⟨fun _ _ => nofun, fun _ _ => nofun, fun _ _ => nofun, fun _ => nofun⟩
  obtain ⟨ob, hconstruct, hob, hreplace⟩ := hfold entries (fun _ hmem => hmem) _ hstart rfl
  exact ⟨ob, hconstruct, hob.minted hd, by rw [hreplace]; rfl⟩

/-- An obfuscator of hidden secrets turns its tokens back, in every text without the key in which
no token is known or has an unsafe name, and no secret stands directly behind an open head. -/
theorem construct_deobfuscate_obfuscate (d : Digest) (fuel : ℕ) (key : Units)
    (entries : List SecretEntry) (hd : d.Keyed key (entries.map SecretEntry.content))
    (h : Hidden d key entries) :
    ∃ ob, construct d (fuel + 1) key entries = some ob ∧
      ∀ text, ¬ key <:+: text → ob.Foreign text → ob.HeadsClosed text →
        ob.deobfuscate (ob.obfuscate text) = text := by
  obtain ⟨ob, hconstruct, hminted, hkeys⟩ := exists_construct d key hd h fuel
  refine ⟨ob, hconstruct, fun text hkey hforeign hheads => ?_⟩
  refine hminted.deobfuscate_obfuscate hforeign hheads ?_
  rw [replacePhase_eq]
  refine phase_of_absent fun mapping hmapping => ?_
  have hmem : mapping.1 ∈ ob.replaceMappings.map Prod.fst :=
    mem_map_of_mem (mem_byLength.mp hmapping)
  rw [hkeys, mem_singleton] at hmem
  rwa [hmem]

/-! ### Two secrets in lower case -/

def hiddenEntries : List SecretEntry :=
  [⟨units "tokabcde", .obfuscate, none⟩, ⟨units "hunterhunter", .obfuscate, none⟩]

def hiddenObfuscator : SecretObfuscator :=
  (construct twoBases 1 (units "thekey") hiddenEntries).getD {}

theorem construct_hiddenObfuscator :
    construct twoBases 1 (units "thekey") hiddenEntries = some hiddenObfuscator := by
  decide +kernel

theorem keyed_twoBases :
    twoBases.Keyed (units "thekey") (hiddenEntries.map SecretEntry.content) where
  injOn := by
    intro secret hsecret secret' hsecret' heq
    have hmem : ∀ s ∈ hiddenEntries.map SecretEntry.content,
        s = units "tokabcde" ∨ s = units "hunterhunter" := by decide +kernel
    rcases hmem secret hsecret with rfl | rfl <;> rcases hmem secret' hsecret' with rfl | rfl
    · rfl
    · exact absurd heq (by decide +kernel)
    · exact absurd heq (by decide +kernel)
    · rfl
  length text := by
    simp only [twoBases]
    split <;> decide +kernel
  isBase text := by
    simp only [twoBases]
    split <;> decide +kernel

theorem hidden_hiddenEntries : Hidden twoBases (units "thekey") hiddenEntries :=
  ⟨by decide +kernel, by decide +kernel, by decide +kernel⟩

theorem construct_deobfuscate_obfuscate_lower :
    hiddenObfuscator.deobfuscate (hiddenObfuscator.obfuscate (units "$tokabcde$hunterhunter")) =
      units "$tokabcde$hunterhunter" := by
  obtain ⟨ob, hconstruct, hround⟩ := construct_deobfuscate_obfuscate twoBases 0 (units "thekey")
    hiddenEntries keyed_twoBases hidden_hiddenEntries
  obtain rfl := some.inj (construct_hiddenObfuscator.symm.trans hconstruct)
  have hdollars : ¬ [36, 36] <:+: units "$tokabcde$hunterhunter" := by decide +kernel
  refine hround _ (by decide +kernel) (.of_notInfix hdollars) ?_
  intro front back mapping _ htext hopen
  refine hdollars ?_
  rw [htext]
  exact hopen.infix.trans (prefix_append _ _).isInfix

/-- A text that does not come back: behind an open head the delimiter of a token is misread, the key
is replaced for good, an unsafe name is taken off, and another name of a token is not kept. -/
theorem obfuscated_text_not_restored :
    twoBases.Keyed (units "thekey") (hiddenEntries.map SecretEntry.content) ∧
      Hidden twoBases (units "thekey") hiddenEntries ∧
      ∀ text ∈ [units "$$WXYZtokabcde", units "the key is thekey", units "$$TOKABCDE_WXYZ$$",
          units "$$NAME_AAAABBBBCCCC:L$$"],
        (∀ mapping ∈ hiddenObfuscator.plainMappings, ¬ token mapping.2 <:+: text) ∧
          hiddenObfuscator.deobfuscate (hiddenObfuscator.obfuscate text) ≠ text :=
  ⟨keyed_twoBases, hidden_hiddenEntries, by decide +kernel⟩

end SecretObfuscator

end BreadboardTui.Secrets
