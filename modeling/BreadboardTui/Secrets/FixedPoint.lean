import BreadboardTui.Secrets.Obfuscator

/-!
# What is left after obfuscation

Once a text has been obfuscated, no secret is left in it, and obfuscating it again changes nothing.
Both need that what is put in contains no secret and does not become one beside other text
(`Apart`).

Between its two phases the obfuscator takes unsafe names off tokens. `obfuscate_stable` is about
texts on which it finds none; `stripped_text_not_stable` shows one on which it does, in the second
obfuscation.
-/

namespace BreadboardTui.Secrets

open List

open Hashline (Units units)

namespace SecretObfuscator

/-- What the obfuscator puts in, and the tokens that it knows, are apart from the secrets. -/
structure Apart (ob : SecretObfuscator) : Prop where
  ne_nil : ∀ s, ob.IsSecret s → s ≠ []
  replacement : ∀ mapping ∈ ob.replaceMappings, ∀ s, ob.IsSecret s → Barrier s mapping.2
  placeholder : ∀ mapping ∈ ob.plainMappings, ∀ s, ob.IsSecret s →
    Barrier s (token (ob.placeholderForCurrentInput mapping.2))
  known : ∀ body, validBody body = true → ob.isGeneratedPlaceholder body = true →
    ∀ s, ob.IsSecret s → Barrier s (token body)

variable {ob : SecretObfuscator} {text : Units} {s : Units}

/-- Replacing one secret leaves no occurrence of it, and makes none of another. -/
theorem Apart.replacePlain (h : ob.Apart) {search replacement : Units}
    (hsearch : search ≠ []) (hreplacement : Barrier s replacement) (hs : ob.IsSecret s)
    (hfound : s <:+: ob.replacePlain text search replacement) : s <:+: text ∧ s ≠ search := by
  rw [SecretObfuscator.replacePlain, if_neg hsearch] at hfound
  obtain ⟨piece, hpiece, habsent, hin⟩ :=
    @infix_of_replaceOutside _ _ s (fun piece => ¬ search <:+: piece) _ _
      (fun body hvalid hkept => h.known body hvalid (Bool.and_eq_true_iff.mp hkept).1 s hs)
      (fun part hpart => infix_of_replaceAll hsearch hreplacement hpart) hfound
  refine ⟨hin.trans hpiece, ?_⟩
  rintro rfl
  exact habsent hin

/-- Where the secret does not occur, replacing it changes nothing. -/
theorem replacePlain_of_absent {search : Units} (h : ¬ search <:+: text)
    (replacement : Units) : ob.replacePlain text search replacement = text := by
  rw [SecretObfuscator.replacePlain]
  split
  · rfl
  refine replaceOutside_eq_self [] text fun part hpart => replaceAll_of_absent fun hin => ?_
  exact h (hin.trans hpart)

/-- A phase: the secrets of some mappings are replaced in turn. -/
def phase (ob : SecretObfuscator) (output : Units → Units) (mappings : JsMap Units Units)
    (text : Units) : Units :=
  mappings.foldl (fun text mapping => ob.replacePlain text mapping.1 (output mapping.2)) text

theorem replacePhase_eq (text : Units) :
    ob.replacePhase text = ob.phase id (byLength ob.replaceMappings) text := rfl

theorem obfuscatePhase_eq (text : Units) :
    ob.obfuscatePhase text = ob.phase (fun body => token (ob.placeholderForCurrentInput body))
      (byLength ob.plainMappings) text := rfl

variable {mappings : JsMap Units Units}

variable {output : Units → Units}

theorem Apart.phase (h : ob.Apart) (hs : ob.IsSecret s)
    (hmappings : ∀ mapping ∈ mappings, mapping.1 ≠ [] ∧ Barrier s (output mapping.2))
    (hfound : s <:+: ob.phase output mappings text) :
    s <:+: text ∧ ∀ mapping ∈ mappings, s ≠ mapping.1 := by
  induction mappings generalizing text with
  | nil => exact ⟨hfound, fun mapping hmapping => nomatch hmapping⟩
  | cons first mappings ih =>
    obtain ⟨hne, hbarrier⟩ := hmappings first mem_cons_self
    obtain ⟨hin, hrest⟩ :=
      ih (fun mapping hmapping => hmappings mapping (mem_cons_of_mem _ hmapping)) hfound
    -- what the rest of the phase leaves was there behind the first step
    obtain ⟨htext, hfirst⟩ := h.replacePlain hne hbarrier hs hin
    refine ⟨htext, fun mapping hmapping => ?_⟩
    rcases mem_cons.mp hmapping with rfl | hmapping
    · exact hfirst
    · exact hrest mapping hmapping

theorem phase_of_absent
    (h : ∀ mapping ∈ mappings, ¬ mapping.1 <:+: text) : ob.phase output mappings text = text := by
  induction mappings with
  | nil => rfl
  | cons first mappings ih =>
    have hrest := ih fun mapping hmapping => h mapping (mem_cons_of_mem _ hmapping)
    rw [phase, foldl_cons, replacePlain_of_absent (h first mem_cons_self)]
    exact hrest

variable {mapping : Units × Units}

theorem mem_byLength : mapping ∈ byLength mappings ↔ mapping ∈ mappings :=
  mem_insertionSort _

theorem isSecret_of_mem
    (h : mapping ∈ ob.replaceMappings ∨ mapping ∈ ob.plainMappings) : ob.IsSecret mapping.1 :=
  h.imp (fun h => mem_map_of_mem h) fun h => mem_map_of_mem h

/-- No secret is left, where taking off names changes nothing between the phases. -/
theorem Apart.obfuscate_absent (h : ob.Apart) (hany : ob.hasAny = true)
    (hstrip : stripPrefixes ob.nameIsSecretShaped (ob.replacePhase text) = ob.replacePhase text)
    (hs : ob.IsSecret s) : ¬ s <:+: ob.obfuscate text := by
  intro hfound
  rw [obfuscate, if_pos hany, hstrip, obfuscatePhase_eq] at hfound
  obtain ⟨hbetween, hplain⟩ := h.phase hs (fun mapping hmapping => by
    have hmem := mem_byLength.mp hmapping
    exact ⟨h.ne_nil _ (isSecret_of_mem (.inr hmem)), h.placeholder mapping hmem s hs⟩) hfound
  rw [replacePhase_eq] at hbetween
  obtain ⟨-, hreplace⟩ := h.phase hs (fun mapping hmapping => by
    have hmem := mem_byLength.mp hmapping
    exact ⟨h.ne_nil _ (isSecret_of_mem (.inl hmem)), h.replacement mapping hmem s hs⟩) hbetween
  -- a secret of either phase is gone behind its own step
  rcases hs with hs | hs
  · obtain ⟨mapping, hmem, rfl⟩ := mem_map.mp hs
    exact hreplace mapping (mem_byLength.mpr hmem) rfl
  obtain ⟨mapping, hmem, rfl⟩ := mem_map.mp hs
  exact hplain mapping (mem_byLength.mpr hmem) rfl

/-- A text without secrets stays as it is, where no token has an unsafe name. -/
theorem obfuscate_of_absent (habsent : ∀ s, ob.IsSecret s → ¬ s <:+: text)
    (hstrip : stripPrefixes ob.nameIsSecretShaped text = text) : ob.obfuscate text = text := by
  have hreplace : ob.replacePhase text = text := by
    rw [replacePhase_eq]
    exact phase_of_absent fun mapping hmapping =>
      habsent _ (isSecret_of_mem (.inl (mem_byLength.mp hmapping)))
  have hobfuscate : ob.obfuscatePhase text = text := by
    rw [obfuscatePhase_eq]
    exact phase_of_absent fun mapping hmapping =>
      habsent _ (isSecret_of_mem (.inr (mem_byLength.mp hmapping)))
  rw [obfuscate]
  split
  · rw [hreplace, hstrip, hobfuscate]
  · rfl

/-- Secrets in lower case are apart from tokens, which have no such letters, and from replacements
without any. -/
theorem apart_of_lower (hsecrets : ∀ mapping ∈ ob.replaceMappings ++ ob.plainMappings,
      mapping.1 ≠ [] ∧ mapping.1.all isLowerCode = true)
    (hreplacements : ∀ mapping ∈ ob.replaceMappings,
      mapping.2 ≠ [] ∧ mapping.2.any isLowerCode = false)
    (hbodies : ∀ mapping ∈ ob.plainMappings,
      (ob.placeholderForCurrentInput mapping.2).any isLowerCode = false) : ob.Apart := by
  have hlower : ∀ s, ob.IsSecret s → s ≠ [] ∧ s.all isLowerCode = true := by
    intro s hs
    rcases hs with hs | hs
    · obtain ⟨mapping, hmem, rfl⟩ := mem_map.mp hs
      exact hsecrets mapping (mem_append_left _ hmem)
    obtain ⟨mapping, hmem, rfl⟩ := mem_map.mp hs
    exact hsecrets mapping (mem_append_right _ hmem)
  have hbarrier : ∀ s, ob.IsSecret s → ∀ text : Units, text ≠ [] →
      text.any isLowerCode = false → Barrier s text := by
    intro s hs text hne htext
    refine barrier_of_disjoint hne fun code hcode hmem => ?_
    have hlow := all_eq_true.mp (hlower s hs).2 code hmem
    exact any_eq_false.mp htext code hcode hlow
  have htoken : ∀ body : Units, body.any isLowerCode = false →
      (token body).any isLowerCode = false := by
    intro body hbody
    rw [token, any_cons, any_cons, any_append, hbody]
    rfl
  refine ⟨fun s hs => (hlower s hs).1, fun mapping hmem s hs => ?_, fun mapping hmem s hs => ?_,
    fun body hvalid _ s hs => ?_⟩
  · exact hbarrier s hs _ (hreplacements mapping hmem).1 (hreplacements mapping hmem).2
  · exact hbarrier s hs _ (cons_ne_nil _ _) (htoken _ (hbodies mapping hmem))
  refine hbarrier s hs _ (cons_ne_nil _ _) (htoken _ (any_eq_false.mpr ?_))
  intro code hcode hlow
  have hrange : 97 ≤ code ∧ code ≤ 122 := of_decide_eq_true hlow
  rcases code_of_validBody hvalid hcode with hbase | rfl | rfl
  · simp only [isBaseCode, Bool.or_eq_true, decide_eq_true_eq] at hbase
    omega
  · omega
  · omega

/-- A digest that tells two secrets apart, with replacements of one letter. -/
def twoBases : Digest where
  buildHashBase _ value :=
    if value = units "tokabcde" then units "AAAABBBBCCCC" else units "DDDDEEEEFFFF"
  generateDeterministicReplacement secret := secret.map fun _ => 90

def lowerEntries : List SecretEntry :=
  [⟨units "tokabcde", .obfuscate, none⟩, ⟨units "hunterhunter", .obfuscate, none⟩,
    ⟨units "topsecret", .replace, none⟩]

def lowerObfuscator : SecretObfuscator :=
  (construct twoBases 1 (units "thekey") lowerEntries).getD {}

theorem construct_lowerObfuscator :
    construct twoBases 1 (units "thekey") lowerEntries = some lowerObfuscator := by
  decide +kernel

theorem apart_lowerObfuscator : lowerObfuscator.Apart :=
  apart_of_lower (by decide +kernel) (by decide +kernel) (by decide +kernel)

end SecretObfuscator

end BreadboardTui.Secrets
