import BreadboardTui.Secrets.Obfuscator
import BreadboardTui.Secrets.Replacing

/-!
# Whether a key is needed

Tokens need a key that is kept for the installation, and no key is made for secrets that are only
ever replaced. A secret that is to be hidden may still never get its token, since the secrets that
are replaced are replaced first. The analysis of the entries decides whether a text can be left with
such a secret: it applies the replacements to the secret, and asks for each replacement, in the form
that the later ones leave of it, whether it can be a part of the secret.

A replacement is rewritten in its context, and the analysis looks at it alone. An occurrence that
reaches across its border can take from it what alone would have been replaced.
-/

namespace BreadboardTui.Secrets

open List

open Hashline (Units units)
open SecretObfuscator (byLength generateSecretReplacement)

/-! ### The analysis -/

/-- `text.split(search).join(replacement)` -/
def splitJoin (search replacement text : Units) : Units :=
  -- an empty separator splits between the code units
  if search = [] then replacement.intercalate (text.map fun code => [code])
  else replaceAll search replacement text

/-- The effective replacements: a later entry with the same content wins. -/
def replaceMap (d : Digest) (entries : List SecretEntry) : JsMap Units Units :=
  entries.foldl (fun mappings entry =>
    match entry.mode with
    | .obfuscate => mappings
    | .replace => JsMap.set entry.content
        (entry.replacement.getD (generateSecretReplacement d entry.content)) mappings) []

/-- `replacePhase`: the longer contents first. -/
def replacePhaseOf (d : Digest) (entries : List SecretEntry) : JsMap Units Units :=
  byLength (replaceMap d entries)

/-- `applyReplacePhaseFrom`, with the mappings from the start on. -/
def applyReplacePhaseFrom (mappings : JsMap Units Units) (text : Units) : Units :=
  mappings.foldl (fun text mapping => splitJoin mapping.1 mapping.2 text) text

def replacementCanFormContent (replacement content : Units) : Bool :=
  if replacement.length = 0 then decide (0 < content.length)
  else if replacement <:+: content ∨ content <:+: replacement then true
  else
    (List.range' 1 (min replacement.length content.length)).any fun k =>
      (replacement.drop (replacement.length - k)).isPrefixOf content ||
        (replacement.take k).isSuffixOf content

/-- `secretEntryNeedsPlaceholderKey`, of a plain entry. -/
def secretEntryNeedsPlaceholderKey (entry : SecretEntry) : Bool :=
  match entry.mode with
  | .obfuscate => decide (minObfuscateSecretLen ≤ entry.content.length)
  | .replace => false

/-- Some replacement can be a part of the content that is left. -/
def someReplacementForms (content : Units) : JsMap Units Units → Bool
  | [] => false
  | (_, replacement) :: later =>
    (decide (applyReplacePhaseFrom later content = content) &&
      replacementCanFormContent (applyReplacePhaseFrom later replacement) content) ||
        someReplacementForms content later

def secretEntriesNeedPlaceholderKey (d : Digest) (entries : List SecretEntry) : Bool :=
  entries.any fun entry =>
    secretEntryNeedsPlaceholderKey entry &&
      (decide (entry.content <:+: applyReplacePhaseFrom (replacePhaseOf d entries) entry.content) ||
        someReplacementForms entry.content (replacePhaseOf d entries))

/-! ### The phase itself -/

/-- The replacements of a phase, one after the other; an empty content is not searched for. -/
def replaceInOrder (mappings : JsMap Units Units) (text : Units) : Units :=
  mappings.foldl (fun text mapping => replaceAll mapping.1 mapping.2 text) text

def HasContents (mappings : JsMap Units Units) : Prop := ∀ mapping ∈ mappings, mapping.1 ≠ []

/-- The later replacements rewrite the piece on its own: none of the occurrences that they replace
reaches across one of its borders. -/
def Undisturbed : JsMap Units Units → Units → Units → Units → Prop
  | [], _, _, _ => True
  | (search, replacement) :: later, front, piece, back =>
    Clean search front (piece ++ back) ∧ Clean search (front ++ piece) back ∧
      Undisturbed later (replaceAll search replacement front) (replaceAll search replacement piece)
        (replaceAll search replacement back)

/-- On the way of the text through the phase every replacement is undisturbed. -/
def Quiet : JsMap Units Units → Units → Prop
  | [], _ => True
  | (search, replacement) :: later, text =>
    (∀ front back, text = front ++ (search ++ back) → Clean search front (search ++ back) →
      Undisturbed later (replaceAll search replacement front) replacement
        (replaceAll search replacement back)) ∧
      Quiet later (replaceAll search replacement text)

/-- An occurrence that the replacements do not touch. -/
def Persists : JsMap Units Units → Units → Units → Units → Prop
  | [], _, _, _ => True
  | (search, replacement) :: later, x, s, y =>
    (Clean search x (s ++ y) ∧ Clean search (x ++ s) y ∧ ¬ search <:+: s) ∧
      Persists later (replaceAll search replacement x) s (replaceAll search replacement y)

theorem HasContents.tail {mapping : Units × Units} {later : JsMap Units Units}
    (h : HasContents (mapping :: later)) : HasContents later :=
  fun other hother => h other (mem_cons_of_mem _ hother)

variable {mappings : JsMap Units Units}

theorem applyReplacePhaseFrom_eq (h : HasContents mappings)
    (text : Units) : applyReplacePhaseFrom mappings text = replaceInOrder mappings text := by
  induction mappings generalizing text with
  | nil => rfl
  | cons mapping later ih =>
    rw [applyReplacePhaseFrom, foldl_cons, splitJoin, if_neg (h mapping mem_cons_self)]
    exact ih h.tail _

/-- A secret that the replacements leave alone stays as it is. -/
theorem Persists.replaceInOrder {x s y : Units}
    (h : Persists mappings x s y) : replaceInOrder mappings s = s := by
  induction mappings generalizing x y with
  | nil => rfl
  | cons mapping later ih =>
    obtain ⟨⟨-, -, habsent⟩, hlater⟩ := h
    rw [Secrets.replaceInOrder, foldl_cons, replaceAll_of_absent habsent]
    exact ih hlater

variable {front piece back x s y : Units}

/-- The run: what has something in common before the later replacements has it behind them. -/
theorem Meets.replaceInOrder (hcontents : HasContents mappings) (h : Meets front piece back x s y)
    (hpersists : Persists mappings x s y) (hundisturbed : Undisturbed mappings front piece back) :
    ∃ front' back' x' y', Meets front' (replaceInOrder mappings piece) back' x' s y' := by
  induction mappings generalizing front piece back x y with
  | nil => exact ⟨front, back, x, y, h⟩
  | cons mapping later ih =>
    obtain ⟨⟨hx, hxs, habsent⟩, hlater⟩ := hpersists
    obtain ⟨hfront, hpiece, hrest⟩ := hundisturbed
    have hne := hcontents mapping mem_cons_self
    exact ih hcontents.tail (h.replaceAll hne habsent hx hxs hfront hpiece) hlater hrest

/-- What has something in common with a secret can form it. -/
theorem Meets.canForm (h : Meets front piece back x s y)
    (hs : s ≠ []) : replacementCanFormContent piece s = true := by
  rw [replacementCanFormContent]
  split
  · exact decide_eq_true (length_pos_iff.mpr hs)
  next hpiece =>
  split
  · rfl
  next hno =>
  rw [not_or] at hno
  cases h with
  | inside c₁ c₂ heq =>
    exact absurd ⟨c₁, c₂, by rw [heq, append_assoc]⟩ hno.1
  | around t₁ t₂ heq =>
    exact absurd ⟨t₁, t₂, by rw [heq, append_assoc]⟩ hno.2
  | ending t w c hw hp hs' _ _ =>
    refine any_eq_true.mpr ⟨w.length, ?_, ?_⟩
    · have hpos := length_pos_iff.mpr hw
      rw [mem_range'_1, hp, hs', length_append, length_append]
      omega
    have hdrop : piece.drop (piece.length - w.length) = w := by
      rw [hp, length_append, Nat.add_sub_cancel, drop_left]
    rw [hdrop, hs', Bool.or_eq_true]
    exact .inl ( isPrefixOf_iff_prefix.mpr (prefix_append _ _))
  | starting c w t hw hs' hp _ _ =>
    refine any_eq_true.mpr ⟨w.length, ?_, ?_⟩
    · have hpos := length_pos_iff.mpr hw
      rw [mem_range'_1, hp, hs', length_append, length_append]
      omega
    rw [hp, take_left, hs', Bool.or_eq_true]
    exact .inr (isSuffixOf_iff_suffix.mpr (suffix_append _ _))

/-- A secret that is left after the phase was there from the start, or since one of the
replacements. -/
theorem persists_cases (hcontents : HasContents mappings)
    {text : Units} (h : replaceInOrder mappings text = x ++ (s ++ y)) :
    (∃ x₀ y₀, text = x₀ ++ (s ++ y₀) ∧ Persists mappings x₀ s y₀) ∨
      ∃ before search replacement later front back x₁ y₁,
        mappings = before ++ (search, replacement) :: later ∧
        replaceInOrder before text = front ++ (search ++ back) ∧
        Clean search front (search ++ back) ∧
        Meets (replaceAll search replacement front) replacement
          (replaceAll search replacement back) x₁ s y₁ ∧ Persists later x₁ s y₁ := by
  induction mappings generalizing text with
  | nil => exact .inl ⟨x, y, h, trivial⟩
  | cons mapping later ih =>
    obtain ⟨search, replacement⟩ := mapping
    have hne : search ≠ [] := hcontents _ mem_cons_self
    rcases ih hcontents.tail h with ⟨x₁, y₁, htext, hpersists⟩ | hformed
    · rcases occurrence_cases hne htext with hpass | ⟨front, back, hsplit, hclean, hmeets⟩
      · obtain ⟨x₀, y₀, hx₀, hclean, hends, habsent, rfl, rfl⟩ := hpass
        exact .inl ⟨x₀, y₀, hx₀, ⟨hclean, hends, habsent⟩, hpersists⟩
      · exact .inr ⟨[], search, replacement, later, front, back, x₁, y₁, rfl, hsplit, hclean,
          hmeets, hpersists⟩
    obtain ⟨before, search', replacement', later', front, back, x₁, y₁, hsplit, hrest⟩ := hformed
    exact .inr ⟨(search, replacement) :: before, search', replacement', later', front, back,
      x₁, y₁, by rw [hsplit]; rfl, hrest⟩

variable {before later : JsMap Units Units}

theorem undisturbed_of_quiet {search replacement text : Units}
    (h : Quiet (before ++ (search, replacement) :: later) text)
    (hsplit : replaceInOrder before text = front ++ (search ++ back))
    (hclean : Clean search front (search ++ back)) :
    Undisturbed later (replaceAll search replacement front) replacement
      (replaceAll search replacement back) := by
  induction before generalizing text with
  | nil => exact h.1 front back hsplit hclean
  | cons mapping before ih => exact ih h.2 hsplit

theorem someReplacementForms_of_split {content : Units}
    {search replacement : Units} (hcontent : applyReplacePhaseFrom later content = content)
    (hforms : replacementCanFormContent (applyReplacePhaseFrom later replacement) content = true) :
    someReplacementForms content (before ++ (search, replacement) :: later) = true := by
  induction before with
  | nil =>
    rw [nil_append, someReplacementForms, decide_eq_true hcontent, hforms]
    rfl
  | cons mapping before ih => rw [cons_append, someReplacementForms, ih, Bool.or_true]

/-- The analysis finds every secret that is left in a quiet run. -/
theorem keyNeed_of_left {d : Digest} {entries : List SecretEntry} {text : Units}
    (hcontents : HasContents (replacePhaseOf d entries))
    (hquiet : Quiet (replacePhaseOf d entries) text) {entry : SecretEntry} (hentry : entry ∈ entries)
    (hneeds : secretEntryNeedsPlaceholderKey entry = true)
    (hleft : entry.content <:+: replaceInOrder (replacePhaseOf d entries) text) :
    secretEntriesNeedPlaceholderKey d entries = true := by
  obtain ⟨x, y, hleft⟩ := hleft
  rw [append_assoc] at hleft
  refine any_eq_true.mpr ⟨entry, hentry, ?_⟩
  rw [hneeds, Bool.true_and, Bool.or_eq_true]
  rcases persists_cases hcontents hleft.symm with ⟨x₀, y₀, -, hpersists⟩ | hformed
  · left
    rw [applyReplacePhaseFrom_eq hcontents, hpersists.replaceInOrder]
    exact decide_eq_true infix_rfl
  right
  obtain ⟨before, search, replacement, later, front, back, x₁, y₁, hphase, hsplit, hclean, hmeets,
    hpersists⟩ := hformed
  have hlater : HasContents later := fun mapping hmapping =>
    hcontents mapping (hphase ▸ mem_append_right _ (mem_cons_of_mem _ hmapping))
  have hundisturbed := undisturbed_of_quiet (hphase ▸ hquiet) hsplit hclean
  obtain ⟨front', back', x', y', hmeets'⟩ := hmeets.replaceInOrder hlater hpersists hundisturbed
  have hne : entry.content ≠ [] := by
    intro hempty
    rw [secretEntryNeedsPlaceholderKey] at hneeds
    split at hneeds
    · rw [hempty] at hneeds
      cases hneeds
    · cases hneeds
  rw [hphase]
  refine someReplacementForms_of_split ?_ ?_
  · rw [applyReplacePhaseFrom_eq hlater, hpersists.replaceInOrder]
  rw [applyReplacePhaseFrom_eq hlater]
  exact hmeets'.canForm hne

end BreadboardTui.Secrets
