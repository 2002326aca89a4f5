import BreadboardTui.Hashline.Tokenizer
import BreadboardTui.Js.Collections
import BreadboardTui.Lib.Blocks

/-!
# Placeholders of secrets

A secret is hidden behind a token `$$BASE:H$$`: the base is a keyed digest of the secret, and the
hint says how its letters are cased. A token may carry a friendly name in front of its base,
`$$NAME_BASE:H$$`, which stands for the same secret.

The body of a token holds no `$`, so a token ends at the first `$` behind its opening, and a text
has at most one token at a place. Three passes read the tokens of a text from left to right. After
a token that they do not know, two of them go on at its closing delimiter, which may open the next
one; the pass that puts the secrets back goes on behind it.
-/

namespace BreadboardTui.Secrets

open List

open Hashline (Units units)

/-! ### Tokens -/

/-- A code unit of a base or of a friendly name. -/
def isBaseCode (code : ℕ) : Bool :=
  decide (65 ≤ code ∧ code ≤ 90) || decide (48 ≤ code ∧ code ≤ 57)

/-- `U`, `L`, `C` or `M`. -/
def isHintCode (code : ℕ) : Bool := code = 85 || code = 76 || code = 67 || code = 77

def validBase (base : Units) : Bool := 4 ≤ base.length && base.all isBaseCode

/-- A body without its hint. -/
def dropHint (body : Units) : Units :=
  match body.reverse with
  | hint :: 58 :: front => if isHintCode hint then front.reverse else body
  | _ => body

/-- The body of a token as its friendly name and what follows the underscore. -/
def splitName (body : Units) : Option (Units × Units) :=
  match body.dropWhile fun code => code ≠ 95 with
  | [] => none
  | _ :: rest => some (body.takeWhile fun code => code ≠ 95, rest)

/-- `(?:[A-Z0-9]+_)?[A-Z0-9]{4,}(?::[ULCM])?`, as the whole of a body. -/
def validBody (body : Units) : Bool :=
  match splitName (dropHint body) with
  | none => validBase (dropHint body)
  | some (name, base) => !name.isEmpty && name.all isBaseCode && validBase base

/-- A body between its delimiters. -/
def token (body : Units) : Units := 36 :: 36 :: (body ++ [36, 36])

/-- `PLACEHOLDER_RE` at the beginning of a text: the body of the token, and the text behind it. -/
def matchPlaceholder : Units → Option (Units × Units)
  | 36 :: 36 :: text =>
    match text.dropWhile fun code => code ≠ 36 with
    | 36 :: 36 :: after =>
      if validBody (text.takeWhile fun code => code ≠ 36) then
        some (text.takeWhile fun code => code ≠ 36, after)
      else none
    | _ => none
  | _ => none

variable {body : Units}

theorem eq_of_matchPlaceholder {text after : Units}
    (h : matchPlaceholder text = some (body, after)) :
    text = token body ++ after ∧ validBody body = true ∧ 36 ∉ body := by
  rw [matchPlaceholder.eq_def] at h
  split at h
  · next rest =>
    split at h
    · next hclose =>
      split at h
      · next hvalid =>
        cases h
        refine ⟨?_, hvalid, fun hmem => ?_⟩
        · have hsplit := @takeWhile_append_dropWhile _ (fun code => decide (code ≠ 36)) rest
          rw [hclose] at hsplit
          rw [token, cons_append, cons_append, append_assoc]
          exact congrArg (fun t => 36 :: 36 :: t) hsplit.symm
        have := mem_takeWhile_imp hmem
        simp at this
      · cases h
    · cases h
  · cases h

theorem matchPlaceholder_token (hvalid : validBody body = true) (h : 36 ∉ body)
    (after : Units) : matchPlaceholder (token body ++ after) = some (body, after) := by
  have hall : ∀ code ∈ body, decide (code ≠ 36) = true := by
    intro code hcode
    refine decide_eq_true fun heq => h (heq ▸ hcode)
  have htake : (body ++ 36 :: 36 :: after).takeWhile (fun code => decide (code ≠ 36)) = body := by
    rw [takeWhile_append_of_pos hall, takeWhile_cons_of_neg (by simp), append_nil]
  have hdrop : (body ++ 36 :: 36 :: after).dropWhile (fun code => decide (code ≠ 36)) =
      36 :: 36 :: after := by
    rw [dropWhile_append_of_pos hall, dropWhile_cons_of_neg (by simp)]
  have htext : token body ++ after = 36 :: 36 :: (body ++ 36 :: 36 :: after) := by
    simp [token]
  rw [htext, matchPlaceholder]
  simp only [htake, hdrop, hvalid, if_true]

/-- The codes of a body that a token can have. -/
theorem code_of_validBody (h : validBody body = true) {code : ℕ}
    (hcode : code ∈ body) : isBaseCode code = true ∨ code = 95 ∨ code = 58 := by
  have hhint : ∀ code ∈ body, code ∈ dropHint body ∨ code = 58 ∨ isHintCode code = true := by
    intro code hcode
    rw [dropHint]
    split
    · next heq =>
      split
      · next hhint =>
        rw [← mem_reverse, heq] at hcode
        rcases mem_cons.mp hcode with rfl | hcode
        · exact .inr (.inr hhint)
        rcases mem_cons.mp hcode with rfl | hcode
        · exact .inr (.inl rfl)
        · exact .inl (mem_reverse.mpr hcode)
      · exact .inl hcode
    · exact .inl hcode
  have hbase : ∀ base, validBase base = true → ∀ code ∈ base, isBaseCode code = true :=
    fun base hvalid => all_eq_true.mp (Bool.and_eq_true_iff.mp hvalid).2
  rcases hhint code hcode with hcode | rfl | hcode
  · rw [validBody] at h
    split at h
    · exact .inl (hbase _ h code hcode)
    next hsplit =>
    rw [splitName] at hsplit
    split at hsplit
    · cases hsplit
    next first rest hdrop =>
    cases hsplit
    obtain ⟨hname, hvalid⟩ := Bool.and_eq_true_iff.mp h
    have hparts := @takeWhile_append_dropWhile _ (fun code => decide (code ≠ 95)) (dropHint body)
    rw [hdrop] at hparts
    rw [← hparts] at hcode
    have hfirst : first = 95 := by
      have hhead := head?_dropWhile_not (fun code => decide (code ≠ 95)) (dropHint body)
      rw [hdrop] at hhead
      simpa using hhead
    rcases mem_append.mp hcode with hcode | hcode
    · exact .inl (all_eq_true.mp (Bool.and_eq_true_iff.mp hname).2 code hcode)
    rcases mem_cons.mp hcode with rfl | hcode
    · exact .inr (.inl hfirst)
    · exact .inl (hbase _ hvalid code hcode)
  · exact .inr (.inr rfl)
  left
  simp only [isHintCode, Bool.or_eq_true, decide_eq_true_eq] at hcode
  simp only [isBaseCode, Bool.or_eq_true, decide_eq_true_eq]
  omega

theorem length_after {text after : Units} (h : matchPlaceholder text = some (body, after)) :
    text.length = after.length + (body.length + 4) := by
  rw [(eq_of_matchPlaceholder h).1]
  simp [token]
  omega

/-! ### Passes over a text -/

/-- The `indexOf` loop of `emitChunk`. -/
def replaceAll (search replacement : Units) (chunk : Units) : Units :=
  match chunk with
  | [] => []
  | code :: rest =>
    if search ≠ [] ∧ search.isPrefixOf (code :: rest) then
      replacement ++ replaceAll search replacement ((code :: rest).drop search.length)
    else code :: replaceAll search replacement rest
termination_by chunk.length
decreasing_by
  · next h =>
    have := length_pos_iff.mpr h.1
    simp only [length_drop, length_cons]
    omega
  · simp

/-- `#replaceOutsidePlaceholdersTracked`: what stands between the tokens that are kept is given to
`emit`. `chunk` has been read since the last of them. -/
def replaceOutside (isKept : Units → Bool) (emit : Units → Units) (chunk : Units)
    (text : Units) : Units :=
  match text with
  | [] => emit chunk
  | code :: rest =>
    match _hmatch : matchPlaceholder (code :: rest) with
    | none => replaceOutside isKept emit (chunk ++ [code]) rest
    | some (body, after) =>
      if isKept body then emit chunk ++ token body ++ replaceOutside isKept emit [] after
      -- `resumePlaceholderScanAfterRejectedCandidate`: the closing delimiter is read again
      else replaceOutside isKept emit (chunk ++ 36 :: 36 :: body) (36 :: 36 :: after)
termination_by text.length
decreasing_by
  · simp
  · have := length_after _hmatch
    simp only [length_cons] at this ⊢
    omega
  · have := length_after _hmatch
    simp only [length_cons] at this ⊢
    omega

/-- `#stripUnsafeFriendlyPrefixes`: a token whose name is unsafe loses it. -/
def stripPrefixes (isUnsafe : Units → Bool) (text : Units) : Units :=
  match text with
  | [] => []
  | code :: rest =>
    match _hmatch : matchPlaceholder (code :: rest) with
    | none => code :: stripPrefixes isUnsafe rest
    | some (body, after) =>
      match splitName body with
      | none => 36 :: 36 :: (body ++ stripPrefixes isUnsafe (36 :: 36 :: after))
      | some (name, bare) =>
        if isUnsafe name then token bare ++ stripPrefixes isUnsafe after
        else 36 :: 36 :: (body ++ stripPrefixes isUnsafe (36 :: 36 :: after))
termination_by text.length
decreasing_by
  · simp
  · have := length_after _hmatch
    simp only [length_cons] at this ⊢
    omega
  · have := length_after _hmatch
    simp only [length_cons] at this ⊢
    omega
  · have := length_after _hmatch
    simp only [length_cons] at this ⊢
    omega

/-- The `replace` of `#deobfuscate`: each token that is known is its secret again. -/
def restorePass (lookup : Units → Option Units) (text : Units) : Units :=
  match text with
  | [] => []
  | code :: rest =>
    match _hmatch : matchPlaceholder (code :: rest) with
    | none => code :: restorePass lookup rest
    | some (body, after) => (lookup body).getD (token body) ++ restorePass lookup after
termination_by text.length
decreasing_by
  · simp
  · have := length_after _hmatch
    simp only [length_cons] at this ⊢
    omega

/-! ### What a pass leaves in place -/

variable {search : Units}

theorem replaceAll_of_absent {replacement chunk : Units} (h : ¬ search <:+: chunk) :
    replaceAll search replacement chunk = chunk := by
  induction chunk with
  | nil => rw [replaceAll]
  | cons code rest ih =>
    rw [infix_cons_iff, not_or] at h
    rw [replaceAll, if_neg, ih h.2]
    rintro ⟨-, hprefix⟩
    exact h.1 ( isPrefixOf_iff_prefix.mp hprefix)

/-- A chunk without the search text stays as it is. In any other one the first occurrence is
replaced, and the rest is searched again. -/
theorem replaceAll_cases (hne : search ≠ []) (replacement chunk : Units) : (¬ search <:+: chunk) ∨
      ∃ front back, chunk = front ++ search ++ back ∧ (¬ search <:+: front) ∧
        replaceAll search replacement chunk =
          front ++ replacement ++ replaceAll search replacement back := by
  induction chunk with
  | nil => exact .inl fun h => hne (infix_nil.mp h)
  | cons code rest ih =>
    by_cases hprefix : search <+: code :: rest
    · obtain ⟨back, hback⟩ := hprefix
      refine .inr ⟨[], back, hback.symm, fun h => hne (infix_nil.mp h), ?_⟩
      have hcond : search ≠ [] ∧ search.isPrefixOf (code :: rest) = true :=
        ⟨hne, isPrefixOf_iff_prefix.mpr ⟨back, hback⟩⟩
      rw [replaceAll, if_pos hcond, ← hback, drop_left, nil_append]
    have hcond : ¬ (search ≠ [] ∧ search.isPrefixOf (code :: rest) = true) := fun h =>
      hprefix ( isPrefixOf_iff_prefix.mp h.2)
    rcases ih with habsent | ⟨front, back, hrest, hfront, heq⟩
    · refine .inl fun h => ?_
      rcases infix_cons_iff.mp h with h | h
      · exact hprefix h
      · exact habsent h
    refine .inr ⟨code :: front, back, by rw [hrest]; rfl, fun h => ?_, ?_⟩
    · rcases infix_cons_iff.mp h with h | h
      · refine hprefix (h.trans ?_)
        rw [hrest, append_assoc]
        exact ⟨search ++ back, rfl⟩
      · exact hfront h
    rw [replaceAll, if_neg hcond, heq]
    rfl

/-- The text does not join with anything into `s`, and does not contain it. -/
def Barrier (s text : Units) : Prop :=
  ∀ front back, s <:+: front ++ text ++ back → s <:+: front ∨ s <:+: back

/-- A text with no code unit of `s` is a barrier for it. -/
theorem barrier_of_disjoint {s text : Units} (hne : text ≠ []) (h : ∀ code ∈ text, code ∉ s) :
    Barrier s text := by
  induction text with
  | nil => exact absurd rfl hne
  | cons code text ih =>
    intro front back hin
    rw [append_assoc, cons_append] at hin
    rcases infix_of_append_cons (h code mem_cons_self) hin with hin | hin
    · exact .inl hin
    by_cases htext : text = []
    · subst htext
      exact .inr hin
    have hrest := ih htext fun c hc => h c (mem_cons_of_mem _ hc)
    rcases hrest [] back (by simpa using hin) with hnil | hback
    · exact .inl (hnil.trans nil_infix)
    · exact .inr hback

/-- What is found after a replacement was there before, in a piece without the search text. -/
theorem infix_of_replaceAll {replacement s chunk : Units} (hne : search ≠ [])
    (hbarrier : Barrier s replacement) (h : s <:+: replaceAll search replacement chunk) :
    ∃ piece, piece <:+: chunk ∧ (¬ search <:+: piece) ∧ s <:+: piece := by
  induction hlength : chunk.length using Nat.strong_induction_on generalizing chunk with
  | _ n ih =>
    rcases replaceAll_cases hne replacement chunk with habsent | ⟨front, back, hchunk, hfront, heq⟩
    · rw [replaceAll_of_absent habsent] at h
      exact ⟨chunk, infix_refl _, habsent, h⟩
    rw [heq] at h
    rcases hbarrier _ _ h with h | h
    · refine ⟨front, ?_, hfront, h⟩
      rw [hchunk, append_assoc]
      exact infix_append_left
    have hpos := length_pos_iff.mpr hne
    have hlt : back.length < n := by
      rw [← hlength, hchunk]
      simp only [length_append]
      omega
    obtain ⟨piece, hpiece, hsearch, hs⟩ := ih back.length hlt h rfl
    refine ⟨piece, hpiece.trans ?_, hsearch, hs⟩
    rw [hchunk]
    exact infix_append_right

section Outside

variable {isKept : Units → Bool} {emit : Units → Units}

/-- A pass that changes no chunk changes nothing. -/
theorem replaceOutside_eq_self (chunk text : Units)
    (h : ∀ part, part <:+: chunk ++ text → emit part = part) :
    replaceOutside isKept emit chunk text = chunk ++ text := by
  fun_induction replaceOutside isKept emit chunk text with
  | case1 chunk => rw [h chunk (by simp), append_nil]
  | case2 chunk code rest hmatch ih =>
    rw [append_assoc, singleton_append] at ih
    exact ih h
  | case3 chunk code rest body after hmatch hkept ih =>
    have htext := (eq_of_matchPlaceholder hmatch).1
    rw [htext] at h ⊢
    rw [h chunk (infix_append_left), ih fun part hpart => h part (hpart.trans ?_)]
    · simp
    rw [nil_append, ← append_assoc]
    exact infix_append_right
  | case4 chunk code rest body after hmatch hkept ih =>
    have htext := (eq_of_matchPlaceholder hmatch).1
    have hsame : chunk ++ 36 :: 36 :: body ++ 36 :: 36 :: after = chunk ++ (code :: rest) := by
      rw [htext]
      simp [token]
    rw [hsame] at ih
    exact ih h

/-- What is found after a pass was there before, in a piece that `emit` leaves it in. -/
theorem infix_of_replaceOutside {s : Units} {leaves : Units → Prop} {chunk text : Units}
    (hkept : ∀ body, validBody body = true → isKept body = true → Barrier s (token body))
    (hemit : ∀ part, s <:+: emit part → ∃ piece, piece <:+: part ∧ leaves piece ∧ s <:+: piece)
    (h : s <:+: replaceOutside isKept emit chunk text) :
    ∃ piece, piece <:+: chunk ++ text ∧ leaves piece ∧ s <:+: piece := by
  fun_induction replaceOutside isKept emit chunk text with
  | case1 chunk =>
    rw [append_nil]
    exact hemit chunk h
  | case2 chunk code rest hmatch ih =>
    have hpiece := ih h
    rwa [append_assoc, singleton_append] at hpiece
  | case3 chunk code rest body after hmatch hk ih =>
    obtain ⟨htext, hvalid, -⟩ := eq_of_matchPlaceholder hmatch
    rw [htext]
    rcases hkept body hvalid hk _ _ h with h | h
    · obtain ⟨piece, hpiece, hleaves, hs⟩ := hemit chunk h
      exact ⟨piece, hpiece.trans (infix_append_left), hleaves, hs⟩
    obtain ⟨piece, hpiece, hleaves, hs⟩ := ih h
    refine ⟨piece, hpiece.trans ?_, hleaves, hs⟩
    rw [nil_append, ← append_assoc]
    exact infix_append_right
  | case4 chunk code rest body after hmatch hk ih =>
    have hsame : chunk ++ 36 :: 36 :: body ++ 36 :: 36 :: after = chunk ++ (code :: rest) := by
      rw [(eq_of_matchPlaceholder hmatch).1]
      simp [token]
    rw [hsame] at ih
    exact ih h

end Outside

end BreadboardTui.Secrets
