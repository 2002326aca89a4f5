import BreadboardTui.Secrets.Pending
import BreadboardTui.Secrets.RoundTrip

/-!
# Secrets in a streamed text

The text that a provider streams is shown with its secrets put back. After each delta all of the
text so far is read again, its tokens are replaced, and an unfinished token at the end of the result
is withheld. What has been shown should never be taken back.
-/

namespace BreadboardTui.Secrets

open List

open Hashline (Units units)

/-! ### The tokens of a text -/

/-- The tokens that a pass reads, each with the text in front of it. -/
def foundTokens (front text : Units) : List (Units × Units) :=
  match text with
  | [] => []
  | code :: rest =>
    match _hmatch : matchPlaceholder (code :: rest) with
    | none => foundTokens (front ++ [code]) rest
    | some (body, after) => (front, body) :: foundTokens (front ++ token body) after
termination_by text.length
decreasing_by
  · simp
  · have := length_after _hmatch
    simp only [length_cons] at this ⊢
    omega

theorem foundTokens_of_none {front rest : Units} {code : ℕ}
    (h : matchPlaceholder (code :: rest) = none) :
    foundTokens front (code :: rest) = foundTokens (front ++ [code]) rest := by
  rw [foundTokens]
  split
  · rfl
  next hsome =>
  rw [h] at hsome
  cases hsome

variable {text body : Units}

theorem foundTokens_of_some {front after : Units} (h : matchPlaceholder text = some (body, after)) :
    foundTokens front text = (front, body) :: foundTokens (front ++ token body) after := by
  cases text with
  | nil => cases h
  | cons =>
    rw [foundTokens]
    split
    · next hnone =>
      rw [h] at hnone
      cases hnone
    next hsome =>
    rw [h] at hsome
    cases hsome
    rfl

theorem matchPlaceholder_append {after : Units}
    (h : matchPlaceholder text = some (body, after)) (more : Units) :
    matchPlaceholder (text ++ more) = some (body, after ++ more) := by
  obtain ⟨rfl, hvalid, hdollar⟩ := eq_of_matchPlaceholder h
  rw [append_assoc]
  exact matchPlaceholder_token hvalid hdollar (after ++ more)

theorem matchPlaceholder_of_append_none {more : Units}
    (h : matchPlaceholder (text ++ more) = none) : matchPlaceholder text = none := by
  cases hmatch : matchPlaceholder text with
  | none => rfl
  | some =>
    rw [matchPlaceholder_append hmatch] at h
    cases h

theorem count_token (h : 36 ∉ body) : (token body).count 36 = 4 := by
  have hbody : body.count 36 = 0 := count_eq_zero.mpr h
  simp [token, hbody]

/-- A text with less than four `$` has no token. -/
theorem matchPlaceholder_of_count (h : text.count 36 < 4) : matchPlaceholder text = none := by
  cases hmatch : matchPlaceholder text with
  | none => rfl
  | some =>
    obtain ⟨htext, -, hdollar⟩ := eq_of_matchPlaceholder hmatch
    rw [htext, count_append, count_token hdollar] at h
    omega

variable (lookup : Units → Option Units)

theorem pass_of_count (h : text.count 36 < 4) :
    restorePass lookup text = text ∧ ∀ front, foundTokens front text = [] := by
  induction text with
  | nil => exact ⟨by rw [restorePass], fun front => by rw [foundTokens]⟩
  | cons code rest ih =>
    have hnone := matchPlaceholder_of_count h
    have hrest : rest.count 36 < 4 :=
      lt_of_le_of_lt (List.Sublist.count_le 36 (sublist_cons_self code rest)) h
    refine ⟨?_, fun front => ?_⟩
    · rw [restorePass_of_none hnone, (ih hrest).1]
    · rw [foundTokens_of_none hnone, (ih hrest).2]

theorem count_of_cut {part : Units} (h : 36 ∉ body) (hpart : part <+: token body)
    (hfull : part ≠ token body) : part.count 36 < 4 := by
  have hlast : part <+: (token body).dropLast := by
    refine prefix_of_prefix_length_le hpart ( dropLast_prefix _) ?_
    have hlength := hpart.length_le
    rw [length_dropLast]
    have hne : part.length ≠ (token body).length := fun heq => hfull (hpart.eq_of_length heq)
    omega
  have hcount := hlast.sublist.count_le 36
  have hbody : body.count 36 = 0 := count_eq_zero.mpr h
  rw [dropLast_token] at hcount
  simp at hcount
  omega

/-! ### One more delta -/

/-- Where a text goes on, a token that starts in it ends in it or is cut by its end. -/
theorem matchPlaceholder_cases (hnone : matchPlaceholder text = none) (more : Units) :
    matchPlaceholder (text ++ more) = none ∨
      ∃ body after, matchPlaceholder (text ++ more) = some (body, after) ∧
        text <+: token body ∧ text ≠ token body := by
  cases hmatch : matchPlaceholder (text ++ more) with
  | none => exact .inl rfl
  | some found =>
    obtain ⟨body, after⟩ := found
    obtain ⟨htext, hvalid, hdollar⟩ := eq_of_matchPlaceholder hmatch
    have hlong : ¬ token body <+: text := by
      rintro ⟨rest, rfl⟩
      rw [matchPlaceholder_token hvalid hdollar] at hnone
      cases hnone
    have hprefix : text <+: token body := by
      rcases prefix_or_prefix_of_prefix (prefix_append text more)
        ⟨after, htext.symm⟩ with h | h
      · exact h
      · exact absurd h hlong
    exact .inr ⟨body, after, rfl, hprefix, fun heq => hlong (heq ▸ prefix_refl _)⟩

/-- The restored text goes on, unless a token that was cut has become a secret. -/
theorem restore_append_cases (front text more : Units) :
    (restorePass lookup text <+: restorePass lookup (text ++ more)) ∨
      ∃ shown part body secret rest, text = shown ++ part ∧ part ≠ [] ∧ part <+: token body ∧
        part ≠ token body ∧ validBody body = true ∧ lookup body = some secret ∧
        (front ++ shown, body) ∈ foundTokens front (text ++ more) ∧
        restorePass lookup text = restorePass lookup shown ++ part ∧
        restorePass lookup (text ++ more) = restorePass lookup shown ++ (secret ++ rest) := by
  induction hlength : text.length using Nat.strong_induction_on generalizing front text with
  | _ n ih =>
    cases text with
    | nil =>
      left
      rw [restorePass]
      exact nil_prefix
    | cons code tail =>
      cases hmatch : matchPlaceholder (code :: tail) with
      | some found =>
        obtain ⟨body, after⟩ := found
        have hmore := matchPlaceholder_append hmatch more
        have hlt := length_after hmatch
        obtain ⟨htext, hvalid, hdollar⟩ := eq_of_matchPlaceholder hmatch
        rw [restorePass_of_some hmatch, restorePass_of_some hmore, foundTokens_of_some hmore]
        rcases ih after.length (by omega) (front ++ token body) after rfl with hprefix | hcut
        · exact .inl ((prefix_append_right_inj _).mpr hprefix)
        obtain ⟨shown, part, cut, secret, rest, hsplit, hne, hpart, hfull, hcutvalid, hlookup,
          hfound, hrestored, hnew⟩ := hcut
        refine .inr ⟨token body ++ shown, part, cut, secret, rest, ?_, hne, hpart, hfull,
          hcutvalid, hlookup, mem_cons_of_mem _ ?_, ?_, ?_⟩
        · rw [htext, hsplit, append_assoc]
        · rwa [← append_assoc]
        · rw [restorePass_of_some (matchPlaceholder_token hvalid hdollar shown), hrestored,
            append_assoc]
        rw [restorePass_of_some (matchPlaceholder_token hvalid hdollar shown), hnew, append_assoc]
      | none =>
        rcases matchPlaceholder_cases hmatch more with
          hmore | ⟨body, after, hmore, hpart, hfull⟩
        · rw [cons_append] at hmore ⊢
          rw [restorePass_of_none hmatch, restorePass_of_none hmore, foundTokens_of_none hmore]
          have hlt : tail.length < n := by rw [← hlength, length_cons]; omega
          rcases ih tail.length hlt (front ++ [code]) tail rfl with hprefix | hcut
          · exact .inl (cons_prefix_cons.mpr ⟨rfl, hprefix⟩)
          obtain ⟨shown, part, cut, secret, rest, hsplit, hne, hpart, hfull, hcutvalid, hlookup,
            hfound, hrestored, hnew⟩ := hcut
          have hshown : matchPlaceholder (code :: shown) = none := by
            rw [hsplit, ← cons_append] at hmatch
            exact matchPlaceholder_of_append_none hmatch
          refine .inr ⟨code :: shown, part, cut, secret, rest, ?_, hne, hpart, hfull,
            hcutvalid, hlookup, ?_, ?_, ?_⟩
          · rw [hsplit, cons_append]
          · rw [append_assoc] at hfound
            exact hfound
          · rw [restorePass_of_none hshown, hrestored, cons_append]
          · rw [restorePass_of_none hshown, hnew, cons_append]
        -- all that is left of the text is the beginning of a token
        obtain ⟨htext, hvalid, hdollar⟩ := eq_of_matchPlaceholder hmore
        have hsame := pass_of_count lookup (count_of_cut hdollar hpart hfull)
        rw [restorePass_of_some hmore, hsame.1]
        cases hlookup : lookup body with
        | none => exact .inl (hpart.trans (prefix_append _ _))
        | some secret =>
          refine .inr ⟨[], code :: tail, body, secret, restorePass lookup after, rfl,
            cons_ne_nil _ _, hpart, hfull, hvalid, hlookup, ?_, ?_, ?_⟩
          · rw [foundTokens_of_some hmore, append_nil]
            exact mem_cons_self
          · rw [restorePass, nil_append]
          · rw [restorePass, nil_append, Option.getD_some]

theorem mem_foundTokens_append {front : Units} {found : Units × Units}
    (h : found ∈ foundTokens front text) (more : Units) :
    found ∈ foundTokens front (text ++ more) := by
  induction hlength : text.length using Nat.strong_induction_on generalizing front text with
  | _ n ih =>
    cases text with
    | nil =>
      rw [foundTokens] at h
      cases h
    | cons code tail =>
      cases hmatch : matchPlaceholder (code :: tail) with
      | some read =>
        obtain ⟨body, after⟩ := read
        have hlt := length_after hmatch
        rw [foundTokens_of_some hmatch] at h
        rw [foundTokens_of_some (matchPlaceholder_append hmatch more)]
        rcases mem_cons.mp h with rfl | h
        · exact mem_cons_self
        · exact mem_cons_of_mem _ (ih after.length (by omega) h rfl)
      | none =>
        rcases matchPlaceholder_cases hmatch more with
          hmore | ⟨body, after, hmore, hpart, hfull⟩
        · rw [foundTokens_of_none hmatch] at h
          rw [cons_append] at hmore ⊢
          rw [foundTokens_of_none hmore]
          have hlt : tail.length < n := by rw [← hlength, length_cons]; omega
          exact ih tail.length hlt h rfl
        obtain ⟨-, -, hdollar⟩ := eq_of_matchPlaceholder hmore
        have hcount := count_of_cut hdollar hpart hfull
        rw [(pass_of_count (fun _ => none) hcount).2] at h
        cases h

/-! ### What is released -/

/-- What the obfuscator knows of its tokens: each with its secret, and whether that holds tokens
itself. -/
structure LiveSecrets where
  hasAny : Bool
  deobfuscateMap : JsMap Units (Units × Bool)
  /-- `#prefixIsSecretShaped` -/
  nameIsSecretShaped : Units → Bool

namespace LiveSecrets

variable (live : LiveSecrets)

/-- `#lookupLiveAlias`: a token may have another name in front of its base. -/
def lookupLiveAlias (body : Units) : Option (Units × Bool) :=
  match JsMap.get live.deobfuscateMap body with
  | some mapped => some mapped
  | none =>
    match splitName body with
    | none => none
    | some (name, bare) =>
      if live.nameIsSecretShaped name then none else JsMap.get live.deobfuscateMap bare

def secretOf (body : Units) : Option Units := (live.lookupLiveAlias body).map Prod.fst

/-- A pass goes on to the next one if it has put back a secret with tokens. -/
def shouldContinue (text : Units) : Bool :=
  (foundTokens [] text).any fun found => (live.lookupLiveAlias found.2).any Prod.snd

/-- The loop of `#deobfuscate`: nothing if it has not ended after so many passes. -/
def deobfuscateLoop : ℕ → Units → Option Units
  | 0, _ => none
  | fuel + 1, text =>
    let next := restorePass live.secretOf text
    if next = text ∨ live.shouldContinue text = false ∨ ¬ [36, 36] <:+: next then some next
    else deobfuscateLoop fuel next

def deobfuscate (fuel : ℕ) (text : Units) : Option Units :=
  if live.hasAny && decide ([36, 36] <:+: text) then live.deobfuscateLoop fuel text else some text

/-- `deobfuscateDelta` of the session's provider boundary. -/
def deobfuscateDelta (fuel : ℕ) (text : Units) : Option Units :=
  (live.deobfuscate fuel text).map fun deobfuscated =>
    if live.hasAny then stripPendingSecretPlaceholderSuffix deobfuscated else deobfuscated

/-- The text after the first deltas. -/
def textAfter (deltas : List Units) (count : ℕ) : Units := (deltas.take count).flatten

/-- Everything that is released is part of what is released later, and of the whole text. -/
def Streams (fuel : ℕ) (deltas : List Units) : Prop :=
  ∃ final, live.deobfuscate fuel deltas.flatten = some final ∧
    ∀ count later, count ≤ later → ∃ released next,
      live.deobfuscateDelta fuel (textAfter deltas count) = some released ∧
        live.deobfuscateDelta fuel (textAfter deltas later) = some next ∧
        released <+: next ∧ released <+: final

/-- Where the tokens of a text with a live secret are cut. -/
structure CleanCuts (deltas : List Units) : Prop where
  /-- No secret of the text holds tokens itself. -/
  flat : live.shouldContinue deltas.flatten = false
  /-- No delta ends between the two closing characters of a token. -/
  closed : ∀ found ∈ foundTokens [] deltas.flatten, live.secretOf found.2 ≠ none →
    ∀ count, textAfter deltas count ≠ found.1 ++ (token found.2).dropLast
  /-- Where a delta ends in a token, no unfinished token in front of it goes on into its secret. -/
  apart : ∀ found ∈ foundTokens [] deltas.flatten, ∀ secret, live.secretOf found.2 = some secret →
    ∀ count part, part ≠ [] → part <+: token found.2 → part ≠ token found.2 →
      textAfter deltas count = found.1 ++ part →
        ∀ begun, begun ≠ [] → begun <:+ restorePass live.secretOf found.1 →
          isPending (begun ++ secret) = false

variable {live : LiveSecrets} {fuel : ℕ}

theorem restorePass_of_absent {lookup : Units → Option Units}
    (h : ¬ [36, 36] <:+: text) : restorePass lookup text = text := by
  induction text with
  | nil => rw [restorePass]
  | cons code rest ih =>
    rw [infix_cons_iff, not_or] at h
    have hnone : matchPlaceholder (code :: rest) = none := by
      cases hmatch : matchPlaceholder (code :: rest) with
      | none => rfl
      | some =>
        refine absurd ?_ h.1
        rw [(eq_of_matchPlaceholder hmatch).1]
        exact ⟨_, rfl⟩
    rw [restorePass_of_none hnone, ih h.2]

/-- Without tokens in its secrets a text is read once. -/
theorem deobfuscate_eq (hany : live.hasAny = true) (h : live.shouldContinue text = false) :
    live.deobfuscate (fuel + 1) text = some (restorePass live.secretOf text) := by
  rw [deobfuscate, hany, Bool.true_and]
  split
  · rw [deobfuscateLoop, if_pos (.inr (.inl h))]
  · next habsent => rw [restorePass_of_absent fun h => habsent (decide_eq_true h)]

theorem shouldContinue_of_append {more : Units}
    (h : live.shouldContinue (text ++ more) = false) : live.shouldContinue text = false := by
  rw [shouldContinue, any_eq_false] at h ⊢
  exact fun found hfound => h found (mem_foundTokens_append hfound more)

/-- The step: what is released of a text is there after more of it has come, in the restored text
and in what is released of it. -/
theorem released_step (text more : Units)
    (hclosed : ∀ found ∈ foundTokens [] (text ++ more), live.secretOf found.2 ≠ none →
      text ≠ found.1 ++ (token found.2).dropLast)
    (hapart : ∀ found ∈ foundTokens [] (text ++ more), ∀ secret,
      live.secretOf found.2 = some secret → ∀ part, part ≠ [] → part <+: token found.2 →
        part ≠ token found.2 → text = found.1 ++ part → ∀ begun, begun ≠ [] →
          begun <:+ restorePass live.secretOf found.1 → isPending (begun ++ secret) = false) :
    stripPendingSecretPlaceholderSuffix (restorePass live.secretOf text) <+:
        restorePass live.secretOf (text ++ more) ∧
      stripPendingSecretPlaceholderSuffix (restorePass live.secretOf text) <+:
        stripPendingSecretPlaceholderSuffix (restorePass live.secretOf (text ++ more)) := by
  obtain ⟨suffix, hsuffix, -, hfirst⟩ := strip_cases (restorePass live.secretOf text)
  obtain ⟨withheld, hwithheld, hpending, -⟩ :=
    strip_cases (restorePass live.secretOf (text ++ more))
  rcases restore_append_cases live.secretOf [] text more with hprefix | hcut
  · have hreleased := (prefix_strip (restorePass live.secretOf text)).trans hprefix
    refine ⟨hreleased, ?_⟩
    rcases prefix_or_prefix_of_prefix hreleased
      (prefix_strip (restorePass live.secretOf (text ++ more))) with h | ⟨begun, hbegun⟩
    · exact h
    -- what is withheld then begins in the released text, and was withheld before
    obtain ⟨rest, hrest⟩ := hprefix
    by_cases hempty : begun = []
    · rw [hempty, append_nil] at hbegun
      rw [hbegun]
    have hback : withheld = (begun ++ suffix) ++ rest := by
      refine append_cancel_left (hwithheld.symm.trans ?_)
      conv_lhs => rw [← hrest, hsuffix, ← hbegun]
      simp
    have hne : begun ++ suffix ≠ [] := fun h => hempty (append_eq_nil_iff.mp h).1
    have hpend : isPending (begun ++ suffix) = true := by
      rcases hpending with h | h
      · rw [h] at hback
        exact absurd (append_eq_nil_iff.mp hback.symm).1 hne
      · exact isPending_of_part h (hback ▸ prefix_append _ _) hne
    refine hfirst _ _ ?_ hne hpend
    rw [← append_assoc, hbegun]
    exact hsuffix.symm
  obtain ⟨shown, part, body, secret, rest, htext, hne, hpart, hfull, hvalid, hlookup, hfound,
    hrestored, hnew⟩ := hcut
  rw [nil_append] at hfound
  have hlast : part ≠ (token body).dropLast := by
    rintro rfl
    exact hclosed _ hfound (by simp [hlookup]) htext
  have hshown : stripPendingSecretPlaceholderSuffix (restorePass live.secretOf text) <+:
      restorePass live.secretOf shown := by
    rw [hrestored]
    exact prefix_of_strip_append hne (isPending_of_cut hvalid hpart hne hfull hlast) _
  have hreleased := hshown.trans (prefix_append _ (secret ++ rest))
  rw [← hnew] at hreleased
  refine ⟨hreleased, ?_⟩
  rcases prefix_or_prefix_of_prefix hreleased
    (prefix_strip (restorePass live.secretOf (text ++ more))) with h | ⟨begun, hbegun⟩
  · exact h
  -- the secret would finish what the released text has begun
  by_cases hempty : begun = []
  · rw [hempty, append_nil] at hbegun
    rw [hbegun]
  obtain ⟨between, hbetween⟩ := hshown
  have hback : withheld = ((begun ++ between) ++ secret) ++ rest := by
    refine append_cancel_left (hwithheld.symm.trans ?_)
    conv_lhs => rw [hnew, ← hbetween, ← hbegun]
    simp
  have hne' : begun ++ between ≠ [] := fun h => hempty (append_eq_nil_iff.mp h).1
  have hpend : isPending ((begun ++ between) ++ secret) = true := by
    have hnonempty : (begun ++ between) ++ secret ≠ [] := fun h =>
      hne' (append_eq_nil_iff.mp h).1
    rcases hpending with h | h
    · rw [h] at hback
      exact absurd (append_eq_nil_iff.mp hback.symm).1 hnonempty
    · exact isPending_of_part h (hback ▸ prefix_append _ _) hnonempty
  have hsuffix' : begun ++ between <:+ restorePass live.secretOf shown :=
    ⟨_, by rw [← append_assoc, hbegun, hbetween]⟩
  rw [hapart _ hfound secret hlookup part hne hpart hfull htext _ hne' hsuffix'] at hpend
  cases hpend

/-- The run: with such cuts nothing is ever taken back. -/
theorem streams_of_cleanCuts {deltas : List Units} (h : live.CleanCuts deltas) :
    live.Streams (fuel + 1) deltas := by
  have hsplit : ∀ count, deltas.flatten = textAfter deltas count ++ (deltas.drop count).flatten := by
    intro count
    rw [textAfter, ← flatten_append, take_append_drop]
  by_cases hany : live.hasAny = true
  · have hflat : ∀ count, live.shouldContinue (textAfter deltas count) = false := fun count =>
      shouldContinue_of_append (hsplit count ▸ h.flat)
    refine ⟨_, deobfuscate_eq hany h.flat, fun count later hle => ?_⟩
    have hdelta : ∀ count, live.deobfuscateDelta (fuel + 1) (textAfter deltas count) =
        some (stripPendingSecretPlaceholderSuffix
          (restorePass live.secretOf (textAfter deltas count))) := by
      intro count
      rw [deobfuscateDelta, deobfuscate_eq hany (hflat count), Option.map_some, if_pos hany]
    refine ⟨_, _, hdelta count, hdelta later, ?_, ?_⟩
    · have hmore : textAfter deltas later =
          textAfter deltas count ++ ((deltas.take later).drop count).flatten := by
        rw [textAfter, textAfter, ← flatten_append]
        conv_lhs => rw [← take_append_drop count (deltas.take later), take_take, min_eq_left hle]
      have hkept : ∀ found ∈ foundTokens [] (textAfter deltas later),
          found ∈ foundTokens [] deltas.flatten := fun found hfound =>
        hsplit later ▸ mem_foundTokens_append hfound _
      rw [hmore] at hkept ⊢
      exact (released_step _ _ (fun found hfound hlive => h.closed found (hkept found hfound) hlive
        count)
        fun found hfound secret hsecret part hne hpart hfull htext =>
          h.apart found (hkept found hfound) secret hsecret count part hne hpart hfull htext).2
    have hstep := @released_step live (textAfter deltas count) (deltas.drop count).flatten
    rw [← hsplit count] at hstep
    exact (hstep (fun found hfound hlive => h.closed found hfound hlive count)
      fun found hfound secret hsecret part hne hpart hfull htext =>
        h.apart found hfound secret hsecret count part hne hpart hfull htext).1
  have hdelta : ∀ text, live.deobfuscateDelta (fuel + 1) text = some text := by
    intro text
    rw [deobfuscateDelta, deobfuscate, Bool.eq_false_iff.mpr hany, Bool.false_and,
      if_neg Bool.false_ne_true, Option.map_some, if_neg Bool.false_ne_true]
  refine ⟨deltas.flatten, ?_, fun count later hle => ⟨_, _, hdelta _, hdelta _, ?_, ?_⟩⟩
  · rw [deobfuscate, Bool.eq_false_iff.mpr hany, Bool.false_and, if_neg Bool.false_ne_true]
  · obtain ⟨rest, hrest⟩ := take_prefix_take_left hle (l := deltas)
    exact ⟨rest.flatten, by rw [textAfter, textAfter, ← flatten_append, hrest]⟩
  · exact ⟨_, (hsplit count).symm⟩

/-- One secret, `s`, with the token `$$ABCD$$`. -/
def oneSecret : LiveSecrets where
  hasAny := true
  deobfuscateMap := [(units "ABCD", (units "s", false))]
  nameIsSecretShaped := fun _ => false

theorem cleanCuts_oneSecret : oneSecret.CleanCuts [units "a$$AB", units "CD$$"] := by
  have hfound : foundTokens [] [units "a$$AB", units "CD$$"].flatten =
      [(units "a", units "ABCD")] := by decide +kernel
  have hafter : ∀ count, textAfter [units "a$$AB", units "CD$$"] count = [] ∨
      textAfter [units "a$$AB", units "CD$$"] count = units "a$$AB" ∨
      textAfter [units "a$$AB", units "CD$$"] count = units "a$$ABCD$$" := by
    intro count
    rcases count with - | - | count
    · exact .inl rfl
    · exact .inr (.inl rfl)
    right
    right
    rw [textAfter, take_of_length_le (by simp)]
    decide
  refine ⟨by decide +kernel, ?_, ?_⟩
  · intro found hmem _ count
    rw [hfound, mem_singleton] at hmem
    subst hmem
    rcases hafter count with h | h | h <;> rw [h] <;> decide
  intro found hmem secret hsecret count part hne hpart hfull htext begun hbegun hsuffix
  rw [hfound, mem_singleton] at hmem
  subst hmem
  have hrestored : restorePass oneSecret.secretOf (units "a") = units "a" := by decide +kernel
  rw [hrestored] at hsuffix
  have hlast : begun = [] ∨ begun = units "a" := by
    rw [← mem_tails] at hsuffix
    simpa [units, or_comm] using hsuffix
  rcases hlast with rfl | rfl
  · exact absurd rfl hbegun
  · rfl

end LiveSecrets

end BreadboardTui.Secrets
