import BreadboardTui.Secrets.Placeholder

/-!
# Unfinished tokens

While a text is streamed, what its end could begin is withheld until more of it has come: a token
that is cut must not be shown before it can be replaced. The pattern for such an end reads a `$`, or
the opening of a token with any part of its body.
-/

namespace BreadboardTui.Secrets

open List

open Hashline (Units units)

/-! ### The pattern -/

/-- `(?::[ULCM]?)?` as the whole of a text. -/
def endsPending : Units → Bool
  | [] => true
  | [code] => code = 58
  | [code, hint] => code = 58 && isHintCode hint
  | _ => false

/-- `(?:[A-Z0-9]+_)?[A-Z0-9]*(?::[ULCM]?)?` as the whole of a text. -/
def isPendingBody (body : Units) : Bool :=
  endsPending (body.dropWhile isBaseCode) ||
    match body.dropWhile isBaseCode with
    | 95 :: base => !(body.takeWhile isBaseCode).isEmpty && endsPending (base.dropWhile isBaseCode)
    | _ => false

/-- `(?:\$\$(?:[A-Z0-9]+_)?[A-Z0-9]*(?::[ULCM]?)?|\$)` as the whole of a text. -/
def isPending : Units → Bool
  | [36] => true
  | 36 :: 36 :: body => isPendingBody body
  | _ => false

/-- The text in front of the first place from which on all of it is pending. -/
def stripPendingSecretPlaceholderSuffix : Units → Units
  | [] => []
  | code :: rest =>
    if isPending (code :: rest) then [] else code :: stripPendingSecretPlaceholderSuffix rest

/-! ### Parts of what is pending are pending -/

variable {part : Units} {text : Units}

theorem endsPending_of_part (h : endsPending text = true)
    (hpart : part <+: text) : endsPending part = true := by
  obtain ⟨rest, rfl⟩ := hpart
  match part, rest with
  | [], _ => rfl
  | [code], [] => exact h
  | [code], [hint] =>
    simp only [cons_append, nil_append, endsPending, Bool.and_eq_true] at h
    exact h.1
  | [code], _ :: _ :: _ => simp [endsPending] at h
  | [code, hint], [] => exact h
  | [code, hint], _ :: _ => simp [endsPending] at h
  | _ :: _ :: _ :: _, _ => simp [endsPending] at h

theorem prefix_dropWhile (p : ℕ → Bool) (h : part <+: text) :
    part.dropWhile p <+: text.dropWhile p := by
  obtain ⟨rest, rfl⟩ := h
  rw [dropWhile_append]
  split
  · next hempty =>
    rw [List.isEmpty_iff.mp hempty]
    exact nil_prefix
  · exact prefix_append _ _

variable {body : Units}

theorem isPendingBody_of_part (h : isPendingBody body = true)
    (hpart : part <+: body) : isPendingBody part = true := by
  have hdrop := prefix_dropWhile isBaseCode hpart
  rw [isPendingBody, Bool.or_eq_true] at h ⊢
  rcases h with h | h
  · exact .inl (endsPending_of_part h hdrop)
  by_cases hempty : part.dropWhile isBaseCode = []
  · left
    rw [hempty]
    rfl
  right
  split at h
  · next base hbase =>
    obtain ⟨hname, hends⟩ := Bool.and_eq_true_iff.mp h
    rw [hbase] at hdrop
    obtain ⟨base', hbase', hprefix⟩ : ∃ base', part.dropWhile isBaseCode = 95 :: base' ∧
        base' <+: base := by
      cases hpartdrop : part.dropWhile isBaseCode with
      | nil => exact absurd hpartdrop hempty
      | cons first base' =>
        rw [hpartdrop, cons_prefix_cons] at hdrop
        exact ⟨base', by rw [hdrop.1], hdrop.2⟩
    -- the underscore stands behind the same name
    have htake : part.takeWhile isBaseCode = body.takeWhile isBaseCode := by
      obtain ⟨rest, rfl⟩ := hpart
      rw [takeWhile_append]
      split
      · next hall =>
        have hlength := congrArg List.length
          (takeWhile_append_dropWhile (p := isBaseCode) (l := part))
        rw [length_append, hall, hbase'] at hlength
        simp only [length_cons] at hlength
        omega
      · rfl
    rw [hbase', htake]
    exact Bool.and_eq_true_iff.mpr
      ⟨hname, endsPending_of_part hends (prefix_dropWhile isBaseCode hprefix)⟩
  · cases h

theorem isPending_of_part (h : isPending text = true) (hpart : part <+: text)
    (hne : part ≠ []) : isPending part = true := by
  rw [isPending.eq_def] at h
  split at h
  · rcases prefix_cons_iff.mp hpart with rfl | ⟨rest, rfl, hrest⟩
    · exact absurd rfl hne
    · rw [prefix_nil.mp hrest]
      rfl
  · next body =>
    rcases prefix_cons_iff.mp hpart with rfl | ⟨rest, rfl, hrest⟩
    · exact absurd rfl hne
    rcases prefix_cons_iff.mp hrest with rfl | ⟨inner, rfl, hinner⟩
    · rfl
    · exact isPendingBody_of_part h hinner
  · cases h

/-- Nothing that is pending has a `$` in its body. -/
theorem dollar_notMem_pendingBody (h : isPendingBody body = true) : 36 ∉ body := by
  have hends : ∀ text, endsPending text = true → 36 ∉ text := by
    intro text htext hmem
    match text with
    | [] => cases hmem
    | [code] =>
      simp only [endsPending, decide_eq_true_eq] at htext
      simp [htext] at hmem
    | [code, hint] =>
      simp only [endsPending, isHintCode, Bool.and_eq_true, Bool.or_eq_true,
        decide_eq_true_eq] at htext
      simp only [mem_cons, not_mem_nil, or_false] at hmem
      omega
    | _ :: _ :: _ :: _ => cases htext
  have hbase : ∀ text : Units, 36 ∉ text.takeWhile isBaseCode := by
    intro text hmem
    have := mem_takeWhile_imp hmem
    cases this
  have hsplit : ∀ text : Units, 36 ∉ text.dropWhile isBaseCode → 36 ∉ text := by
    intro text hdrop hmem
    rw [← takeWhile_append_dropWhile (p := isBaseCode) (l := text)] at hmem
    rcases mem_append.mp hmem with h | h
    · exact hbase text h
    · exact hdrop h
  rw [isPendingBody, Bool.or_eq_true] at h
  rcases h with h | h
  · exact hsplit body (hends _ h)
  split at h
  · next base hdrop =>
    refine hsplit body fun hmem => ?_
    rw [hdrop] at hmem
    rcases mem_cons.mp hmem with h36 | hmem
    · cases h36
    · exact hsplit base (hends _ (Bool.and_eq_true_iff.mp h).2) hmem
  · cases h

/-! ### What is in front of it -/

theorem prefix_strip (text : Units) : stripPendingSecretPlaceholderSuffix text <+: text := by
  induction text with
  | nil => exact nil_prefix
  | cons code rest ih =>
    rw [stripPendingSecretPlaceholderSuffix]
    split
    · exact nil_prefix
    · exact cons_prefix_cons.mpr ⟨rfl, ih⟩

/-- The text is stripped up to a place from which on it is pending, or not at all. -/
theorem strip_cases (text : Units) :
    ∃ suffix, text = stripPendingSecretPlaceholderSuffix text ++ suffix ∧
      (suffix = [] ∨ isPending suffix = true) ∧
      ∀ front back, front ++ back = text → back ≠ [] → isPending back = true →
        stripPendingSecretPlaceholderSuffix text <+: front := by
  induction text with
  | nil =>
    refine ⟨[], rfl, .inl rfl, fun front back heq hne _ => ?_⟩
    exact absurd (append_eq_nil_iff.mp heq).2 hne
  | cons code rest ih =>
    rw [stripPendingSecretPlaceholderSuffix]
    split
    · next h => exact ⟨code :: rest, rfl, .inr h, fun _ _ _ _ _ => nil_prefix⟩
    next h =>
    obtain ⟨suffix, heq, hsuffix, hfirst⟩ := ih
    refine ⟨suffix, congrArg _ heq, hsuffix, fun front back hsplit hne hback => ?_⟩
    cases front with
    | nil =>
      rw [nil_append] at hsplit
      rw [hsplit] at hback
      exact absurd hback h
    | cons first front =>
      obtain ⟨rfl, hrest⟩ := List.cons.inj hsplit
      exact cons_prefix_cons.mpr ⟨rfl, hfirst front back hrest hne hback⟩

theorem prefix_of_strip_append {suffix : Units} (hne : suffix ≠ []) (h : isPending suffix = true)
    (text : Units) : stripPendingSecretPlaceholderSuffix (text ++ suffix) <+: text := by
  obtain ⟨-, -, -, hfirst⟩ := strip_cases (text ++ suffix)
  exact hfirst text suffix rfl hne h

/-- A `$` that does not stand behind another one is withheld alone. -/
theorem strip_append_dollar {code : ℕ} (h : code ≠ 36) (text : Units) :
    stripPendingSecretPlaceholderSuffix (text ++ [code, 36]) = text ++ [code] := by
  have hfalse : ∀ front : Units, isPending (front ++ [code, 36]) = false := by
    intro front
    rw [Bool.eq_false_iff]
    intro hpending
    rw [isPending.eq_def] at hpending
    split at hpending
    · next heq =>
      have hlength := congrArg List.length heq
      simp only [length_append, length_cons, length_nil] at hlength
      omega
    · next body heq =>
      refine dollar_notMem_pendingBody hpending ?_
      -- the body ends with the `$`, or it is empty and the code is one
      match front with
      | [] =>
        obtain ⟨hcode, -⟩ := List.cons.inj heq
        exact absurd hcode h
      | [first] =>
        obtain ⟨-, heq⟩ := List.cons.inj heq
        exact absurd (List.cons.inj heq).1 h
      | first :: second :: front =>
        obtain ⟨-, heq⟩ := List.cons.inj heq
        obtain ⟨-, heq⟩ := List.cons.inj heq
        rw [← heq]
        simp
    · cases hpending
  induction text with
  | nil =>
    rw [nil_append, stripPendingSecretPlaceholderSuffix, if_neg, nil_append]
    · rfl
    have := hfalse []
    rw [nil_append] at this
    rw [this]
    exact Bool.false_ne_true
  | cons first text ih =>
    have hthis := hfalse (first :: text)
    rw [cons_append] at hthis
    rw [cons_append, stripPendingSecretPlaceholderSuffix, hthis, if_neg Bool.false_ne_true, ih]
    rfl

/-! ### Tokens that are cut -/

theorem endsPending_hint {hint : ℕ} (h : isHintCode hint = true) : endsPending [58, hint] = true := by
  rw [endsPending, h]
  rfl

/-- The body of a token is pending as long as its delimiter is missing. -/
theorem isPendingBody_of_valid (h : validBody body = true) : isPendingBody body = true := by
  -- a body is its front and the hint
  obtain ⟨ending, hends, hbody⟩ : ∃ ending, (ending = [] ∨
      ∃ hint, isHintCode hint = true ∧ ending = [58, hint]) ∧ body = dropHint body ++ ending := by
    rw [dropHint]
    split
    · next hint front heq =>
      split
      · next hhint =>
        refine ⟨[58, hint], .inr ⟨hint, hhint, rfl⟩, ?_⟩
        have := congrArg List.reverse heq
        rw [reverse_reverse, reverse_cons, reverse_cons] at this
        rw [this]
        simp
      · exact ⟨[], .inl rfl, (append_nil _).symm⟩
    · exact ⟨[], .inl rfl, (append_nil _).symm⟩
  have hending : endsPending ending = true ∧ ending.dropWhile isBaseCode = ending := by
    rcases hends with rfl | ⟨hint, hhint, rfl⟩
    · exact ⟨rfl, rfl⟩
    · exact ⟨endsPending_hint hhint, rfl⟩
  have hdrop : ∀ base : Units, base.all isBaseCode = true →
      (base ++ ending).dropWhile isBaseCode = ending := by
    intro base hbase
    rw [dropWhile_append_of_pos (all_eq_true.mp hbase), hending.2]
  rw [validBody] at h
  rw [isPendingBody, Bool.or_eq_true]
  split at h
  · left
    rw [hbody, hdrop _ (Bool.and_eq_true_iff.mp h).2]
    exact hending.1
  next name base hsplit =>
  obtain ⟨hname, hvalid⟩ := Bool.and_eq_true_iff.mp h
  obtain ⟨hnonempty, hall⟩ := Bool.and_eq_true_iff.mp hname
  have hfront : dropHint body = name ++ 95 :: base := by
    rw [splitName] at hsplit
    split at hsplit
    · cases hsplit
    next first rest hrest =>
    cases hsplit
    have hfirst : first = 95 := by
      have hhead := head?_dropWhile_not (fun code => decide (code ≠ 95)) (dropHint body)
      rw [hrest] at hhead
      simpa using hhead
    have hparts := @takeWhile_append_dropWhile _ (fun code => decide (code ≠ 95))
      (dropHint body)
    rw [hrest, hfirst] at hparts
    exact hparts.symm
  have hunder : ¬ isBaseCode 95 = true := by decide
  have hbodydrop : body.dropWhile isBaseCode = 95 :: (base ++ ending) := by
    rw [hbody, hfront, append_assoc, cons_append,
      dropWhile_append_of_pos (all_eq_true.mp hall), dropWhile_cons_of_neg hunder]
  have hbodytake : body.takeWhile isBaseCode = name := by
    rw [hbody, hfront, append_assoc, cons_append,
      takeWhile_append_of_pos (all_eq_true.mp hall), takeWhile_cons_of_neg hunder,
      append_nil]
  right
  rw [hbodydrop, hbodytake]
  simp [hnonempty, hdrop _ (Bool.and_eq_true_iff.mp hvalid).2, hending.1]

theorem length_token (body : Units) : (token body).length = body.length + 4 := by
  simp [token]

theorem dropLast_token (body : Units) : (token body).dropLast = 36 :: 36 :: (body ++ [36]) := by
  have : token body = (36 :: 36 :: (body ++ [36])) ++ [36] := by simp [token]
  rw [this, dropLast_concat]

/-- A part of a token is pending, unless only the last character is missing. -/
theorem isPending_of_cut (hvalid : validBody body = true)
    (hpart : part <+: token body) (hne : part ≠ []) (hfull : part ≠ token body)
    (hlast : part ≠ (token body).dropLast) : isPending part = true := by
  have hbody : isPending (36 :: 36 :: body) = true := isPendingBody_of_valid hvalid
  refine isPending_of_part hbody ?_ hne
  have hlength := hpart.length_le
  rw [length_token] at hlength
  have hshort : part.length ≤ (36 :: 36 :: body).length := by
    by_contra hlong
    rw [length_cons, length_cons] at hlong
    rcases lt_or_ge part.length (body.length + 4) with hlt | hge
    · refine hlast ?_
      have hdrop := dropLast_prefix (l := token body)
      refine (prefix_of_prefix_length_le hpart hdrop ?_).eq_of_length_le ?_
      · rw [length_dropLast, length_token]
        omega
      rw [length_dropLast, length_token]
      omega
    · exact hfull (hpart.eq_of_length (by rw [length_token]; omega))
  refine prefix_of_prefix_length_le hpart ?_ hshort
  exact ⟨[36, 36], by simp [token]⟩

theorem exists_last_of_valid (h : validBody body = true) :
    ∃ front code, body = front ++ [code] := by
  have hne : body ≠ [] := by
    rintro rfl
    cases h
  exact ⟨_, _, (dropLast_append_getLast hne).symm⟩

/-- Without its last character a token is shown up to its delimiter. -/
theorem strip_append_dropLast (hvalid : validBody body = true) (text : Units) :
    stripPendingSecretPlaceholderSuffix (text ++ (token body).dropLast) =
      text ++ 36 :: 36 :: body := by
  have hdollar := dollar_notMem_pendingBody (isPendingBody_of_valid hvalid)
  obtain ⟨front, code, rfl⟩ := exists_last_of_valid hvalid
  have hcode : code ≠ 36 := by
    rintro rfl
    simp at hdollar
  have heq : text ++ (token (front ++ [code])).dropLast =
      (text ++ 36 :: 36 :: front) ++ [code, 36] := by
    rw [dropLast_token]
    simp
  rw [heq, strip_append_dollar hcode]
  simp

/-- A text that `PLACEHOLDER_RE` matches in full. -/
def IsPlaceholder (text : Units) : Prop :=
  ∃ body, validBody body = true ∧ text = token body

/-- A part of a token behind any text is withheld exactly if more than its last character is
missing. -/
theorem strip_placeholderPrefix_iff {placeholder : Units} (h : IsPlaceholder placeholder)
    (hpart : part <+: placeholder) (hne : part ≠ []) (hfull : part ≠ placeholder) (text : Units) :
    stripPendingSecretPlaceholderSuffix (text ++ part) <+: text ↔ part ≠ placeholder.dropLast := by
  obtain ⟨body, hvalid, rfl⟩ := h
  constructor
  · rintro hprefix rfl
    rw [strip_append_dropLast hvalid] at hprefix
    have := hprefix.length_le
    simp only [length_append, length_cons] at this
    omega
  exact fun hlast =>
    prefix_of_strip_append hne (isPending_of_cut hvalid hpart hne hfull hlast) text

end BreadboardTui.Secrets
