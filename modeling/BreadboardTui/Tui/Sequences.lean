import BreadboardTui.Tui.StdinBuffer

/-!
# What is complete stays complete

The extraction of sequences reads from left to right and never looks behind the end of a complete
sequence. So a text may come in pieces: what the first piece has complete is what the whole text
starts with.
-/

namespace BreadboardTui.Tui

open List Option

/-- Whether a character with two units is cut between two texts. -/
def CutsPair (front back : Units) : Prop :=
  ∃ high ∈ front.getLast?, ∃ low ∈ back.head?,
    isHighSurrogate high = true ∧ isLowSurrogate low = true

/-! ### Where a sequence ends -/

variable {taken : ℕ} {isSgrMouse : Bool} {budget : ℕ}

theorem csiEnd_append {seen rest : Units}
    (h : csiEnd isSgrMouse seen budget rest = some taken) (more : Units) :
    csiEnd isSgrMouse seen budget (rest ++ more) = some taken ∧
      taken ≤ seen.length + rest.length := by
  -- on the budget, as the loop goes; each test looks at what was seen, not at what follows
  induction budget generalizing seen rest with
  | zero =>
    rw [csiEnd] at h
    cases h
  | succ budget ih =>
    cases rest with
    | nil => cases h
    | cons =>
      rw [csiEnd] at h
      rw [cons_append, csiEnd]
      split at h
      · next hfinal =>
        rw [if_pos hfinal]
        refine ⟨h, ?_⟩
        rw [← some.inj h, length_cons]
        omega
      next hfinal =>
      rw [if_neg hfinal]
      obtain ⟨hmore, hle⟩ := ih h
      simp only [length_append, length_cons, length_nil] at hle
      refine ⟨hmore, ?_⟩
      rw [length_cons]
      omega

/-- When the budget is spent, it does not matter what follows. -/
theorem csiEnd_none_append {seen rest : Units}
    (h : csiEnd isSgrMouse seen budget rest = none) (hbudget : budget ≤ rest.length)
    (more : Units) : csiEnd isSgrMouse seen budget (rest ++ more) = none := by
  induction budget generalizing seen rest with
  | zero => rw [csiEnd]
  | succ budget ih =>
    cases rest with
    | nil => cases hbudget
    | cons =>
      rw [csiEnd] at h
      rw [cons_append, csiEnd]
      split at h
      · cases h
      next hfinal =>
      rw [if_neg hfinal]
      exact ih h (Nat.le_of_succ_le_succ hbudget)

variable {bell : Bool} {text : Units}

theorem stringEnd_append (h : stringEnd bell text = some taken) (more : Units) :
    stringEnd bell (text ++ more) = some taken ∧ 0 < taken ∧ taken ≤ text.length := by
  induction text generalizing taken with
  | nil => cases h
  | cons code rest ih =>
    rw [stringEnd] at h
    rw [cons_append, stringEnd]
    split at h
    · next hbell =>
      rw [if_pos hbell, ← some.inj h]
      exact ⟨rfl, Nat.one_pos, Nat.succ_pos _⟩
    next hbell =>
    rw [if_neg hbell]
    split at h
    · next hst =>
      cases rest with
      | nil => cases hst.2
      | cons =>
        rw [cons_append, head?_cons, if_pos (by exact hst), ← some.inj h]
        exact ⟨rfl, two_pos, by simp only [length_cons]; omega⟩
    next hst =>
    obtain ⟨before, hbefore, rfl⟩ := map_eq_some_iff.mp h
    obtain ⟨hmore, -, hle⟩ := ih hbefore
    -- an ESC that is last has no terminator behind it yet, and none was found there
    cases rest with
    | nil => cases hbefore
    | cons =>
      rw [cons_append, head?_cons] at *
      rw [if_neg hst, hmore]
      exact ⟨rfl, Nat.succ_pos _, Nat.succ_le_succ hle⟩

/-- The terminator of a string is looked for from its last unit on, when there is none before. -/
theorem stringEnd_resume (h : stringEnd bell text = none) (more : Units) :
    stringEnd bell (text ++ more) =
      (stringEnd bell (text.drop (text.length - 1) ++ more)).map (· + (text.length - 1)) := by
  induction text with
  | nil => exact (map_id_apply).symm
  | cons code rest ih =>
    rw [stringEnd] at h
    split at h
    · cases h
    next hbell =>
    split at h
    · cases h
    next hst =>
    cases rest with
    | nil => simp
    | cons next rest =>
      have hlength : (code :: next :: rest).length - 1 = (next :: rest).length - 1 + 1 := by
        simp only [length_cons]
        omega
      rw [cons_append, stringEnd, if_neg hbell, cons_append, head?_cons,
        if_neg (by exact hst), ← cons_append, ih (map_eq_none_iff.mp h), hlength,
        drop_succ_cons, Option.map_map]
      rfl

variable {buffer : Units} {resolved : Resolved}

theorem bounds_complete {n : ℕ} (h : .complete n = resolved) (hle : n ≤ buffer.length) :
    .complete n = resolved ∧ (∀ taken, resolved = .complete taken → taken ≤ buffer.length) ∧
      (resolved = .capped → maxCsiBytes ≤ buffer.length) := by
  subst h
  exact ⟨rfl, by rintro taken ⟨⟩; exact hle, nofun⟩

theorem bounds_capped (h : .capped = resolved) (hle : maxCsiBytes ≤ buffer.length) :
    .capped = resolved ∧ (∀ taken, resolved = .complete taken → taken ≤ buffer.length) ∧
      (resolved = .capped → maxCsiBytes ≤ buffer.length) := by
  subst h
  exact ⟨rfl, nofun, fun _ => hle⟩

theorem resolveCsi_append (h : resolveCsi buffer = resolved)
    (hresolved : resolved ≠ .incomplete) (more : Units) :
    resolveCsi (buffer ++ more) = resolved ∧
      (∀ taken, resolved = .complete taken → taken ≤ buffer.length) ∧
      (resolved = .capped → maxCsiBytes ≤ buffer.length) := by
  rw [resolveCsi] at h
  split at h
  · exact absurd h.symm hresolved
  next third rest hdrop =>
  have hlength := congrArg List.length hdrop
  rw [length_drop, length_cons] at hlength
  have hmore : (buffer ++ more).drop 2 = third :: (rest ++ more) := by
    rw [drop_append_of_le_length (by omega), hdrop, cons_append]
  rw [resolveCsi, hmore]
  dsimp only
  split at h
  · next hmouse =>
    rw [if_pos hmouse]
    split at h
    · next hsix =>
      rw [if_pos (by rw [length_append]; omega)]
      exact bounds_complete h (by omega)
    · exact absurd h.symm hresolved
  next hmouse =>
  rw [if_neg hmouse]
  split at h
  · next hend =>
    obtain ⟨hend', hle⟩ := csiEnd_append hend more
    rw [cons_append] at hend'
    rw [hend']
    refine bounds_complete h ?_
    rw [length_nil, length_cons] at hle
    omega
  next hend =>
  split at h
  · next hcap =>
    have hend' := csiEnd_none_append hend (by rw [length_cons]; omega) more
    rw [cons_append] at hend'
    rw [hend']
    rw [if_pos (by rw [length_append]; omega)]
    exact bounds_capped h hcap
  · exact absurd h.symm hresolved

variable {hint : ℕ}

theorem resolveString_append
    (h : resolveString bell buffer hint = resolved) (hresolved : resolved ≠ .incomplete)
    (more : Units) :
    resolveString bell (buffer ++ more) hint = resolved ∧
      (∀ taken, resolved = .complete taken → taken ≤ buffer.length) ∧
      (resolved = .capped → maxCsiBytes ≤ buffer.length) := by
  rw [resolveString] at h
  rw [resolveString]
  generalize max 2 (hint - 1) = searchFrom at h ⊢
  -- what follows is behind the part that is searched, up to the cap
  rw [take_append, drop_append]
  split at h
  · next hend =>
    obtain ⟨hend', hpos, hle⟩ := stringEnd_append hend
      ((more.take (maxStringSeqBytes - buffer.length)).drop
        (searchFrom - (buffer.take maxStringSeqBytes).length))
    rw [hend']
    refine bounds_complete h ?_
    rw [length_drop, length_take] at hle
    omega
  next hend =>
  split at h
  · next hcap =>
    have hcaps : maxCsiBytes ≤ maxStringSeqBytes := by decide
    rw [Nat.sub_eq_zero_of_le hcap, take_zero, drop_nil, append_nil, hend]
    rw [if_pos (by rw [length_append]; omega)]
    exact bounds_capped h (by omega)
  · exact absurd h.symm hresolved

theorem resolveEscapeEnd_append
    (h : resolveEscapeEnd buffer hint = resolved) (hresolved : resolved ≠ .incomplete)
    (more : Units) :
    resolveEscapeEnd (buffer ++ more) hint = resolved ∧
      (∀ taken, resolved = .complete taken → taken ≤ buffer.length) ∧
      (resolved = .capped → maxCsiBytes ≤ buffer.length) := by
  unfold resolveEscapeEnd at h
  split at h
  · exact absurd h.symm hresolved
  · exact absurd h.symm hresolved
  next code next rest =>
  have hcons : code :: next :: rest ++ more = code :: next :: (rest ++ more) := rfl
  rw [hcons]
  unfold resolveEscapeEnd
  dsimp only
  split at h
  · exact absurd h.symm hresolved
  next hesc =>
  rw [if_neg hesc]
  split at h
  · next hcsi =>
    rw [if_pos hcsi, ← hcons]
    exact resolveCsi_append h hresolved more
  next hcsi =>
  rw [if_neg hcsi]
  split at h
  · next hosc =>
    rw [if_pos hosc, ← hcons]
    exact resolveString_append h hresolved more
  next hosc =>
  rw [if_neg hosc]
  split at h
  · next hdcs =>
    rw [if_pos hdcs, ← hcons]
    exact resolveString_append h hresolved more
  next hdcs =>
  rw [if_neg hdcs]
  split at h
  · next hss =>
    rw [if_pos hss]
    split at h
    · next hthree =>
      rw [if_pos (by rw [← hcons, length_append]; omega)]
      exact bounds_complete h (by omega)
    · exact absurd h.symm hresolved
  next hss =>
  rw [if_neg hss]
  refine bounds_complete h ?_
  simp only [length_cons]
  omega

/-! ### A step -/

variable {step : Step}

theorem emits_of_eq {emitted : List Units} {n bound : ℕ}
    (h : .emit emitted n = step) (hle : n ≤ bound) (hflatten : emitted.flatten = buffer.take n) :
    .emit emitted n = step ∧ ∀ sequences taken, step = .emit sequences taken →
      taken ≤ bound ∧ sequences.flatten = buffer.take taken := by
  subst h
  exact ⟨rfl, by rintro sequences taken ⟨⟩; exact ⟨hle, hflatten⟩⟩

/-- A step that emits is the same when more follows, takes no more than there is, and emits what it
takes. -/
theorem singleEscape_append
    (h : singleEscape buffer hint = step) (hstep : step ≠ .hold) (more : Units) :
    singleEscape (buffer ++ more) hint = step ∧
      ∀ sequences taken, step = .emit sequences taken →
        taken ≤ buffer.length ∧ sequences.flatten = buffer.take taken := by
  rw [singleEscape] at h
  rw [singleEscape]
  split at h
  · exact absurd h.symm hstep
  · next hresolved =>
    obtain ⟨hmore, -, hcap⟩ := resolveEscapeEnd_append hresolved (by decide) more
    have hcap := hcap rfl
    have hmax : 2 ≤ maxCsiBytes := by decide
    have htype : isStringType (buffer ++ more) = isStringType buffer := by
      rw [isStringType, isStringType, getElem?_append_left (by omega)]
    rw [hmore]
    rw [htype]
    split at h
    · next hstring =>
      rw [if_pos hstring]
      refine ⟨h, fun sequences taken hemit => ?_⟩
      rw [hemit] at h
      cases h
    next hstring =>
    rw [if_neg hstring, take_append_of_le_length hcap]
    exact emits_of_eq h hcap flatten_singleton
  next taken hresolved =>
  obtain ⟨hmore, hle, -⟩ := resolveEscapeEnd_append hresolved (by simp) more
  have hle := hle taken rfl
  rw [hmore]
  dsimp only
  rw [take_append_of_le_length hle]
  exact emits_of_eq h hle flatten_singleton

/-- The introducer `ESC [` alone is not complete. -/
theorem three_le_of_csi
    (h : resolveEscapeEnd buffer hint = .complete taken) (hcsi : buffer[1]? = some 0x5b) :
    3 ≤ buffer.length := by
  match buffer with
  | [] => cases hcsi
  | [_] => cases hcsi
  | [code, next] =>
    obtain rfl : next = 0x5b := some.inj hcsi
    cases h
  | _ :: _ :: _ :: _ =>
    simp only [length_cons]
    omega

theorem doubleEscape_append {inner : Units} (h : doubleEscape inner = step)
    (hstep : step ≠ .hold) (more : Units) : doubleEscape (inner ++ more) = step ∧
      ∀ sequences taken, step = .emit sequences taken →
        taken ≤ inner.length + 1 ∧ sequences.flatten = (esc :: inner).take taken := by
  rw [doubleEscape] at h
  rw [doubleEscape]
  split at h
  · exact absurd h.symm hstep
  next third hthird =>
  have hlength : 1 < inner.length := (List.getElem?_eq_some_iff.mp hthird).1
  rw [getElem?_append_left hlength, hthird]
  dsimp only
  split at h
  · next hplain =>
    rw [if_pos hplain]
    exact emits_of_eq h (Nat.succ_le_succ (Nat.zero_le _)) rfl
  next hplain =>
  rw [if_neg hplain]
  split at h
  · exact absurd h.symm hstep
  · next hresolved =>
    obtain ⟨hmore, -, hcap⟩ := resolveEscapeEnd_append hresolved (by decide) more
    have hle : maxCsiBytes ≤ (esc :: inner).length := Nat.le_succ_of_le (hcap rfl)
    rw [hmore]
    rw [← cons_append, take_append_of_le_length hle]
    exact emits_of_eq h hle flatten_singleton
  next taken hresolved =>
  obtain ⟨hmore, hle, -⟩ := resolveEscapeEnd_append hresolved (by simp) more
  have hle := hle taken rfl
  -- what decides whether this is a mouse report is in the buffer
  have hmouse : third = 0x5b ∧ (inner ++ more)[2]? = some 0x3c ↔
      third = 0x5b ∧ inner[2]? = some 0x3c := by
    refine and_congr_right fun hcsi => ?_
    rw [hcsi] at hthird
    rw [getElem?_append_left (three_le_of_csi hresolved hthird)]
  rw [hmore]
  dsimp only
  rw [take_append_of_le_length hle]
  split at h
  · next hsgr =>
    rw [if_pos (hmouse.mpr hsgr)]
    refine emits_of_eq h (Nat.succ_le_succ hle) ?_
    rw [flatten_cons, flatten_singleton, take_succ_cons]
    rfl
  next hsgr =>
  rw [if_neg (mt hmouse.mp hsgr)]
  refine emits_of_eq h (Nat.succ_le_succ hle) ?_
  rw [flatten_singleton, take_succ_cons]

theorem charLength_le (h : text ≠ []) : charLength text ≤ text.length := by
  unfold charLength
  split
  · split
    · exact Nat.succ_le_succ (Nat.succ_le_succ (Nat.zero_le _))
    · exact Nat.succ_le_succ (Nat.zero_le _)
  · exact length_pos_iff.mpr h

variable {more : Units}

theorem charLength_append (h : text ≠ []) (hcut : ¬CutsPair text more) :
    charLength (text ++ more) = charLength text := by
  match text with
  | [] => exact absurd rfl h
  | [high] =>
    cases more with
    | nil => rfl
    | cons low =>
      refine if_neg fun hpair => hcut ?_
      rw [Bool.and_eq_true] at hpair
      exact ⟨high, rfl, low, rfl, hpair⟩
  | high :: low :: rest => rfl

/-- A step that emits or discards is the same when more follows, takes no more than there is, and
emits what it takes. -/
theorem nextStep_append
    (h : nextStep buffer hint = step) (hstep : step ≠ .hold) (hcut : ¬CutsPair buffer more) :
    nextStep (buffer ++ more) hint = step ∧
      ∀ sequences taken, step = .emit sequences taken →
        taken ≤ buffer.length ∧ sequences.flatten = buffer.take taken := by
  cases buffer with
  | nil => exact absurd h.symm hstep
  | cons code inner =>
    have hne : code :: inner ≠ [] := cons_ne_nil _ _
    rw [nextStep] at h
    rw [cons_append, nextStep, ← cons_append]
    split at h
    · next hplain =>
      have hle := charLength_le hne
      rw [if_pos hplain, charLength_append hne hcut, take_append_of_le_length hle]
      exact emits_of_eq h hle flatten_singleton
    next hesc =>
    rw [not_not] at hesc
    subst hesc
    rw [if_neg (not_not.mpr rfl)]
    cases inner with
    | nil =>
      rw [if_neg (by simp)] at h
      exact absurd h.symm hstep
    | cons next inner =>
      have hhead : (next :: inner ++ more).head? = (next :: inner).head? := rfl
      rw [hhead]
      split at h
      · next hdouble =>
        rw [if_pos hdouble]
        exact doubleEscape_append h hstep more
      next hdouble =>
      rw [if_neg hdouble]
      exact singleEscape_append h hstep more

/-! ### A text in two pieces -/

/-- The sequences of a text, and what is left. -/
def split (text : Units) : Extracted := extractLoop false text 0

theorem split_nil : split [] = { sequences := [] } := by
  rw [split, extractLoop, if_pos rfl]

theorem split_of_hold (h : nextStep text 0 = .hold) :
    split text = { sequences := [], remainder := text } := by
  rw [split, extractLoop]
  split
  · next hnil => rw [hnil]
  split
  · rfl
  · next hother => rw [h] at hother; cases hother
  · next hother => rw [h] at hother; cases hother

theorem split_of_discard (h : nextStep text 0 = .discard) :
    split text = { sequences := [], discardFrom := some text } := by
  have hne : text ≠ [] := by
    rintro rfl
    cases h
  rw [split, extractLoop, if_neg hne]
  split
  · next hother => rw [h] at hother; cases hother
  · rfl
  · next hother => rw [h] at hother; cases hother

/-- Sequences in front of what is extracted. -/
def Extracted.after (e : Extracted) (sequences : List Units) : Extracted :=
  { e with sequences := sequences ++ e.sequences }

theorem split_of_emit {sequences : List Units} (h : nextStep text 0 = .emit sequences taken) :
    split text = (split (text.drop taken)).after sequences := by
  have hne : text ≠ [] := by
    rintro rfl
    cases h
  rw [split, extractLoop, if_neg hne]
  split
  · next hother => rw [h] at hother; cases hother
  · next hother => rw [h] at hother; cases hother
  next hother =>
  rw [h] at hother
  cases hother
  rfl

/-- Along the steps of `split`. -/
@[elab_as_elim]
theorem split_induction {motive : Units → Prop}
    (hold : ∀ text, nextStep text 0 = .hold → motive text)
    (discard : ∀ text, nextStep text 0 = .discard → motive text)
    (emit : ∀ text sequences taken, nextStep text 0 = .emit sequences taken →
      motive (text.drop taken) → motive text) (text : Units) : motive text := by
  induction hlength : text.length using Nat.strong_induction_on generalizing text with
  | _ length ih =>
    cases hstep : nextStep text 0 with
    | hold => exact hold text hstep
    | discard => exact discard text hstep
    | emit sequences taken =>
      have hpos := nextStep_pos hstep
      have htext : 0 < text.length := length_pos_iff.mpr (by rintro rfl; cases hstep)
      refine emit text sequences taken hstep (ih _ ?_ _ rfl)
      rw [length_drop]
      omega

/-- There is no hint behind the start of a buffer. -/
theorem split_resume (text : Units) : (split text).resumeSearchFrom = 0 ∨
      (split text).resumeSearchFrom = (split text).remainder.length := by
  induction text using split_induction with
  | hold text hstep =>
    rw [split_of_hold hstep]
    exact .inl rfl
  | discard text hstep =>
    rw [split_of_discard hstep]
    exact .inl rfl
  | emit text sequences taken hstep ih =>
    rw [split_of_emit hstep]
    exact ih

theorem CutsPair.of_drop (h : CutsPair (text.drop taken) more) : CutsPair text more := by
  obtain ⟨high, hhigh, low, hlow, hpair⟩ := h
  refine ⟨high, ?_, low, hlow, hpair⟩
  rw [getLast?_drop] at hhigh
  split at hhigh
  · cases hhigh
  · exact hhigh

theorem CutsPair.append_left (h : CutsPair text more) (front : Units) :
    CutsPair (front ++ text) more := by
  have hdrop : text = (front ++ text).drop front.length := drop_left.symm
  rw [hdrop] at h
  exact h.of_drop

/-- What the first piece has complete is what the whole starts with. -/
theorem split_append (hdiscard : (split text).discardFrom = none) (hcut : ¬CutsPair text more) :
    split (text ++ more) =
      (split ((split text).remainder ++ more)).after (split text).sequences := by
  induction text using split_induction with
  | hold text hstep =>
    rw [split_of_hold hstep]
    rfl
  | discard text hstep =>
    rw [split_of_discard hstep] at hdiscard
    cases hdiscard
  | emit text sequences taken hstep ih =>
    -- a step that emits does so in the whole text, and the rest is a shorter first piece
    obtain ⟨hmore, hemit⟩ := nextStep_append hstep (by simp) hcut
    obtain ⟨hle, -⟩ := hemit sequences taken rfl
    rw [split_of_emit hstep] at hdiscard
    rw [split_of_emit hmore, split_of_emit hstep, drop_append_of_le_length hle,
      ih hdiscard (mt CutsPair.of_drop hcut)]
    simp [Extracted.after]

theorem split_discard_of_append
    (hdiscard : (split (text ++ more)).discardFrom = none) (hcut : ¬CutsPair text more) :
    (split text).discardFrom = none := by
  induction text using split_induction with
  | hold text hstep => rw [split_of_hold hstep]
  | discard text hstep =>
    obtain ⟨hmore, -⟩ := nextStep_append hstep (by simp) hcut
    rw [split_of_discard hmore] at hdiscard
    cases hdiscard
  | emit text sequences taken hstep ih =>
    obtain ⟨hmore, hemit⟩ := nextStep_append hstep (by simp) hcut
    obtain ⟨hle, -⟩ := hemit sequences taken rfl
    rw [split_of_emit hmore, drop_append_of_le_length hle] at hdiscard
    rw [split_of_emit hstep]
    exact ih hdiscard (mt CutsPair.of_drop hcut)

/-- No unit is lost, and what is left has no complete sequence. -/
theorem split_input (hdiscard : (split text).discardFrom = none) :
    (split text).sequences.flatten ++ (split text).remainder = text ∧
      nextStep (split text).remainder 0 = .hold := by
  induction text using split_induction with
  | hold text hstep =>
    rw [split_of_hold hstep]
    exact ⟨rfl, hstep⟩
  | discard text hstep =>
    rw [split_of_discard hstep] at hdiscard
    cases hdiscard
  | emit text sequences taken hstep ih =>
    have hnil : ¬CutsPair text [] := by
      rintro ⟨_, _, _, hlow, _⟩
      cases hlow
    obtain ⟨-, hemit⟩ := nextStep_append hstep (by simp) hnil
    obtain ⟨hle, hflatten⟩ := hemit sequences taken rfl
    rw [split_of_emit hstep] at hdiscard ⊢
    obtain ⟨hinput, hhold⟩ := ih hdiscard
    refine ⟨?_, hhold⟩
    show (sequences ++ (split (text.drop taken)).sequences).flatten ++
      (split (text.drop taken)).remainder = text
    rw [flatten_append, hflatten, append_assoc, hinput, take_append_drop]

/-! ### Where the next search starts -/

variable {held : Units}

/-- A string that was looked through is not looked through again. -/
theorem resolveString_resume (hlength : 2 ≤ held.length)
    (h : resolveString bell held 0 = .incomplete) (more : Units) :
    resolveString bell (held ++ more) held.length = resolveString bell (held ++ more) 0 := by
  rw [resolveString] at h
  split at h
  · cases h
  next hnone =>
  split at h
  · cases h
  next hcap =>
  -- the search starts at the last unit of what is held, where there was no terminator
  have htake : held.take maxStringSeqBytes = held := take_of_length_le (by omega)
  have hstart : max 2 (0 - 1) = 2 := rfl
  have hsearch : max 2 (held.length - 1) = 2 + ((held.drop 2).length - 1) := by
    rw [length_drop]
    omega
  have hwithin : (held.drop 2).length - 1 ≤ (held.drop 2).length := Nat.sub_le _ _
  rw [hstart, htake] at hnone
  rw [resolveString, resolveString, hstart, hsearch, take_append, htake,
    ← drop_drop, drop_append_of_le_length hlength,
    drop_append_of_le_length hwithin, stringEnd_resume hnone]
  cases stringEnd bell ((held.drop 2).drop ((held.drop 2).length - 1) ++
      more.take (maxStringSeqBytes - held.length)) with
  | none => rfl
  | some taken =>
    refine congrArg Resolved.complete ?_
    show 2 + ((held.drop 2).length - 1) + taken = 2 + (taken + ((held.drop 2).length - 1))
    omega

theorem nextStep_resume (h : nextStep held 0 = .hold) (more : Units) :
    nextStep (held ++ more) held.length = nextStep (held ++ more) 0 := by
  match held with
  | [] => rfl
  | [code] => cases more <;> rfl
  | code :: next :: inner =>
    rw [nextStep] at h
    split at h
    · cases h
    next hesc =>
    rw [cons_append, nextStep, nextStep, if_neg hesc, if_neg hesc]
    split at h
    · next hdouble =>
      have hhead : (next :: inner ++ more).head? = (next :: inner).head? := rfl
      rw [hhead, if_pos hdouble, if_pos hdouble]
    next hdouble =>
    have hhead : (next :: inner ++ more).head? = (next :: inner).head? := rfl
    -- only a string looks at the hint
    rw [hhead, if_neg hdouble, if_neg hdouble, singleEscape, singleEscape]
    suffices hresolved : resolveEscapeEnd (code :: (next :: inner ++ more))
        (code :: next :: inner).length =
          resolveEscapeEnd (code :: (next :: inner ++ more)) 0 by
      rw [hresolved]
    have hincomplete : resolveEscapeEnd (code :: next :: inner) 0 = .incomplete := by
      rw [singleEscape] at h
      split at h
      · assumption
      · split at h
        · cases h
        · cases h
      · cases h
    have htwo : 2 ≤ (code :: next :: inner).length := by
      simp only [length_cons]
      omega
    rw [← cons_append]
    unfold resolveEscapeEnd at hincomplete ⊢
    dsimp only [cons_append] at hincomplete ⊢
    split
    · rfl
    next hnext =>
    rw [if_neg hnext] at hincomplete
    split
    · rfl
    next hcsi =>
    rw [if_neg hcsi] at hincomplete
    split
    · next hosc =>
      rw [if_pos hosc] at hincomplete
      exact resolveString_resume htwo hincomplete more
    next hosc =>
    rw [if_neg hosc] at hincomplete
    split
    · next hdcs =>
      rw [if_pos hdcs] at hincomplete
      exact resolveString_resume htwo hincomplete more
    · rfl

/-- The hint does not change what is extracted, and the new one is on what is left. -/
theorem extractLoop_eq (first : Bool) (h : nextStep buffer hint = nextStep buffer 0) :
    ∃ resume, extractLoop first buffer hint = { split buffer with resumeSearchFrom := resume } ∧
      (resume = 0 ∨ resume = (split buffer).remainder.length) := by
  by_cases hnil : buffer = []
  · rw [hnil, split_nil, extractLoop, if_pos rfl]
    exact ⟨0, rfl, .inl rfl⟩
  rw [extractLoop, if_neg hnil]
  split
  · next hstep =>
    rw [split_of_hold (h.symm.trans hstep)]
    refine ⟨_, rfl, ?_⟩
    split
    · exact .inr rfl
    · exact .inl rfl
  · next hstep =>
    rw [split_of_discard (h.symm.trans hstep)]
    exact ⟨0, rfl, .inl rfl⟩
  next taken hstep =>
  rw [split_of_emit (h.symm.trans hstep)]
  refine ⟨(split (buffer.drop taken)).resumeSearchFrom, rfl, ?_⟩
  exact split_resume (buffer.drop taken)

theorem extractCompleteSequences_eq (hheld : nextStep held 0 = .hold)
    (hhint : hint = 0 ∨ hint = held.length) (more : Units) :
    ∃ resume, extractCompleteSequences (held ++ more) hint =
        { split (held ++ more) with resumeSearchFrom := resume } ∧
      (resume = 0 ∨ resume = (split (held ++ more)).remainder.length) := by
  obtain rfl | rfl := hhint
  · exact extractLoop_eq true rfl
  · exact extractLoop_eq true (nextStep_resume hheld more)

end BreadboardTui.Tui
