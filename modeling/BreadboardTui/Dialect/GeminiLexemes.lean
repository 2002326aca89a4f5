import BreadboardTui.Dialect.Gemini
import BreadboardTui.Lib.Blocks

/-!
# Reading what was rendered

A rendered value is a sequence of literals of `pyString` and of units that are neither quotes nor
`#`, with no two literals next to each other. Such a text is taken apart as it was put together, so
the loops of the reader are followed on its lexemes.
-/

namespace BreadboardTui.Gemini

open List

open Hashline (Units units isDigitCode isTrimmedCode trim)

/-! ### Literals -/

/-- What `pyString` writes for a unit. -/
def escapeUnit (code : ℕ) : Units :=
  if code = 92 then [92, 92]
  else if code = 34 then [92, 34]
  else if code = 10 then [92, 110]
  else if code = 13 then [92, 114]
  else if code = 9 then [92, 116]
  else [code]

def escape (value : Units) : Units := value.flatMap escapeUnit

variable (value : Units)

theorem pyString_eq : pyString value = 34 :: escape value ++ [34] := by
  have hunit : ∀ code, (((([code].flatMap fun c => if c = 92 then [92, 92] else [c]).flatMap
      fun c => if c = 34 then [92, 34] else [c]).flatMap
      fun c => if c = 10 then [92, 110] else [c]).flatMap
      fun c => if c = 13 then [92, 114] else [c]).flatMap
      (fun c => if c = 9 then [92, 116] else [c]) = escapeUnit code := by
    intro code
    by_cases h92 : code = 92
    · subst h92; rfl
    by_cases h34 : code = 34
    · subst h34; rfl
    by_cases h10 : code = 10
    · subst h10; rfl
    by_cases h13 : code = 13
    · subst h13; rfl
    by_cases h9 : code = 9
    · subst h9; rfl
    simp [escapeUnit, h92, h34, h10, h13, h9]
  have hescape : replaceUnit 9 (units "\\t") (replaceUnit 13 (units "\\r")
      (replaceUnit 10 (units "\\n") (replaceUnit 34 (units "\\\"")
        (replaceUnit 92 (units "\\\\") value)))) = escape value := by
    rw [escape]
    induction value with
    | nil => rfl
    | cons code value ih =>
      rw [flatMap_cons, ← ih, ← hunit code]
      simp only [replaceUnit, flatMap_cons, flatMap_nil, append_nil, flatMap_append]
      rfl
  rw [pyString, hescape]

/-- Either a unit is escaped, or it is kept and is neither a quote nor a backslash. -/
theorem escapeUnit_cases (code : ℕ) : (∃ next, escapeUnit code = [92, next] ∧ next ≠ 96 ∧
      ∀ rest, escapeAt (next :: rest) = some ([code], 1)) ∨
    (escapeUnit code = [code] ∧ code ≠ 92 ∧ code ≠ 34) := by
  rw [escapeUnit]
  split
  · next h => exact .inl ⟨92, rfl, by decide, fun rest => by rw [h]; rfl⟩
  split
  · next h => exact .inl ⟨34, rfl, by decide, fun rest => by rw [h]; rfl⟩
  split
  · next h => exact .inl ⟨110, rfl, by decide, fun rest => by rw [h]; rfl⟩
  split
  · next h => exact .inl ⟨114, rfl, by decide, fun rest => by rw [h]; rfl⟩
  split
  · next h => exact .inl ⟨116, rfl, by decide, fun rest => by rw [h]; rfl⟩
  · next h92 h34 _ _ _ => exact .inr ⟨rfl, h92, h34⟩

theorem escape_cons (code : ℕ) (value : Units) :
    escape (code :: value) = escapeUnit code ++ escape value := flatMap_cons

variable {rest : Units} {code : ℕ}

theorem skipQuoted_cons {quote : ℕ} (hcode : code ≠ 92) (hquote : code ≠ quote)
    (hrest : rest ≠ []) : skipQuoted quote (code :: rest) = 1 + skipQuoted quote rest := by
  cases rest with
  | nil => exact absurd rfl hrest
  | cons => rw [skipQuoted, if_neg hcode, if_neg hquote]

theorem skipQuoted_escape (value rest : Units) :
    skipQuoted 34 (escape value ++ 34 :: rest) = (escape value).length + 1 := by
  induction value with
  | nil => cases rest <;> rfl
  | cons code value ih =>
    have hne : escape value ++ 34 :: rest ≠ [] := by simp
    rw [escape_cons, append_assoc]
    rcases escapeUnit_cases code with ⟨next, heq, -⟩ | ⟨heq, h92, h34⟩
    · rw [heq, cons_append, cons_append, nil_append, skipQuoted, if_pos rfl, ih]
      simp only [length_append, length_cons, length_nil]
      omega
    rw [heq, singleton_append, skipQuoted_cons h92 h34 hne, ih]
    simp only [length_append, length_cons, length_nil]
    omega

theorem skipString_escape (hrest : rest.head? ≠ some 34) :
    skipString 34 (escape value ++ 34 :: rest) = (escape value).length + 1 := by
  have hsimple : [34, 34].isPrefixOf (escape value ++ 34 :: rest) = false := by
    cases value with
    | nil =>
      cases rest with
      | nil => rfl
      | cons code =>
        have hcode : code ≠ 34 := fun h => hrest (by rw [h]; rfl)
        simpa [escape, List.isPrefixOf] using hcode.symm
    | cons code =>
      rw [escape_cons, append_assoc]
      rcases escapeUnit_cases code with ⟨next, heq, -⟩ | ⟨heq, -, h34⟩
      · rw [heq]; rfl
      rw [heq, singleton_append]
      simp [List.isPrefixOf, Ne.symm h34]
  rw [skipString, hsimple, if_neg Bool.false_ne_true, skipQuoted_escape]

theorem lexemes_pyString (hrest : rest.head? ≠ some 34) :
    lexemes (pyString value ++ rest) = .string (pyString value) :: lexemes rest := by
  have hlength : (escape value).length + 1 = (escape value ++ [34]).length := by simp
  rw [pyString_eq, cons_append, cons_append, lexemes, if_pos (by rfl),
    append_assoc, singleton_append, skipString_escape value hrest,
    show escape value ++ 34 :: rest = (escape value ++ [34]) ++ rest by simp, hlength,
    take_left, drop_left]

theorem unescapeFrom_escape : unescapeFrom (escape value) = some value := by
  induction value with
  | nil => rw [escape, flatMap_nil, unescapeFrom]
  | cons code value ih =>
    rw [escape_cons]
    rcases escapeUnit_cases code with ⟨next, heq, -, hat⟩ | ⟨heq, h92, -⟩
    · rw [heq, cons_append, singleton_append, unescapeFrom, if_pos rfl, hat]
      simp only [drop_succ_cons, drop_zero, ih]
      rfl
    rw [heq, singleton_append, unescapeFrom, if_neg h92, ih]
    rfl

theorem unescapeFrom_of_notMem {s : Units} (h : 92 ∉ s) : unescapeFrom s = some s := by
  induction s with
  | nil => rw [unescapeFrom]
  | cons code s ih =>
    rw [mem_cons, not_or] at h
    rw [unescapeFrom, if_neg (Ne.symm h.1), ih h.2]
    rfl

theorem unescapePythonString_escape : unescapePythonString (escape value) = some value := by
  rw [unescapePythonString]
  split
  · exact unescapeFrom_escape value
  next h =>
  have hnot : 92 ∉ escape value := by simpa using h
  rw [← unescapeFrom_of_notMem hnot, unescapeFrom_escape]

theorem stringPrefixLength_quote (t : Units) : stringPrefixLength (34 :: t) = some 0 := by
  cases t with
  | nil => rfl
  | cons => simp [stringPrefixLength, stringPrefixes, units, lowerUnit, isQuote]

/-- A text that begins with another unit is no literal. -/
theorem stringPrefixLength_cons (hquote : isQuote code = false)
    (hcode : lowerUnit code ∉ [114, 117, 98]) (t : Units) :
    stringPrefixLength (code :: t) = none := by
  rw [mem_cons, mem_cons, mem_singleton, not_or, not_or] at hcode
  obtain ⟨hr, hu, hb⟩ := hcode
  cases t with
  | nil => simp [stringPrefixLength, stringPrefixes, units, hquote]
  | cons => simp [stringPrefixLength, stringPrefixes, units, hquote, hr, hu, hb]

theorem decodeString_pyString : decodeString (pyString value) = some value := by
  have htriple : ¬ [34, 34] <+: escape value ++ [34] := by
    intro hprefix
    cases value with
    | nil => exact absurd hprefix (by decide)
    | cons code =>
      rw [escape_cons] at hprefix
      rcases escapeUnit_cases code with ⟨next, heq, -⟩ | ⟨heq, -, h34⟩
      · rw [heq, cons_append, cons_append, cons_prefix_cons] at hprefix
        exact absurd hprefix.1 (by decide)
      rw [heq, append_assoc, singleton_append, cons_prefix_cons] at hprefix
      exact h34 hprefix.1.symm
  have hsuffix : [34].isSuffixOf (34 :: (escape value ++ [34])) = true := by
    rw [isSuffixOf_iff_suffix, ← cons_append]
    exact suffix_append _ _
  have hinner : ((34 :: (escape value ++ [34])).take ((escape value).length + 1)).drop 1 =
      escape value := by simp
  rw [pyString_eq, cons_append, decodeString, stringPrefixLength_quote]
  simpa [htriple, hsuffix, hinner] using unescapePythonString_escape value

/-! ### Lexemes -/

@[simp] theorem textOf_nil : textOf [] = [] := rfl

@[simp] theorem textOf_cons (l : Lexeme) (ls : List Lexeme) :
    textOf (l :: ls) = l.text ++ textOf ls := flatMap_cons

@[simp] theorem textOf_append (ls ls' : List Lexeme) :
    textOf (ls ++ ls') = textOf ls ++ textOf ls' := flatMap_append

/-- Literals that were rendered and other units, with no two literals in a row. -/
def Tidy : List Lexeme → Prop
  | [] => True
  | .unit code :: ls => isQuote code = false ∧ code ≠ 35 ∧ Tidy ls
  | .string text :: ls =>
    (∃ value, text = pyString value) ∧ (textOf ls).head? ≠ some 34 ∧ Tidy ls
  | .comment _ :: _ => False

variable {ls : List Lexeme}

theorem lexemes_textOf (h : Tidy ls) : lexemes (textOf ls) = ls := by
  induction ls with
  | nil => rw [textOf_nil, lexemes]
  | cons l ls ih =>
    cases l with
    | comment => exact h.elim
    | unit =>
      obtain ⟨hquote, hcomment, htidy⟩ := h
      rw [textOf_cons, Lexeme.text, singleton_append, lexemes, hquote,
        if_neg Bool.false_ne_true, if_neg hcomment, ih htidy]
    | string =>
      obtain ⟨⟨value, rfl⟩, hhead, htidy⟩ := h
      rw [textOf_cons, Lexeme.text, lexemes_pyString value hhead, ih htidy]

theorem Tidy.append_unit {ls' : List Lexeme} (h : Tidy ls)
    (hquote : isQuote code = false) (hcomment : code ≠ 35) (h' : Tidy ls') :
    Tidy (ls ++ .unit code :: ls') := by
  have hcode : code ≠ 34 := by
    rintro rfl
    exact Bool.noConfusion hquote
  induction ls with
  | nil => exact ⟨hquote, hcomment, h'⟩
  | cons l ls ih =>
    cases l with
    | comment => exact h.elim
    | unit => exact ⟨h.1, h.2.1, ih h.2.2⟩
    | string =>
      refine ⟨h.1, ?_, ih h.2.2⟩
      change (textOf (ls ++ .unit code :: ls')).head? ≠ some 34
      rw [textOf_append, textOf_cons, head?_append]
      cases hhead : (textOf ls).head? with
      | none => simpa [Lexeme.text] using hcode
      | some =>
        have hother := h.2.1
        rw [hhead] at hother
        simpa using hother

theorem stripComments_textOf (h : Tidy ls) : stripComments (textOf ls) = textOf ls := by
  rw [stripComments, lexemes_textOf h]
  induction ls with
  | nil => rfl
  | cons l ls ih =>
    cases l with
    | comment => exact h.elim
    | unit => rw [flatMap_cons, ih h.2.2, textOf_cons]
    | string => rw [flatMap_cons, ih h.2.2, textOf_cons]

/-! ### What the loops pass -/

/-- The separators of the three parsers. -/
def separators : List ℕ := [44, 58, 61]

/-- The loops pass the lexemes within brackets, and those for the separators `seps` everywhere. -/
structure Walks (seps : List ℕ) (ls : List Lexeme) : Prop where
  splitFrom : ∀ sep depth, 0 < depth ∨ depth = 0 ∧ sep ∈ seps → ∀ part rest,
    splitFrom sep depth part (ls ++ rest) = splitFrom sep depth (part ++ textOf ls) rest
  indexFrom : ∀ ch depth, 0 < depth ∨ depth = 0 ∧ ch ∈ seps → ∀ index rest,
    indexFrom ch depth index (ls ++ rest) = indexFrom ch depth (index + (textOf ls).length) rest
  matchParen : ∀ depth rest,
    matchParen depth (ls ++ rest) = (matchParen depth rest).map (· + ls.length)

/-- A unit that the loops pass. -/
structure IsMark (seps : List ℕ) (code : ℕ) : Prop where
  quote : isQuote code = false
  comment : code ≠ 35
  backtick : code ≠ 96
  opening : isOpening code = false
  closing : isClosing code = false
  separator : code ∉ seps

theorem Walks.mono {seps seps' : List ℕ} (h : Walks seps ls)
    (hseps : seps' ⊆ seps) : Walks seps' ls := by
  refine ⟨?_, ?_, h.matchParen⟩
  · intro sep depth hdepth
    exact h.splitFrom sep depth (hdepth.imp_right (And.imp_right (@hseps sep)))
  intro ch depth hdepth
  exact h.indexFrom ch depth (hdepth.imp_right (And.imp_right (@hseps ch)))

theorem Walks.append {seps : List ℕ} {ls ls' : List Lexeme} (h : Walks seps ls)
    (h' : Walks seps ls') : Walks seps (ls ++ ls') := by
  refine ⟨?_, ?_, ?_⟩
  · intro sep depth hdepth part rest
    rw [append_assoc, h.splitFrom sep depth hdepth, h'.splitFrom sep depth hdepth,
      textOf_append, append_assoc]
  · intro ch depth hdepth index rest
    rw [append_assoc, h.indexFrom ch depth hdepth, h'.indexFrom ch depth hdepth,
      textOf_append, length_append, add_assoc]
  intro depth rest
  rw [append_assoc, h.matchParen, h'.matchParen, Option.map_map, length_append]
  congr 1
  funext count
  simp only [Function.comp_apply]
  omega

variable {seps : List ℕ}

theorem walks_nil : Walks seps [] := by
  refine ⟨?_, ?_, ?_⟩
  · intro sep depth _ part rest
    rw [nil_append, textOf_nil, append_nil]
  · intro ch depth _ index rest
    rfl
  intro depth rest
  rw [nil_append]
  cases matchParen depth rest <;> rfl

theorem walks_string (text : Units) : Walks seps [.string text] := by
  refine ⟨?_, ?_, ?_⟩
  · intro sep depth _ part rest
    rw [singleton_append, Gemini.splitFrom, textOf_cons, textOf_nil, append_nil]
    rintro code ⟨⟩
  · intro ch depth _ index rest
    rw [singleton_append, Gemini.indexFrom, textOf_cons, textOf_nil, append_nil]
    rintro code ⟨⟩
  intro depth rest
  rw [singleton_append, Gemini.matchParen]
  · rfl
  · rintro code ⟨⟩

theorem IsMark.walks (h : IsMark seps code) : Walks seps [.unit code] := by
  have hsep : ∀ sep (depth : ℤ), 0 < depth ∨ depth = 0 ∧ sep ∈ seps →
      ¬ (depth = 0 ∧ code = sep) := by
    rintro sep depth (hdepth | ⟨-, hmem⟩) ⟨hzero, rfl⟩
    · exact hdepth.ne' hzero
    · exact h.separator hmem
  have hopen : code ≠ 40 := by
    rintro rfl
    exact Bool.noConfusion h.opening
  have hclose : code ≠ 41 := by
    rintro rfl
    exact Bool.noConfusion h.closing
  refine ⟨?_, ?_, ?_⟩
  · intro sep depth hdepth part rest
    rw [singleton_append, Gemini.splitFrom, h.opening, h.closing,
      if_neg Bool.false_ne_true, if_neg Bool.false_ne_true, if_neg (hsep sep depth hdepth)]
    rfl
  · intro ch depth hdepth index rest
    rw [singleton_append, Gemini.indexFrom, h.opening, h.closing,
      if_neg Bool.false_ne_true, if_neg Bool.false_ne_true, if_neg (hsep ch depth hdepth)]
    rfl
  intro depth rest
  rw [singleton_append, Gemini.matchParen, if_neg hopen, if_neg hclose]
  rfl

/-- Brackets that are not parentheses. -/
structure IsBracket (opening closing : ℕ) : Prop where
  left : isOpening opening = true ∧ opening ≠ 40 ∧ opening ≠ 41
  right : isOpening closing = false ∧ isClosing closing = true ∧ closing ≠ 40 ∧ closing ≠ 41
  others : isQuote opening = false ∧ isQuote closing = false ∧ opening ≠ 35 ∧ closing ≠ 35 ∧
    opening ≠ 96 ∧ closing ≠ 96

variable {opening closing : ℕ}

/-- What is passed in brackets is passed everywhere when the brackets are around it. -/
theorem Walks.wrap (hb : IsBracket opening closing)
    (h : Walks [] ls) : Walks seps (.unit opening :: ls ++ [.unit closing]) := by
  obtain ⟨hopening, hopen40, hopen41⟩ := hb.left
  obtain ⟨hclosing, hclosing', hclose40, hclose41⟩ := hb.right
  refine ⟨?_, ?_, ?_⟩
  · intro sep depth hdepth part rest
    have hdepth' : 0 < depth + 1 := by omega
    rw [cons_append, cons_append, Gemini.splitFrom, if_pos hopening, append_assoc,
      h.splitFrom sep (depth + 1) (.inl hdepth'), singleton_append, Gemini.splitFrom, hclosing,
      if_neg Bool.false_ne_true, if_pos hclosing', add_sub_cancel_right]
    simp [Lexeme.text]
  · intro ch depth hdepth index rest
    have hdepth' : 0 < depth + 1 := by omega
    rw [cons_append, cons_append, Gemini.indexFrom, if_pos hopening, append_assoc,
      h.indexFrom ch (depth + 1) (.inl hdepth'), singleton_append, Gemini.indexFrom, hclosing,
      if_neg Bool.false_ne_true, if_pos hclosing', add_sub_cancel_right]
    congr 1
    simp [Lexeme.text]
    omega
  intro depth rest
  rw [cons_append, cons_append, Gemini.matchParen, if_neg hopen40, if_neg hopen41,
    append_assoc, h.matchParen, singleton_append, Gemini.matchParen, if_neg hclose40,
    if_neg hclose41, Option.map_map, Option.map_map]
  congr 1
  funext count
  simp
  omega

/-! ### Texts -/

/-- A text that is tidy and passed, and holds no fence. -/
def Lexed (seps : List ℕ) (t : Units) : Prop :=
  ∃ ls, textOf ls = t ∧ Tidy ls ∧ Walks seps ls ∧ ¬ fence <:+: t

variable {t : Units}

theorem Lexed.mono {seps' : List ℕ} (h : Lexed seps t) (hseps : seps' ⊆ seps) : Lexed seps' t := by
  obtain ⟨ls, htext, htidy, hwalks, hfence⟩ := h
  exact ⟨ls, htext, htidy, hwalks.mono hseps, hfence⟩

theorem lexed_nil : Lexed seps [] := by
  refine ⟨[], rfl, trivial, walks_nil, ?_⟩
  intro h
  exact absurd (eq_nil_of_infix_nil h) (by decide)

theorem notMem_fence (h : code ≠ 96) : code ∉ fence := by
  have hfence : fence = [96, 96, 96] := rfl
  rw [hfence]
  simpa using h

/-- A fence is not at the border of a text that is put in brackets or quotes. -/
theorem fence_infix_of_cons (hcode : code ≠ 96) (h : fence <:+: code :: t) : fence <:+: t := by
  rw [← nil_append (code :: t)] at h
  rcases infix_of_append_cons (notMem_fence hcode) h with h | h
  · exact absurd (eq_nil_of_infix_nil h) (by decide)
  · exact h

theorem fence_infix_of_wrap (hopening : opening ≠ 96)
    (hclosing : closing ≠ 96) (h : fence <:+: opening :: t ++ [closing]) : fence <:+: t := by
  rcases infix_of_append_cons (notMem_fence hclosing) h with h | h
  · exact fence_infix_of_cons hopening h
  · exact absurd (eq_nil_of_infix_nil h) (by decide)

theorem Lexed.glue {t' : Units} (h : Lexed seps t)
    (hcode : IsMark seps code) (h' : Lexed seps t') : Lexed seps (t ++ code :: t') := by
  obtain ⟨ls, rfl, htidy, hwalks, hfence⟩ := h
  obtain ⟨ls', rfl, htidy', hwalks', hfence'⟩ := h'
  refine ⟨ls ++ .unit code :: ls', ?_, htidy.append_unit hcode.quote hcode.comment htidy', ?_, ?_⟩
  · rw [textOf_append, textOf_cons]
    rfl
  · exact hwalks.append (hcode.walks.append hwalks')
  intro h
  rcases infix_of_append_cons (notMem_fence hcode.backtick) h with h | h
  · exact hfence h
  · exact hfence' h

theorem lexed_of_marks (h : ∀ code ∈ t, IsMark seps code) : Lexed seps t := by
  induction t with
  | nil => exact lexed_nil
  | cons code t ih =>
    have ih := ih fun other hother => h other (mem_cons_of_mem _ hother)
    exact lexed_nil.glue (h code mem_cons_self) ih

theorem Lexed.wrap (hb : IsBracket opening closing)
    (h : Lexed [] t) : Lexed seps (opening :: t ++ [closing]) := by
  obtain ⟨ls, rfl, htidy, hwalks, hfence⟩ := h
  obtain ⟨hquote, hquote', hcomment, hcomment', hbacktick, hbacktick'⟩ := hb.others
  refine ⟨.unit opening :: ls ++ [.unit closing], ?_, ?_, hwalks.wrap hb, ?_⟩
  · simp [Lexeme.text]
  · have htidy' : Tidy (ls ++ [.unit closing]) := htidy.append_unit hquote' hcomment' trivial
    exact ⟨hquote, hcomment, htidy'⟩
  · exact fun h => hfence (fence_infix_of_wrap hbacktick hbacktick' h)

theorem replicate_prefix_escape {count : ℕ} {value : Units}
    (h : List.replicate count 96 <+: escape value) : List.replicate count 96 <+: value := by
  induction count generalizing value with
  | zero => exact nil_prefix
  | succ count ih =>
    rw [replicate_succ] at h ⊢
    cases value with
    | nil => exact absurd (prefix_nil.mp h) (cons_ne_nil _ _)
    | cons code =>
      rw [escape_cons] at h
      rcases escapeUnit_cases code with ⟨next, heq, -⟩ | ⟨heq, -⟩
      · rw [heq, cons_append, cons_prefix_cons] at h
        exact absurd h.1 (by decide)
      rw [heq, singleton_append, cons_prefix_cons] at h
      exact cons_prefix_cons.mpr ⟨h.1, ih h.2⟩

theorem fence_infix_of_escape {value : Units} (h : fence <:+: escape value) : fence <:+: value := by
  have hreplicate : fence = List.replicate 3 96 := rfl
  induction value with
  | nil => exact h
  | cons code value ih =>
    have hcases := h
    rw [escape_cons] at hcases
    rcases escapeUnit_cases code with ⟨next, heq, hnext, -⟩ | ⟨heq, -⟩
    · have h92 : (92 : ℕ) ≠ 96 := by decide
      rw [heq, cons_append, singleton_append] at hcases
      have hin := fence_infix_of_cons hnext (fence_infix_of_cons h92 hcases)
      exact (ih hin).trans (infix_cons (infix_refl _))
    rw [heq, singleton_append, infix_cons_iff] at hcases
    rcases hcases with hprefix | hin
    · rw [← singleton_append, ← heq, ← escape_cons, hreplicate] at hprefix
      rw [hreplicate]
      exact (replicate_prefix_escape hprefix).isInfix
    · exact (ih hin).trans (infix_cons (infix_refl _))

theorem lexed_pyString {value : Units} (h : ¬ fence <:+: value) : Lexed seps (pyString value) := by
  refine ⟨[.string (pyString value)], ?_, ⟨⟨value, rfl⟩, by simp, trivial⟩, walks_string _, ?_⟩
  · rw [textOf_cons, textOf_nil, append_nil, Lexeme.text]
  rw [pyString_eq]
  intro hin
  exact h (fence_infix_of_escape (fence_infix_of_wrap (by decide) (by decide) hin))

end BreadboardTui.Gemini
