import BreadboardTui.Hashline.Executor

/-!
# Writing hunks

A hunk is written as the line of its op and its body rows, each behind a `+`. This file is about
one section: what the tokenizer says of the lines of a hunk that has been written in this way, and
what the executor makes of them.
-/

namespace BreadboardTui.Hashline

open List Option

open BlockEdits (Cursor PasteTarget spanLines)

/-! ### Hunks and their text -/

/-- Where rows are put without replacing any. -/
inductive Gap where
  | before (line : ℕ)
  | after (line : ℕ)
  | eof
  deriving DecidableEq, Repr

inductive PatchHunk where
  | put (start stop : ℕ) (rows : List Units)
  | putGap (gap : Gap) (rows : List Units)
  | cut (start stop : ℕ) (register : Option Units)
  | pasteGap (gap : Gap) (register : Units)
  | pasteSpan (start stop : ℕ) (register : Units)
  deriving DecidableEq, Repr

/-- A number in decimal digits. -/
def decimal (n : ℕ) : Units := (Nat.digits 10 n).reverse.map (48 + ·)

def spanText (start stop : ℕ) : Units := decimal start ++ 46 :: 61 :: decimal stop

def Gap.text : Gap → Units
  | .before line => 60 :: decimal line
  | .after line => 62 :: decimal line
  | .eof => [62, 36]

/-- The end of an op: a register, a colon, or nothing. -/
def opTail (register : Option Units) (hadColon : Bool) : Units :=
  match register with
  | some name => 32 :: 64 :: name
  | none => if hadColon then [58] else []

namespace PatchHunk

/-- The line of the op. -/
def opLine : PatchHunk → Units
  | put start stop _ => putKeyword ++ 32 :: (spanText start stop ++ opTail none true)
  | putGap gap _ => putKeyword ++ 32 :: (gap.text ++ opTail none true)
  | cut start stop register => cutKeyword ++ 32 :: (spanText start stop ++ opTail register false)
  | pasteGap gap register => putKeyword ++ 32 :: (gap.text ++ opTail (some register) false)
  | pasteSpan start stop register =>
    putKeyword ++ 32 :: (spanText start stop ++ opTail (some register) false)

def rows : PatchHunk → List Units
  | put _ _ rows | putGap _ rows => rows
  | cut _ _ _ | pasteGap _ _ | pasteSpan _ _ _ => []

/-- The lines of a hunk. -/
def lines (h : PatchHunk) : List Units := h.opLine :: h.rows.map (43 :: ·)

end PatchHunk

/-! ### What a hunk stands for -/

/-- The first line has nothing in front of it but the beginning of the file. -/
def Gap.cursor : Gap → Cursor
  | .before line => if line = 1 then .bof else .beforeAnchor line
  | .after line => .afterAnchor line
  | .eof => .eof

def Gap.target (register : Option Units) : Gap → BlockTarget
  | .before line => if line = 1 then .bof register else .insertBefore line register
  | .after line => .insertAfter line register
  | .eof => .eof register

namespace PatchHunk

def target : PatchHunk → BlockTarget
  | put start stop _ => .replace start stop none
  | putGap gap _ => gap.target none
  | cut start stop register => .cut start stop register
  | pasteGap gap register => gap.target (some register)
  | pasteSpan start stop register => .replace start stop (some register)

def hadColon : PatchHunk → Bool
  | put _ _ _ | putGap _ _ => true
  | cut _ _ _ | pasteGap _ _ | pasteSpan _ _ _ => false

/-- The edits of a hunk whose op is on a line. -/
def lowered (lineNum : ℕ) : PatchHunk → List RowEdit
  | put start stop rows =>
    insertRows (.beforeAnchor start) rows lineNum true ++ deleteRows start stop lineNum
  | putGap gap rows => insertRows gap.cursor rows lineNum false
  | cut start stop register =>
    .cut start stop register lineNum :: deleteRows start stop lineNum
  | pasteGap gap register => [.paste (.gap gap.cursor) (some register) lineNum]
  | pasteSpan start stop register => [.paste (.span start stop) (some register) lineNum]

/-- The lines a hunk replaces or cuts. -/
def sourceLines : PatchHunk → List ℕ
  | put start stop _ | cut start stop _ | pasteSpan start stop _ => spanLines start stop
  | putGap _ _ | pasteGap _ _ => []

end PatchHunk

def SpanOk (start stop : ℕ) : Prop :=
  1 ≤ start ∧ start ≤ stop ∧ stop ≤ maxSafeInteger ∧ stop - start + 1 ≤ maxExpandedRangeLines

def GapOk : Gap → Prop
  | .before line | .after line => 1 ≤ line ∧ line ≤ maxSafeInteger
  | .eof => True

def RegisterOk (register : Units) : Prop :=
  register ≠ [] ∧ register.length ≤ registerNameMax ∧ ∀ code ∈ register, isRegisterNameCode code

/-- A row has no line break in it and no carriage return at its end. -/
def RowOk (row : Units) : Prop := 10 ∉ row ∧ row.getLast? ≠ some 13

namespace PatchHunk

def WellFormed : PatchHunk → Prop
  | put start stop rows => SpanOk start stop ∧ rows ≠ [] ∧ ∀ row ∈ rows, RowOk row
  | putGap gap rows => GapOk gap ∧ rows ≠ [] ∧ ∀ row ∈ rows, RowOk row
  | cut start stop register => SpanOk start stop ∧ ∀ name ∈ register, RegisterOk name
  | pasteGap gap register => GapOk gap ∧ RegisterOk register
  | pasteSpan start stop register => SpanOk start stop ∧ RegisterOk register

theorem WellFormed.rowOk {h : PatchHunk} (hwf : h.WellFormed) : ∀ row ∈ h.rows, RowOk row := by
  cases h with
  | put => exact hwf.2.2
  | putGap => exact hwf.2.2
  | cut => exact fun row hrow => nomatch hrow
  | pasteGap => exact fun row hrow => nomatch hrow
  | pasteSpan => exact fun row hrow => nomatch hrow

end PatchHunk

/-! ### Line numbers -/

/-- A text that a number may stand in front of. -/
def NoDigit (rest : Units) : Prop := ∀ code ∈ rest.head?, isDigitCode code = false

theorem le_foldl_digits (value : ℕ) (digits : List ℕ) :
    value ≤ digits.foldl (fun v d => v * 10 + d) value := by
  induction digits generalizing value with
  | nil => exact le_rfl
  | cons d digits ih =>
    rw [foldl_cons]
    calc
      value ≤ value * 10 + d := by omega
      _ ≤ _ := ih _

variable {rest : Units}

theorem scanDigits_digits {value : ℕ} {digits : List ℕ}
    (hdigits : ∀ d ∈ digits, d < 10) (hrest : NoDigit rest)
    (hmax : digits.foldl (fun v d => v * 10 + d) value ≤ maxSafeInteger) :
    scanDigits value (digits.map (48 + ·) ++ rest) =
      some (digits.foldl (fun v d => v * 10 + d) value, rest) := by
  induction digits generalizing value with
  | nil =>
    rw [map_nil, nil_append, foldl_nil]
    cases rest with
    | nil => rfl
    | cons code =>
      have hcode : isDigitCode code = false := hrest code rfl
      rw [scanDigits, hcode]
      exact if_neg Bool.false_ne_true
  | cons d digits ih =>
    rw [foldl_cons] at hmax ⊢
    have hd : d < 10 := hdigits d mem_cons_self
    -- no number on the way is larger than the whole one, which is safe
    have hle := le_foldl_digits (value * 10 + d) digits
    have hcode : isDigitCode (48 + d) = true := decide_eq_true (by omega)
    have hsub : 48 + d - 48 = d := by omega
    rw [map_cons, cons_append, scanDigits, if_pos hcode, hsub, if_neg (by omega)]
    exact ih (fun d' hd' => hdigits d' (mem_cons_of_mem _ hd')) hmax

theorem foldl_digits (n : ℕ) : (Nat.digits 10 n).reverse.foldl (fun v d => v * 10 + d) 0 = n := by
  rw [foldl_reverse]
  calc
    (Nat.digits 10 n).foldr (fun d v => v * 10 + d) 0 = Nat.ofDigits 10 (Nat.digits 10 n) := by
      rw [Nat.ofDigits_eq_foldr]
      congr 1
      funext d v
      simp only [Nat.cast_id]
      omega
    _ = n := Nat.ofDigits_digits 10 n

variable {n : ℕ}

/-- A number starts with a digit that is not zero. -/
theorem decimal_cons (h : 1 ≤ n) :
    ∃ code rest, decimal n = code :: rest ∧ isNonZeroDigitCode code = true := by
  have hne : Nat.digits 10 n ≠ [] := Nat.digits_ne_nil_iff_ne_zero.mpr (by omega)
  have hlast := Nat.getLast_digit_ne_zero 10 (m := n) (by omega)
  obtain ⟨front, d, hd⟩ := (eq_nil_or_concat' _).resolve_left hne
  have hlt : d < 10 := Nat.digits_lt_base (by omega) (m := n) (by rw [hd]; simp)
  have hpos : d ≠ 0 := by simpa [hd] using hlast
  refine ⟨48 + d, front.reverse.map (48 + ·), ?_, decide_eq_true (by omega)⟩
  rw [decimal, hd, reverse_append, reverse_singleton, singleton_append, map_cons]

theorem scanLineNumber_decimal (hn : 1 ≤ n) (hmax : n ≤ maxSafeInteger)
    (hrest : NoDigit rest) : scanLineNumber (decimal n ++ rest) = some (n, rest) := by
  have hscan : scanDigits 0 (decimal n ++ rest) = some (n, rest) := by
    have hdigits : ∀ d ∈ (Nat.digits 10 n).reverse, d < 10 := fun d hd =>
      Nat.digits_lt_base (by omega) (mem_reverse.mp hd)
    have hfold := foldl_digits n
    rw [decimal, scanDigits_digits hdigits hrest (hfold.symm ▸ hmax), hfold]
  obtain ⟨code, more, hcons, hcode⟩ := decimal_cons hn
  rw [hcons, cons_append] at hscan ⊢
  rw [scanLineNumber, if_pos hcode, hscan]

variable {code : ℕ}

/-- A digit is none of the characters that a scan looks for around a number. -/
theorem digit_not_special (h : isNonZeroDigitCode code = true) :
    isWhitespaceCode code = false ∧ inSeparator code = false ∧ code ≠ 36 ∧ code ≠ 60 ∧
      code ≠ 62 := by
  have hrange : 48 < code ∧ code ≤ 57 := of_decide_eq_true h
  refine ⟨?_, ?_, by omega, by omega, by omega⟩
  · exact decide_eq_false (by omega)
  simp only [inSeparator, isWhitespaceCode, isSeparatorCode, Bool.or_eq_false_iff,
    decide_eq_false_iff_not]
  omega

/-! ### The parts of an op -/

variable {register : Option Units} {hadColon : Bool}

theorem noDigit_opTail : NoDigit (opTail register hadColon) := by
  cases register with
  | some => exact fun code hcode => some.inj hcode ▸ rfl
  | none =>
    cases hadColon with
    | true => exact fun code hcode => some.inj hcode ▸ rfl
    | false => exact fun code hcode => nomatch hcode

theorem finishTargetScan_skip (line : Units) (target : Option Units → BlockTarget) :
    finishTargetScan (skipWhitespace line) target = finishTargetScan line target := by
  have hskip : skipWhitespace (skipWhitespace line) = skipWhitespace line :=
    dropWhile_idempotent _ _
  rw [finishTargetScan, finishTargetScan, hskip]

variable {name : Units}

theorem scanRegister_name (h : RegisterOk name) : scanRegister (64 :: name) = some (name, []) := by
  obtain ⟨hne, hlength, hcodes⟩ := h
  have htake : name.takeWhile isRegisterNameCode = name := takeWhile_eq_self_iff.mpr hcodes
  have hdrop : name.dropWhile isRegisterNameCode = [] := dropWhile_eq_nil_iff.mpr hcodes
  simp only [scanRegister, htake, hdrop]
  exact if_pos ⟨trivial, hne, hlength⟩

theorem finishTargetScan_opTail (hregister : ∀ name ∈ register, RegisterOk name)
    (target : Option Units → BlockTarget) :
    finishTargetScan (opTail register hadColon) target =
      ⟨target register, [], hadColon && register.isNone⟩ := by
  cases register with
  | some name =>
    have hskip : skipWhitespace (opTail (some name) hadColon) = 64 :: name := rfl
    rw [finishTargetScan, hskip, scanRegister_name (hregister name rfl), isNone_some,
      Bool.and_false]
    rfl
  | none =>
    rw [Option.isNone_none, Bool.and_true]
    cases hadColon <;> rfl

theorem scanStar_opTail : scanStar (opTail register hadColon) = none := by
  cases register with
  | some => rfl
  | none => cases hadColon <;> rfl

theorem scanStar_skip_opTail : scanStar (skipWhitespace (opTail register hadColon)) = none := by
  cases register with
  | some => rfl
  | none => cases hadColon <;> rfl

theorem skipWhitespace_decimal (h : 1 ≤ n) (rest : Units) :
    skipWhitespace (decimal n ++ rest) = decimal n ++ rest := by
  obtain ⟨code, more, hcons, hcode⟩ := decimal_cons h
  rw [hcons, cons_append, skipWhitespace, dropWhile_cons, (digit_not_special hcode).1]
  rfl

variable {start stop : ℕ}

theorem scanHeaderRange_spanText (h : SpanOk start stop) (hrest : NoDigit rest) :
    scanHeaderRange (spanText start stop ++ rest) =
      some ⟨start, stop, skipWhitespace rest, true⟩ := by
  obtain ⟨hstart, hle, hmax, -⟩ := h
  have hassoc : spanText start stop ++ rest =
      decimal start ++ (46 :: 61 :: (decimal stop ++ rest)) := by
    rw [spanText, append_assoc, cons_append, cons_append]
  have hfirst : scanLineNumber (decimal start ++ (46 :: 61 :: (decimal stop ++ rest))) =
      some (start, 46 :: 61 :: (decimal stop ++ rest)) :=
    scanLineNumber_decimal hstart (by omega) fun code hcode => some.inj hcode ▸ rfl
  have hseparator : scanRangeSeparator (46 :: 61 :: (decimal stop ++ rest)) =
      some (decimal stop ++ rest) := by
    obtain ⟨code, more, hcons, hcode⟩ := decimal_cons (n := stop) (by omega)
    have hdrop : (46 :: 61 :: (code :: more ++ rest)).dropWhile inSeparator =
        code :: more ++ rest := by
      rw [dropWhile_cons_of_pos rfl, dropWhile_cons_of_pos rfl, cons_append,
        dropWhile_cons, (digit_not_special hcode).2.1]
      rfl
    rw [hcons, scanRangeSeparator, hdrop]
    exact if_pos ⟨rfl, hcode⟩
  have hsecond := scanLineNumber_decimal (n := stop) (by omega) hmax hrest
  rw [hassoc, scanHeaderRange, skipWhitespace_decimal hstart, hfirst]
  simp [hseparator, hsecond]

theorem scanSpan_spanText {start stop : ℕ} (h : SpanOk start stop)
    (hregister : ∀ name ∈ register, RegisterOk name)
    (span : ℕ → ℕ → Option Units → BlockTarget) (block : ℕ → Option Units → BlockTarget) :
    scanSpan span block (spanText start stop ++ opTail register hadColon) =
      some ⟨span start stop register, [], hadColon && register.isNone⟩ := by
  rw [scanSpan, scanHeaderRange_spanText h noDigit_opTail]
  simp [scanStar_skip_opTail, finishTargetScan_skip, finishTargetScan_opTail hregister]

theorem scanPutTarget_gap {gap : Gap} (h : GapOk gap)
    (hregister : ∀ name ∈ register, RegisterOk name) :
    scanPutTarget (gap.text ++ opTail register hadColon) =
      some ⟨gap.target register, [], hadColon && register.isNone⟩ := by
  cases gap with
  | before line =>
    have hnumber := scanLineNumber_decimal h.1 h.2 (@noDigit_opTail register hadColon)
    change scanGap false (decimal line ++ opTail register hadColon) = _
    simp only [scanGap, Bool.false_eq_true, if_false, skipWhitespace_decimal h.1, hnumber,
      bind_eq_bind, bind_some, scanStar_opTail, finishTargetScan_opTail hregister]
    rw [Gap.target]
    split <;> rfl
  | after line =>
    have hnumber := scanLineNumber_decimal h.1 h.2 (@noDigit_opTail register hadColon)
    have hdollar : scanDollar (decimal line ++ opTail register hadColon) = none := by
      obtain ⟨code, more, hcons, hcode⟩ := decimal_cons h.1
      rw [scanDollar, skipWhitespace_decimal h.1, hcons, cons_append]
      exact if_neg (digit_not_special hcode).2.2.1
    change scanGap true (decimal line ++ opTail register hadColon) = _
    simp only [scanGap, if_true, hdollar, skipWhitespace_decimal h.1, hnumber,
      bind_eq_bind, bind_some, scanStar_opTail, finishTargetScan_opTail hregister]
    rfl
  | eof =>
    change scanGap true (36 :: opTail register hadColon) = _
    have hdollar : scanDollar (36 :: opTail register hadColon) =
        some (opTail register hadColon) := rfl
    simp only [scanGap, if_true, hdollar, finishTargetScan_opTail hregister]
    rfl

theorem scanPutTarget_span (h : SpanOk start stop)
    (hregister : ∀ name ∈ register, RegisterOk name) :
    scanPutTarget (spanText start stop ++ opTail register hadColon) =
      some ⟨.replace start stop register, [], hadColon && register.isNone⟩ := by
  have hscan := @scanSpan_spanText register hadColon _ _ h hregister .replace .block
  obtain ⟨code, more, hcons, hcode⟩ := decimal_cons h.1
  have hskip : skipWhitespace (spanText start stop ++ opTail register hadColon) =
      spanText start stop ++ opTail register hadColon := by
    rw [spanText, append_assoc, skipWhitespace_decimal h.1]
  obtain ⟨-, -, -, hless, hgreater⟩ := digit_not_special hcode
  rw [scanPutTarget, hskip]
  rw [spanText, hcons] at hscan ⊢
  simp only [cons_append] at hscan ⊢
  rw [if_neg hless, if_neg hgreater, hscan]

/-! ### The lines of a hunk -/

theorem putKeyword_eq : putKeyword = [80, 85, 84] := by decide

theorem cutKeyword_eq : cutKeyword = [67, 85, 84] := by decide

theorem remKeyword_eq : remKeyword = [82, 69, 77] := by decide

theorem moveKeyword_eq : moveKeyword = [77, 86] := by decide

variable {first : ℕ}

/-- A line that starts with a letter of a keyword, or with the sigil of a row, is no marker. -/
theorem not_marker (h : first ≠ 42) (line : Units) :
    markerLineEquals (first :: line) beginPatchMarker = false ∧
      markerLineEquals (first :: line) endPatchMarker = false ∧
        markerLineEquals (first :: line) abortMarker = false := by
  have hmarker : ∀ rest : Units, markerLineEquals (first :: line) (42 :: rest) = false := by
    intro rest
    rw [markerLineEquals, List.isPrefixOf, beq_eq_false_iff_ne.mpr (Ne.symm h), Bool.false_and,
      Bool.and_false]
  have hbegin : ∃ rest, beginPatchMarker = 42 :: rest := ⟨beginPatchMarker.tail, rfl⟩
  have hend : ∃ rest, endPatchMarker = 42 :: rest := ⟨endPatchMarker.tail, rfl⟩
  have habort : ∃ rest, abortMarker = 42 :: rest := ⟨abortMarker.tail, rfl⟩
  obtain ⟨rest, hrest⟩ := hbegin
  obtain ⟨rest', hrest'⟩ := hend
  obtain ⟨rest'', hrest''⟩ := habort
  rw [hrest, hrest', hrest'']
  exact ⟨hmarker _, hmarker _, hmarker _⟩

/-- A row that is written with the sigil is a body row, whatever it looks like. -/
theorem classifyLine_row (row : Units) : classifyLine (43 :: row) = .payloadLiteral row := by
  obtain ⟨hbegin, hend, habort⟩ := not_marker (by omega : 43 ≠ 42) row
  have hlead : isHunkLead (43 :: row) = false := by
    rw [isHunkLead, putKeyword_eq, cutKeyword_eq, remKeyword_eq, moveKeyword_eq]
    rfl
  rw [classifyLine, if_neg (cons_ne_nil _ _), hbegin, hend, habort]
  simp only [Bool.false_eq_true, if_false, head?_cons, some.injEq]
  rw [if_neg (by omega)]
  simp [classifyOp, hlead, classifyRow]

/-- The last code unit is one that `trimEnd` keeps. -/
def NoTrail (line : Units) : Prop := ∀ code ∈ line.getLast?, isWhitespaceCode code = false

variable {line : Units}

theorem trimEnd_of_noTrail (h : NoTrail line) : trimEnd line = line := by
  rw [trimEnd, rdropWhile_eq_self_iff]
  intro hne
  rw [h _ (getLast?_eq_some_getLast hne)]
  exact Bool.false_ne_true

theorem NoTrail.append {line line' : Units} (h : NoTrail line') (hne : line' ≠ []) :
    NoTrail (line ++ line') := by
  intro code hcode
  rw [getLast?_append_of_ne_nil _ hne] at hcode
  exact h code hcode

theorem noTrail_of_forall (h : ∀ code ∈ line, 33 ≤ code) : NoTrail line := by
  intro code hcode
  have hmem : 33 ≤ code := h code (mem_of_getLast? hcode)
  exact decide_eq_false (by omega)

theorem decimal_ge (h : code ∈ decimal n) : 48 ≤ code := by
  obtain ⟨d, -, rfl⟩ := mem_map.mp h
  omega

theorem RegisterOk.ge (h : RegisterOk name) (hcode : code ∈ name) : 45 ≤ code := by
  have hname := h.2.2 code hcode
  simp only [isRegisterNameCode, isDigitCode, Bool.or_eq_true, decide_eq_true_eq] at hname
  omega

theorem spanText_ge (h : code ∈ spanText start stop) : 33 ≤ code := by
  rw [spanText, mem_append, mem_cons, mem_cons] at h
  rcases h with h | rfl | rfl | h
  · have := decimal_ge h
    omega
  · omega
  · omega
  have := decimal_ge h
  omega

theorem Gap.text_ge {gap : Gap} (h : code ∈ gap.text) : 33 ≤ code := by
  cases gap with
  | before =>
    rcases mem_cons.mp h with rfl | h
    · omega
    have := decimal_ge h
    omega
  | after =>
    rcases mem_cons.mp h with rfl | h
    · omega
    have := decimal_ge h
    omega
  | eof =>
    simp only [Gap.text, mem_cons, not_mem_nil, or_false] at h
    omega

theorem opTail_ge (hregister : ∀ name ∈ register, RegisterOk name)
    (h : code ∈ opTail register hadColon) : code = 32 ∨ 33 ≤ code := by
  cases register with
  | some name =>
    rcases mem_cons.mp h with rfl | h
    · exact .inl rfl
    rcases mem_cons.mp h with rfl | h
    · omega
    have := (hregister name rfl).ge h
    omega
  | none =>
    cases hadColon with
    | true =>
      obtain rfl := mem_singleton.mp h
      omega
    | false => cases h

/-- What stands between the keyword and the end of an op. -/
structure LocatorText (text : Units) : Prop where
  ge : ∀ code ∈ text, 33 ≤ code
  ne_nil : text ≠ []

theorem locator_span (start stop : ℕ) : LocatorText (spanText start stop) := by
  refine ⟨fun code hcode => spanText_ge hcode, ?_⟩
  rw [spanText]
  exact append_ne_nil_of_right_ne_nil _ (cons_ne_nil _ _)

theorem locator_gap (gap : Gap) : LocatorText gap.text := by
  refine ⟨fun code hcode => Gap.text_ge hcode, ?_⟩
  cases gap <;> exact cons_ne_nil _ _

/-- A line that can be written and read back as one line of a patch. -/
structure LineOk (line : Units) : Prop where
  ne_nil : line ≠ []
  noFeed : 10 ∉ line
  noReturn : line.getLast? ≠ some 13

/-- The op on a line, as the keyword and the parts behind it. -/
theorem op_line {text : Units} (htext : LocatorText text)
    (hregister : ∀ name ∈ register, RegisterOk name) (first second third : ℕ)
    (hfirst : 33 ≤ first ∧ 33 ≤ second ∧ 33 ≤ third) :
    NoTrail ([first, second, third] ++ 32 :: (text ++ opTail register hadColon)) ∧
      LineOk ([first, second, third] ++ 32 :: (text ++ opTail register hadColon)) := by
  have hge : ∀ code ∈ [first, second, third] ++ 32 :: (text ++ opTail register hadColon),
      32 ≤ code := by
    intro code hcode
    simp only [mem_append, mem_cons, not_mem_nil, or_false] at hcode
    rcases hcode with (rfl | rfl | rfl) | rfl | hcode | hcode
    · omega
    · omega
    · omega
    · omega
    · have := htext.ge code hcode
      omega
    have := opTail_ge hregister hcode
    omega
  have htrail : NoTrail (text ++ opTail register hadColon) := by
    by_cases hnil : opTail register hadColon = []
    · rw [hnil, append_nil]
      exact noTrail_of_forall htext.ge
    refine NoTrail.append ?_ hnil
    cases register with
    | some name =>
      have hname : NoTrail name := noTrail_of_forall fun code hcode => by
        have := (hregister name rfl).ge hcode
        omega
      exact @NoTrail.append [32, 64] name hname (hregister name rfl).1
    | none =>
      cases hadColon with
      | true =>
        intro code hcode
        cases hcode
        rfl
      | false => exact absurd rfl hnil
  have hline : NoTrail ([first, second, third] ++ 32 :: (text ++ opTail register hadColon)) := by
    have hne : text ++ opTail register hadColon ≠ [] := append_ne_nil_of_left_ne_nil htext.ne_nil _
    exact @NoTrail.append [first, second, third, 32] _ htrail hne
  refine ⟨hline, cons_ne_nil _ _, fun hfeed => ?_, fun hreturn => ?_⟩
  · have := hge 10 hfeed
    omega
  · exact nomatch hline 13 hreturn

variable {target : BlockTarget}

theorem classifyLine_of_scan (hfirst : first ≠ 42 ∧ first ≠ 91 ∧ isWhitespaceCode first = false)
    (htrail : NoTrail (first :: line)) (hlead : isHunkLead (first :: line) = true)
    (hscan : scanHunkAnchor (first :: line) = some ⟨target, [], hadColon⟩) :
    classifyLine (first :: line) = .opBlock target hadColon := by
  obtain ⟨hbegin, hend, habort⟩ := not_marker hfirst.1 line
  have hskip : skipWhitespace (first :: line) = first :: line := by
    rw [skipWhitespace, dropWhile_cons, hfirst.2.2]
    rfl
  have hparse : tryParseHunkHeader (first :: line) = some (target, hadColon) := by
    rw [tryParseHunkHeader, trimEnd_of_noTrail htrail, hskip]
    simp [hscan]
  rw [classifyLine, if_neg (cons_ne_nil _ _), hbegin, hend, habort]
  simp only [Bool.false_eq_true, if_false, head?_cons, some.injEq, hfirst.2.1]
  simp [classifyOp, hlead, hparse]

variable {body : Units}

theorem classifyLine_put (htrail : NoTrail (putKeyword ++ 32 :: body))
    (hscan : scanPutTarget body = some ⟨target, [], hadColon⟩) :
    classifyLine (putKeyword ++ 32 :: body) = .opBlock target hadColon := by
  rw [putKeyword_eq] at htrail ⊢
  refine classifyLine_of_scan ⟨by omega, by omega, rfl⟩ htrail ?_ ?_
  · rw [isHunkLead, putKeyword_eq]
    rfl
  rw [scanHunkAnchor, putKeyword_eq, remKeyword_eq, moveKeyword_eq]
  exact hscan

theorem classifyLine_cut (htrail : NoTrail (cutKeyword ++ 32 :: body))
    (hscan : scanCutTarget body = some ⟨target, [], hadColon⟩) :
    classifyLine (cutKeyword ++ 32 :: body) = .opBlock target hadColon := by
  rw [cutKeyword_eq] at htrail ⊢
  refine classifyLine_of_scan ⟨by omega, by omega, rfl⟩ htrail ?_ ?_
  · rw [isHunkLead, putKeyword_eq, cutKeyword_eq]
    rfl
  rw [scanHunkAnchor, putKeyword_eq, remKeyword_eq, moveKeyword_eq, cutKeyword_eq]
  exact hscan

namespace PatchHunk

variable {h : PatchHunk}

/-- The line of an op is read as the op, and it is a line like any other. -/
theorem opLine_spec (hwf : h.WellFormed) :
    classifyLine h.opLine = .opBlock h.target h.hadColon ∧ LineOk h.opLine ∧
      (h.opLine.head? = some 80 ∨ h.opLine.head? = some 67) := by
  have hnone : ∀ name ∈ (none : Option Units), RegisterOk name := fun name hname => nomatch hname
  have hput : ∀ body, (putKeyword ++ 32 :: body).head? = some 80 := by
    intro body
    rw [putKeyword_eq]
    rfl
  have hcut : ∀ body, (cutKeyword ++ 32 :: body).head? = some 67 := by
    intro body
    rw [cutKeyword_eq]
    rfl
  have hputOk : ∀ {text register hadColon}, LocatorText text →
      (∀ name ∈ register, RegisterOk name) →
      NoTrail (putKeyword ++ 32 :: (text ++ opTail register hadColon)) ∧
        LineOk (putKeyword ++ 32 :: (text ++ opTail register hadColon)) := by
    intro text register hadColon htext hregister
    rw [putKeyword_eq]
    exact op_line htext hregister 80 85 84 (by omega)
  cases h with
  | put start stop =>
    obtain ⟨htrail, hline⟩ := @hputOk _ none true (locator_span start stop) hnone
    exact ⟨classifyLine_put htrail (scanPutTarget_span hwf.1 hnone), hline, .inl (hput _)⟩
  | putGap gap =>
    obtain ⟨htrail, hline⟩ := @hputOk _ none true (locator_gap gap) hnone
    exact ⟨classifyLine_put htrail (scanPutTarget_gap hwf.1 hnone), hline, .inl (hput _)⟩
  | cut start stop register =>
    have hlines := @op_line register false _ (locator_span start stop) hwf.2 67 85 84 (by omega)
    rw [← cutKeyword_eq] at hlines
    obtain ⟨htrail, hline⟩ := hlines
    exact ⟨classifyLine_cut htrail (scanSpan_spanText hwf.1 hwf.2 .cut .cutBlock), hline,
      .inr (hcut _)⟩
  | pasteGap gap register =>
    have hregister : ∀ name ∈ some register, RegisterOk name := fun name hname =>
      some.inj hname ▸ hwf.2
    obtain ⟨htrail, hline⟩ := @hputOk _ (some register) false (locator_gap gap) hregister
    exact ⟨classifyLine_put htrail (scanPutTarget_gap hwf.1 hregister), hline, .inl (hput _)⟩
  | pasteSpan start stop register =>
    have hregister : ∀ name ∈ some register, RegisterOk name := fun name hname =>
      some.inj hname ▸ hwf.2
    obtain ⟨htrail, hline⟩ := @hputOk _ (some register) false (locator_span start stop) hregister
    exact ⟨classifyLine_put htrail (scanPutTarget_span hwf.1 hregister), hline, .inl (hput _)⟩

/-- The executor takes a hunk for the edits it stands for. -/
theorem lowers (hwf : h.WellFormed) :
    Executor.Lowers h.target h.hadColon h.rows fun lineNum => h.lowered lineNum := by
  have hspan : ∀ {start stop}, SpanOk start stop → ∀ lineNum,
      validateRange start stop lineNum = .ok () := by
    intro start stop hok lineNum
    obtain ⟨hstart, hle, hmax, hlength⟩ := hok
    rw [validateRange, if_neg (by omega), if_neg (by omega), if_neg (by omega)]
  have hgap : ∀ (gap : Gap) (register : Option Units),
      (∀ lineNum, (gap.target register).validate lineNum = .ok ()) ∧
        (gap.target register).register = register ∧ (gap.target register).isCut = false ∧
        (gap.target register ≠ .rem ∧ ∀ dest, gap.target register ≠ .move dest) ∧
        ∀ hadColon lineNum rows, emit (gap.target register) hadColon lineNum rows =
          emitGap gap.cursor register hadColon lineNum rows := by
    intro gap register
    cases gap with
    | before =>
      rw [Gap.target, Gap.cursor]
      split
      · exact ⟨fun _ => rfl, rfl, rfl, ⟨nofun, nofun⟩, fun _ _ _ => rfl⟩
      · exact ⟨fun _ => rfl, rfl, rfl, ⟨nofun, nofun⟩, fun _ _ _ => rfl⟩
    | after => exact ⟨fun _ => rfl, rfl, rfl, ⟨nofun, nofun⟩, fun _ _ _ => rfl⟩
    | eof => exact ⟨fun _ => rfl, rfl, rfl, ⟨nofun, nofun⟩, fun _ _ _ => rfl⟩
  cases h with
  | put =>
    refine ⟨hspan hwf.1, fun _ => ⟨rfl, rfl⟩, ⟨nofun, nofun⟩, fun _ => rfl, fun lineNum => ?_⟩
    exact if_neg fun hempty => hwf.2.1 hempty.1
  | putGap gap rows =>
    obtain ⟨hvalid, hregister, hcut, hop, hemit⟩ := hgap gap none
    refine ⟨hvalid, fun _ => ⟨hregister, hcut⟩, hop, fun _ => rfl, fun lineNum => ?_⟩
    change emit (gap.target none) true lineNum rows = _
    rw [hemit, emitGap, if_neg (by simp), if_neg hwf.2.1]
    rfl
  | cut =>
    exact ⟨hspan hwf.1, nofun, ⟨nofun, nofun⟩, fun hne => absurd rfl hne, fun _ => rfl⟩
  | pasteGap gap register =>
    obtain ⟨hvalid, hregister, hcut, hop, hemit⟩ := hgap gap (some register)
    refine ⟨hvalid, nofun, hop, fun hne => absurd rfl hne, fun lineNum => ?_⟩
    change emit (gap.target (some register)) false lineNum [] = _
    rw [hemit, emitGap, if_pos (.inl rfl)]
    rfl
  | pasteSpan =>
    exact ⟨hspan hwf.1, nofun, ⟨nofun, nofun⟩, fun hne => absurd rfl hne, fun _ => rfl⟩

end PatchHunk

/-! ### Sections -/

/-- The edits of hunks, the first of which is on line `n`. -/
def loweredFrom (n : ℕ) : List PatchHunk → List RowEdit
  | [] => []
  | h :: hs => h.lowered n ++ loweredFrom (n + h.lines.length) hs

/-- The tokens of hunks, the first of which is on line `n`. -/
def hunkTokens (n : ℕ) : List PatchHunk → List Token
  | [] => []
  | h :: hs =>
    (⟨n, .opBlock h.target h.hadColon⟩ :: Executor.rowTokens (n + 1) h.rows) ++
      hunkTokens (n + h.lines.length) hs

/-- The body of a section. -/
def hunksText (hs : List PatchHunk) : Units := [10].intercalate (hs.flatMap PatchHunk.lines)

theorem classifyLines_append (n : ℕ) (lines lines' : List Units) :
    classifyLines n (lines ++ lines') =
      classifyLines n lines ++ classifyLines (n + lines.length) lines' := by
  induction lines generalizing n with
  | nil => rfl
  | cons line lines ih =>
    have hn : n + 1 + lines.length = n + (lines.length + 1) := by omega
    rw [cons_append, classifyLines, classifyLines, ih, hn]
    rfl

theorem classifyLines_rows (n : ℕ) (rows : List Units) :
    classifyLines n (rows.map (43 :: ·)) = Executor.rowTokens n rows := by
  induction rows generalizing n with
  | nil => rfl
  | cons row rows ih => rw [map_cons, classifyLines, classifyLine_row, ih, Executor.rowTokens]

/-- The tokens of hunks that have been written are an op and body rows for each of them. -/
theorem classifyLines_hunks {hs : List PatchHunk} (hwf : ∀ h ∈ hs, h.WellFormed) (n : ℕ) :
    classifyLines n (hs.flatMap PatchHunk.lines) = hunkTokens n hs := by
  induction hs generalizing n with
  | nil => rfl
  | cons h hs ih =>
    have hrest := ih (fun h' hh' => hwf h' (mem_cons_of_mem _ hh')) (n + h.lines.length)
    have hop := (PatchHunk.opLine_spec (hwf h mem_cons_self)).1
    rw [flatMap_cons, classifyLines_append, hrest, hunkTokens]
    congr 1
    rw [PatchHunk.lines, classifyLines, hop, classifyLines_rows]

theorem RowOk.lineOk {row : Units} (h : RowOk row) : LineOk (43 :: row) := by
  refine ⟨cons_ne_nil _ _, fun hmem => ?_, fun hlast => ?_⟩
  · rcases mem_cons.mp hmem with hcode | hmem
    · omega
    · exact h.1 hmem
  rw [getLast?_cons] at hlast
  cases hrow : row.getLast? with
  | none =>
    rw [hrow] at hlast
    exact absurd (some.inj hlast) (by decide)
  | some =>
    rw [hrow] at hlast
    exact h.2 (hrow.trans hlast)

theorem hunkLines_ok {hs : List PatchHunk} (hwf : ∀ h ∈ hs, h.WellFormed) :
    ∀ line ∈ hs.flatMap PatchHunk.lines, LineOk line := by
  intro line hline
  obtain ⟨h, hh, hmem⟩ := mem_flatMap.mp hline
  rcases mem_cons.mp hmem with rfl | hmem
  · exact (PatchHunk.opLine_spec (hwf h hh)).2.1
  obtain ⟨row, hrow, rfl⟩ := mem_map.mp hmem
  exact ((hwf h hh).rowOk row hrow).lineOk

theorem splitLoop_line (h : 10 ∉ line) (start text : Units) : splitLoop start (line ++ 10 :: text) =
      stripCarriageReturn (start ++ line) :: splitLoop [] text := by
  induction line generalizing start with
  | nil =>
    rw [nil_append, append_nil, splitLoop, if_pos rfl]
  | cons code line ih =>
    rw [mem_cons, not_or] at h
    rw [cons_append, splitLoop, if_neg (Ne.symm h.1), ih h.2, append_assoc]
    rfl

theorem splitLoop_last (h : 10 ∉ line) (start : Units) :
    splitLoop start line = splitLoop (start ++ line) [] := by
  induction line generalizing start with
  | nil => rw [append_nil]
  | cons code line ih =>
    rw [mem_cons, not_or] at h
    have hstep : splitLoop start (code :: line) = splitLoop (start ++ [code]) line :=
      if_neg (Ne.symm h.1)
    rw [hstep, ih h.2, append_assoc]
    rfl

/-- The tokenizer finds the lines that were joined. -/
theorem splitLoop_intercalate {lines : List Units} (h : ∀ line ∈ lines, LineOk line) :
    splitLoop [] ([10].intercalate lines) = lines := by
  have hstrip : ∀ line, LineOk line → stripCarriageReturn line = line := fun line hline =>
    if_neg hline.noReturn
  induction lines with
  | nil => rfl
  | cons line lines ih =>
    have hline := h line mem_cons_self
    -- the last line has no feed behind it
    cases lines with
    | nil =>
      rw [intercalate_singleton, splitLoop_last hline.noFeed, nil_append, splitLoop,
        if_neg hline.ne_nil, hstrip line hline]
    | cons =>
      have hrest := ih fun l hl => h l (mem_cons_of_mem _ hl)
      rw [intercalate_cons_cons, append_assoc, singleton_append,
        splitLoop_line hline.noFeed, hrest, nil_append, hstrip line hline]

section Parsing

variable {shapes : RowShapes} {hs : List PatchHunk}

theorem feedAll_append (ex : Executor) (tokens tokens' : List Token) :
    ex.feedAll shapes (tokens ++ tokens') =
      (ex.feedAll shapes tokens).bind fun ex => ex.feedAll shapes tokens' :=
  foldlM_append

theorem feed_hunks (hwf : ∀ h ∈ hs, h.WellFormed) {ex : Executor} {edits : List RowEdit}
    (hflush : Executor.FlushesTo shapes ex edits) (n : ℕ) :
    ∃ ex', ex.feedAll shapes (hunkTokens n hs) = .ok ex' ∧
      Executor.FlushesTo shapes ex' (edits ++ loweredFrom n hs) := by
  -- over the hunks; the edits of those in front are already in what the executor would flush
  induction hs generalizing ex edits n with
  | nil =>
    rw [loweredFrom, append_nil]
    exact ⟨ex, rfl, hflush⟩
  | cons h hs ih =>
    obtain ⟨fed, hfeed, hfed⟩ :=
      Executor.feed_hunk hflush (PatchHunk.lowers (hwf h mem_cons_self)) n
    obtain ⟨ex', hrest, hex'⟩ :=
      ih (fun h' hh' => hwf h' (mem_cons_of_mem _ hh')) hfed (n + h.lines.length)
    refine ⟨ex', ?_, ?_⟩
    · rw [hunkTokens, feedAll_append, hfeed]
      exact hrest
    · rwa [loweredFrom, ← append_assoc]

/-- Hunks with no line in common. -/
def NonOverlapping (hs : List PatchHunk) : Prop :=
  hs.Pairwise fun h h' => ∀ line ∈ h.sourceLines, line ∉ h'.sourceLines

variable {e : RowEdit}

theorem mem_lowered {h : PatchHunk} (he : e ∈ h.lowered n) :
    e.lineNum = n ∧ ∀ line ∈ e.sourceLines, line ∈ h.sourceLines := by
  have hinsert : ∀ {cursor rows replacement}, e ∈ insertRows cursor rows n replacement →
      e.lineNum = n ∧ ∀ line ∈ e.sourceLines, line ∈ h.sourceLines := by
    intro cursor rows replacement hmem
    obtain ⟨text, -, rfl⟩ := mem_map.mp hmem
    exact ⟨rfl, fun line hline => nomatch hline⟩
  have hdelete : ∀ {start stop}, e ∈ deleteRows start stop n →
      h.sourceLines = spanLines start stop →
        e.lineNum = n ∧ ∀ line ∈ e.sourceLines, line ∈ h.sourceLines := by
    intro start stop hmem hlines
    obtain ⟨line, hline, rfl⟩ := mem_map.mp hmem
    refine ⟨rfl, fun l hl => ?_⟩
    obtain rfl := mem_singleton.mp hl
    rwa [hlines]
  cases h with
  | put =>
    rcases mem_append.mp he with he | he
    · exact hinsert he
    · exact hdelete he rfl
  | putGap => exact hinsert he
  | cut =>
    rcases mem_cons.mp he with rfl | he
    · exact ⟨rfl, fun line hline => nomatch hline⟩
    · exact hdelete he rfl
  | pasteGap =>
    obtain rfl := mem_singleton.mp he
    exact ⟨rfl, fun line hline => nomatch hline⟩
  | pasteSpan =>
    obtain rfl := mem_singleton.mp he
    exact ⟨rfl, fun line hline => hline⟩

theorem mem_loweredFrom (he : e ∈ loweredFrom n hs) :
    n ≤ e.lineNum ∧ ∃ h ∈ hs, ∀ line ∈ e.sourceLines, line ∈ h.sourceLines := by
  induction hs generalizing n with
  | nil => cases he
  | cons h hs ih =>
    rcases mem_append.mp he with he | he
    · obtain ⟨hnum, hlines⟩ := mem_lowered he
      exact ⟨hnum.ge, h, mem_cons_self, hlines⟩
    obtain ⟨hnum, h', hh', hlines⟩ := ih he
    exact ⟨by omega, h', mem_cons_of_mem _ hh', hlines⟩

theorem disjointHunks_loweredFrom (h : NonOverlapping hs) (n : ℕ) :
    Executor.DisjointHunks (loweredFrom n hs) := by
  induction hs generalizing n with
  | nil => exact fun e he => nomatch he
  | cons first hs ih =>
    obtain ⟨hfirst, hrest⟩ := pairwise_cons.mp h
    intro e he e' he' hne line hline hline'
    rcases mem_append.mp he with he | he
    · obtain ⟨hnum, hlines⟩ := mem_lowered he
      rcases mem_append.mp he' with he' | he'
      · -- both are of the first hunk, and have its line number
        exact hne (hnum.trans (mem_lowered he').1.symm)
      obtain ⟨-, other, hother, hlines'⟩ := mem_loweredFrom he'
      exact hfirst other hother line (hlines line hline) (hlines' line hline')
    rcases mem_append.mp he' with he' | he'
    · obtain ⟨-, other, hother, hlines⟩ := mem_loweredFrom he
      exact hfirst other hother line ((mem_lowered he').2 line hline') (hlines line hline)
    · exact ih hrest _ e he e' he' hne line hline hline'

/-- The tokens of a section that has been written. -/
theorem textTokens_hunksText (hwf : ∀ h ∈ hs, h.WellFormed) :
    textTokens 1 [] (hunksText hs) = hunkTokens 1 hs := by
  rw [textTokens, hunksText, splitLoop_intercalate (hunkLines_ok hwf), classifyLines_hunks hwf]

/-- A section that has been written is read as the edits its hunks stand for, and has no file
operation. -/
theorem parsePatch_hunks (hwf : ∀ h ∈ hs, h.WellFormed) (hover : NonOverlapping hs) :
    ∃ ex, parsePatch shapes (hunksText hs) = .ok ex ∧ ex.edits = loweredFrom 1 hs ∧
      ex.fileOp = none := by
  obtain ⟨fed, hfeed, hflush⟩ := feed_hunks hwf (@Executor.flushesTo_init shapes) 1
  obtain ⟨ex, hfinish, hedits, hop⟩ :=
    Executor.finish_ready hflush (disjointHunks_loweredFrom hover 1)
  refine ⟨ex, ?_, hedits, hop⟩
  -- the tokens of the feed and of the end are those of the whole text
  rw [← textTokens_hunksText hwf, textTokens_eq_drainLoop, feedAll_append] at hfeed
  have hfirst : Tokenizer.feed {} (hunksText hs) =
      .ok ((Tokenizer.drainLoop 1 [] (hunksText hs)).1, afterText 1 [] (hunksText hs)) :=
    feed_eq not_mem_nil 1 _
  rw [parsePatch, hfirst]
  simp only [bind, afterText] at hfeed ⊢
  cases hdrain : Executor.feedAll shapes {} (Tokenizer.drainLoop 1 [] (hunksText hs)).1 with
  | error =>
    rw [hdrain] at hfeed
    cases hfeed
  | ok between =>
    rw [hdrain] at hfeed
    change between.feedAll shapes _ = .ok fed at hfeed
    change (between.feedAll shapes _).bind _ = _
    rw [hfeed]
    exact hfinish

end Parsing

end BreadboardTui.Hashline
