import BreadboardTui.JsonRepair.RelaxedJson

/-!
# What the relaxed parser makes of JSON

* `relaxedReads_of_denotes`: JSON is read as what it denotes, in both modes.
* `readsCut_of_denotes`: what is read, in strict mode, of the beginning of a JSON phrase.
* `relaxed_conservative_iff`: where the parser returns the value of `JSON.parse`, and that it throws
  on truncated objects.
-/

namespace BreadboardTui.JsonRepair

open List

open Hashline (Units units)

/-! ### Numbers and words of JSON -/

variable {c : ℕ}

theorem isNumberChar_of_isDigit (h : isDigit c = true) : isNumberChar c = true := by
  rw [isNumberChar, h]
  rfl

variable {text : Units}

theorem isNumberChar_of_isNumberText (h : IsNumberText text) :
    ∀ c ∈ text, isNumberChar c = true := by
  obtain ⟨sign, integer, fraction, exponent, hnumber, rfl⟩ := h
  have hdigits {digits : Units} (h : IsDigits digits) : ∀ c ∈ digits, isNumberChar c = true :=
    fun c hc => isNumberChar_of_isDigit (h.isDigit c hc)
  have hsign : ∀ c ∈ sign, isNumberChar c = true := by
    rcases hnumber.hsign with rfl | rfl <;> decide
  have hfraction : ∀ c ∈ fraction, isNumberChar c = true := by
    rcases hnumber.hfraction with rfl | ⟨digits, hd, rfl⟩
    · decide
    · exact forall_mem_cons.mpr ⟨rfl, hdigits hd⟩
  have hexponent : ∀ c ∈ exponent, isNumberChar c = true := by
    rcases hnumber.hexponent with rfl | ⟨letter, esign, digits, hletter, hesign, hd, rfl⟩
    · decide
    simp only [mem_cons, not_mem_nil, or_false] at hletter hesign
    have hl : isNumberChar letter = true := by
      rcases hletter with rfl | rfl <;> rfl
    have hs : ∀ c ∈ esign, isNumberChar c = true := by
      rcases hesign with rfl | rfl | rfl <;> decide
    refine forall_mem_cons.mpr ⟨hl, fun c hc => ?_⟩
    exact (mem_append.mp hc).elim (hs c) (hdigits hd c)
  intro c hc
  simp only [mem_append] at hc
  rcases hc with ((hc | hc) | hc) | hc
  · exact hsign c hc
  · exact hdigits hnumber.hinteger c hc
  · exact hfraction c hc
  · exact hexponent c hc

variable {rest : Units}

theorem takeWhile_append_of_all {p : ℕ → Bool} {token : Units} (h : ∀ c ∈ token, p c = true)
    (hrest : ∀ c ∈ rest.head?, p c = false) :
    (token ++ rest).takeWhile p = token ∧ (token ++ rest).dropWhile p = rest := by
  have hnil : rest.takeWhile p = [] ∧ rest.dropWhile p = rest := by
    cases rest with
    | nil => exact ⟨rfl, rfl⟩
    | cons c =>
      have hc := hrest c rfl
      constructor
      · rw [takeWhile_cons, hc]
        rfl
      rw [dropWhile_cons, hc]
      rfl
  constructor
  · rw [takeWhile_append_of_pos h, hnil.1, append_nil]
  · rw [dropWhile_append_of_pos h, hnil.2]

theorem isAll_of_isDigits {digits : Units} (h : IsDigits digits) : isAll isDigit digits = true := by
  rw [isAll, Bool.and_eq_true, all_eq_true]
  refine ⟨?_, h.isDigit⟩
  cases digits with
  | nil => exact absurd rfl h.1
  | cons => rfl

theorem dropSign_of_isDigit (h : isDigit c = true) (rest : Units) :
    dropSign (c :: rest) = c :: rest := by
  rw [isDigit_iff] at h
  rw [dropSign]
  · intro _ heq
    have hc := (List.cons.inj heq).1
    omega
  intro _ heq
  have hc := (List.cons.inj heq).1
  omega

theorem isExponentToken_of_isExponent (h : IsExponent text) : isExponentToken text = true := by
  rcases h with rfl | ⟨letter, sign, digits, hletter, hsign, hdigits, rfl⟩
  · rfl
  have hall := isAll_of_isDigits hdigits
  have hdrop : dropSign (sign ++ digits) = digits := by
    simp only [mem_cons, not_mem_nil, or_false] at hsign
    rcases hsign with rfl | rfl | rfl
    · cases digits with
      | nil => exact absurd rfl hdigits.1
      | cons c digits => exact dropSign_of_isDigit (hdigits.isDigit c mem_cons_self) digits
    · rfl
    · rfl
  rw [isExponentToken, hdrop, hall, Bool.and_true]
  simp only [mem_cons, not_mem_nil, or_false] at hletter
  rcases hletter with rfl | rfl <;> rfl

theorem isDecimalToken_of_isNumber {sign integer fraction exponent : Units}
    (h : IsNumber sign integer fraction exponent) :
    isDecimalToken (sign ++ integer ++ fraction ++ exponent) = true := by
  have hexponent : IsExponent exponent := h.hexponent
  have hne : integer.isEmpty = false := by
    have hinteger := h.hinteger.1
    cases integer with
    | nil => exact absurd rfl hinteger
    | cons => rfl
  have hsign : dropSign (sign ++ (integer ++ (fraction ++ exponent))) =
      integer ++ (fraction ++ exponent) := by
    rcases h.hsign with rfl | rfl
    · have hinteger := h.hinteger
      cases integer with
      | nil => exact absurd rfl hinteger.1
      | cons c => exact dropSign_of_isDigit (hinteger.isDigit c mem_cons_self) _
    · rfl
  have hnoDigit : NoDigit (fraction ++ exponent) := by
    rcases h.hfraction with rfl | ⟨digits, -, rfl⟩
    · exact scanExponent_tail.noDigit hexponent
    intro c hc
    cases hc
    rfl
  obtain ⟨htake, hdrop⟩ := takeWhile_append_of_all h.hinteger.isDigit hnoDigit
  rw [append_assoc, append_assoc, isDecimalToken, hsign, htake, hdrop]
  rcases h.hfraction with rfl | ⟨digits, hdigits, rfl⟩
  · rw [nil_append]
    split
    · exact absurd rfl hexponent.head?_ne
    rw [hne, isExponentToken_of_isExponent hexponent]
    rfl
  obtain ⟨htake', hdrop'⟩ := takeWhile_append_of_all hdigits.isDigit
    (scanExponent_tail.noDigit hexponent)
  rw [cons_append]
  show ((!integer.isEmpty || _) && _) = true
  rw [htake', hdrop', hne, isExponentToken_of_isExponent hexponent]
  rfl

theorem isNumeric_of_isNumberText (h : IsNumberText text) : isNumeric text = true := by
  obtain ⟨sign, integer, fraction, exponent, hnumber, rfl⟩ := h
  have hdecimal := isDecimalToken_of_isNumber hnumber
  rw [isNumeric.eq_def]
  split
  · next c digits heq =>
    -- Behind a leading zero there is a fraction, an exponent or nothing.
    have hc : c = 46 ∨ c = 101 ∨ c = 69 := by
      rcases hnumber.hsign with rfl | rfl
      · have hinteger : integer = [48] := by
          refine hnumber.hleading ?_
          have hhead := congrArg List.head? heq
          have hne := hnumber.hinteger.1
          cases integer with
          | nil => exact absurd rfl hne
          | cons => exact hhead
        subst hinteger
        rcases hnumber.hfraction with rfl | ⟨_, -, rfl⟩
        · rcases hnumber.hexponent with rfl | ⟨letter, _, _, hletter, -, -, rfl⟩
          · cases heq
          · have hc := (List.cons.inj (List.cons.inj heq).2).1
            simp only [mem_cons, not_mem_nil, or_false] at hletter
            omega
        · exact .inl (List.cons.inj (List.cons.inj heq).2).1.symm
      · cases heq
    rw [if_neg (by omega), if_neg (by omega)]
    exact hdecimal
  · exact hdecimal

theorem number_of_isNumberText (h : IsNumberText text) (inPartial : Bool)
    (hends : Ends rest) : number inPartial (text ++ rest) = .ok (.number text) rest := by
  have hhead : ∀ c ∈ rest.head?, isNumberChar c = false := by
    intro c hc
    cases rest with
    | nil => cases hc
    | cons =>
      cases hc
      exact hends.head.1
  obtain ⟨htake, hdrop⟩ := takeWhile_append_of_all (isNumberChar_of_isNumberText h) hhead
  rw [number, htake, hdrop]
  exact if_pos (isNumeric_of_isNumberText h)

variable {v : JsonValue} {word : Units}

theorem keyword_of_mem
    (h : (word, v) ∈ [(units "true", JsonValue.bool true), (units "false", .bool false),
      (units "null", .null)]) (inPartial b : Bool) (hends : Ends rest) :
    keyword inPartial b (word ++ rest) = .ok v rest := by
  simp only [mem_cons, not_mem_nil, or_false, Prod.mk.injEq] at h
  have hfind : findKeyword (word ++ rest) = some (word, v) := by
    cases rest with
    | nil => rcases h with ⟨rfl, rfl⟩ | ⟨rfl, rfl⟩ | ⟨rfl, rfl⟩ <;> rfl
    | cons =>
      have hc := hends.head.2
      rcases h with ⟨rfl, rfl⟩ | ⟨rfl, rfl⟩ | ⟨rfl, rfl⟩ <;>
        simp [findKeyword, keywordValues, units, hc]
  rw [keyword, hfind]
  dsimp only
  rw [drop_left]

/-! ### What is read of JSON -/

theorem value_word
    (h : (word, v) ∈ [(units "true", JsonValue.bool true), (units "false", .bool false),
      (units "null", .null)]) (inPartial b : Bool) (fuel : ℕ) (hends : Ends rest) :
    value inPartial (fuel + 1) b (word ++ rest) = .ok v rest := by
  have hkeyword := keyword_of_mem h inPartial b hends
  obtain ⟨c, letters, rfl, hc⟩ : ∃ c letters, word = c :: letters ∧ (c = 116 ∨ c = 102 ∨ c = 110) := by
    simp only [mem_cons, not_mem_nil, or_false, Prod.mk.injEq] at h
    rcases h with ⟨rfl, -⟩ | ⟨rfl, -⟩ | ⟨rfl, -⟩
    · exact ⟨_, _, rfl, .inl rfl⟩
    · exact ⟨_, _, rfl, .inr (.inl rfl)⟩
    · exact ⟨_, _, rfl, .inr (.inr rfl)⟩
  have hdigit : isDigit c = false := by
    rcases hc with rfl | rfl | rfl <;> rfl
  rw [cons_append, value, if_neg (by omega), if_neg (by omega), if_neg (by omega),
    if_neg (by simp [hdigit]; omega)]
  exact hkeyword

theorem IsNumberText.exists_cons (h : IsNumberText text) :
    ∃ c rest, (c = 45 ∨ isDigit c = true) ∧ text = c :: rest := by
  obtain ⟨sign, text, rfl | rfl, hunsigned, rfl⟩ := h.split
  · obtain ⟨c, text', hc, rfl⟩ := hunsigned.exists_cons
    exact ⟨c, text', .inr hc, rfl⟩
  · exact ⟨45, text, .inl rfl, rfl⟩

/-- A text that starts like a number is read as one. -/
theorem value_number (hc : c = 45 ∨ isDigit c = true) (inPartial b : Bool) (fuel : ℕ)
    (rest : Units) : value inPartial (fuel + 1) b (c :: rest) = number inPartial (c :: rest) := by
  have hrange : c = 45 ∨ 48 ≤ c ∧ c ≤ 57 := hc.imp_right (isDigit_iff c).mp
  rw [value, if_neg (by omega), if_neg (by omega), if_neg (by omega),
    if_pos (hc.imp_right fun h => .inr (.inr h))]

theorem value_array (inPartial b : Bool) (fuel : ℕ) (rest : Units) :
    value inPartial (fuel + 1) b (91 :: rest) = arrayLoop inPartial fuel [] rest := by
  rw [value, if_neg (by decide), if_pos rfl]

theorem value_object (inPartial b : Bool) (fuel : ℕ) (rest : Units) :
    value inPartial (fuel + 1) b (123 :: rest) = objectLoop inPartial fuel [] rest := by
  rw [value, if_pos rfl]

/-- An element of JSON, with the space around it, is read as its value. -/
def ReadsElement (v : JsonValue) (text : Units) : Prop :=
  ∀ inPartial fuel rest, 2 * text.length ≤ fuel → ws .plain rest = rest → Ends rest →
    ∃ c t mid, ws .plain (text ++ rest) = c :: t ∧ c ∉ [93, 44, 125] ∧
      (∀ b, value inPartial fuel b (c :: t) = .ok (build v) mid) ∧ ws .plain mid = rest

/-- How the phrases of the grammar are read. -/
def RelaxedReads : Phrase → Units → Prop
  | .value v, text => ∀ inPartial fuel b rest, 2 * text.length ≤ fuel → Ends rest →
      value inPartial fuel b (text ++ rest) = .ok (build v) rest
  | .element v, text => ReadsElement v text
  | .elements items, text => ∀ inPartial fuel out rest, 2 * text.length < fuel →
      arrayLoop inPartial fuel out (text ++ 93 :: rest) = .ok (.array (out ++ buildItems items)) rest
  | .member name v, text => ∀ inPartial fuel out e rest, 2 * text.length ≤ fuel → e = 44 ∨ e = 125 →
      objectLoop inPartial (fuel + 1) out (text ++ e :: rest) =
        if e = 44 then objectLoop inPartial fuel (assign out name (build v)) rest
        else .ok (.object (assign out name (build v))) rest
  | .members members, text => ∀ inPartial fuel out rest, 2 * text.length < fuel →
      objectLoop inPartial fuel out (text ++ 125 :: rest) =
        .ok (.object (buildMembers out members)) rest

theorem Denotes.exists_cons (h : Denotes false text (.value v)) :
    ∃ c rest, text = c :: rest ∧ isWhitespace c = false ∧ c ≠ 47 ∧ c ∉ [93, 44, 125] := by
  cases h with
  | literalNull => exact ⟨_, _, rfl, by decide⟩
  | literalTrue => exact ⟨_, _, rfl, by decide⟩
  | literalFalse => exact ⟨_, _, rfl, by decide⟩
  | number hnumber =>
    obtain ⟨c, rest, hc, heq⟩ := IsNumberText.exists_cons ⟨_, _, _, _, hnumber, rfl⟩
    rw [isDigit_iff] at hc
    refine ⟨c, rest, heq, ?_, by omega, ?_⟩
    · simp only [isWhitespace, Bool.or_eq_false_iff, decide_eq_false_iff_not]
      omega
    simp only [mem_cons, not_mem_nil, or_false]
    omega
  | string => exact ⟨34, _, rfl, by decide⟩
  | emptyArray => exact ⟨91, _, rfl, by decide⟩
  | array => exact ⟨91, _, rfl, by decide⟩
  | emptyObject => exact ⟨123, _, rfl, by decide⟩
  | object => exact ⟨123, _, rfl, by decide⟩

variable {phrase : Phrase}

theorem relaxedReads_of_denotes (h : Denotes false text phrase) : RelaxedReads phrase text := by
  induction h with
  | literalNull | literalTrue | literalFalse =>
    intro inPartial fuel b rest hfuel hends
    obtain ⟨fuel, rfl⟩ := Nat.exists_eq_add_of_lt (Nat.lt_of_lt_of_le (by decide) hfuel : 0 < fuel)
    rw [Nat.zero_add, build]
    exact value_word (by simp [units]) inPartial b fuel hends
  | @number sign integer fraction exponent hnumber =>
    intro inPartial fuel b rest hfuel hends
    have htext : IsNumberText (sign ++ integer ++ fraction ++ exponent) :=
      ⟨_, _, _, _, hnumber, rfl⟩
    have hread := number_of_isNumberText htext inPartial hends
    rw [build]
    revert hfuel hread
    obtain ⟨c, text, hc, heq⟩ := htext.exists_cons
    rw [heq]
    intro hfuel hread
    cases fuel with
    | zero => cases hfuel
    | succ fuel => exact (value_number hc inPartial b fuel (text ++ rest)).trans hread
  | string hbody =>
    intro inPartial fuel b rest hfuel hends
    rw [build]
    cases fuel with
    | zero => cases hfuel
    | succ =>
      rw [cons_append, value_string, string_of_stringBody hbody inPartial hends]
  | @emptyArray space hspace =>
    intro inPartial fuel b rest hfuel _
    simp only [length_append, length_singleton] at hfuel
    obtain ⟨fuel, rfl⟩ := Nat.exists_eq_add_of_le (show 2 ≤ fuel by omega)
    rw [build, buildItems, append_assoc, append_assoc, Nat.add_comm]
    refine (value_array inPartial b (fuel + 1) _).trans ?_
    have hws : ws .plain (space ++ 93 :: rest) = 93 :: rest :=
      (ws_space hspace _).trans (ws_cons rfl (by decide) rest)
    show arrayLoop inPartial (fuel + 1) [] (space ++ 93 :: rest) = _
    rw [arrayLoop, hws]
    exact if_pos rfl
  | @array text items _ ih =>
    intro inPartial fuel b rest hfuel _
    simp only [length_append, length_singleton] at hfuel
    obtain ⟨fuel, rfl⟩ := Nat.exists_eq_add_of_le (show 1 ≤ fuel by omega)
    rw [build, append_assoc, append_assoc, Nat.add_comm]
    exact (value_array inPartial b fuel _).trans (ih inPartial fuel [] rest (by omega))
  | @emptyObject space hspace =>
    intro inPartial fuel b rest hfuel _
    simp only [length_append, length_singleton] at hfuel
    obtain ⟨fuel, rfl⟩ := Nat.exists_eq_add_of_le (show 2 ≤ fuel by omega)
    rw [build, buildMembers, append_assoc, append_assoc, Nat.add_comm]
    refine (value_object inPartial b (fuel + 1) _).trans ?_
    have hws : ws .plain (space ++ 125 :: rest) = 125 :: rest :=
      (ws_space hspace _).trans (ws_cons rfl (by decide) rest)
    show objectLoop inPartial (fuel + 1) [] (space ++ 125 :: rest) = _
    rw [objectLoop, hws]
    exact if_pos rfl
  | @object text members _ ih =>
    intro inPartial fuel b rest hfuel _
    simp only [length_append, length_singleton] at hfuel
    obtain ⟨fuel, rfl⟩ := Nat.exists_eq_add_of_le (show 1 ≤ fuel by omega)
    rw [build, append_assoc, append_assoc, Nat.add_comm]
    exact (value_object inPartial b fuel _).trans (ih inPartial fuel [] rest (by omega))
  | @element before text after v hbefore hafter h ih =>
    intro inPartial fuel rest hfuel hrest hends
    simp only [length_append] at hfuel
    obtain ⟨c, t, rfl, hspace, hslash, hc⟩ := h.exists_cons
    refine ⟨c, t ++ (after ++ rest), after ++ rest, ?_, hc, fun b => ?_, ?_⟩
    · rw [append_assoc, append_assoc, ws_space hbefore]
      exact ws_cons hspace hslash _
    · exact ih inPartial fuel b (after ++ rest) (by omega) (ends_space hafter hends)
    · rw [ws_space hafter, hrest]
  | @lastElement text v _ ih =>
    intro inPartial fuel out rest hfuel
    obtain ⟨fuel, rfl⟩ := Nat.exists_eq_add_of_le' (show 1 ≤ fuel by omega)
    obtain ⟨c, t, mid, hws, hc, hvalue, hmid⟩ := ih inPartial fuel (93 :: rest) (by omega)
      (ws_cons rfl (by decide) rest) (ends_cons (by decide) rest)
    simp only [mem_cons, not_mem_nil, or_false, not_or] at hc
    rw [arrayLoop_item hws hc.1 hc.2.1, hvalue]
    dsimp only
    rw [hmid, buildItems, buildItems]
    rfl
  | @elements text items v vs _ _ ih ihrest =>
    intro inPartial fuel out rest hfuel
    simp only [length_append, length_singleton] at hfuel
    obtain ⟨fuel, rfl⟩ := Nat.exists_eq_add_of_le' (show 1 ≤ fuel by omega)
    rw [append_assoc, append_assoc]
    obtain ⟨c, t, mid, hws, hc, hvalue, hmid⟩ := ih inPartial fuel (44 :: (items ++ 93 :: rest))
      (by omega) (ws_cons rfl (by decide) _) (ends_cons (by decide) _)
    simp only [mem_cons, not_mem_nil, or_false, not_or] at hc
    refine (arrayLoop_item hws hc.1 hc.2.1).trans ?_
    rw [hvalue]
    dsimp only
    rw [hmid]
    dsimp only
    rw [if_pos rfl, ihrest inPartial fuel _ rest (by omega), append_assoc, buildItems]
    rfl
  | @member before body after text name v hbefore hkey hafter _ ih =>
    intro inPartial fuel out e rest hfuel he
    simp only [length_append, length_cons] at hfuel
    have hends : Ends (e :: rest) := ends_cons (by omega) rest
    have hrest : ws .plain (e :: rest) = e :: rest := by
      rcases he with rfl | rfl
      · exact ws_cons rfl (by decide) rest
      · exact ws_cons rfl (by decide) rest
    obtain ⟨c, t, mid, hws, hc, hvalue, hmid⟩ := ih inPartial fuel (e :: rest) (by omega) hrest hends
    have hquote : ws .plain (before ++ (34 :: body) ++ after ++ [58] ++ text ++ e :: rest) =
        34 :: (body ++ (after ++ 58 :: (text ++ e :: rest))) := by
      simp only [append_assoc, cons_append, nil_append]
      exact (ws_space hbefore _).trans (ws_cons rfl (by decide) _)
    have hcolon : ws .plain (after ++ 58 :: (text ++ e :: rest)) = 58 :: (text ++ e :: rest) :=
      (ws_space hafter _).trans (ws_cons rfl (by decide) _)
    rw [objectLoop_member hquote, string_of_stringBody hkey inPartial
      (ends_space hafter (ends_cons (by decide) _))]
    dsimp only
    rw [hcolon]
    dsimp only
    rw [if_neg (by decide), hws]
    dsimp only
    rw [hvalue]
    dsimp only
    rw [hmid]
    dsimp only
    rcases he with rfl | rfl <;> rfl
  | @lastMember text name v _ ih =>
    intro inPartial fuel out rest hfuel
    obtain ⟨fuel, rfl⟩ := Nat.exists_eq_add_of_le' (show 1 ≤ fuel by omega)
    rw [ih inPartial fuel out 125 rest (by omega) (.inr rfl), buildMembers, buildMembers]
    rfl
  | @members text items name v ms _ _ ih ihrest =>
    intro inPartial fuel out rest hfuel
    simp only [length_append, length_singleton] at hfuel
    obtain ⟨fuel, rfl⟩ := Nat.exists_eq_add_of_le' (show 1 ≤ fuel by omega)
    rw [append_assoc, append_assoc, buildMembers]
    refine (ih inPartial fuel out 44 (items ++ 125 :: rest) (by omega) (.inl rfl)).trans ?_
    rw [if_pos rfl, ihrest inPartial fuel _ rest (by omega)]

/-! ### Truncated values -/

variable {cut : Units}

theorem prefix_append_cases {a b : Units} (h : cut <+: a ++ b) :
    cut <+: a ∨ ∃ rest, cut = a ++ rest ∧ rest <+: b := by
  by_cases hlength : cut.length ≤ a.length
  · exact .inl (prefix_of_prefix_length_le h (prefix_append a b) hlength)
  obtain ⟨rest, rfl⟩ := prefix_of_prefix_length_le (prefix_append a b) h
    (Nat.le_of_not_le hlength)
  exact .inr ⟨rest, rfl, (prefix_append_right_inj a).mp h⟩

variable {space : Units}

theorem isSpace_of_start (h : IsSpace space) (hcut : cut <+: space) :
    IsSpace cut := fun c hc => h c (hcut.subset hc)

/-- The read of a value comes to the end of the text, or it throws. -/
def AtEnd (parsed : Parsed) : Prop :=
  parsed = .throws ∨ ∃ v rest, parsed = .ok v rest ∧ ws .plain rest = []

theorem atEnd_number (h : IsNumberText text) (hcut : cut <+: text) : AtEnd (number false cut) := by
  have hall : ∀ c ∈ cut, isNumberChar c = true := fun c hc =>
    isNumberChar_of_isNumberText h c (hcut.subset hc)
  have hrest : cut.dropWhile isNumberChar = [] := dropWhile_eq_nil_iff.mpr hall
  rw [number, hrest]
  split
  · exact .inr ⟨_, [], rfl, rfl⟩
  · exact .inl rfl

theorem scanBareword_eq_none (h : ∀ c ∈ text, 97 ≤ c ∧ c ≤ 122) : scanBareword text = none := by
  induction text with
  | nil => rfl
  | cons c text ih =>
    rw [forall_mem_cons] at h
    rw [scanBareword, if_neg (by omega), if_neg (by omega), ih h.2]
    rfl

theorem atEnd_keyword (h : word ∈ keywords) (hcut : cut <+: word)
    (hne : cut ≠ []) (fuel : ℕ) (b : Bool) : AtEnd (value false (fuel + 1) b cut) := by
  have hletters : ∀ word ∈ keywords, ∀ c ∈ word, 97 ≤ c ∧ c ≤ 122 := by decide
  have hfound : ∀ word ∈ keywords, ∀ cut ∈ word.inits, cut ≠ [] →
      ((findKeyword cut).map fun found => cut.drop found.1.length) ∈ [none, some []] := by
    decide
  have hmem := hfound word h cut ((mem_inits cut word).mpr hcut) hne
  have hcutLetters : ∀ c ∈ cut, 97 ≤ c ∧ c ≤ 122 := fun c hc =>
    hletters word h c (hcut.subset hc)
  cases cut with
  | nil => exact absurd rfl hne
  | cons c cut =>
    have hc := hcutLetters c mem_cons_self
    have hdigit : isDigit c = false := by
      rw [Bool.eq_false_iff, Ne, isDigit_iff]
      omega
    rw [value, if_neg (by omega), if_neg (by omega), if_neg (by omega),
      if_neg (by simp [hdigit]; omega), keyword]
    cases hfind : findKeyword (c :: cut) with
    | some found =>
      rw [hfind] at hmem
      simp only [Option.map_some, mem_cons, not_mem_nil, or_false, Option.some_inj] at hmem
      rcases hmem with hmem | hmem
      · cases hmem
      · exact .inr ⟨found.2, (c :: cut).drop found.1.length, rfl, by rw [hmem]; rfl⟩
    | none =>
      refine .inl ?_
      rw [bareword, scanBareword_eq_none hcutLetters]
      cases b <;> rfl

/-- How the beginnings of the phrases are read in strict mode. -/
def ReadsCut : Phrase → Units → Prop
  | .value v, text => ∀ fuel b cut, cut <+: text → cut ≠ [] → 2 * cut.length ≤ fuel →
      AtEnd (value false fuel b cut) ∧
      (cut ≠ text → (∃ members, v = .object members) → value false fuel b cut = .throws)
  | .element _, text => ∀ fuel cut, cut <+: text → 2 * cut.length ≤ fuel →
      ws .plain cut = [] ∨ ∃ c t, ws .plain cut = c :: t ∧ c ∉ [93, 44, 125] ∧
        ∀ b, AtEnd (value false fuel b (c :: t))
  | .elements _, text => ∀ fuel out cut, cut <+: text → 2 * cut.length < fuel →
      arrayLoop false fuel out cut = .throws
  | .member _ _, text => ∀ fuel out cut, cut <+: text → 2 * cut.length ≤ fuel →
      objectLoop false (fuel + 1) out cut = .throws
  | .members _, text => ∀ fuel out cut, cut <+: text → 2 * cut.length < fuel →
      objectLoop false fuel out cut = .throws

variable {fuel : ℕ} {out : List JsonValue}

theorem arrayLoop_nil (h : ws .plain text = []) :
    arrayLoop false (fuel + 1) out text = .throws := by
  rw [arrayLoop, h]
  rfl

theorem objectLoop_nil {out : List (Units × JsonValue)}
    (h : ws .plain text = []) : objectLoop false (fuel + 1) out text = .throws := by
  rw [objectLoop, h]
  rfl

theorem arrayLoop_of_cut (h : ReadsCut (.element v) text)
    (hcut : cut <+: text) (hfuel : 2 * cut.length ≤ fuel) :
    arrayLoop false (fuel + 1) out cut = .throws := by
  rcases h fuel cut hcut hfuel with hws | ⟨c, t, hws, hc, hvalue⟩
  · exact arrayLoop_nil hws
  simp only [mem_cons, not_mem_nil, or_false, not_or] at hc
  rw [arrayLoop_item hws hc.1 hc.2.1]
  rcases hvalue true with hthrows | ⟨v, rest, hok, hrest⟩
  · rw [hthrows]
  rw [hok]
  dsimp only
  rw [hrest]
  rfl

theorem value_emptyContainer {b : Bool}
    (hc : c = 91 ∨ c = 123) (hspace : IsSpace space) (hcut : cut <+: space) :
    value false (fuel + 2) b (c :: cut) = .throws := by
  have hws := ws_of_isSpace (isSpace_of_start hspace hcut)
  rcases hc with rfl | rfl
  · rw [value_array, arrayLoop_nil hws]
  · rw [value_object, objectLoop_nil hws]

/-- What begins a text in brackets is the bracket, and what begins the rest up to the other one. -/
theorem prefix_brackets {o : ℕ} (h : cut <+: [o] ++ text ++ [c])
    (hne : cut ≠ []) : cut = [o] ++ text ++ [c] ∨ ∃ inner, cut = o :: inner ∧ inner <+: text := by
  cases cut with
  | nil => exact absurd rfl hne
  | cons d cut =>
    rw [append_assoc] at h
    obtain ⟨rfl, htail⟩ := cons_prefix_cons.mp h
    have htail' : cut <+: text ++ [c] := htail
    rcases prefix_append_cases htail' with hinner | ⟨rest, rfl, hrest⟩
    · exact .inr ⟨cut, rfl, hinner⟩
    cases rest with
    | nil =>
      rw [append_nil]
      exact .inr ⟨text, rfl, prefix_refl text⟩
    | cons =>
      obtain ⟨rfl, hnil⟩ := cons_prefix_cons.mp hrest
      rw [prefix_nil.mp hnil, append_assoc]
      exact .inl rfl

/-- A container that is cut behind its opening throws; one that is not cut is read to the end. -/
theorem readsCut_container {o : ℕ} (h : Denotes false ([o] ++ text ++ [c]) (.value v))
    (hinner : ∀ fuel b inner, inner <+: text → 2 * inner.length + 2 ≤ fuel →
      value false fuel b (o :: inner) = .throws) : ReadsCut (.value v) ([o] ++ text ++ [c]) := by
  intro fuel b cut hcut hne hfuel
  rcases prefix_brackets hcut hne with rfl | ⟨inner, rfl, hstart⟩
  · have hread := relaxedReads_of_denotes h false fuel b [] hfuel ends_nil
    rw [append_nil] at hread
    exact ⟨.inr ⟨_, [], hread, rfl⟩, fun hne => absurd rfl hne⟩
  rw [length_cons] at hfuel
  have hthrows := hinner fuel b inner hstart (by omega)
  exact ⟨.inl hthrows, fun _ _ => hthrows⟩

theorem readsCut_of_denotes (h : Denotes false text phrase) : ReadsCut phrase text := by
  have hkeyword {word : Units} {v : JsonValue} (hmem : word ∈ keywords)
      (hv : ¬ ∃ members, v = .object members) : ReadsCut (.value v) word := by
    intro fuel b cut hcut hne hfuel
    have hpos := length_pos_iff.mpr hne
    obtain ⟨fuel, rfl⟩ := Nat.exists_eq_add_of_le' (show 1 ≤ fuel by omega)
    exact ⟨atEnd_keyword hmem hcut hne fuel b, fun _ hobject => absurd hobject hv⟩
  induction h with
  | literalNull | literalTrue | literalFalse =>
    exact hkeyword (by decide) (by rintro ⟨_, h⟩; cases h)
  | @number sign integer fraction exponent hnumber =>
    intro fuel b cut hcut hne hfuel
    have htext : IsNumberText (sign ++ integer ++ fraction ++ exponent) :=
      ⟨_, _, _, _, hnumber, rfl⟩
    refine ⟨?_, fun _ hobject => by obtain ⟨_, h⟩ := hobject; cases h⟩
    have hend := atEnd_number htext hcut
    obtain ⟨c, text, hc, heq⟩ := htext.exists_cons
    rw [heq] at hcut
    cases cut with
    | nil => exact absurd rfl hne
    | cons =>
      obtain ⟨rfl, -⟩ := cons_prefix_cons.mp hcut
      rw [length_cons] at hfuel
      obtain ⟨fuel, rfl⟩ := Nat.exists_eq_add_of_le' (show 1 ≤ fuel by omega)
      rw [value_number hc]
      exact hend
  | @string body text hbody =>
    intro fuel b cut hcut hne hfuel
    refine ⟨?_, fun _ hobject => by obtain ⟨_, h⟩ := hobject; cases h⟩
    cases cut with
    | nil => exact absurd rfl hne
    | cons d cut =>
      obtain ⟨rfl, htail⟩ := cons_prefix_cons.mp hcut
      rw [length_cons] at hfuel
      obtain ⟨fuel, rfl⟩ := Nat.exists_eq_add_of_le' (show 1 ≤ fuel by omega)
      rw [value_string]
      by_cases heq : cut = body
      · have hread := string_of_stringBody hbody false ends_nil
        rw [append_nil] at hread
        rw [heq, hread]
        exact .inr ⟨_, [], rfl, rfl⟩
      rw [string_of_cut hbody htail heq]
      exact .inl rfl
  | @emptyArray space hspace =>
    refine readsCut_container (.emptyArray hspace) fun fuel b inner hinner hfuel => ?_
    obtain ⟨fuel, rfl⟩ := Nat.exists_eq_add_of_le' (show 2 ≤ fuel by omega)
    exact value_emptyContainer (.inl rfl) hspace hinner
  | @array text items h ih =>
    refine readsCut_container (.array h) fun fuel b inner hinner hfuel => ?_
    obtain ⟨fuel, rfl⟩ := Nat.exists_eq_add_of_le' (show 1 ≤ fuel by omega)
    rw [value_array]
    exact ih fuel [] inner hinner (by omega)
  | @emptyObject space hspace =>
    refine readsCut_container (.emptyObject hspace) fun fuel b inner hinner hfuel => ?_
    obtain ⟨fuel, rfl⟩ := Nat.exists_eq_add_of_le' (show 2 ≤ fuel by omega)
    exact value_emptyContainer (.inr rfl) hspace hinner
  | @object text members h ih =>
    refine readsCut_container (.object h) fun fuel b inner hinner hfuel => ?_
    obtain ⟨fuel, rfl⟩ := Nat.exists_eq_add_of_le' (show 1 ≤ fuel by omega)
    rw [value_object]
    exact ih fuel [] inner hinner (by omega)
  | @element before text after v hbefore hafter h ih =>
    intro fuel cut hcut hfuel
    rw [append_assoc] at hcut
    rcases prefix_append_cases hcut with hcut | ⟨tail, rfl, htail⟩
    · exact .inl (ws_of_isSpace (isSpace_of_start hbefore hcut))
    cases tail with
    | nil =>
      rw [append_nil]
      exact .inl (ws_of_isSpace hbefore)
    | cons d tail =>
      rw [length_append] at hfuel
      obtain ⟨c, t, heq, hspace, hslash, hc⟩ := h.exists_cons
      have hd : d = c := by
        rw [heq] at htail
        exact (cons_prefix_cons.mp htail).1
      subst hd
      refine .inr ⟨d, tail, (ws_space hbefore _).trans (ws_cons hspace hslash tail), hc, fun b => ?_⟩
      rcases prefix_append_cases htail with hstart | ⟨space, heq', hstart⟩
      · exact (ih fuel b _ hstart (cons_ne_nil _ _) (by omega)).1
      rw [heq'] at hfuel ⊢
      rw [length_append] at hfuel
      have hrest := isSpace_of_start hafter hstart
      refine .inr ⟨build v, space, ?_, ws_of_isSpace hrest⟩
      exact relaxedReads_of_denotes h false fuel b space (by omega) (ends_of_isSpace hrest)
  | @lastElement text v _ ih =>
    intro fuel out cut hcut hfuel
    obtain ⟨fuel, rfl⟩ := Nat.exists_eq_add_of_le' (show 1 ≤ fuel by omega)
    exact arrayLoop_of_cut ih hcut (by omega)
  | @elements text items v vs h _ ih ihrest =>
    intro fuel out cut hcut hfuel
    obtain ⟨fuel, rfl⟩ := Nat.exists_eq_add_of_le' (show 1 ≤ fuel by omega)
    rw [append_assoc] at hcut
    rcases prefix_append_cases hcut with hcut | ⟨tail, rfl, htail⟩
    · exact arrayLoop_of_cut ih hcut (by omega)
    cases tail with
    | nil =>
      rw [append_nil] at hfuel ⊢
      exact arrayLoop_of_cut ih (prefix_refl text) (by omega)
    | cons e tail =>
      obtain ⟨rfl, hrest'⟩ := cons_prefix_cons.mp htail
      rw [length_append, length_cons] at hfuel
      obtain ⟨c, t, mid, hws, hc, hvalue, hmid⟩ := relaxedReads_of_denotes h false fuel (44 :: tail)
        (by omega) (ws_cons rfl (by decide) _) (ends_cons (by decide) _)
      simp only [mem_cons, not_mem_nil, or_false, not_or] at hc
      refine (arrayLoop_item hws hc.1 hc.2.1).trans ?_
      rw [hvalue]
      dsimp only
      rw [hmid]
      dsimp only
      rw [if_pos rfl]
      exact ihrest fuel _ tail hrest' (by omega)
  | @member before body after text name v hbefore hkey hafter _ ih =>
    intro fuel out cut hcut hfuel
    simp only [append_assoc] at hcut
    rcases prefix_append_cases hcut with hcut | ⟨quoted, rfl, hquoted⟩
    · exact objectLoop_nil (ws_of_isSpace (isSpace_of_start hbefore hcut))
    cases quoted with
    | nil =>
      rw [append_nil]
      exact objectLoop_nil (ws_of_isSpace hbefore)
    | cons e quoted =>
      obtain ⟨rfl, htail⟩ := cons_prefix_cons.mp hquoted
      have htail' : quoted <+: body ++ (after ++ ([58] ++ text)) := htail
      have hquote : ws .plain (before ++ 34 :: quoted) = 34 :: quoted :=
        (ws_space hbefore _).trans (ws_cons rfl (by decide) _)
      rw [objectLoop_member hquote]
      rw [length_append, length_cons] at hfuel
      by_cases hbody : quoted <+: body ∧ quoted ≠ body
      · rw [string_of_cut hkey hbody.1 hbody.2]
      obtain ⟨tail, rfl, hrest⟩ : ∃ rest, quoted = body ++ rest ∧
          rest <+: after ++ ([58] ++ text) := by
        rcases prefix_append_cases htail' with hstart | hrest
        · refine ⟨[], ?_, nil_prefix⟩
          rw [append_nil]
          by_contra hne
          exact hbody ⟨hstart, hne⟩
        · exact hrest
      rcases prefix_append_cases hrest with hspace | ⟨colon, rfl, hcolon⟩
      · have hspace' := isSpace_of_start hafter hspace
        rw [string_of_stringBody hkey false (ends_of_isSpace hspace')]
        dsimp only
        rw [ws_of_isSpace hspace']
        rfl
      cases colon with
      | nil =>
        rw [append_nil, string_of_stringBody hkey false (ends_of_isSpace hafter)]
        dsimp only
        rw [ws_of_isSpace hafter]
        rfl
      | cons d tail =>
        obtain ⟨rfl, htext⟩ := cons_prefix_cons.mp hcolon
        simp only [length_append, length_cons] at hfuel
        have hws : ws .plain (after ++ 58 :: tail) = 58 :: tail :=
          (ws_space hafter _).trans (ws_cons rfl (by decide) _)
        rw [string_of_stringBody hkey false (ends_space hafter (ends_cons (by decide) _))]
        dsimp only
        rw [hws]
        dsimp only
        rw [if_neg (by decide)]
        rcases ih fuel tail htext (by omega) with hnil | ⟨c, t, hcons, -, hvalue⟩
        · rw [hnil]
          rfl
        rw [hcons]
        dsimp only
        rcases hvalue true with hthrows | ⟨v, rest, hok, hend⟩
        · rw [hthrows]
        rw [hok]
        dsimp only
        rw [hend]
        rfl
  | @lastMember text name v _ ih =>
    intro fuel out cut hcut hfuel
    obtain ⟨fuel, rfl⟩ := Nat.exists_eq_add_of_le' (show 1 ≤ fuel by omega)
    exact ih fuel out cut hcut (by omega)
  | @members text items name v ms h _ ih ihrest =>
    intro fuel out cut hcut hfuel
    obtain ⟨fuel, rfl⟩ := Nat.exists_eq_add_of_le' (show 1 ≤ fuel by omega)
    rw [append_assoc] at hcut
    rcases prefix_append_cases hcut with hcut | ⟨tail, rfl, htail⟩
    · exact ih fuel out cut hcut (by omega)
    cases tail with
    | nil =>
      rw [append_nil] at hfuel ⊢
      exact ih fuel out text (prefix_refl text) (by omega)
    | cons e tail =>
      obtain ⟨rfl, hrest'⟩ := cons_prefix_cons.mp htail
      rw [length_append, length_cons] at hfuel
      refine (relaxedReads_of_denotes h false fuel out 44 tail (by omega) (.inl rfl)).trans ?_
      rw [if_pos rfl]
      exact ihrest fuel _ tail hrest' (by omega)

/-! ### The parser -/

theorem relaxedParse_of_isJson (h : IsJson text v)
    (inPartial : Bool) : relaxedParse inPartial text = .value (build v) := by
  obtain ⟨c, t, mid, hws, -, hvalue, hmid⟩ := relaxedReads_of_denotes h inPartial
    (2 * text.length + 2) [] (by omega) rfl ends_nil
  rw [append_nil] at hws
  rw [relaxedParse, hws]
  dsimp only
  rw [hvalue]
  dsimp only
  rw [hmid]
  cases inPartial <;> rfl

theorem relaxedParse_of_truncated {before object : Units} {members : List (Units × JsonValue)}
    (hbefore : IsSpace before) (h : Denotes false object (.value (.object members)))
    (hcut : cut <+: before ++ object) (hne : cut ≠ before ++ object) :
    relaxedParse false cut = .throws := by
  rcases prefix_append_cases hcut with hcut | ⟨tail, rfl, htail⟩
  · rw [relaxedParse, ws_of_isSpace (isSpace_of_start hbefore hcut)]
    rfl
  cases tail with
  | nil =>
    rw [relaxedParse, append_nil, ws_of_isSpace hbefore]
    rfl
  | cons c tail =>
    obtain ⟨d, t, heq, hspace, hslash, -⟩ := h.exists_cons
    have hc : c = d := by
      rw [heq] at htail
      exact (cons_prefix_cons.mp htail).1
    subst hc
    have hlength : 2 * (c :: tail).length ≤ 2 * (before ++ c :: tail).length + 2 := by
      rw [length_append]
      omega
    have hthrows := (readsCut_of_denotes h _ false _ htail (cons_ne_nil _ _) hlength).2
      (fun heq => hne (congrArg (before ++ ·) heq)) ⟨members, rfl⟩
    rw [relaxedParse, ws_space hbefore, ws_cons hspace hslash]
    dsimp only
    rw [hthrows]

theorem isNumber_one : IsNumber [] [49] [] [] where
  hsign := .inl rfl
  hinteger := isDigits_cons rfl (by simp)
  hleading h := absurd (Option.some.inj h) (by decide)
  hfraction := .inl rfl
  hexponent := .inl rfl

end BreadboardTui.JsonRepair
