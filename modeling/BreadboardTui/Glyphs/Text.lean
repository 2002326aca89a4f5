import BreadboardTui.Hashline.Tokenizer
import Mathlib.Data.Nat.Digits.Lemmas

/-!
# Glyphs as text

Some providers lose the characters of the private use areas. In front of the wire each of them is
written as a token `⟦Uxxxx⟧` with its code point in hexadecimal, and behind it the tokens are
characters again. A text may hold what looks like a token already: its opening bracket is written
`⟦E⟧`.

A string is the list of its code units. The patterns of the codec have the flag `u`, so they see a
surrogate pair as one code point; a surrogate without its other half is a code point of its own.

* `decode_encode`, `privateUse_encode`: an encoded text can be read back, and has no private use.
-/

namespace BreadboardTui.Glyphs

open List Bool

open Hashline (Units units)

/-! ### Code points -/

def isHighSurrogate (unit : ℕ) : Bool := decide (0xD800 ≤ unit ∧ unit ≤ 0xDBFF)

def isLowSurrogate (unit : ℕ) : Bool := decide (0xDC00 ≤ unit ∧ unit ≤ 0xDFFF)

/-- The code point of a surrogate pair. -/
def pairCode (high low : ℕ) : ℕ := 0x10000 + ((high - 0xD800) * 0x400 + (low - 0xDC00))

def fromCodePoint (code : ℕ) : Units :=
  if code < 0x10000 then [code]
  else [0xD800 + (code - 0x10000) / 0x400, 0xDC00 + (code - 0x10000) % 0x400]

/-- The unit and the first unit behind it are a surrogate pair. -/
def startsPair (unit : ℕ) (rest : Units) : Bool :=
  isHighSurrogate unit && rest.head?.any isLowSurrogate

/-- The code points of a string. -/
def codePoints : Units → List ℕ
  | [] => []
  | [unit] => [unit]
  | unit :: next :: rest =>
    if startsPair unit (next :: rest) then pairCode unit next :: codePoints rest
    else unit :: codePoints (next :: rest)

variable {rest : Units} {high low : ℕ}

theorem codePoints_pair (h : startsPair high (low :: rest) = true) :
    codePoints (high :: low :: rest) = pairCode high low :: codePoints rest := by
  rw [codePoints, if_pos h]

variable {unit : ℕ}

theorem codePoints_single (h : startsPair unit rest = false) :
    codePoints (unit :: rest) = unit :: codePoints rest := by
  cases rest with
  | nil => rfl
  | cons => rw [codePoints, if_neg (by simp [h])]

theorem startsPair_cons : startsPair high (low :: rest) = true ↔
      isHighSurrogate high = true ∧ isLowSurrogate low = true := by
  simp [startsPair]

theorem startsPair_nil : startsPair unit [] = false := by
  simp [startsPair]

theorem code_induction {P : Units → Prop} (nil : P [])
    (pair : ∀ high low rest, startsPair high (low :: rest) = true → P rest →
      P (high :: low :: rest))
    (single : ∀ unit rest, startsPair unit rest = false → P rest → P (unit :: rest))
    (text : Units) : P text := by
  induction text using codePoints.induct with
  | case1 => exact nil
  | case2 unit => exact single unit [] startsPair_nil nil
  | case3 unit next rest h ih => exact pair unit next rest h ih
  | case4 unit next rest h ih => exact single unit (next :: rest) (by simpa using h) ih

theorem fromCodePoint_pairCode (hhigh : isHighSurrogate high = true)
    (hlow : isLowSurrogate low = true) : fromCodePoint (pairCode high low) = [high, low] := by
  simp only [isHighSurrogate, isLowSurrogate, decide_eq_true_eq] at hhigh hlow
  have hsub : pairCode high low - 0x10000 = (high - 0xD800) * 0x400 + (low - 0xDC00) := by
    unfold pairCode
    omega
  have hfirst : 0xD800 + (pairCode high low - 0x10000) / 0x400 = high := by omega
  have hsecond : 0xDC00 + (pairCode high low - 0x10000) % 0x400 = low := by omega
  rw [fromCodePoint, hfirst, hsecond, if_neg]
  unfold pairCode
  omega

/-! ### Private use -/

/-- The class of `GLYPH_ENCODE_PATTERN`: the private use areas. -/
def isPrivateUse (code : ℕ) : Bool :=
  decide (0xE000 ≤ code ∧ code ≤ 0xF8FF) || decide (0xF0000 ≤ code ∧ code ≤ 0xFFFFD) ||
    decide (0x100000 ≤ code ∧ code ≤ 0x10FFFD)

/-- The class of `GLYPH_ENCODE_PRECHECK`, which does not leave out what lies between the last two
areas. -/
def isPrecheckCode (code : ℕ) : Bool :=
  decide (0xE000 ≤ code ∧ code ≤ 0xF8FF) || decide (0xF0000 ≤ code ∧ code ≤ 0x10FFFD)

variable {code : ℕ}

theorem isPrecheckCode_of_isPrivateUse (h : isPrivateUse code = true) :
    isPrecheckCode code = true := by
  simp only [isPrivateUse, isPrecheckCode, or_eq_true, decide_eq_true_eq] at h ⊢
  omega

def hasPrivateUse (text : Units) : Bool := (codePoints text).any isPrivateUse

/-! ### Tokens -/

/-- `⟦` -/
def glyphOpen : ℕ := 0x27E6

/-- `⟧` -/
def glyphClose : ℕ := 0x27E7

def isHex (unit : ℕ) : Bool :=
  decide (48 ≤ unit ∧ unit ≤ 57) || decide (65 ≤ unit ∧ unit ≤ 70) ||
    decide (97 ≤ unit ∧ unit ≤ 102)

/-- What follows the opening bracket of a token: `E`, or the digits behind the `U`. -/
inductive GlyphToken where
  | escape
  | glyph (hex : Units)
  deriving DecidableEq, Repr

/-- `(?:U([0-9a-fA-F]{4,6})|E)⟧`, and the text behind it. -/
def readToken : Units → Option (GlyphToken × Units)
  | [] => none
  | unit :: rest =>
    if unit = 69 then
      if rest.head? = some glyphClose then some (.escape, rest.tail) else none
    else if unit = 85 then
      if (rest.dropWhile isHex).head? = some glyphClose ∧ 4 ≤ (rest.takeWhile isHex).length ∧
          (rest.takeWhile isHex).length ≤ 6 then
        some (.glyph (rest.takeWhile isHex), (rest.dropWhile isHex).tail)
      else none
    else none

variable {token : GlyphToken}

theorem length_after_readToken {text after : Units}
    (h : readToken text = some (token, after)) : after.length < text.length := by
  cases text with
  | nil => cases h
  | cons unit rest =>
    rw [readToken] at h
    split at h
    · split at h
      · cases h
        simp only [length_tail, length_cons]
        omega
      · cases h
    split at h
    · split at h
      · cases h
        have := (dropWhile_suffix (l := rest) isHex).length_le
        simp only [length_tail, length_cons]
        omega
      · cases h
    · cases h

/-! ### Digits -/

def hexDigit (digit : ℕ) : ℕ := if digit < 10 then 48 + digit else 87 + digit

/-- `codepoint.toString(16)` -/
def toHex (code : ℕ) : Units := ((Nat.digits 16 code).map hexDigit).reverse

def hexValue (unit : ℕ) : ℕ :=
  if unit ≤ 57 then unit - 48 else if unit ≤ 70 then unit - 55 else unit - 87

/-- `Number.parseInt(hex, 16)` -/
def parseHex (hex : Units) : ℕ := Nat.ofDigits 16 (hex.reverse.map hexValue)

variable {digit : ℕ}

theorem isHex_hexDigit (h : digit < 16) : isHex (hexDigit digit) = true := by
  rw [hexDigit]
  simp only [isHex, or_eq_true, decide_eq_true_eq]
  split <;> omega

theorem hexValue_hexDigit (h : digit < 16) : hexValue (hexDigit digit) = digit := by
  simp only [hexValue, hexDigit]
  split_ifs <;> omega

theorem isHex_of_mem_toHex (h : unit ∈ toHex code) : isHex unit = true := by
  obtain ⟨digit, hdigit, rfl⟩ := mem_map.mp (mem_reverse.mp h)
  exact isHex_hexDigit (Nat.digits_lt_base (by decide) hdigit)

theorem parseHex_toHex (code : ℕ) : parseHex (toHex code) = code := by
  have hmap : ((Nat.digits 16 code).map hexDigit).map hexValue = Nat.digits 16 code := by
    rw [map_map, map_congr_left (g := id), map_id]
    intro digit hdigit
    exact hexValue_hexDigit (Nat.digits_lt_base (by decide) hdigit)
  rw [parseHex, toHex, reverse_reverse, hmap, Nat.ofDigits_digits]

theorem length_toHex (h : isPrivateUse code = true) :
    4 ≤ (toHex code).length ∧ (toHex code).length ≤ 6 := by
  simp only [isPrivateUse, or_eq_true, decide_eq_true_eq] at h
  rw [toHex, length_reverse, length_map]
  constructor
  · exact (Nat.lt_digits_length_iff (b := 16) (k := 3) (by decide) code).mpr (by omega)
  · exact (Nat.digits_length_le_iff (b := 16) (k := 6) (by decide) code).mpr (by omega)

/-! ### Encoding and decoding -/

/-- `⟦U${codepoint.toString(16)}⟧` -/
def glyphToken (code : ℕ) : Units := glyphOpen :: 85 :: (toHex code ++ [glyphClose])

def glyphEscape : Units := [glyphOpen, 69, glyphClose]

/-- What `GLYPH_ENCODE_PATTERN` matches at a code unit that is a code point is replaced. -/
def replaceUnit (unit : ℕ) (rest : Units) : Units :=
  if isPrivateUse unit then glyphToken unit
  else if unit = glyphOpen ∧ (readToken rest).isSome then glyphEscape
  else [unit]

/-- The `replace` of `encodeGlyphTextInto`. -/
def replaceGlyphs : Units → Units
  | [] => []
  | [unit] => replaceUnit unit []
  | unit :: next :: rest =>
    if startsPair unit (next :: rest) then
      (if isPrivateUse (pairCode unit next) then glyphToken (pairCode unit next)
        else [unit, next]) ++ replaceGlyphs rest
    else replaceUnit unit (next :: rest) ++ replaceGlyphs (next :: rest)

/-- A place where `GLYPH_ENCODE_PRECHECK` finds an opening bracket that looks like a token. -/
def hasTokenShape : Units → Bool
  | [] => false
  | unit :: rest =>
    (decide (unit = glyphOpen) && (readToken rest).isSome) || hasTokenShape rest

/-- `GLYPH_ENCODE_PRECHECK.test(text)` -/
def precheck (text : Units) : Bool := (codePoints text).any isPrecheckCode || hasTokenShape text

def encodeGlyphText (text : Units) : Units := if precheck text then replaceGlyphs text else text

/-- The text that a token stands for. One whose number is no code point stands for itself. -/
def GlyphToken.decode : GlyphToken → Units
  | .escape => [glyphOpen]
  | .glyph hex =>
    if 0x10FFFF < parseHex hex then glyphOpen :: 85 :: (hex ++ [glyphClose])
    else fromCodePoint (parseHex hex)

def decodeGlyphText (text : Units) : Units :=
  match text with
  | [] => []
  | unit :: rest =>
    if unit = glyphOpen then
      match _htoken : readToken rest with
      | some (token, after) => token.decode ++ decodeGlyphText after
      | none => unit :: decodeGlyphText rest
    else unit :: decodeGlyphText rest
termination_by text.length
decreasing_by
  · have := length_after_readToken _htoken
    simp only [length_cons]
    omega
  · simp
  · simp

/-! ### Equations -/

theorem replaceGlyphs_pair (h : startsPair high (low :: rest) = true) :
    replaceGlyphs (high :: low :: rest) =
      (if isPrivateUse (pairCode high low) then glyphToken (pairCode high low)
        else [high, low]) ++ replaceGlyphs rest := by
  rw [replaceGlyphs, if_pos h]

theorem replaceGlyphs_single (h : startsPair unit rest = false) :
    replaceGlyphs (unit :: rest) = replaceUnit unit rest ++ replaceGlyphs rest := by
  cases rest with
  | nil => simp [replaceGlyphs]
  | cons => rw [replaceGlyphs, if_neg (by simp [h])]

theorem decode_cons (h : unit ≠ glyphOpen ∨ readToken rest = none) :
    decodeGlyphText (unit :: rest) = unit :: decodeGlyphText rest := by
  rw [decodeGlyphText]
  split
  · next hopen =>
    split
    · next htoken =>
      rcases h with h | h
      · exact absurd hopen h
      rw [h] at htoken
      cases htoken
    · rfl
  · rfl

theorem decode_token {after : Units} (h : readToken rest = some (token, after)) :
    decodeGlyphText (glyphOpen :: rest) = token.decode ++ decodeGlyphText after := by
  rw [decodeGlyphText, if_pos rfl]
  split
  · next htoken =>
    rw [h] at htoken
    cases htoken
    rfl
  next hnone =>
  rw [h] at hnone
  cases hnone

/-! ### What an encoded text begins with -/

/-- The units that tokens are made of, behind their opening bracket. -/
def isTokenUnit (unit : ℕ) : Bool := unit = 69 || unit = 85 || unit = glyphClose || isHex unit

theorem plain_of_isTokenUnit (h : isTokenUnit unit = true) :
    isHighSurrogate unit = false ∧ isLowSurrogate unit = false ∧ isPrivateUse unit = false ∧
      unit ≠ glyphOpen := by
  have hlt : unit < 0x80 ∨ unit = glyphClose := by
    simp only [isTokenUnit, isHex, or_eq_true, decide_eq_true_eq] at h
    omega
  unfold glyphClose at hlt
  simp only [isHighSurrogate, isLowSurrogate, isPrivateUse, glyphOpen, or_eq_false_iff,
    decide_eq_false_iff_not]
  omega

theorem replaceGlyphs_tokenUnit (h : isTokenUnit unit = true) (rest : Units) :
    replaceGlyphs (unit :: rest) = unit :: replaceGlyphs rest := by
  obtain ⟨hhigh, -, hprivate, hopen⟩ := plain_of_isTokenUnit h
  have hpair : startsPair unit rest = false := by rw [startsPair, hhigh, Bool.false_and]
  rw [replaceGlyphs_single hpair, replaceUnit, hprivate, if_neg Bool.false_ne_true,
    if_neg fun h => hopen h.1]
  rfl

variable (text : Units)

/-- The first unit of an encoded text is the first unit of the text, or a bracket that opens. -/
theorem head_replaceGlyphs :
    (replaceGlyphs text).head? = text.head? ∨ (replaceGlyphs text).head? = some glyphOpen := by
  induction text using code_induction with
  | nil => exact .inl rfl
  | pair high low rest h =>
    rw [replaceGlyphs_pair h]
    split
    · exact .inr rfl
    · exact .inl rfl
  | single unit rest h =>
    rw [replaceGlyphs_single h, replaceUnit]
    split_ifs
    · exact .inr rfl
    · exact .inr rfl
    · exact .inl rfl

/-! ### Tokens of an encoded text -/

/-- The digits in front of an encoded text are those in front of the text. -/
theorem span_replaceGlyphs : (replaceGlyphs text).takeWhile isHex = text.takeWhile isHex ∧
      (replaceGlyphs text).dropWhile isHex = replaceGlyphs (text.dropWhile isHex) := by
  induction text with
  | nil => exact ⟨rfl, rfl⟩
  | cons unit rest ih =>
    by_cases hhex : isHex unit = true
    · have htoken : isTokenUnit unit = true := by rw [isTokenUnit, hhex, Bool.or_true]
      rw [replaceGlyphs_tokenUnit htoken, takeWhile_cons_of_pos hhex,
        takeWhile_cons_of_pos hhex, dropWhile_cons_of_pos hhex,
        dropWhile_cons_of_pos hhex, ih.1]
      exact ⟨rfl, ih.2⟩
    rw [takeWhile_cons_of_neg hhex, dropWhile_cons_of_neg hhex]
    -- the first unit is the same one, or a bracket, which is no digit either
    have hhead : ∀ first ∈ (replaceGlyphs (unit :: rest)).head?, ¬ isHex first = true := by
      intro first hfirst
      rcases head_replaceGlyphs (unit :: rest) with h | h
      · rw [h] at hfirst
        cases hfirst
        exact hhex
      rw [h] at hfirst
      cases hfirst
      decide
    cases hencoded : replaceGlyphs (unit :: rest) with
    | nil => exact ⟨rfl, rfl⟩
    | cons first =>
      rw [hencoded] at hhead
      have hfirst := hhead first rfl
      exact ⟨takeWhile_cons_of_neg hfirst, dropWhile_cons_of_neg hfirst⟩

theorem head_close_replaceGlyphs :
    (replaceGlyphs text).head? = some glyphClose ↔ text.head? = some glyphClose := by
  constructor
  · intro h
    rcases head_replaceGlyphs text with hsame | hopen
    · exact hsame.symm.trans h
    rw [h] at hopen
    cases hopen
  intro h
  obtain ⟨rest, rfl⟩ : ∃ rest, text = glyphClose :: rest := by
    cases text with
    | nil => cases h
    | cons first rest =>
      cases h
      exact ⟨rest, rfl⟩
  rw [replaceGlyphs_tokenUnit (by decide)]
  rfl

theorem tail_replaceGlyphs {text : Units} (h : text.head? = some glyphClose) :
    (replaceGlyphs text).tail = replaceGlyphs text.tail := by
  cases text with
  | nil => cases h
  | cons =>
    cases h
    rw [replaceGlyphs_tokenUnit (by decide)]
    rfl

/-- Encoding what follows a bracket neither makes a token of it nor spoils one. -/
theorem readToken_replaceGlyphs : readToken (replaceGlyphs text) =
      (readToken text).map fun token => (token.1, replaceGlyphs token.2) := by
  cases text with
  | nil => rfl
  | cons unit rest =>
    by_cases hescape : unit = 69
    · subst hescape
      rw [replaceGlyphs_tokenUnit (by decide), readToken, readToken, if_pos rfl, if_pos rfl]
      by_cases hclose : rest.head? = some glyphClose
      · rw [if_pos hclose, if_pos ((head_close_replaceGlyphs rest).mpr hclose),
          tail_replaceGlyphs hclose]
        rfl
      rw [if_neg hclose, if_neg fun h => hclose ((head_close_replaceGlyphs rest).mp h)]
      rfl
    by_cases hglyph : unit = 85
    · subst hglyph
      obtain ⟨htake, hdrop⟩ := span_replaceGlyphs rest
      rw [replaceGlyphs_tokenUnit (by decide), readToken, readToken, htake, hdrop,
        if_neg hescape, if_neg hescape, if_pos rfl, if_pos rfl]
      simp only [head_close_replaceGlyphs]
      split
      · next h => rw [Option.map_some, tail_replaceGlyphs h.1]
      · rfl
    rw [readToken, if_neg hescape, if_neg hglyph]
    cases hencoded : replaceGlyphs (unit :: rest) with
    | nil => rfl
    | cons first =>
      have hhead := head_replaceGlyphs (unit :: rest)
      rw [hencoded] at hhead
      have hfirst : first = unit ∨ first = glyphOpen := by
        rcases hhead with h | h
        · exact .inl (Option.some.inj h)
        · exact .inr (Option.some.inj h)
      have hne : first ≠ 69 ∧ first ≠ 85 := by
        rcases hfirst with rfl | rfl
        · exact ⟨hescape, hglyph⟩
        · decide
      rw [readToken, if_neg hne.1, if_neg hne.2]
      rfl

theorem readToken_glyphToken (h : isPrivateUse code = true) (rest : Units) :
    readToken (85 :: (toHex code ++ [glyphClose]) ++ rest) =
      some (.glyph (toHex code), rest) := by
  have hall : ∀ unit ∈ toHex code, isHex unit = true := fun unit => isHex_of_mem_toHex
  have hclose : ¬ isHex glyphClose = true := by decide
  have htake : (toHex code ++ glyphClose :: rest).takeWhile isHex = toHex code := by
    rw [takeWhile_append_of_pos hall, takeWhile_cons_of_neg hclose, append_nil]
  have hdrop : (toHex code ++ glyphClose :: rest).dropWhile isHex = glyphClose :: rest := by
    rw [dropWhile_append_of_pos hall, dropWhile_cons_of_neg hclose]
  rw [cons_append, append_assoc, singleton_append, readToken, htake, hdrop,
    if_neg (by decide), if_pos rfl, if_pos ⟨rfl, length_toHex h⟩]
  rfl

/-! ### The round trip of a text -/

theorem decode_glyphToken (h : isPrivateUse code = true) (rest : Units) :
    decodeGlyphText (glyphToken code ++ rest) = fromCodePoint code ++ decodeGlyphText rest := by
  have hcode : ¬ 0x10FFFF < code := by
    simp only [isPrivateUse, or_eq_true, decide_eq_true_eq] at h
    omega
  rw [glyphToken, cons_append, decode_token (readToken_glyphToken h rest),
    GlyphToken.decode, parseHex_toHex, if_neg hcode]

theorem fromCodePoint_unit (h : unit < 0x10000) : fromCodePoint unit = [unit] := by
  rw [fromCodePoint, if_pos h]

/-- The strings of the runtime: every element is a code unit. -/
def IsString (text : Units) : Prop := ∀ unit ∈ text, unit < 0x10000

theorem decode_replaceGlyphs {text : Units} (hstring : IsString text) :
    decodeGlyphText (replaceGlyphs text) = text := by
  induction text using code_induction with
  | nil => rw [replaceGlyphs, decodeGlyphText]
  | pair high low rest h ih =>
    have hrest := ih fun unit hunit =>
      hstring unit (mem_cons_of_mem _ (mem_cons_of_mem _ hunit))
    obtain ⟨hhigh, hlow⟩ := startsPair_cons.mp h
    rw [replaceGlyphs_pair h]
    split
    · next hprivate =>
      rw [decode_glyphToken hprivate, fromCodePoint_pairCode hhigh hlow, hrest]
      rfl
    -- no half of a pair is a bracket
    have hne : high ≠ glyphOpen ∧ low ≠ glyphOpen := by
      simp only [isHighSurrogate, isLowSurrogate, decide_eq_true_eq, glyphOpen] at *
      omega
    rw [cons_append, singleton_append, decode_cons (.inl hne.1), decode_cons (.inl hne.2), hrest]
  | single unit rest h ih =>
    have hrest := ih fun u hu => hstring u (mem_cons_of_mem _ hu)
    rw [replaceGlyphs_single h, replaceUnit]
    split_ifs with hprivate hbracket
    · rw [decode_glyphToken hprivate, fromCodePoint_unit (hstring unit mem_cons_self), hrest]
      rfl
    · have hread : readToken (69 :: glyphClose :: replaceGlyphs rest) =
          some (.escape, replaceGlyphs rest) := rfl
      have hdecode := decode_token hread
      rw [hrest] at hdecode
      rw [hbracket.1]
      exact hdecode
    have hnone : unit ≠ glyphOpen ∨ readToken (replaceGlyphs rest) = none := by
      by_cases hopen : unit = glyphOpen
      · right
        rw [readToken_replaceGlyphs, Option.map_eq_none_iff]
        simpa using fun hsome => hbracket ⟨hopen, hsome⟩
      · exact .inl hopen
    rw [singleton_append, decode_cons hnone, hrest]

/-! ### What is left of private use -/

theorem codePoints_append {front : Units} (h : ∀ unit ∈ front, isHighSurrogate unit = false)
    (rest : Units) : codePoints (front ++ rest) = front ++ codePoints rest := by
  induction front with
  | nil => rfl
  | cons unit front ih =>
    have hpair : startsPair unit (front ++ rest) = false := by
      rw [startsPair, h unit mem_cons_self, Bool.false_and]
    rw [cons_append, codePoints_single hpair, ih fun u hu => h u (mem_cons_of_mem _ hu)]
    rfl

/-- The units of the tokens that encoding writes. -/
theorem unit_of_mem_glyphToken (h : unit ∈ glyphToken code) :
    isTokenUnit unit = true ∨ unit = glyphOpen := by
  rw [glyphToken] at h
  rcases mem_cons.mp h with rfl | h
  · exact .inr rfl
  rcases mem_cons.mp h with rfl | h
  · exact .inl rfl
  rcases mem_append.mp h with h | h
  · exact .inl (by rw [isTokenUnit, isHex_of_mem_toHex h, Bool.or_true])
  rw [mem_singleton.mp h]
  exact .inl rfl

theorem hasPrivateUse_token_append {token : Units}
    (h : ∀ unit ∈ token, isTokenUnit unit = true ∨ unit = glyphOpen) (rest : Units) :
    hasPrivateUse (token ++ rest) = hasPrivateUse rest := by
  have hplain : ∀ unit ∈ token, isHighSurrogate unit = false ∧ isPrivateUse unit = false := by
    intro unit hunit
    rcases h unit hunit with htoken | rfl
    · obtain ⟨hhigh, -, hprivate, -⟩ := plain_of_isTokenUnit htoken
      exact ⟨hhigh, hprivate⟩
    · decide
  rw [hasPrivateUse, codePoints_append fun unit hunit => (hplain unit hunit).1, any_append,
    any_eq_false.mpr fun unit hunit => by simp [(hplain unit hunit).2], Bool.false_or]
  rfl

theorem hasPrivateUse_replaceGlyphs : hasPrivateUse (replaceGlyphs text) = false := by
  induction text using code_induction with
  | nil => rfl
  | pair high low rest h ih =>
    rw [replaceGlyphs_pair h]
    split
    · rw [hasPrivateUse_token_append fun unit => unit_of_mem_glyphToken, ih]
    next hprivate =>
    have hpair : startsPair high (low :: replaceGlyphs rest) = true :=
      startsPair_cons.mpr (startsPair_cons.mp h)
    rw [cons_append, singleton_append, hasPrivateUse, codePoints_pair hpair,
      any_cons, Bool.eq_false_iff.mpr hprivate, Bool.false_or]
    exact ih
  | single unit rest h ih =>
    rw [replaceGlyphs_single h, replaceUnit]
    split_ifs with hprivate hbracket
    · rw [hasPrivateUse_token_append fun unit => unit_of_mem_glyphToken, ih]
    · rw [hasPrivateUse_token_append (by decide), ih]
    -- what follows has not become the other half of a pair
    have hpair : startsPair unit (replaceGlyphs rest) = false := by
      rcases head_replaceGlyphs rest with hhead | hhead
      · rw [startsPair, hhead]
        exact h
      rw [startsPair, hhead]
      simp [isLowSurrogate, glyphOpen]
    rw [singleton_append, hasPrivateUse, codePoints_single hpair, any_cons,
      Bool.eq_false_iff.mpr hprivate, Bool.false_or]
    exact ih

/-! ### Texts that stay as they are -/

theorem replaceGlyphs_eq_self {text : Units} (hprivate : hasPrivateUse text = false)
    (hshape : hasTokenShape text = false) : replaceGlyphs text = text := by
  induction text using code_induction with
  | nil => rfl
  | pair high low rest h ih =>
    rw [hasPrivateUse, codePoints_pair h, any_cons, or_eq_false_iff] at hprivate
    simp only [hasTokenShape, or_eq_false_iff] at hshape
    rw [replaceGlyphs_pair h, hprivate.1, if_neg Bool.false_ne_true, ih hprivate.2 hshape.2.2]
    rfl
  | single unit rest h ih =>
    rw [hasPrivateUse, codePoints_single h, any_cons, or_eq_false_iff] at hprivate
    rw [hasTokenShape, or_eq_false_iff, and_eq_false_imp] at hshape
    rw [replaceGlyphs_single h, replaceUnit, hprivate.1, if_neg Bool.false_ne_true, if_neg,
      ih hprivate.2 hshape.2]
    · rfl
    rintro ⟨hopen, hsome⟩
    rw [hshape.1 (decide_eq_true hopen)] at hsome
    cases hsome

/-- The precheck lets no text pass that has to be encoded. -/
theorem encodeGlyphText_eq : encodeGlyphText text = replaceGlyphs text := by
  rw [encodeGlyphText]
  split
  · rfl
  next hpre =>
  obtain ⟨hcodes, hshape⟩ := or_eq_false_iff.mp (Bool.eq_false_iff.mpr hpre)
  refine (replaceGlyphs_eq_self (any_eq_false.mpr fun code hcode h => ?_) hshape).symm
  exact any_eq_false.mp hcodes code hcode (isPrecheckCode_of_isPrivateUse h)

theorem decode_encode {text : Units} (h : IsString text) :
    decodeGlyphText (encodeGlyphText text) = text := by
  rw [encodeGlyphText_eq, decode_replaceGlyphs h]

theorem privateUse_encode : hasPrivateUse (encodeGlyphText text) = false := by
  rw [encodeGlyphText_eq, hasPrivateUse_replaceGlyphs]

theorem encode_injective {text other : Units} (htext : IsString text) (hother : IsString other)
    (h : encodeGlyphText text = encodeGlyphText other) : text = other := by
  rw [← decode_encode htext, h, decode_encode hother]

/-! Encoding makes every text longer that it changes. -/

theorem length_replaceGlyphs : text.length ≤ (replaceGlyphs text).length ∧
      ((hasPrivateUse text || hasTokenShape text) = true →
        text.length < (replaceGlyphs text).length) := by
  have htoken : ∀ code, 3 ≤ (glyphToken code).length := by
    intro code
    simp only [glyphToken, length_cons, length_append, length_nil]
    omega
  induction text using code_induction with
  | nil => exact ⟨le_rfl, fun h => absurd h (by decide)⟩
  | pair high low rest h ih =>
    have hne : high ≠ glyphOpen ∧ low ≠ glyphOpen := by
      obtain ⟨hhigh, hlow⟩ := startsPair_cons.mp h
      simp only [isHighSurrogate, isLowSurrogate, decide_eq_true_eq, glyphOpen] at *
      omega
    rw [replaceGlyphs_pair h, hasPrivateUse, codePoints_pair h, any_cons]
    simp only [hasTokenShape, decide_eq_false hne.1, decide_eq_false hne.2, Bool.false_and,
      Bool.false_or, length_cons, length_append]
    split
    · next hprivate =>
      have := htoken (pairCode high low)
      exact ⟨by omega, fun _ => by omega⟩
    next hprivate =>
    rw [Bool.eq_false_iff.mpr hprivate, Bool.false_or]
    exact ⟨by simp only [length_cons]; omega, fun hrest => by
      have := ih.2 hrest
      simp only [length_cons]
      omega⟩
  | single unit rest h ih =>
    rw [replaceGlyphs_single h, hasPrivateUse, codePoints_single h, any_cons, replaceUnit]
    simp only [hasTokenShape, length_cons, length_append]
    split_ifs with hprivate hbracket
    · have := htoken unit
      exact ⟨by omega, fun _ => by omega⟩
    · have : glyphEscape.length = 3 := rfl
      exact ⟨by omega, fun _ => by omega⟩
    have hshape : (decide (unit = glyphOpen) && (readToken rest).isSome) = false := by
      rw [Bool.eq_false_iff]
      intro hboth
      obtain ⟨hopen, hsome⟩ := and_eq_true_iff.mp hboth
      exact hbracket ⟨of_decide_eq_true hopen, hsome⟩
    rw [Bool.eq_false_iff.mpr hprivate, hshape, Bool.false_or, Bool.false_or]
    simp only [length_singleton]
    exact ⟨by omega, fun hrest => by
      have := ih.2 hrest
      omega⟩

/-- A text with nothing to encode. -/
def IsPlain (text : Units) : Prop := hasPrivateUse text = false ∧ hasTokenShape text = false

theorem encode_eq_self_iff {text : Units} : encodeGlyphText text = text ↔ IsPlain text := by
  rw [encodeGlyphText_eq]
  constructor
  · intro h
    rw [IsPlain, ← or_eq_false_iff, Bool.eq_false_iff]
    intro hfound
    have hlt := (length_replaceGlyphs text).2 hfound
    rw [h] at hlt
    exact lt_irrefl _ hlt
  · exact fun h => replaceGlyphs_eq_self h.1 h.2

end BreadboardTui.Glyphs
