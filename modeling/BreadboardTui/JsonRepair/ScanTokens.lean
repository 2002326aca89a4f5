import BreadboardTui.JsonRepair.Repair

/-!
# The tokens of a JSON prefix

The three scanners of `classifyJsonPrefix`: a string from its opening quote on, a number and a
keyword. A scan ends with a token, or is cut by the end of the text, or meets a character that no
token goes on with.
-/

namespace BreadboardTui.JsonRepair

open List

open Hashline (Units)

/-! ### The scanners -/

/-- The end of a scan: a token, with the text behind it, or the end of the text, or no token. -/
inductive Scan where
  | ok (rest : Units)
  | cut
  | invalid
  deriving DecidableEq

/-- `scanString`, behind the opening quote. -/
def scanString : Units → Scan
  | [] => .cut
  | c :: rest =>
    if c = 34 then .ok rest
    else if c = 92 then
      match rest with
      | [] => .cut
      | e :: rest =>
        if !validEscapeChar.contains e then .invalid
        else if e = 117 then
          match rest with
          | a :: b :: c :: d :: rest =>
            if isHexDigit a && isHexDigit b && isHexDigit c && isHexDigit d then scanString rest
            else .invalid
          | digits => if digits.all isHexDigit then .cut else .invalid
        else scanString rest
    else if c < 32 then .invalid
    else scanString rest

def isDigit (c : ℕ) : Bool := 48 ≤ c && c ≤ 57

/-- A digit, and the digits behind it. -/
def scanDigits (next : Units → Scan) : Units → Scan
  | [] => .cut
  | c :: rest => if isDigit c then next (rest.dropWhile isDigit) else .invalid

/-- The exponent of a number, if there is one. -/
def scanExponent : Units → Scan
  | [] => .ok []
  | c :: rest =>
    if c = 101 ∨ c = 69 then
      match rest with
      | [] => .cut
      | sign :: digits =>
        if sign = 43 ∨ sign = 45 then scanDigits .ok digits else scanDigits .ok rest
    else .ok (c :: rest)

/-- The fraction of a number, if there is one, and what is behind it. -/
def scanFraction : Units → Scan
  | [] => scanExponent []
  | c :: rest => if c = 46 then scanDigits scanExponent rest else scanExponent (c :: rest)

/-- A number behind its sign. -/
def scanInteger : Units → Scan
  | [] => .cut
  | c :: rest =>
    if c = 48 then scanFraction rest
    else if 49 ≤ c ∧ c ≤ 57 then scanFraction (rest.dropWhile isDigit)
    else .invalid

def scanNumber : Units → Scan
  | [] => scanInteger []
  | c :: rest => if c = 45 then scanInteger rest else scanInteger (c :: rest)

/-- `true`, `false` and `null`. -/
def keywords : List Units :=
  [[116, 114, 117, 101], [102, 97, 108, 115, 101], [110, 117, 108, 108]]

def scanKeyword (text : Units) : Scan :=
  match keywords.find? fun word => word.head? = text.head? with
  | none => .invalid
  | some word =>
    let available := min word.length text.length
    if !(text.take available).isPrefixOf word then .invalid
    else if available = word.length then .ok (text.drop available)
    else .cut

/-- The scan of a value that is no array and no object. -/
def scanScalar : Units → Scan
  | [] => .cut
  | c :: rest =>
    if c = 34 then scanString rest
    else if c = 45 ∨ isDigit c then scanNumber (c :: rest)
    else if c = 116 ∨ c = 102 ∨ c = 110 then scanKeyword (c :: rest)
    else .invalid

/-! ### Tokens and scans -/

/-- No number goes on with the text. -/
def Stops (text : Units) : Prop :=
  ∀ c ∈ text.head?, isDigit c = false ∧ c ∉ [46, 101, 69, 43, 45]

theorem stops_nil : Stops [] := fun _ h => by cases h

/-- A scanner reads the tokens of a kind: all of a token that is not cut, where the text behind it
does not go on with it, and no others; a cut token can be completed, and nothing helps after a
character that no token goes on with. -/
structure Scanner (IsToken : Units → Prop) (scan : Units → Scan) : Prop where
  complete {token rest : Units} (h : IsToken token) (hstops : Stops rest) :
    scan (token ++ rest) = .ok rest
  sound {text rest : Units} (h : scan text = .ok rest) :
    ∃ token, text = token ++ rest ∧ IsToken token
  completable {text : Units} (h : scan text = .cut) : ∃ suffix, suffix ≠ [] ∧ IsToken (text ++ suffix)
  invalid {text : Units} (h : scan text = .invalid) (suffix : Units) :
    scan (text ++ suffix) = .invalid
  goesOn {text rest : Units} (h : scan text = .ok rest) (hrest : rest ≠ []) (suffix : Units) :
    scan (text ++ suffix) = .ok (rest ++ suffix)

/-- What a scan says about the text. -/
def ScanJudged (IsToken : Units → Prop) (scan : Units → Scan) (text : Units) : Scan → Prop
  | .ok rest => (∃ token, text = token ++ rest ∧ IsToken token) ∧
      (rest ≠ [] → ∀ suffix, scan (text ++ suffix) = .ok (rest ++ suffix))
  | .cut => ∃ suffix, suffix ≠ [] ∧ IsToken (text ++ suffix)
  | .invalid => ∀ suffix, scan (text ++ suffix) = .invalid

section Judged

variable {IsToken IsToken' : Units → Prop} {scan scan' : Units → Scan}

/-- A scanner is right about each text. -/
theorem scanner_of_judged
    (complete : ∀ {token rest : Units}, IsToken token → Stops rest → scan (token ++ rest) = .ok rest)
    (judged : ∀ text, ScanJudged IsToken scan text (scan text)) : Scanner IsToken scan where
  complete := complete
  sound {text rest} h := (h ▸ judged text : ScanJudged IsToken scan text (.ok rest)).1
  completable {text} h := (h ▸ judged text : ScanJudged IsToken scan text .cut)
  invalid {text} h := (h ▸ judged text : ScanJudged IsToken scan text .invalid)
  goesOn {text rest} h := (h ▸ judged text : ScanJudged IsToken scan text (.ok rest)).2

theorem Scanner.judged (h : Scanner IsToken' scan') (head : Units) {text : Units}
    (heq : ∀ suffix, scan (head ++ text ++ suffix) = scan' (text ++ suffix))
    (htoken : ∀ token, IsToken' token → IsToken (head ++ token)) :
    ScanJudged IsToken scan (head ++ text) (scan (head ++ text)) := by
  have hscan := heq []
  rw [append_nil, append_nil] at hscan
  rw [hscan]
  cases hend : scan' text with
  | ok =>
    obtain ⟨token, rfl, hmem⟩ := h.sound hend
    exact ⟨⟨head ++ token, (append_assoc ..).symm, htoken token hmem⟩, fun hrest suffix =>
      (heq suffix).trans (h.goesOn hend hrest suffix)⟩
  | cut =>
    obtain ⟨suffix, hne, hmem⟩ := h.completable hend
    exact ⟨suffix, hne, append_assoc head text suffix ▸ htoken _ hmem⟩
  | invalid => exact fun suffix => (heq suffix).trans (h.invalid hend suffix)

end Judged

/-! ### Strings -/

variable (rest : Units)

theorem scanString_quote : scanString (34 :: rest) = .ok rest := by
  rw [scanString.eq_def]
  exact if_pos rfl

variable {c : ℕ}

theorem scanString_plain (hquote : c ≠ 34) (hbackslash : c ≠ 92) (rest : Units) :
    scanString (c :: rest) = if c < 32 then .invalid else scanString rest := by
  rw [scanString.eq_def]
  dsimp only
  rw [if_neg hquote, if_neg hbackslash]

theorem scanString_escape {e : ℕ} (hu : e ≠ 117) (rest : Units) : scanString (92 :: e :: rest) =
      if !validEscapeChar.contains e then .invalid else scanString rest := by
  rw [scanString.eq_def]
  dsimp only
  rw [if_neg (by decide), if_pos rfl, if_neg hu]

theorem scanString_unicode (a b c d : ℕ) (rest : Units) :
    scanString (92 :: 117 :: a :: b :: c :: d :: rest) =
      if isHexDigit a && isHexDigit b && isHexDigit c && isHexDigit d then scanString rest
      else .invalid := by
  rw [scanString.eq_def]
  rfl

theorem scanString_cutUnicode {digits : Units} (h : digits.length < 4) :
    scanString (92 :: 117 :: digits) = if digits.all isHexDigit then .cut else .invalid := by
  rw [scanString.eq_def]
  rcases digits with _ | ⟨a, _ | ⟨b, _ | ⟨c, _ | ⟨d, digits⟩⟩⟩⟩
  case cons.cons.cons.cons =>
    simp only [length_cons] at h
    omega
  all_goals rfl

theorem scanString_of_stringBody {body text : Units} (h : StringBody false body text)
    (rest : Units) : scanString (body ++ rest) = .ok rest := by
  induction h with
  | close => exact scanString_quote rest
  | plain hcontrol hquote hbackslash _ ih =>
    rw [cons_append, scanString_plain hquote hbackslash, if_neg (by omega), ih]
  | @escape code value body text hvalue _ ih =>
    have hu : code ≠ 117 := by
      rintro rfl
      cases hvalue
    have hcontains : validEscapeChar.contains code = true := by
      rw [contains_validEscapeChar hu, hvalue]
      rfl
    rw [cons_append, cons_append, scanString_escape hu, hcontains, if_neg (by decide), ih]
  | @unicode a b c d value body text hvalue _ ih =>
    have hquad := isHexQuad_eq [a, b, c, d]
    rw [hvalue, isHexQuad] at hquad
    show scanString (92 :: 117 :: a :: b :: c :: d :: (body ++ rest)) = _
    rw [scanString_unicode, hquad, Option.isSome_some, if_pos rfl, ih]
  | control hlenient => cases hlenient
  | stray hlenient => cases hlenient

/-- What a scan of a string says about the text. -/
def StringScan (text : Units) : Scan → Prop
  | .ok rest => ∃ body value, text = body ++ rest ∧ StringBody false body value
  | .cut => ∃ suffix, suffix ≠ [] ∧ ∃ value, StringBody false (text ++ suffix) value
  | .invalid => ∀ suffix, scanString (text ++ suffix) = .invalid

theorem exists_quadValue {a b c d : ℕ}
    (h : (isHexDigit a && isHexDigit b && isHexDigit c && isHexDigit d) = true) :
    ∃ value, quadValue [a, b, c, d] = some value := by
  have hquad := isHexQuad_eq [a, b, c, d]
  rw [isHexQuad, h] at hquad
  exact Option.isSome_iff_exists.mp hquad.symm

theorem StringScan.prepend (head : Units) {text : Units} {scan : Scan}
    (hbody : ∀ body value, StringBody false body value →
      ∃ value', StringBody false (head ++ body) value')
    (hinvalid : ∀ suffix, scanString (text ++ suffix) = .invalid →
      scanString (head ++ text ++ suffix) = .invalid)
    (h : StringScan text scan) : StringScan (head ++ text) scan := by
  cases scan with
  | ok =>
    obtain ⟨body, value, rfl, hvalue⟩ := h
    obtain ⟨value', hvalue'⟩ := hbody body value hvalue
    exact ⟨head ++ body, value', (append_assoc ..).symm, hvalue'⟩
  | cut =>
    obtain ⟨suffix, hne, value, hvalue⟩ := h
    obtain ⟨value', hvalue'⟩ := hbody _ value hvalue
    exact ⟨suffix, hne, value', (append_assoc head text suffix).symm ▸ hvalue'⟩
  | invalid => exact fun suffix => hinvalid suffix (h suffix)

/-- A cut escape is completed with zeros and a quote. -/
theorem stringScan_cutUnicode {digits : Units} (hlength : digits.length < 4)
    (h : digits.all isHexDigit = true) : StringScan (92 :: 117 :: digits) .cut := by
  have hzero : isHexDigit 48 = true := by decide
  rcases digits with _ | ⟨a, _ | ⟨b, _ | ⟨c, _ | ⟨d, digits⟩⟩⟩⟩
  · exact ⟨[48, 48, 48, 48, 34], cons_ne_nil _ _, _, .unicode rfl .close⟩
  · obtain ⟨value, hvalue⟩ := exists_quadValue (a := a) (b := 48) (c := 48) (d := 48)
      (by simpa [hzero] using h)
    exact ⟨[48, 48, 48, 34], cons_ne_nil _ _, _, .unicode hvalue .close⟩
  · obtain ⟨value, hvalue⟩ := exists_quadValue (a := a) (b := b) (c := 48) (d := 48)
      (by simpa [hzero] using h)
    exact ⟨[48, 48, 34], cons_ne_nil _ _, _, .unicode hvalue .close⟩
  · obtain ⟨value, hvalue⟩ := exists_quadValue (a := a) (b := b) (c := c) (d := 48)
      (by simpa [hzero, and_assoc] using h)
    exact ⟨[48, 34], cons_ne_nil _ _, _, .unicode hvalue .close⟩
  simp only [length_cons] at hlength
  omega

theorem exists_four {text : Units} (h : ¬ text.length < 4) :
    ∃ a b c d rest, text = a :: b :: c :: d :: rest := by
  match text with
  | a :: b :: c :: d :: rest => exact ⟨a, b, c, d, rest, rfl⟩
  | [] | [_] | [_, _] | [_, _, _] => simp at h

theorem scanString_invalidUnicode {digits : Units} (hlength : digits.length < 4)
    (h : digits.all isHexDigit = false) (suffix : Units) :
    scanString (92 :: 117 :: (digits ++ suffix)) = .invalid := by
  by_cases hlong : (digits ++ suffix).length < 4
  · rw [scanString_cutUnicode hlong, all_append, h]
    rfl
  obtain ⟨a, b, c, d, rest, hrest⟩ := exists_four hlong
  rw [hrest, scanString_unicode]
  refine if_neg fun hhex => ?_
  have hfour : (digits ++ suffix).take 4 = [a, b, c, d] := by
    rw [hrest]
    rfl
  have hall : ((digits ++ suffix).take 4).all isHexDigit = true := by
    rw [hfour]
    simpa [and_assoc] using hhex
  rw [all_eq_true] at hall
  rw [Bool.eq_false_iff] at h
  refine h (all_eq_true.mpr fun x hx => hall x ?_)
  rw [take_append, take_of_length_le (Nat.le_of_lt hlength)]
  exact mem_append_left _ hx

theorem stringScan : ∀ text : Units, StringScan text (scanString text)
  | [] => ⟨[34], cons_ne_nil _ _, [], .close⟩
  | c :: rest => by
    by_cases hquote : c = 34
    · subst hquote
      rw [scanString_quote]
      exact ⟨[34], [], rfl, .close⟩
    by_cases hbackslash : c = 92
    · subst hbackslash
      cases rest with
      | nil => exact ⟨[34, 34], cons_ne_nil _ _, [34], .escape rfl .close⟩
      | cons e rest =>
        by_cases hu : e = 117
        · subst hu
          by_cases hlength : rest.length < 4
          · rw [scanString_cutUnicode hlength]
            split
            · next hhex => exact stringScan_cutUnicode hlength hhex
            · next hhex => exact scanString_invalidUnicode hlength (Bool.not_eq_true _ ▸ hhex)
          obtain ⟨a, b, c, d, rest, rfl⟩ := exists_four hlength
          rw [scanString_unicode]
          split
          · next hhex =>
            obtain ⟨value, hvalue⟩ := exists_quadValue hhex
            refine StringScan.prepend [92, 117, a, b, c, d]
              (fun body text hbody => ⟨_, .unicode hvalue hbody⟩) (fun suffix h => ?_)
              (stringScan rest)
            exact (scanString_unicode a b c d (rest ++ suffix)).trans ((if_pos hhex).trans h)
          next hhex =>
          exact fun suffix => (scanString_unicode a b c d (rest ++ suffix)).trans
            (if_neg hhex)
        rw [scanString_escape hu]
        split
        · next hcontains =>
          exact fun suffix => (scanString_escape hu (rest ++ suffix)).trans (if_pos hcontains)
        next hcontains =>
        rw [contains_validEscapeChar hu, Bool.not_eq_true', Bool.not_eq_false] at hcontains
        obtain ⟨value, hvalue⟩ := Option.isSome_iff_exists.mp hcontains
        refine StringScan.prepend [92, e] (fun body text hbody =>
          ⟨_, .escape hvalue hbody⟩) (fun suffix h => ?_) (stringScan rest)
        rw [← contains_validEscapeChar hu] at hcontains
        refine (scanString_escape hu (rest ++ suffix)).trans ?_
        rw [hcontains]
        exact h
    rw [scanString_plain hquote hbackslash]
    split
    · next hcontrol =>
      exact fun suffix => (scanString_plain hquote hbackslash (rest ++ suffix)).trans
        (if_pos hcontrol)
    next hcontrol =>
    refine StringScan.prepend [c] (fun body text hbody =>
      ⟨_, .plain (by omega) hquote hbackslash hbody⟩) (fun suffix h => ?_) (stringScan rest)
    exact (scanString_plain hquote hbackslash (rest ++ suffix)).trans ((if_neg hcontrol).trans h)

theorem scanString_scanner :
    Scanner (fun body => ∃ value, StringBody false body value) scanString where
  complete := fun ⟨_, h⟩ _ => scanString_of_stringBody h _
  sound {text rest} h := by
    have hscan := stringScan text
    rw [h] at hscan
    obtain ⟨body, value, heq, hbody⟩ := hscan
    exact ⟨body, heq, value, hbody⟩
  completable {text} h := by
    have hscan := stringScan text
    rw [h] at hscan
    exact hscan
  invalid {text} h := by
    have hscan := stringScan text
    rw [h] at hscan
    exact hscan
  goesOn {text rest} h _ suffix := by
    have hscan := stringScan text
    rw [h] at hscan
    obtain ⟨body, value, rfl, hbody⟩ := hscan
    rw [append_assoc, scanString_of_stringBody hbody]

/-! ### Numbers -/

theorem isDigit_iff (c : ℕ) : isDigit c = true ↔ 48 ≤ c ∧ c ≤ 57 := by
  rw [isDigit, Bool.and_eq_true, decide_eq_true_eq, decide_eq_true_eq]

theorem isDigits_cons {digits : Units} (hc : isDigit c = true)
    (h : ∀ d ∈ digits, isDigit d = true) : IsDigits (c :: digits) :=
  ⟨cons_ne_nil _ _, forall_mem_cons.mpr
    ⟨(isDigit_iff c).mp hc, fun d hd => (isDigit_iff d).mp (h d hd)⟩⟩

theorem IsDigits.isDigit {digits : Units} (h : IsDigits digits) : ∀ d ∈ digits, isDigit d = true :=
  fun d hd => (isDigit_iff d).mpr (h.2 d hd)

/-- A digit does not begin the text. -/
def NoDigit (text : Units) : Prop := ∀ c ∈ text.head?, isDigit c = false

theorem Stops.noDigit {text : Units} (h : Stops text) : NoDigit text := fun c hc => (h c hc).1

theorem noDigit_append {text rest : Units} (h : NoDigit text) (hrest : NoDigit rest) :
    NoDigit (text ++ rest) := by
  cases text with
  | nil => exact hrest
  | cons => exact h

theorem dropWhile_digits_append {digits text : Units} (h : ∀ d ∈ digits, isDigit d = true)
    (htext : NoDigit text) : (digits ++ text).dropWhile isDigit = text := by
  rw [dropWhile_append, dropWhile_eq_nil_iff.mpr h]
  cases text with
  | nil => rfl
  | cons c =>
    rw [isEmpty_nil, if_pos rfl, dropWhile_cons_of_neg]
    rw [htext c rfl]
    exact Bool.false_ne_true

theorem dropWhile_append_of_ne_nil {text : Units} (h : text.dropWhile isDigit ≠ [])
    (suffix : Units) :
    (text ++ suffix).dropWhile isDigit = text.dropWhile isDigit ++ suffix := by
  rw [dropWhile_append, if_neg]
  rwa [List.isEmpty_iff]

/-- The tokens of a number behind some digits. -/
def AfterDigits (IsToken : Units → Prop) (text : Units) : Prop :=
  ∃ digits token, IsDigits digits ∧ IsToken token ∧ text = digits ++ token

/-- A scanner of what may be missing. -/
structure Tail (IsToken : Units → Prop) (scan : Units → Scan) : Prop extends Scanner IsToken scan where
  nil : scan [] = .ok []
  noDigit {token : Units} (h : IsToken token) : NoDigit token

variable {IsToken : Units → Prop}

theorem Tail.isToken_nil {scan : Units → Scan} (h : Tail IsToken scan) : IsToken [] := by
  obtain ⟨token, heq, htoken⟩ := h.sound h.nil
  rw [append_nil] at heq
  exact heq ▸ htoken

theorem Tail.dropWhile {scan : Units → Scan} (h : Tail IsToken scan) :
    Scanner (fun text => ∃ digits token, (∀ d ∈ digits, isDigit d = true) ∧ IsToken token ∧
      text = digits ++ token) fun text => scan (text.dropWhile isDigit) where
  complete := by
    rintro _ rest ⟨digits, token, hdigits, htoken, rfl⟩ hstops
    rw [append_assoc, dropWhile_digits_append hdigits
      (noDigit_append (h.noDigit htoken) hstops.noDigit)]
    exact h.complete htoken hstops
  sound {text rest} hscan := by
    obtain ⟨token, heq, htoken⟩ := h.sound hscan
    refine ⟨text.takeWhile isDigit ++ token, ?_, text.takeWhile isDigit, token,
      fun d hd => mem_takeWhile_imp hd, htoken, rfl⟩
    rw [append_assoc, ← heq, takeWhile_append_dropWhile]
  completable {text} hscan := by
    obtain ⟨suffix, hne, htoken⟩ := h.completable hscan
    refine ⟨suffix, hne, text.takeWhile isDigit, _, fun d hd => mem_takeWhile_imp hd, htoken, ?_⟩
    rw [← append_assoc, takeWhile_append_dropWhile]
  invalid {text} hscan suffix := by
    have hne : text.dropWhile isDigit ≠ [] := by
      intro hnil
      rw [hnil, h.nil] at hscan
      cases hscan
    rw [dropWhile_append_of_ne_nil hne]
    exact h.invalid hscan suffix
  goesOn {text rest} hscan hrest suffix := by
    have hne : text.dropWhile isDigit ≠ [] := by
      intro hnil
      rw [hnil, h.nil] at hscan
      exact hrest (Scan.ok.inj hscan).symm
    rw [dropWhile_append_of_ne_nil hne]
    exact h.goesOn hscan hrest suffix

theorem Tail.digits {scan : Units → Scan} (h : Tail IsToken scan) :
    Scanner (AfterDigits IsToken) (scanDigits scan) := by
  refine scanner_of_judged ?_ fun text => ?_
  · rintro _ rest ⟨digits, token, hdigits, htoken, rfl⟩ hstops
    cases digits with
    | nil => exact absurd rfl hdigits.1
    | cons c digits =>
      have hall := hdigits.isDigit
      rw [forall_mem_cons] at hall
      rw [cons_append, cons_append, scanDigits, if_pos hall.1]
      exact h.dropWhile.complete ⟨digits, token, hall.2, htoken, rfl⟩ hstops
  cases text with
  | nil => exact ⟨[48], cons_ne_nil _ _, [48], [], isDigits_cons rfl (by simp), h.isToken_nil, rfl⟩
  | cons c =>
    by_cases hc : isDigit c = true
    · refine h.dropWhile.judged [c] (fun suffix => if_pos hc) ?_
      rintro _ ⟨digits, token, hdigits, htoken, rfl⟩
      exact ⟨c :: digits, token, isDigits_cons hc hdigits, htoken, rfl⟩
    rw [scanDigits, if_neg hc]
    exact fun suffix => if_neg hc

theorem tail_ok : Tail (· = []) Scan.ok where
  complete := by
    rintro _ rest rfl -
    rfl
  sound h := ⟨[], Scan.ok.inj h, rfl⟩
  completable h := by cases h
  invalid h := by cases h
  goesOn h _ suffix := by rw [Scan.ok.inj h]
  nil := rfl
  noDigit h := by
    subst h
    exact fun _ h => by cases h

def IsExponent (text : Units) : Prop :=
  text = [] ∨ ∃ letter sign digits, letter ∈ [69, 101] ∧ sign ∈ [[], [43], [45]] ∧
    IsDigits digits ∧ text = letter :: (sign ++ digits)

theorem isExponent_of_afterDigits {letter : ℕ} (hletter : letter = 101 ∨ letter = 69)
    (sign : Units) {text : Units} (hsign : sign ∈ [[], [43], [45]]) (h : AfterDigits (· = []) text) :
    IsExponent (letter :: (sign ++ text)) := by
  obtain ⟨digits, _, hdigits, rfl, rfl⟩ := h
  rw [append_nil]
  refine .inr ⟨letter, sign, digits, ?_, hsign, hdigits, rfl⟩
  rcases hletter with rfl | rfl <;> decide

theorem scanExponent_letter (hc : c = 101 ∨ c = 69) (rest : Units) :
    scanExponent (c :: rest) = match rest with
      | [] => .cut
      | sign :: digits =>
        if sign = 43 ∨ sign = 45 then scanDigits .ok digits else scanDigits .ok rest := by
  cases rest with
  | nil => exact if_pos hc
  | cons => exact if_pos hc

theorem scanExponent_other (hc : ¬ (c = 101 ∨ c = 69)) (rest : Units) :
    scanExponent (c :: rest) = .ok (c :: rest) := by
  cases rest with
  | nil => exact if_neg hc
  | cons => exact if_neg hc

variable (text : Units)

theorem scanExponent_judged : ScanJudged IsExponent scanExponent text (scanExponent text) := by
  cases text with
  | nil => exact ⟨⟨[], rfl, .inl rfl⟩, fun h => absurd rfl h⟩
  | cons c text =>
    by_cases hc : c = 101 ∨ c = 69
    · cases text with
      | nil =>
        rw [scanExponent_letter hc]
        exact ⟨[48], cons_ne_nil _ _, isExponent_of_afterDigits hc [] (by decide)
          ⟨[48], [], isDigits_cons rfl (by simp), rfl, rfl⟩⟩
      | cons sign =>
        by_cases hsign : sign = 43 ∨ sign = 45
        · refine tail_ok.digits.judged [c, sign] (fun suffix =>
            (scanExponent_letter hc _).trans (if_pos hsign)) fun token htoken =>
            isExponent_of_afterDigits hc [sign] ?_ htoken
          rcases hsign with rfl | rfl <;> decide
        exact tail_ok.digits.judged [c] (fun suffix =>
          (scanExponent_letter hc _).trans (if_neg hsign)) fun token htoken =>
          isExponent_of_afterDigits hc [] (by decide) htoken
    rw [scanExponent_other hc]
    exact ⟨⟨[], rfl, .inl rfl⟩, fun _ suffix => scanExponent_other hc _⟩

theorem scanExponent_tail : Tail IsExponent scanExponent where
  toScanner := scanner_of_judged (by
    rintro _ rest (rfl | ⟨letter, sign, digits, hletter, hsign, hdigits, rfl⟩) hstops
    · cases rest with
      | nil => rfl
      | cons c rest =>
        have hc := (hstops c rfl).2
        refine scanExponent_other (fun hletter => hc ?_) rest
        rcases hletter with rfl | rfl <;> decide
    have hletter : letter = 101 ∨ letter = 69 := by
      simp only [mem_cons, not_mem_nil, or_false] at hletter
      exact hletter.symm
    have hscan : scanDigits .ok (digits ++ rest) = .ok rest := by
      have h := tail_ok.digits.complete ⟨digits, [], hdigits, rfl, rfl⟩ hstops
      rwa [append_nil] at h
    rw [cons_append, scanExponent_letter hletter, append_assoc]
    simp only [mem_cons, not_mem_nil, or_false] at hsign
    rcases hsign with rfl | rfl | rfl
    · cases digits with
      | nil => exact absurd rfl hdigits.1
      | cons d =>
        have hd := hdigits.2 d mem_cons_self
        refine (if_neg ?_).trans hscan
        omega
    · exact hscan
    · exact hscan) scanExponent_judged
  nil := rfl
  noDigit := by
    rintro _ (rfl | ⟨letter, sign, digits, hletter, -, -, rfl⟩)
    · exact fun _ h => by cases h
    intro c hc
    cases hc
    simp only [mem_cons, not_mem_nil, or_false] at hletter
    rcases hletter with rfl | rfl <;> rfl

/-- A fraction, if there is one, and an exponent. -/
def IsFraction (text : Units) : Prop :=
  IsExponent text ∨ ∃ rest, AfterDigits IsExponent rest ∧ text = 46 :: rest

theorem scanFraction_point : scanFraction (46 :: rest) = scanDigits scanExponent rest := by
  rw [scanFraction]
  exact if_pos rfl

theorem scanFraction_of_ne {text : Units} (h : text.head? ≠ some 46) :
    scanFraction text = scanExponent text := by
  cases text with
  | nil => rfl
  | cons =>
    rw [scanFraction, if_neg]
    rintro rfl
    exact h rfl

theorem head?_append_ne {text rest : Units} (h : text.head? ≠ some c)
    (hrest : text ≠ [] ∨ rest.head? ≠ some c) : (text ++ rest).head? ≠ some c := by
  cases text with
  | nil => exact hrest.resolve_left fun h => h rfl
  | cons => exact h

theorem IsExponent.head?_ne {text : Units} (h : IsExponent text) : text.head? ≠ some 46 := by
  rcases h with rfl | ⟨letter, sign, digits, hletter, -, -, rfl⟩
  · exact fun h => by cases h
  intro heq
  cases heq
  revert hletter
  decide

theorem Stops.head?_ne {text : Units} (h : Stops text) : text.head? ≠ some 46 :=
  fun heq => (h 46 heq).2 mem_cons_self

theorem scanFraction_judged : ScanJudged IsFraction scanFraction text (scanFraction text) := by
  cases text with
  | nil => exact ⟨⟨[], rfl, .inl (.inl rfl)⟩, fun h => absurd rfl h⟩
  | cons c =>
    by_cases hc : c = 46
    · subst hc
      exact scanExponent_tail.digits.judged [46] (fun _ => scanFraction_point _) fun token htoken =>
        .inr ⟨token, htoken, rfl⟩
    · exact scanExponent_tail.judged [] (fun _ => if_neg hc) fun token htoken => .inl htoken

theorem scanFraction_tail : Tail IsFraction scanFraction where
  toScanner := scanner_of_judged (by
    rintro token rest (htoken | ⟨token, htoken, rfl⟩) hstops
    · rw [scanFraction_of_ne (head?_append_ne htoken.head?_ne (.inr hstops.head?_ne))]
      exact scanExponent_tail.complete htoken hstops
    rw [cons_append, scanFraction_point]
    exact scanExponent_tail.digits.complete htoken hstops) scanFraction_judged
  nil := rfl
  noDigit := by
    rintro _ (htoken | ⟨token, -, rfl⟩)
    · exact scanExponent_tail.noDigit htoken
    intro c hc
    cases hc
    rfl

/-- A number without its sign. -/
def IsUnsigned (text : Units) : Prop :=
  (∃ rest, IsFraction rest ∧ text = 48 :: rest) ∨
    ∃ c digits rest, 49 ≤ c ∧ c ≤ 57 ∧ (∀ d ∈ digits, isDigit d = true) ∧ IsFraction rest ∧
      text = c :: (digits ++ rest)

theorem scanInteger_zero : scanInteger (48 :: rest) = scanFraction rest := by
  rw [scanInteger]
  exact if_pos rfl

theorem scanInteger_digit (hle : 49 ≤ c) (hge : c ≤ 57) (rest : Units) :
    scanInteger (c :: rest) = scanFraction (rest.dropWhile isDigit) := by
  rw [scanInteger, if_neg (by omega), if_pos ⟨hle, hge⟩]

theorem scanInteger_judged : ScanJudged IsUnsigned scanInteger text (scanInteger text) := by
  cases text with
  | nil => exact ⟨[48], cons_ne_nil _ _, .inl ⟨[], .inl (.inl rfl), rfl⟩⟩
  | cons c rest =>
    by_cases hzero : c = 48
    · subst hzero
      exact scanFraction_tail.judged [48] (fun _ => scanInteger_zero _) fun token htoken =>
        .inl ⟨token, htoken, rfl⟩
    by_cases hdigit : 49 ≤ c ∧ c ≤ 57
    · refine scanFraction_tail.dropWhile.judged [c] (fun _ =>
        scanInteger_digit hdigit.1 hdigit.2 _) ?_
      rintro _ ⟨digits, token, hdigits, htoken, rfl⟩
      exact .inr ⟨c, digits, token, hdigit.1, hdigit.2, hdigits, htoken, rfl⟩
    have hinvalid (rest : Units) : scanInteger (c :: rest) = .invalid := by
      rw [scanInteger, if_neg hzero, if_neg hdigit]
    rw [hinvalid]
    exact fun suffix => hinvalid _

theorem scanInteger_scanner : Scanner IsUnsigned scanInteger := by
  refine scanner_of_judged ?_ scanInteger_judged
  rintro _ rest (⟨token, htoken, rfl⟩ | ⟨c, digits, token, hle, hge, hdigits, htoken, rfl⟩) hstops
  · exact (scanInteger_zero _).trans (scanFraction_tail.complete htoken hstops)
  exact (scanInteger_digit hle hge _).trans
    (scanFraction_tail.dropWhile.complete ⟨digits, token, hdigits, htoken, rfl⟩ hstops)

def IsNumberText (text : Units) : Prop :=
  ∃ sign integer fraction exponent, IsNumber sign integer fraction exponent ∧
    text = sign ++ integer ++ fraction ++ exponent

theorem IsFraction.split {text : Units} (h : IsFraction text) : ∃ fraction exponent,
    (fraction = [] ∨ ∃ digits, IsDigits digits ∧ fraction = 46 :: digits) ∧ IsExponent exponent ∧
      text = fraction ++ exponent := by
  rcases h with h | ⟨_, ⟨digits, exponent, hdigits, hexponent, rfl⟩, rfl⟩
  · exact ⟨[], text, .inl rfl, h, rfl⟩
  · exact ⟨46 :: digits, exponent, .inr ⟨digits, hdigits, rfl⟩, hexponent, rfl⟩

theorem isNumberText_of_isUnsigned {s text : Units} (hsign : s = [] ∨ s = [45])
    (h : IsUnsigned text) : IsNumberText (s ++ text) := by
  rcases h with ⟨rest, hrest, rfl⟩ | ⟨c, digits, rest, hle, hge, hdigits, hrest, rfl⟩
  · obtain ⟨fraction, exponent, hfraction, hexponent, rfl⟩ := hrest.split
    refine ⟨s, [48], fraction, exponent, ⟨hsign, isDigits_cons rfl (by simp), fun _ => rfl,
      hfraction, hexponent⟩, ?_⟩
    rw [append_assoc, append_assoc]
    rfl
  obtain ⟨fraction, exponent, hfraction, hexponent, rfl⟩ := hrest.split
  refine ⟨s, c :: digits, fraction, exponent, ⟨hsign,
    isDigits_cons ((isDigit_iff c).mpr ⟨by omega, hge⟩) hdigits, fun h => ?_, hfraction,
    hexponent⟩, ?_⟩
  · have hc := Option.some.inj h
    omega
  · rw [append_assoc, append_assoc, cons_append]

theorem IsNumberText.split {text : Units} (h : IsNumberText text) :
    ∃ sign rest, (sign = [] ∨ sign = [45]) ∧ IsUnsigned rest ∧ text = sign ++ rest := by
  obtain ⟨sign, integer, fraction, exponent, hnumber, rfl⟩ := h
  have hfraction : IsFraction (fraction ++ exponent) := by
    rcases hnumber.hfraction with rfl | ⟨digits, hdigits, rfl⟩
    · exact .inl hnumber.hexponent
    · exact .inr ⟨_, ⟨digits, exponent, hdigits, hnumber.hexponent, rfl⟩, rfl⟩
  refine ⟨sign, integer ++ (fraction ++ exponent), hnumber.hsign, ?_, ?_⟩
  · have hinteger := hnumber.hinteger
    cases integer with
    | nil => exact absurd rfl hinteger.1
    | cons c digits =>
      by_cases hc : c = 48
      · subst hc
        have hzero := hnumber.hleading rfl
        rw [hzero]
        exact .inl ⟨_, hfraction, rfl⟩
      have hdigit := hinteger.2 c mem_cons_self
      have hdigits := forall_mem_cons.mp hinteger.isDigit
      exact .inr ⟨c, digits, _, by omega, hdigit.2, hdigits.2, hfraction, rfl⟩
  · rw [append_assoc, append_assoc]

theorem IsUnsigned.exists_cons {text : Units} (h : IsUnsigned text) :
    ∃ c rest, isDigit c = true ∧ text = c :: rest := by
  rcases h with ⟨rest, -, rfl⟩ | ⟨c, digits, rest, hle, hge, -, -, rfl⟩
  · exact ⟨48, rest, rfl, rfl⟩
  · exact ⟨c, _, (isDigit_iff c).mpr ⟨by omega, hge⟩, rfl⟩

theorem scanNumber_minus : scanNumber (45 :: rest) = scanInteger rest := by
  rw [scanNumber]
  exact if_pos rfl

theorem scanNumber_of_ne {text : Units} (h : text.head? ≠ some 45) :
    scanNumber text = scanInteger text := by
  cases text with
  | nil => rfl
  | cons =>
    rw [scanNumber, if_neg]
    rintro rfl
    exact h rfl

theorem scanNumber_judged : ScanJudged IsNumberText scanNumber text (scanNumber text) := by
  have hunsigned (token : Units) (h : IsUnsigned token) : IsNumberText ([] ++ token) :=
    isNumberText_of_isUnsigned (.inl rfl) h
  cases text with
  | nil => exact ⟨[48], cons_ne_nil _ _, hunsigned [48] (.inl ⟨[], .inl (.inl rfl), rfl⟩)⟩
  | cons c =>
    by_cases hc : c = 45
    · subst hc
      exact scanInteger_scanner.judged [45] (fun _ => scanNumber_minus _) fun token htoken =>
        isNumberText_of_isUnsigned (.inr rfl) htoken
    · exact scanInteger_scanner.judged [] (fun _ => if_neg hc) hunsigned

theorem scanNumber_scanner : Scanner IsNumberText scanNumber := by
  refine scanner_of_judged ?_ scanNumber_judged
  rintro token rest htoken hstops
  obtain ⟨sign, token, rfl | rfl, hunsigned, rfl⟩ := htoken.split
  · show scanNumber (token ++ rest) = _
    rw [scanNumber_of_ne]
    · exact scanInteger_scanner.complete hunsigned hstops
    obtain ⟨c, text, hc, rfl⟩ := hunsigned.exists_cons
    intro heq
    cases heq
    cases hc
  · exact (scanNumber_minus _).trans (scanInteger_scanner.complete hunsigned hstops)

/-! ### Keywords -/

/-- The scan of one word. -/
def scanWord : Units → Units → Scan
  | [], text => .ok text
  | _ :: _, [] => .cut
  | a :: word, c :: text => if a = c then scanWord word text else .invalid

theorem scanWord_eq (word text : Units) :
    (if !(text.take (min word.length text.length)).isPrefixOf word then .invalid
      else if min word.length text.length = word.length then
        .ok (text.drop (min word.length text.length))
      else .cut) = scanWord word text := by
  induction word generalizing text with
  | nil => simp [scanWord]
  | cons a word ih =>
    cases text with
    | nil => simp [scanWord]
    | cons c text =>
      rw [scanWord, ← ih text, length_cons, length_cons, Nat.succ_min_succ,
        take_succ_cons, drop_succ_cons, List.isPrefixOf]
      by_cases hc : a = c
      · rw [if_pos hc, hc, beq_self_eq_true, Bool.true_and]
        simp
      rw [if_neg hc, beq_eq_false_iff_ne.mpr (Ne.symm hc), Bool.false_and]
      rfl

theorem scanWord_append (word rest : Units) : scanWord word (word ++ rest) = .ok rest := by
  induction word with
  | nil => rfl
  | cons a word ih => exact (if_pos rfl).trans ih

theorem scanWord_judged (word text : Units) :
    ScanJudged (· = word) (scanWord word) text (scanWord word text) := by
  induction word generalizing text with
  | nil => exact ⟨⟨[], rfl, rfl⟩, fun _ _ => rfl⟩
  | cons a word ih =>
    cases text with
    | nil => exact ⟨a :: word, cons_ne_nil _ _, rfl⟩
    | cons c =>
      by_cases hc : a = c
      · subst hc
        exact (scanner_of_judged (fun htoken _ => htoken ▸ scanWord_append _ _) ih).judged [a]
          (fun _ => if_pos rfl) fun token htoken => congrArg (a :: ·) htoken
      rw [scanWord, if_neg hc]
      exact fun suffix => if_neg hc

theorem scanWord_scanner (word : Units) : Scanner (· = word) (scanWord word) :=
  scanner_of_judged (fun htoken _ => htoken ▸ scanWord_append _ _) (scanWord_judged word)

theorem find?_keywords_of_mem {word : Units} (h : word ∈ keywords) :
    keywords.find? (fun word' => word'.head? = word.head?) = some word := by
  simp only [keywords, mem_cons, not_mem_nil, or_false] at h
  rcases h with rfl | rfl | rfl <;> rfl

theorem exists_cons_of_mem_keywords {word : Units} (h : word ∈ keywords) :
    ∃ a rest, word = a :: rest ∧ (a = 116 ∨ a = 102 ∨ a = 110) := by
  simp only [keywords, mem_cons, not_mem_nil, or_false] at h
  rcases h with rfl | rfl | rfl
  · exact ⟨_, _, rfl, .inl rfl⟩
  · exact ⟨_, _, rfl, .inr (.inl rfl)⟩
  · exact ⟨_, _, rfl, .inr (.inr rfl)⟩

theorem exists_keyword (hc : c = 116 ∨ c = 102 ∨ c = 110) :
    ∃ word ∈ keywords, word.head? = some c := by
  rcases hc with rfl | rfl | rfl
  · exact ⟨_, mem_cons_self, rfl⟩
  · exact ⟨_, mem_cons_of_mem _ mem_cons_self, rfl⟩
  · exact ⟨_, mem_cons_of_mem _ (mem_cons_of_mem _ mem_cons_self), rfl⟩

/-- A text that starts with the letter of a word is scanned as the word. -/
theorem scanKeyword_eq {word text : Units} (hword : word ∈ keywords)
    (hhead : word.head? = text.head?) : scanKeyword text = scanWord word text := by
  rw [scanKeyword, ← hhead, find?_keywords_of_mem hword]
  exact scanWord_eq word text

/-! ### Scalars -/

/-- The texts of strings, numbers and keywords. -/
def IsScalar (text : Units) : Prop :=
  (∃ body, text = 34 :: body ∧ ∃ value, StringBody false body value) ∨ IsNumberText text ∨
    text ∈ keywords

theorem IsScalar.exists_value {text : Units} (h : IsScalar text) :
    ∃ v, Denotes false text (.value v) := by
  rcases h with ⟨body, rfl, value, hbody⟩ | ⟨sign, integer, fraction, exponent, hnumber, rfl⟩ | h
  · exact ⟨_, .string hbody⟩
  · exact ⟨_, .number hnumber⟩
  simp only [keywords, mem_cons, not_mem_nil, or_false] at h
  rcases h with rfl | rfl | rfl
  · exact ⟨_, .literalTrue⟩
  · exact ⟨_, .literalFalse⟩
  · exact ⟨_, .literalNull⟩

theorem scanScalar_number (hc : c = 45 ∨ isDigit c = true) (rest : Units) :
    scanScalar (c :: rest) = scanNumber (c :: rest) := by
  have hquote : c ≠ 34 := by
    rintro rfl
    rcases hc with h | h <;> cases h
  rw [scanScalar, if_neg hquote, if_pos hc]

theorem scanScalar_judged : ScanJudged IsScalar scanScalar text (scanScalar text) := by
  cases text with
  | nil => exact ⟨[34, 34], cons_ne_nil _ _, .inl ⟨[34], rfl, [], .close⟩⟩
  | cons c rest =>
    by_cases hquote : c = 34
    · subst hquote
      refine scanString_scanner.judged [34] (fun suffix => ?_) fun token htoken =>
        .inl ⟨token, rfl, htoken⟩
      change scanScalar (34 :: (rest ++ suffix)) = _
      rw [scanScalar]
      exact if_pos rfl
    by_cases hnumber : c = 45 ∨ isDigit c
    · exact scanNumber_scanner.judged [] (fun _ => scanScalar_number hnumber _) fun token htoken =>
        .inr (.inl htoken)
    have hother (rest : Units) : scanScalar (c :: rest) =
        if c = 116 ∨ c = 102 ∨ c = 110 then scanKeyword (c :: rest) else .invalid := by
      rw [scanScalar, if_neg hquote, if_neg hnumber]
    by_cases hword : c = 116 ∨ c = 102 ∨ c = 110
    · obtain ⟨word, hmem, hhead⟩ := exists_keyword hword
      refine (scanWord_scanner word).judged [] (fun suffix => ?_) fun token htoken =>
        .inr (.inr (htoken ▸ hmem))
      refine (hother _).trans ((if_pos hword).trans ?_)
      exact scanKeyword_eq hmem hhead
    rw [hother, if_neg hword]
    exact fun suffix => (hother _).trans (if_neg hword)

theorem scanScalar_scanner : Scanner IsScalar scanScalar := by
  refine scanner_of_judged ?_ scanScalar_judged
  rintro token rest (⟨body, rfl, hbody⟩ | hnumber | hword) hstops
  · rw [cons_append, scanScalar]
    exact (if_pos rfl).trans (scanString_scanner.complete hbody hstops)
  · obtain ⟨c, text, hc, rfl⟩ : ∃ c text, (c = 45 ∨ isDigit c = true) ∧ token = c :: text := by
      obtain ⟨sign, text, rfl | rfl, hunsigned, rfl⟩ := hnumber.split
      · obtain ⟨c, text, hc, rfl⟩ := hunsigned.exists_cons
        exact ⟨c, text, .inr hc, rfl⟩
      · exact ⟨45, text, .inl rfl, rfl⟩
    exact (scanScalar_number hc _).trans (scanNumber_scanner.complete hnumber hstops)
  obtain ⟨a, word, rfl, ha⟩ := exists_cons_of_mem_keywords hword
  have hquote : a ≠ 34 := by omega
  have hnumber : ¬ (a = 45 ∨ isDigit a = true) := by
    rw [isDigit_iff]
    omega
  rw [cons_append, scanScalar, if_neg hquote, if_neg hnumber, if_pos ha,
    scanKeyword_eq hword (show (a :: word).head? = (a :: (word ++ rest)).head? from rfl)]
  exact scanWord_append (a :: word) rest

end BreadboardTui.JsonRepair
