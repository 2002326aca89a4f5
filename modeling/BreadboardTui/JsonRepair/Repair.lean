import BreadboardTui.JsonRepair.Grammar

/-!
# Repair of strings in a JSON text

Tool calls come with raw control characters and stray backslashes in their strings. `repairJson`
walks over the text, tells strings by their quotes, and writes what it changes into parts: between
the changes a part is a slice of the text, from `lastEmit` on.
-/

namespace BreadboardTui.JsonRepair

open List Option

open Hashline (Units)

/-! ### The scan -/

def isHexDigit (cp : ℕ) : Bool :=
  (48 ≤ cp && cp ≤ 57) || (97 ≤ (cp ||| 32) && (cp ||| 32) ≤ 102)

/-- `"`, `\`, `/`, `b`, `f`, `n`, `r`, `t` and `u`. -/
def validEscapeChar : Units := [34, 92, 47, 98, 102, 110, 114, 116, 117]

def hexDigit (digit : ℕ) : ℕ := if digit < 10 then 48 + digit else 87 + digit

/-- `CONTROL_ESCAPES[cp]`. -/
def controlEscapes (cp : ℕ) : Units :=
  match cp with
  | 8 => [92, 98]
  | 9 => [92, 116]
  | 10 => [92, 110]
  | 12 => [92, 102]
  | 13 => [92, 114]
  | _ => [92, 117, 48, 48, hexDigit (cp / 16), hexDigit (cp % 16)]

def isHexQuad : Units → Bool
  | a :: b :: c :: d :: _ => isHexDigit a && isHexDigit b && isHexDigit c && isHexDigit d
  | _ => false

/-- How much of the text behind a backslash makes an escape with it, `0` if nothing does. -/
def escapeLength : Units → ℕ
  | [] => 0
  | next :: digits =>
    if next = 117 then (if isHexQuad digits then 5 else 0)
    else if validEscapeChar.contains next then 1
    else 0

/-- `json.slice(start, stop)`. -/
def slice (json : Units) (start stop : ℕ) : Units := (json.drop start).take (stop - start)

structure Emitted where
  parts : List Units
  lastEmit : ℕ
  deriving DecidableEq, Repr

/-- The character at `i` is written as `text`. -/
def Emitted.emit (out : Emitted) (json : Units) (i : ℕ) (text : Units) : Emitted where
  parts := out.parts ++ [slice json out.lastEmit i, text]
  lastEmit := i + 1

/-- The loop. The list is what of the text is left at `i`. -/
def scan (json : Units) : Units → ℕ → Bool → Emitted → Emitted
  | [], _, _, out => out
  | cp :: rest, i, false, out => scan json rest (i + 1) (cp = 34) out
  | cp :: rest, i, true, out =>
    if cp = 34 then scan json rest (i + 1) false out
    else if cp = 92 then
      if escapeLength rest = 0 then scan json rest (i + 1) true (out.emit json i [92, 92])
      else scan json (rest.drop (escapeLength rest)) (i + 1 + escapeLength rest) true out
    else if cp < 32 then scan json rest (i + 1) true (out.emit json i (controlEscapes cp))
    else scan json rest (i + 1) true out
termination_by rest => rest.length
decreasing_by
  all_goals simp only [length_drop, length_cons]
  all_goals omega

def repairJson (json : Units) : Units :=
  let out := scan json json 0 false ⟨[], 0⟩
  if out.parts = [] then json
  else if out.lastEmit < json.length then
    (out.parts ++ [slice json out.lastEmit json.length]).flatten
  else out.parts.flatten

/-! ### Character by character -/

/-- The repair of a text, in a string or outside. -/
def repairFrom : Bool → Units → Units
  | _, [] => []
  | false, cp :: rest => cp :: repairFrom (cp = 34) rest
  | true, cp :: rest =>
    if cp = 34 then 34 :: repairFrom false rest
    else if cp = 92 then
      if escapeLength rest = 0 then 92 :: 92 :: repairFrom true rest
      else
        92 :: (rest.take (escapeLength rest) ++ repairFrom true (rest.drop (escapeLength rest)))
    else if cp < 32 then controlEscapes cp ++ repairFrom true rest
    else cp :: repairFrom true rest
termination_by _ rest => rest.length
decreasing_by
  all_goals simp only [length_drop, length_cons]
  all_goals omega

/-! ### The steps of the repair -/

theorem repairFrom_nil (inString : Bool) : repairFrom inString [] = [] := by
  rw [repairFrom]

theorem repairFrom_outside (cp : ℕ) (rest : Units) :
    repairFrom false (cp :: rest) = cp :: repairFrom (cp = 34) rest := by
  rw [repairFrom]

theorem repairFrom_quote (rest : Units) :
    repairFrom true (34 :: rest) = 34 :: repairFrom false rest := by
  rw [repairFrom, if_pos rfl]

variable {rest : Units}

theorem repairFrom_stray (h : escapeLength rest = 0) :
    repairFrom true (92 :: rest) = 92 :: 92 :: repairFrom true rest := by
  rw [repairFrom, if_neg (by decide), if_pos rfl, if_pos h]

theorem repairFrom_escape (h : escapeLength rest ≠ 0) : repairFrom true (92 :: rest) =
      92 :: (rest.take (escapeLength rest) ++
        repairFrom true (rest.drop (escapeLength rest))) := by
  rw [repairFrom, if_neg (by decide), if_pos rfl, if_neg h]

theorem repairFrom_control {cp : ℕ} (h : cp < 32) :
    repairFrom true (cp :: rest) = controlEscapes cp ++ repairFrom true rest := by
  rw [repairFrom, if_neg (by omega), if_neg (by omega), if_pos h]

theorem repairFrom_plain {cp : ℕ} (hquote : cp ≠ 34) (hbackslash : cp ≠ 92)
    (hcontrol : 32 ≤ cp) : repairFrom true (cp :: rest) = cp :: repairFrom true rest := by
  rw [repairFrom, if_neg hquote, if_neg hbackslash, if_neg (not_lt.mpr hcontrol)]

/-! ### The parts -/

/-- What stands for the text up to `i`. -/
def written (json : Units) (out : Emitted) (i : ℕ) : Units :=
  out.parts.flatten ++ slice json out.lastEmit i

theorem written_add {json rest : Units} {out : Emitted} {i : ℕ} (count : ℕ)
    (hrest : rest = json.drop i) (hle : out.lastEmit ≤ i) :
    written json out (i + count) = written json out i ++ rest.take count := by
  have hsplit : i + count - out.lastEmit = (i - out.lastEmit) + count := by omega
  have hdrop : json.drop i = (json.drop out.lastEmit).drop (i - out.lastEmit) := by
    rw [drop_drop]
    congr 1
    omega
  rw [written, written, slice, slice, hrest, hsplit, hdrop, take_add, append_assoc]

variable (json : Units)

theorem written_emit (out : Emitted) (i : ℕ) (text : Units) :
    written json (out.emit json i text) (i + 1) = written json out i ++ text := by
  have hslice : slice json (i + 1) (i + 1) = [] := by
    rw [slice, Nat.sub_self, take_zero]
  have hparts : (out.parts ++ [slice json out.lastEmit i, text]).flatten =
      out.parts.flatten ++ (slice json out.lastEmit i ++ text) := by
    rw [flatten_append, flatten_cons, flatten_cons, flatten_nil, append_nil]
  show (out.parts ++ [slice json out.lastEmit i, text]).flatten ++ slice json (i + 1) (i + 1) = _
  rw [hslice, hparts, append_nil, written, append_assoc]

theorem parts_emit_ne_nil (out : Emitted) (i : ℕ) (text : Units) :
    (out.emit json i text).parts ≠ [] := by
  intro hnil
  exact absurd (append_eq_nil_iff.mp hnil).2 (cons_ne_nil _ _)

/-- The parts of the scan and what it has not written are the repair of the text. -/
theorem scan_spec {json rest : Units} {i : ℕ} {inString : Bool} {out : Emitted}
    (hrest : rest = json.drop i) (hle : out.lastEmit ≤ i)
    (hempty : out.parts = [] → out.lastEmit = 0) :
    (scan json rest i inString out).parts.flatten ++
        json.drop (scan json rest i inString out).lastEmit =
      written json out i ++ repairFrom inString rest ∧
    ((scan json rest i inString out).parts = [] →
      (scan json rest i inString out).lastEmit = 0) := by
  have hstep {cp : ℕ} {rest : Units} {i : ℕ} (h : cp :: rest = json.drop i) :
      rest = json.drop (i + 1) := by
    rw [← tail_drop, ← h]
    rfl
  induction rest, i, inString, out using scan.induct json with
  | case1 =>
    rw [scan, repairFrom_nil, append_nil, written, slice, take_of_length_le]
    · exact ⟨rfl, hempty⟩
    have hlength := drop_eq_nil_iff.mp hrest.symm
    rw [length_drop]
    omega
  | case2 cp rest i out ih =>
    obtain ⟨hparts, hnil⟩ := ih (hstep hrest) (by omega) hempty
    rw [scan, repairFrom_outside, hparts, written_add 1 hrest hle, append_assoc]
    exact ⟨rfl, hnil⟩
  | case3 rest i out ih =>
    obtain ⟨hparts, hnil⟩ := ih (hstep hrest) (by omega) hempty
    rw [scan, if_pos rfl, repairFrom_quote, hparts, written_add 1 hrest hle, append_assoc]
    exact ⟨rfl, hnil⟩
  | case4 rest i out hescape _ ih =>
    obtain ⟨hparts, hnil⟩ := ih (hstep hrest) le_rfl
      fun h => absurd h (parts_emit_ne_nil _ _ _ _)
    rw [scan, if_neg (by decide), if_pos rfl, if_pos hescape, repairFrom_stray hescape, hparts,
      written_emit, append_assoc]
    exact ⟨rfl, hnil⟩
  | case5 rest i out hescape _ ih =>
    have hdrop : rest.drop (escapeLength rest) = json.drop (i + 1 + escapeLength rest) := by
      rw [← drop_drop, ← hstep hrest]
    obtain ⟨hparts, hnil⟩ := ih hdrop (by omega) hempty
    rw [scan, if_neg (by decide), if_pos rfl, if_neg hescape, repairFrom_escape hescape, hparts,
      written_add _ (hstep hrest) (by omega), written_add 1 hrest hle, append_assoc,
      append_assoc]
    exact ⟨rfl, hnil⟩
  | case6 cp rest i out hquote hbackslash hcontrol ih =>
    obtain ⟨hparts, hnil⟩ := ih (hstep hrest) le_rfl
      fun h => absurd h (parts_emit_ne_nil _ _ _ _)
    rw [scan, if_neg hquote, if_neg hbackslash, if_pos hcontrol, repairFrom_control hcontrol,
      hparts, written_emit, append_assoc]
    exact ⟨rfl, hnil⟩
  | case7 cp rest i out hquote hbackslash hcontrol ih =>
    obtain ⟨hparts, hnil⟩ := ih (hstep hrest) (by omega) hempty
    rw [scan, if_neg hquote, if_neg hbackslash, if_neg hcontrol,
      repairFrom_plain hquote hbackslash (not_lt.mp hcontrol), hparts,
      written_add 1 hrest hle, append_assoc]
    exact ⟨rfl, hnil⟩

theorem repairJson_eq : repairJson json = repairFrom false json := by
  have hwritten : written json ⟨[], 0⟩ 0 = [] := by
    rw [written, slice, Nat.sub_self, take_zero]
    exact append_nil _
  obtain ⟨hparts, hnil⟩ := @scan_spec json json 0 false ⟨[], 0⟩ rfl le_rfl fun _ => rfl
  rw [hwritten, nil_append] at hparts
  rw [repairJson]
  split
  · next hempty =>
    rw [hempty, hnil hempty] at hparts
    exact hparts
  split
  · rw [flatten_append, flatten_cons, flatten_nil, append_nil, ← hparts, slice, take_of_length_le]
    rw [length_drop]
  next hle =>
  rw [drop_eq_nil_of_le (not_lt.mp hle), append_nil] at hparts
  exact hparts

/-! ### Escapes -/

/-- The escape of a control character stands for it. -/
theorem controlEscapes_spec : ∀ cp < 32,
    (∃ code ∈ [98, 116, 110, 102, 114], controlEscapes cp = [92, code] ∧
      escapeValue code = some cp) ∨
    controlEscapes cp = [92, 117, 48, 48, hexDigit (cp / 16), hexDigit (cp % 16)] ∧
      quadValue [48, 48, hexDigit (cp / 16), hexDigit (cp % 16)] = some cp := by
  decide +kernel

theorem isHexDigit_eq (cp : ℕ) : isHexDigit cp = (hexValue cp).isSome := by
  by_cases hle : cp ≤ 102
  · have hsmall : ∀ cp < 103, isHexDigit cp = (hexValue cp).isSome := by decide +kernel
    exact hsmall cp (Nat.lt_succ_of_le hle)
  have hor : cp ≤ cp ||| 32 := Nat.left_le_or
  rw [isHexDigit, hexValue, if_neg (by omega), if_neg (by omega), if_neg (by omega)]
  have hfirst : (48 ≤ cp && cp ≤ 57) = false := by
    rw [Bool.and_eq_false_iff, decide_eq_false_iff_not, decide_eq_false_iff_not]
    omega
  have hsecond : (97 ≤ (cp ||| 32) && (cp ||| 32) ≤ 102) = false := by
    rw [Bool.and_eq_false_iff, decide_eq_false_iff_not, decide_eq_false_iff_not]
    omega
  rw [hfirst, hsecond]
  rfl

theorem isHexQuad_eq (digits : Units) : isHexQuad digits = (quadValue digits).isSome := by
  rcases digits with _ | ⟨a, _ | ⟨b, _ | ⟨c, _ | ⟨d, rest⟩⟩⟩⟩
  case cons.cons.cons.cons =>
    rw [isHexQuad, quadValue, isHexDigit_eq, isHexDigit_eq, isHexDigit_eq, isHexDigit_eq]
    cases hexValue a <;> cases hexValue b <;> cases hexValue c <;> cases hexValue d <;> rfl
  all_goals rfl

theorem contains_validEscapeChar {code : ℕ} (h : code ≠ 117) :
    validEscapeChar.contains code = (escapeValue code).isSome := by
  by_cases hlt : code < 117
  · have hsmall : ∀ code < 117, validEscapeChar.contains code = (escapeValue code).isSome := by
      decide +kernel
    exact hsmall code hlt
  have hnone : escapeValue code = none := by
    unfold escapeValue
    split <;> first | omega | rfl
  rw [hnone, isSome_none, contains_eq_mem, decide_eq_false_iff_not]
  intro hmem
  have hle : ∀ code ∈ validEscapeChar, code ≤ 117 := by decide
  have hcode := hle code hmem
  omega

theorem startsEscape_iff (rest : Units) : StartsEscape rest ↔ escapeLength rest ≠ 0 := by
  cases rest with
  | nil => exact ⟨False.elim, fun h => h rfl⟩
  | cons code digits =>
    rw [StartsEscape, escapeLength]
    split
    · next hu =>
      rw [hu, isHexQuad_eq]
      cases (quadValue digits).isSome <;> decide
    next hu =>
    rw [contains_validEscapeChar hu]
    cases (escapeValue code).isSome <;> simp [hu]

/-- What is left of an escape in front of another text is the same escape. -/
theorem repairFrom_two {code value : ℕ} (h : escapeValue code = some value) (rest : Units) :
    repairFrom true (92 :: code :: rest) = 92 :: code :: repairFrom true rest := by
  have hu : code ≠ 117 := by
    rintro rfl
    exact absurd h (some_ne_none _).symm
  have hlength : escapeLength (code :: rest) = 1 := by
    rw [escapeLength, if_neg hu, contains_validEscapeChar hu, h]
    rfl
  have hescape : escapeLength (code :: rest) ≠ 0 := by
    rw [hlength]
    decide
  rw [repairFrom_escape hescape, hlength]
  rfl

theorem repairFrom_six {a b c d value : ℕ} (h : quadValue [a, b, c, d] = some value)
    (rest : Units) :
    repairFrom true (92 :: 117 :: a :: b :: c :: d :: rest) =
      92 :: 117 :: a :: b :: c :: d :: repairFrom true rest := by
  have hquad : isHexQuad (a :: b :: c :: d :: rest) = true := by
    have hsame : isHexQuad (a :: b :: c :: d :: rest) = isHexQuad [a, b, c, d] := rfl
    rw [hsame, isHexQuad_eq, h]
    rfl
  have hlength : escapeLength (117 :: a :: b :: c :: d :: rest) = 5 := by
    rw [escapeLength, if_pos rfl, if_pos hquad]
  have hescape : escapeLength (117 :: a :: b :: c :: d :: rest) ≠ 0 := by
    rw [hlength]
    decide
  rw [repairFrom_escape hescape, hlength]
  rfl

theorem repairFrom_controlEscapes {cp : ℕ} (h : cp < 32) (rest : Units) :
    repairFrom true (controlEscapes cp ++ rest) = controlEscapes cp ++ repairFrom true rest := by
  rcases controlEscapes_spec cp h with ⟨code, -, heq, hvalue⟩ | ⟨heq, hvalue⟩
  · rw [heq]
    exact repairFrom_two hvalue rest
  rw [heq]
  exact repairFrom_six hvalue rest

/-- What is taken for an escape is one of the two kinds. -/
theorem escapeLength_cases (h : escapeLength rest ≠ 0) :
    (∃ code value, escapeValue code = some value ∧ escapeLength rest = 1 ∧
      rest = code :: rest.drop 1) ∨
    ∃ a b c d value, quadValue [a, b, c, d] = some value ∧ escapeLength rest = 5 ∧
      rest = 117 :: a :: b :: c :: d :: rest.drop 5 := by
  cases rest with
  | nil => exact absurd rfl h
  | cons code digits =>
    rw [escapeLength] at h ⊢
    by_cases hu : code = 117
    · rw [if_pos hu] at h ⊢
      split at h
      · next hquad =>
        rw [if_pos hquad]
        rcases digits with _ | ⟨a, _ | ⟨b, _ | ⟨c, _ | ⟨d, rest⟩⟩⟩⟩
        case cons.cons.cons.cons =>
          rw [isHexQuad_eq] at hquad
          obtain ⟨value, hvalue⟩ := isSome_iff_exists.mp hquad
          exact .inr ⟨a, b, c, d, value, hvalue, rfl, by rw [hu]; rfl⟩
        all_goals exact absurd hquad Bool.false_ne_true
      · exact absurd rfl h
    rw [if_neg hu] at h ⊢
    split at h
    · next hcontains =>
      rw [if_pos hcontains]
      rw [contains_validEscapeChar hu] at hcontains
      obtain ⟨value, hvalue⟩ := isSome_iff_exists.mp hcontains
      exact .inl ⟨code, value, hvalue, rfl, rfl⟩
    · exact absurd rfl h

theorem repairFrom_idempotent (inString : Bool) (text : Units) :
    repairFrom inString (repairFrom inString text) = repairFrom inString text := by
  induction inString, text using repairFrom.induct with
  | case1 => rw [repairFrom_nil, repairFrom_nil]
  | case2 cp rest ih => rw [repairFrom_outside, repairFrom_outside, ih]
  | case3 rest ih => rw [repairFrom_quote, repairFrom_quote, ih]
  | case4 rest hescape _ ih =>
    rw [repairFrom_stray hescape, repairFrom_two (show escapeValue 92 = some 92 from rfl), ih]
  | case5 rest hescape _ ih =>
    rcases escapeLength_cases hescape with
      ⟨code, value, hvalue, hlength, hrest⟩ | ⟨a, b, c, d, value, hvalue, hlength, hrest⟩
    · rw [hlength] at ih
      rw [hrest, repairFrom_two hvalue, repairFrom_two hvalue, ih]
    rw [hlength] at ih
    rw [hrest, repairFrom_six hvalue, repairFrom_six hvalue, ih]
  | case6 cp rest _ _ hcontrol ih =>
    rw [repairFrom_control hcontrol, repairFrom_controlEscapes hcontrol, ih]
  | case7 cp rest hquote hbackslash hcontrol ih =>
    have hle := not_lt.mp hcontrol
    rw [repairFrom_plain hquote hbackslash hle, repairFrom_plain hquote hbackslash hle, ih]

/-! ### Texts of the grammar -/

variable {lenient : Bool}

/-- The repair of a string is a string of JSON, and leaves such a string as it is. -/
theorem StringBody.repair {body text : Units} (h : StringBody lenient body text) :
    ∃ repaired, (∀ rest, repairFrom true (body ++ rest) = repaired ++ repairFrom false rest) ∧
      StringBody false repaired text ∧ (lenient = false → repaired = body) := by
  induction h with
  | close => exact ⟨[34], fun rest => repairFrom_quote rest, .close, fun _ => rfl⟩
  | @plain code body text hcontrol hquote hbackslash _ ih =>
    obtain ⟨repaired, hrepair, hbody, hsame⟩ := ih
    refine ⟨code :: repaired, fun rest => ?_, .plain hcontrol hquote hbackslash hbody,
      fun hstrict => by rw [hsame hstrict]⟩
    rw [cons_append, repairFrom_plain hquote hbackslash hcontrol, hrepair, cons_append]
  | @escape code value body text hvalue _ ih =>
    obtain ⟨repaired, hrepair, hbody, hsame⟩ := ih
    refine ⟨92 :: code :: repaired, fun rest => ?_, .escape hvalue hbody,
      fun hstrict => by rw [hsame hstrict]⟩
    rw [cons_append, cons_append, repairFrom_two hvalue, hrepair, cons_append, cons_append]
  | @unicode a b c d value body text hvalue _ ih =>
    obtain ⟨repaired, hrepair, hbody, hsame⟩ := ih
    refine ⟨92 :: 117 :: a :: b :: c :: d :: repaired, fun rest => ?_, .unicode hvalue hbody,
      fun hstrict => by rw [hsame hstrict]⟩
    simp only [cons_append]
    rw [repairFrom_six hvalue, hrepair]
  | @control code body text hlenient hcontrol _ ih =>
    obtain ⟨repaired, hrepair, hbody, -⟩ := ih
    refine ⟨controlEscapes code ++ repaired, fun rest => ?_, ?_, fun hstrict => ?_⟩
    · rw [cons_append, repairFrom_control hcontrol, hrepair, append_assoc]
    · rcases controlEscapes_spec code hcontrol with ⟨letter, -, heq, hvalue⟩ | ⟨heq, hvalue⟩
      · rw [heq]
        exact .escape hvalue hbody
      · rw [heq]
        exact .unicode hvalue hbody
    · exact absurd (hlenient.symm.trans hstrict) (by decide)
  | @stray body text hlenient hescape hinner ih =>
    obtain ⟨repaired, hrepair, hbody, -⟩ := ih
    refine ⟨92 :: 92 :: repaired, fun rest => ?_, .escape rfl hbody, fun hstrict => ?_⟩
    · have hnone : escapeLength (body ++ rest) = 0 := by
        by_contra hne
        exact hescape ((hinner.startsEscape_append rest).mp ((startsEscape_iff _).mpr hne))
      rw [cons_append, repairFrom_stray hnone, hrepair, cons_append, cons_append]
    · exact absurd (hlenient.symm.trans hstrict) (by decide)

/-- Outside of strings a text is repaired on its own, and JSON is left as it is. -/
structure Repairs (lenient : Bool) (text repaired : Units) : Prop where
  repair (rest : Units) : repairFrom false (text ++ rest) = repaired ++ repairFrom false rest
  strict : lenient = false → repaired = text

theorem Repairs.append {lenient : Bool} {text text' repaired repaired' : Units}
    (h : Repairs lenient text repaired) (h' : Repairs lenient text' repaired') :
    Repairs lenient (text ++ text') (repaired ++ repaired') where
  repair rest := by
    rw [append_assoc, h.repair, h'.repair, append_assoc]
  strict hstrict := by
    rw [h.strict hstrict, h'.strict hstrict]

theorem Repairs.of_notMem {text : Units} (h : 34 ∉ text) : Repairs lenient text text where
  repair rest := by
    induction text with
    | nil => rfl
    | cons cp text ih =>
      rw [mem_cons, not_or] at h
      rw [cons_append, repairFrom_outside, decide_eq_false (Ne.symm h.1), ih h.2, cons_append]
  strict _ := rfl

theorem Repairs.of_isSpace {text : Units} (h : IsSpace text) :
    Repairs lenient text text := .of_notMem (quote_notMem_of_isSpace h)

theorem repairs_string {body text : Units} (h : StringBody lenient body text) :
    ∃ repaired, Repairs lenient (34 :: body) (34 :: repaired) ∧ StringBody false repaired text := by
  obtain ⟨repaired, hrepair, hbody, hsame⟩ := h.repair
  refine ⟨repaired, ⟨fun rest => ?_, fun hstrict => by rw [hsame hstrict]⟩, hbody⟩
  rw [cons_append, repairFrom_outside, decide_eq_true rfl, hrepair, cons_append]

/-- A phrase of the lenient grammar is repaired to one of JSON that denotes the same. -/
theorem Denotes.repair {text : Units} {phrase : Phrase} (h : Denotes lenient text phrase) :
    ∃ repaired, Repairs lenient text repaired ∧ Denotes false repaired phrase := by
  induction h with
  | literalNull => exact ⟨_, .of_notMem (by decide), .literalNull⟩
  | literalTrue => exact ⟨_, .of_notMem (by decide), .literalTrue⟩
  | literalFalse => exact ⟨_, .of_notMem (by decide), .literalFalse⟩
  | number hnumber => exact ⟨_, .of_notMem (quote_notMem_of_isNumber hnumber), .number hnumber⟩
  | string hbody =>
    obtain ⟨repaired, hrepairs, hstring⟩ := repairs_string hbody
    exact ⟨_, hrepairs, .string hstring⟩
  | emptyArray hspace =>
    exact ⟨_, ((Repairs.of_notMem (by decide)).append (.of_isSpace hspace)).append
      (.of_notMem (by decide)), .emptyArray hspace⟩
  | array _ ih =>
    obtain ⟨repaired, hrepairs, hitems⟩ := ih
    exact ⟨_, ((Repairs.of_notMem (by decide)).append hrepairs).append
      (.of_notMem (by decide)), .array hitems⟩
  | emptyObject hspace =>
    exact ⟨_, ((Repairs.of_notMem (by decide)).append (.of_isSpace hspace)).append
      (.of_notMem (by decide)), .emptyObject hspace⟩
  | object _ ih =>
    obtain ⟨repaired, hrepairs, hmembers⟩ := ih
    exact ⟨_, ((Repairs.of_notMem (by decide)).append hrepairs).append
      (.of_notMem (by decide)), .object hmembers⟩
  | element hbefore hafter _ ih =>
    obtain ⟨repaired, hrepairs, hvalue⟩ := ih
    exact ⟨_, ((Repairs.of_isSpace hbefore).append hrepairs).append (.of_isSpace hafter),
      .element hbefore hafter hvalue⟩
  | lastElement _ ih =>
    obtain ⟨repaired, hrepairs, helement⟩ := ih
    exact ⟨repaired, hrepairs, .lastElement helement⟩
  | elements _ _ ih ihrest =>
    obtain ⟨repaired, hrepairs, helement⟩ := ih
    obtain ⟨repaired', hrepairs', helements⟩ := ihrest
    exact ⟨_, (hrepairs.append (.of_notMem (by decide))).append hrepairs',
      .elements helement helements⟩
  | member hbefore hkey hafter _ ih =>
    obtain ⟨key, hkeyRepairs, hstring⟩ := repairs_string hkey
    obtain ⟨repaired, hrepairs, helement⟩ := ih
    exact ⟨_, ((((Repairs.of_isSpace hbefore).append hkeyRepairs).append
      (.of_isSpace hafter)).append (.of_notMem (by decide))).append hrepairs,
      .member hbefore hstring hafter helement⟩
  | lastMember _ ih =>
    obtain ⟨repaired, hrepairs, hmember⟩ := ih
    exact ⟨repaired, hrepairs, .lastMember hmember⟩
  | members _ _ ih ihrest =>
    obtain ⟨repaired, hrepairs, hmember⟩ := ih
    obtain ⟨repaired', hrepairs', hmembers⟩ := ihrest
    exact ⟨_, (hrepairs.append (.of_notMem (by decide))).append hrepairs',
      .members hmember hmembers⟩

/-- The repair is idempotent. It keeps every JSON text, and turns a text of the lenient grammar into
JSON with the same value. -/
theorem repairJson_repairs (json : Units) : repairJson (repairJson json) = repairJson json ∧
      (∀ v, IsJson json v → repairJson json = json) ∧
      ∀ v, IsLenientJson json v → IsJson (repairJson json) v := by
  have hwhole {lenient : Bool} {v : JsonValue} (h : Denotes lenient json (.element v)) :
      Denotes false (repairJson json) (.element v) ∧
        (lenient = false → repairJson json = json) := by
    obtain ⟨repaired, hrepairs, hjson⟩ := h.repair
    have heq : repairJson json = repaired := by
      have hrepair := hrepairs.repair []
      rw [append_nil, repairFrom_nil, append_nil] at hrepair
      rw [repairJson_eq, hrepair]
    rw [heq]
    exact ⟨hjson, hrepairs.strict⟩
  refine ⟨?_, fun v h => (hwhole h).2 rfl, fun v h => (hwhole h).1⟩
  rw [repairJson_eq, repairJson_eq, repairFrom_idempotent]

/-- A string with a tab, a stray backslash, and the first half of an escape before its end. -/
theorem repairJson_repairs_tab :
    IsJson (repairJson [34, 9, 92, 113, 92, 117, 48, 34]) (.string [9, 92, 113, 92, 117, 48]) :=
  (repairJson_repairs [34, 9, 92, 113, 92, 117, 48, 34]).2.2 _ <| by
    have hclose : StringBody true [34] [] := .close
    have hdigit : StringBody true [48, 34] [48] := .plain (by decide) (by decide) (by decide) hclose
    have hletter : StringBody true [117, 48, 34] [117, 48] :=
      .plain (by decide) (by decide) (by decide) hdigit
    have hhalf : StringBody true [92, 117, 48, 34] [92, 117, 48] :=
      .stray rfl (by rintro (h | ⟨-, h⟩) <;> revert h <;> decide) hletter
    have hq : StringBody true [113, 92, 117, 48, 34] [113, 92, 117, 48] :=
      .plain (by decide) (by decide) (by decide) hhalf
    have hstray : StringBody true [92, 113, 92, 117, 48, 34] [92, 113, 92, 117, 48] :=
      .stray rfl (by rintro (h | ⟨h, -⟩) <;> revert h <;> decide) hq
    have htab : StringBody true [9, 92, 113, 92, 117, 48, 34] [9, 92, 113, 92, 117, 48] :=
      .control rfl (by decide) hstray
    have hspace : IsSpace [] := fun _ h => absurd h not_mem_nil
    have hjson := Denotes.element hspace hspace (.string htab)
    exact hjson

end BreadboardTui.JsonRepair
