import BreadboardTui.Hashline.Tokenizer

/-!
# JSON texts

The grammar of JSON, with the value that a text denotes. In the lenient grammar a string may also
have control characters in it, and a backslash that no escape follows; both stand for themselves.
-/

namespace BreadboardTui.JsonRepair

open Hashline (Units)

/-! ### Strings -/

def hexValue (code : ℕ) : Option ℕ :=
  if 48 ≤ code ∧ code ≤ 57 then some (code - 48)
  else if 65 ≤ code ∧ code ≤ 70 then some (code - 55)
  else if 97 ≤ code ∧ code ≤ 102 then some (code - 87)
  else none

/-- The value of the first four digits. -/
def quadValue : Units → Option ℕ
  | a :: b :: c :: d :: _ =>
    match hexValue a, hexValue b, hexValue c, hexValue d with
    | some a, some b, some c, some d => some (((a * 16 + b) * 16 + c) * 16 + d)
    | _, _, _, _ => none
  | _ => none

/-- The character that an escape of two characters stands for. -/
def escapeValue : ℕ → Option ℕ
  | 34 => some 34
  | 92 => some 92
  | 47 => some 47
  | 98 => some 8
  | 102 => some 12
  | 110 => some 10
  | 114 => some 13
  | 116 => some 9
  | _ => none

/-- A backslash in front of the text makes an escape with it. -/
def StartsEscape : Units → Prop
  | [] => False
  | code :: digits => (escapeValue code).isSome ∨ code = 117 ∧ (quadValue digits).isSome

/-- The text of a string up to its closing quote, and the string. -/
inductive StringBody (lenient : Bool) : Units → Units → Prop where
  | close : StringBody lenient [34] []
  | plain {code : ℕ} {body text : Units} (hcontrol : 32 ≤ code) (hquote : code ≠ 34)
      (hbackslash : code ≠ 92) (hbody : StringBody lenient body text) :
      StringBody lenient (code :: body) (code :: text)
  | escape {code value : ℕ} {body text : Units} (hvalue : escapeValue code = some value)
      (hbody : StringBody lenient body text) :
      StringBody lenient (92 :: code :: body) (value :: text)
  | unicode {a b c d value : ℕ} {body text : Units} (hvalue : quadValue [a, b, c, d] = some value)
      (hbody : StringBody lenient body text) :
      StringBody lenient (92 :: 117 :: a :: b :: c :: d :: body) (value :: text)
  | control {code : ℕ} {body text : Units} (hlenient : lenient = true) (hcontrol : code < 32)
      (hbody : StringBody lenient body text) : StringBody lenient (code :: body) (code :: text)
  | stray {body text : Units} (hlenient : lenient = true) (hescape : ¬ StartsEscape body)
      (hbody : StringBody lenient body text) : StringBody lenient (92 :: body) (92 :: text)

/-! ### Values -/

/-- A value. A number is kept as its text, and an object has its members in order. -/
inductive JsonValue where
  | null
  | bool (value : Bool)
  | number (text : Units)
  | string (text : Units)
  | array (items : List JsonValue)
  | object (members : List (Units × JsonValue))

def IsSpace (text : Units) : Prop := ∀ code ∈ text, code ∈ [32, 9, 10, 13]

def IsDigits (text : Units) : Prop := text ≠ [] ∧ ∀ code ∈ text, 48 ≤ code ∧ code ≤ 57

/-- A sign, an integer without leading zeros, a fraction and an exponent. -/
structure IsNumber (sign integer fraction exponent : Units) : Prop where
  hsign : sign = [] ∨ sign = [45]
  hinteger : IsDigits integer
  hleading : integer.head? = some 48 → integer = [48]
  hfraction : fraction = [] ∨ ∃ digits, IsDigits digits ∧ fraction = 46 :: digits
  hexponent : exponent = [] ∨ ∃ letter sign digits, letter ∈ [69, 101] ∧
    sign ∈ [[], [43], [45]] ∧ IsDigits digits ∧ exponent = letter :: (sign ++ digits)

/-- What a text of the grammar denotes. An element is a value with space around it. -/
inductive Phrase where
  | value (v : JsonValue)
  | element (v : JsonValue)
  | elements (items : List JsonValue)
  | member (key : Units) (v : JsonValue)
  | members (members : List (Units × JsonValue))

/-- The grammar. -/
inductive Denotes (lenient : Bool) : Units → Phrase → Prop where
  | literalNull : Denotes lenient [110, 117, 108, 108] (.value .null)
  | literalTrue : Denotes lenient [116, 114, 117, 101] (.value (.bool true))
  | literalFalse : Denotes lenient [102, 97, 108, 115, 101] (.value (.bool false))
  | number {sign integer fraction exponent : Units}
      (hnumber : IsNumber sign integer fraction exponent) :
      Denotes lenient (sign ++ integer ++ fraction ++ exponent)
        (.value (.number (sign ++ integer ++ fraction ++ exponent)))
  | string {body text : Units} (hbody : StringBody lenient body text) :
      Denotes lenient (34 :: body) (.value (.string text))
  | emptyArray {space : Units} (hspace : IsSpace space) :
      Denotes lenient ([91] ++ space ++ [93]) (.value (.array []))
  | array {text : Units} {items : List JsonValue} (h : Denotes lenient text (.elements items)) :
      Denotes lenient ([91] ++ text ++ [93]) (.value (.array items))
  | emptyObject {space : Units} (hspace : IsSpace space) :
      Denotes lenient ([123] ++ space ++ [125]) (.value (.object []))
  | object {text : Units} {members : List (Units × JsonValue)}
      (h : Denotes lenient text (.members members)) :
      Denotes lenient ([123] ++ text ++ [125]) (.value (.object members))
  | element {before text after : Units} {v : JsonValue} (hbefore : IsSpace before)
      (hafter : IsSpace after) (h : Denotes lenient text (.value v)) :
      Denotes lenient (before ++ text ++ after) (.element v)
  | lastElement {text : Units} {v : JsonValue} (h : Denotes lenient text (.element v)) :
      Denotes lenient text (.elements [v])
  | elements {text rest : Units} {v : JsonValue} {items : List JsonValue}
      (h : Denotes lenient text (.element v)) (hrest : Denotes lenient rest (.elements items)) :
      Denotes lenient (text ++ [44] ++ rest) (.elements (v :: items))
  | member {before body after text key : Units} {v : JsonValue} (hbefore : IsSpace before)
      (hkey : StringBody lenient body key) (hafter : IsSpace after)
      (h : Denotes lenient text (.element v)) :
      Denotes lenient (before ++ (34 :: body) ++ after ++ [58] ++ text) (.member key v)
  | lastMember {text key : Units} {v : JsonValue} (h : Denotes lenient text (.member key v)) :
      Denotes lenient text (.members [(key, v)])
  | members {text rest key : Units} {v : JsonValue} {members : List (Units × JsonValue)}
      (h : Denotes lenient text (.member key v)) (hrest : Denotes lenient rest (.members members)) :
      Denotes lenient (text ++ [44] ++ rest) (.members ((key, v) :: members))

/-- A text that `JSON.parse` takes, and its value. -/
def IsJson (text : Units) (v : JsonValue) : Prop := Denotes false text (.element v)

/-- A text of the lenient grammar, and its value. -/
def IsLenientJson (text : Units) (v : JsonValue) : Prop := Denotes true text (.element v)

/-! ### Quotes -/

variable {text : Units}

theorem quote_notMem_of_isSpace (h : IsSpace text) : 34 ∉ text := by
  intro hmem
  have hspace := h 34 hmem
  revert hspace
  decide

theorem quote_notMem_of_isDigits (h : IsDigits text) : 34 ∉ text := by
  intro hmem
  have hdigit := h.2 34 hmem
  omega

theorem quote_notMem_of_isNumber {sign integer fraction exponent : Units}
    (h : IsNumber sign integer fraction exponent) :
    34 ∉ sign ++ integer ++ fraction ++ exponent := by
  have hsign : 34 ∉ sign := by
    rcases h.hsign with rfl | rfl <;> decide
  have hfraction : 34 ∉ fraction := by
    rcases h.hfraction with rfl | ⟨digits, hdigits, rfl⟩
    · decide
    rw [List.mem_cons, not_or]
    exact ⟨by decide, quote_notMem_of_isDigits hdigits⟩
  have hexponent : 34 ∉ exponent := by
    rcases h.hexponent with rfl | ⟨letter, sign, digits, hletter, hsign, hdigits, rfl⟩
    · decide
    rw [List.mem_cons, not_or, List.mem_append, not_or]
    refine ⟨fun heq => ?_, fun hmem => ?_, quote_notMem_of_isDigits hdigits⟩
    · rw [← heq] at hletter
      revert hletter
      decide
    simp only [List.mem_cons, List.not_mem_nil, or_false] at hsign
    rcases hsign with rfl | rfl | rfl <;> revert hmem <;> decide
  simp only [List.mem_append, not_or]
  exact ⟨⟨⟨hsign, quote_notMem_of_isDigits h.hinteger⟩, hfraction⟩, hexponent⟩

/-! ### The end of a string -/

variable {lenient : Bool}

/-- Behind the opening quote there is a closing one. -/
theorem StringBody.eq_concat {body : Units}
    (h : StringBody lenient body text) : ∃ inner, body = inner ++ [34] := by
  induction h with
  | close => exact ⟨[], rfl⟩
  | plain _ _ _ _ ih =>
    obtain ⟨inner, rfl⟩ := ih
    exact ⟨_ :: inner, rfl⟩
  | escape _ _ ih =>
    obtain ⟨inner, rfl⟩ := ih
    exact ⟨92 :: _ :: inner, rfl⟩
  | unicode _ _ ih =>
    obtain ⟨inner, rfl⟩ := ih
    exact ⟨92 :: 117 :: _ :: _ :: _ :: _ :: inner, rfl⟩
  | control _ _ _ ih =>
    obtain ⟨inner, rfl⟩ := ih
    exact ⟨_ :: inner, rfl⟩
  | stray _ _ _ ih =>
    obtain ⟨inner, rfl⟩ := ih
    exact ⟨92 :: inner, rfl⟩

theorem quadValue_eq_none_of_quote {a b c : ℕ} (rest : Units) :
    quadValue (34 :: rest) = none ∧ quadValue (a :: 34 :: rest) = none ∧
      quadValue (a :: b :: 34 :: rest) = none ∧ quadValue (a :: b :: c :: 34 :: rest) = none := by
  have hquote : hexValue 34 = none := by decide
  refine ⟨?_, ?_, ?_, ?_⟩
  · rcases rest with _ | ⟨_, _ | ⟨_, _ | ⟨_, _⟩⟩⟩ <;> simp [quadValue, hquote]
  · rcases rest with _ | ⟨_, _ | ⟨_, _⟩⟩ <;> simp [quadValue, hquote]
  · rcases rest with _ | ⟨_, _⟩ <;> simp [quadValue, hquote]
  · simp [quadValue, hquote]

theorem quadValue_append (inner rest : Units) :
    quadValue (inner ++ [34] ++ rest) = quadValue (inner ++ [34]) := by
  rcases inner with _ | ⟨a, _ | ⟨b, _ | ⟨c, _ | ⟨d, inner⟩⟩⟩⟩
  · exact (quadValue_eq_none_of_quote (a := 0) (b := 0) (c := 0) rest).1
  · exact (quadValue_eq_none_of_quote (b := 0) (c := 0) rest).2.1
  · exact (quadValue_eq_none_of_quote (c := 0) rest).2.2.1
  · exact (quadValue_eq_none_of_quote rest).2.2.2.trans
      (quadValue_eq_none_of_quote []).2.2.2.symm
  · rfl

/-- Whether an escape follows is settled within the string. -/
theorem StringBody.startsEscape_append {body : Units}
    (h : StringBody lenient body text) (rest : Units) :
    StartsEscape (body ++ rest) ↔ StartsEscape body := by
  obtain ⟨inner, rfl⟩ := h.eq_concat
  cases inner with
  | nil => exact ⟨fun _ => .inl rfl, fun _ => .inl rfl⟩
  | cons code inner =>
    have hquad := quadValue_append inner rest
    rw [List.cons_append, List.cons_append, StartsEscape, StartsEscape, hquad]

end BreadboardTui.JsonRepair
