import BreadboardTui.JsonRepair.ClassifyPrefix

/-!
# The relaxed parser

`RelaxedJson`: a parser for texts that are nearly JSON. In partial mode it closes by itself what the
end of the text has cut; in strict mode it throws there.
-/

namespace BreadboardTui.JsonRepair

open List

open Hashline (Units units)

/-! ### Space, strings and keys -/

inductive WsMode where
  | plain
  | lineComment
  | blockComment

/-- `#ws`: the text behind space and comments. -/
def ws : WsMode → Units → Units
  | _, [] => []
  | .plain, c :: rest =>
    if isWhitespace c then ws .plain rest
    else if c = 47 then
      match rest with
      | [] => [c]
      | d :: rest' =>
        if d = 47 then ws .lineComment rest'
        else if d = 42 then ws .blockComment rest'
        else c :: d :: rest'
    else c :: rest
  | .lineComment, c :: rest => if c = 10 then ws .plain rest else ws .lineComment rest
  | .blockComment, c :: rest =>
    match rest with
    | [] => []
    | d :: rest' => if c = 42 ∧ d = 47 then ws .plain rest' else ws .blockComment (d :: rest')

def closesString (text : Units) : Bool :=
  match text.dropWhile isWhitespace with
  | [] => true
  | c :: _ => c = 44 || c = 125 || c = 93 || c = 58

/-- What an escape of two characters says; one that is not valid stands for itself. -/
def unescape (e : ℕ) : Units :=
  if e = 39 then [39]
  else
    match escapeValue e with
    | some code => [code]
    | none => [92, e]

/-- What was read of a string, the text behind it, and if there was a closing quote. -/
structure StringRead where
  out : Units
  rest : Units
  closed : Bool

def StringRead.prepend (codes : Units) (read : StringRead) : StringRead :=
  { read with out := codes ++ read.out }

/-- The loop of `#string`, behind the opening quote. -/
def readString (lenient : Bool) (quote : ℕ) : Units → StringRead
  | [] => ⟨[], [], false⟩
  | c :: rest =>
    if c = quote then
      if !lenient || closesString rest then ⟨[], rest, true⟩
      else (readString lenient quote rest).prepend [c]
    else if c = 92 then
      match rest with
      | [] => ⟨[92], [], false⟩
      | e :: rest =>
        if e = 117 then
          match rest with
          | a :: b :: c :: d :: rest' =>
            match quadValue [a, b, c, d] with
            | some code => (readString lenient quote rest').prepend [code]
            | none => (readString lenient quote (a :: b :: c :: d :: rest')).prepend [92, 117]
          | rest' => (readString lenient quote rest').prepend [92, 117]
        else (readString lenient quote rest).prepend (unescape e)
    else (readString lenient quote rest).prepend [c]

/-- `#string`, behind the opening quote; `none` where it throws. -/
def string (inPartial : Bool) (quote : ℕ) (text : Units) : Option (Units × Units) :=
  let read := readString (quote = 39 || inPartial) quote text
  if read.closed || inPartial then some (read.out, read.rest) else none

/-- An unquoted key goes on with the character. -/
def isKeyChar (c : ℕ) : Bool := !(c = 58 || c = 44 || c = 125 || isWhitespace c)

def key (inPartial : Bool) (text : Units) : Option (Units × Units) :=
  match text with
  | [] => if inPartial then some ([], []) else none
  | c :: rest =>
    if c = 34 ∨ c = 39 then string inPartial c rest
    else if isKeyChar c then some (text.takeWhile isKeyChar, text.dropWhile isKeyChar)
    else if inPartial then some ([], text)
    else none

/-! ### Numbers and words -/

def isNumberChar (c : ℕ) : Bool :=
  isDigit c || c = 45 || c = 43 || c = 46 || c = 101 || c = 69 || c = 120 || c = 88 ||
    (97 ≤ c && c ≤ 102) || (65 ≤ c && c ≤ 70)

def dropSign (text : Units) : Units :=
  match text with
  | 43 :: rest => rest
  | 45 :: rest => rest
  | rest => rest

/-- Some digits and no more. -/
def isAll (digit : ℕ → Bool) (text : Units) : Bool := !text.isEmpty && text.all digit

def isExponentToken : Units → Bool
  | [] => true
  | c :: rest => (c = 101 || c = 69) && isAll isDigit (dropSign rest)

/-- A decimal number, with a digit before or behind the point. -/
def isDecimalToken (token : Units) : Bool :=
  let text := dropSign token
  let integer := text.takeWhile isDigit
  match text.dropWhile isDigit with
  | 46 :: rest =>
    (!integer.isEmpty || !(rest.takeWhile isDigit).isEmpty) &&
      isExponentToken (rest.dropWhile isDigit)
  | rest => !integer.isEmpty && isExponentToken rest

/-- `Number(token)` is a number: decimal, hexadecimal or binary. -/
def isNumeric (token : Units) : Bool :=
  match token with
  | 48 :: c :: digits =>
    if c = 120 ∨ c = 88 then isAll isHexDigit digits
    else if c = 98 ∨ c = 66 then isAll (fun d => d = 48 || d = 49) digits
    else isDecimalToken token
  | _ => isDecimalToken token

def isIdentChar (cp : ℕ) : Bool :=
  (48 ≤ cp && cp ≤ 57) || (97 ≤ (cp ||| 32) && (cp ||| 32) ≤ 122) || cp = 95 || cp = 36

/-- `KEYWORDS`. -/
def keywordValues : List (Units × JsonValue) :=
  [(units "true", .bool true), (units "false", .bool false), (units "null", .null),
    (units "True", .bool true), (units "False", .bool false), (units "None", .null)]

/-- The keyword at the beginning of a text. -/
def findKeyword (text : Units) : Option (Units × JsonValue) :=
  keywordValues.find? fun (word, _) =>
    word.isPrefixOf text && !(text.drop word.length).head?.any isIdentChar

/-- The names that `NON_RECOVERABLE_BAREWORDS` has an answer for: its own, and those that every
object has. -/
def nonRecoverableBarewords : List Units :=
  ["NaN", "Infinity", "-Infinity", "+Infinity", "undefined", "constructor", "__defineGetter__",
    "__defineSetter__", "hasOwnProperty", "__lookupGetter__", "__lookupSetter__", "isPrototypeOf",
    "propertyIsEnumerable", "toString", "valueOf", "__proto__", "toLocaleString"].map units

/-- A bareword up to its delimiter, and the text from there on. -/
def scanBareword : Units → Option (Units × Units)
  | [] => none
  | c :: rest =>
    if c = 44 ∨ c = 125 ∨ c = 93 ∨ c = 10 ∨ c = 13 then some ([], c :: rest)
    else if c = 34 ∨ c = 123 ∨ c = 91 ∨ c = 58 ∧ rest.head? ≠ some 47 ∧ rest.head? ≠ some 92 then none
    else (scanBareword rest).map fun (word, rest) => (c :: word, rest)

def bareword (text : Units) : Option (Units × Units) :=
  match scanBareword text with
  | none => none
  | some (word, rest) =>
    let word := word.rdropWhile isWhitespace
    if word ∈ nonRecoverableBarewords then none else some (word, rest)

/-! ### Values -/

/-- The end of a part of the parse. The model has no fuel left, or the parser goes on, signals
`INCOMPLETE`, or throws. -/
inductive Parsed where
  | exhausted
  | ok (v : JsonValue) (rest : Units)
  | incomplete (rest : Units)
  | throws

def protoKey : Units := units "__proto__"

/-- `out[key] = value`. The key `__proto__` is no member: its setter changes the prototype. -/
def assign (out : List (Units × JsonValue)) (key : Units) (v : JsonValue) :
    List (Units × JsonValue) :=
  if key = protoKey then out
  else if key ∈ out.map Prod.fst then out.map fun m => if m.1 = key then (key, v) else m
  else out ++ [(key, v)]

def number (inPartial : Bool) (text : Units) : Parsed :=
  let token := text.takeWhile isNumberChar
  let rest := text.dropWhile isNumberChar
  if isNumeric token then .ok (.number token) rest
  else if inPartial then .incomplete rest
  else .throws

def keyword (inPartial allowBareword : Bool) (text : Units) : Parsed :=
  match findKeyword text with
  | some (word, v) => .ok v (text.drop word.length)
  | none =>
    if inPartial then .incomplete []
    else if allowBareword then
      match bareword text with
      | some (word, rest) => .ok (.string word) rest
      | none => .throws
    else .throws

/-- A value that the parser goes on from, or the end of a container that it returns. -/
def endOr (inPartial : Bool) (v : JsonValue) (rest : Units) : Parsed :=
  if inPartial then .ok v rest else .throws

mutual

def value (inPartial : Bool) : ℕ → Bool → Units → Parsed
  | 0, _, _ => .exhausted
  | _ + 1, _, [] => .throws
  | fuel + 1, allowBareword, c :: rest =>
    if c = 123 then objectLoop inPartial fuel [] rest
    else if c = 91 then arrayLoop inPartial fuel [] rest
    else if c = 34 ∨ c = 39 then
      match string inPartial c rest with
      | some (text, rest) => .ok (.string text) rest
      | none => .throws
    else if c = 45 ∨ c = 43 ∨ c = 46 ∨ isDigit c then number inPartial (c :: rest)
    else keyword inPartial allowBareword (c :: rest)

/-- The loop of `#object`. -/
def objectLoop (inPartial : Bool) : ℕ → List (Units × JsonValue) → Units → Parsed
  | 0, _, _ => .exhausted
  | fuel + 1, out, text =>
    match ws .plain text with
    | [] => endOr inPartial (.object out) []
    | c :: rest =>
      if c = 125 then .ok (.object out) rest
      else if c = 44 then objectLoop inPartial fuel out rest
      else
        match key inPartial (c :: rest) with
        | none => .throws
        | some (name, rest) =>
          match ws .plain rest with
          | [] => endOr inPartial (.object out) []
          | colon :: rest =>
            if colon ≠ 58 then endOr inPartial (.object out) (colon :: rest)
            else
              match ws .plain rest with
              | [] => endOr inPartial (.object out) []
              | d :: rest =>
                match value inPartial fuel true (d :: rest) with
                | .exhausted => .exhausted
                | .throws => .throws
                | .incomplete rest => .ok (.object out) rest
                | .ok v rest =>
                  match ws .plain rest with
                  | [] => endOr inPartial (.object (assign out name v)) []
                  | e :: rest =>
                    if e = 44 then objectLoop inPartial fuel (assign out name v) rest
                    else if e = 125 then .ok (.object (assign out name v)) rest
                    else endOr inPartial (.object (assign out name v)) (e :: rest)

/-- The loop of `#array`. -/
def arrayLoop (inPartial : Bool) : ℕ → List JsonValue → Units → Parsed
  | 0, _, _ => .exhausted
  | fuel + 1, out, text =>
    match ws .plain text with
    | [] => endOr inPartial (.array out) []
    | c :: rest =>
      if c = 93 then .ok (.array out) rest
      else if c = 44 then arrayLoop inPartial fuel out rest
      else
        match value inPartial fuel true (c :: rest) with
        | .exhausted => .exhausted
        | .throws => .throws
        | .incomplete rest => .ok (.array out) rest
        | .ok v rest =>
          match ws .plain rest with
          | [] => endOr inPartial (.array (out ++ [v])) []
          | e :: rest =>
            if e = 44 then arrayLoop inPartial fuel (out ++ [v]) rest
            else if e = 93 then .ok (.array (out ++ [v])) rest
            else endOr inPartial (.array (out ++ [v])) (e :: rest)

end

/-- What `parse` comes to: a value, `undefined` or an error. -/
inductive ParseResult where
  | exhausted
  | value (v : JsonValue)
  | undefined
  | throws

/-- `RelaxedJson.parse`. A character makes two calls at most. -/
def relaxedParse (inPartial : Bool) (text : Units) : ParseResult :=
  match ws .plain text with
  | [] => if inPartial then .undefined else .throws
  | c :: rest =>
    match value inPartial (2 * text.length + 2) false (c :: rest) with
    | .exhausted => .exhausted
    | .throws => .throws
    | .incomplete _ => .undefined
    | .ok v rest => if !inPartial && !(ws .plain rest).isEmpty then .throws else .value v

/-- `parseJsonWithRepair`, with what `JSON.parse` has returned. -/
def parseJsonWithRepair (parsed : Option JsonValue) (text : Units) : ParseResult :=
  match parsed with
  | some v => .value v
  | none => relaxedParse false text

/-! ### The values that are built -/

mutual

/-- The value with the objects that the assignments of the parser make. -/
def build : JsonValue → JsonValue
  | .null => .null
  | .bool b => .bool b
  | .number text => .number text
  | .string text => .string text
  | .array items => .array (buildItems items)
  | .object members => .object (buildMembers [] members)

def buildItems : List JsonValue → List JsonValue
  | [] => []
  | v :: items => build v :: buildItems items

/-- The members of an object that has some already. -/
def buildMembers (out : List (Units × JsonValue)) :
    List (Units × JsonValue) → List (Units × JsonValue)
  | [] => out
  | (name, v) :: members => buildMembers (assign out name (build v)) members

end

mutual

/-- Every object has distinct keys. -/
def DistinctKeys : JsonValue → Prop
  | .array items => DistinctItems items
  | .object members => (members.map Prod.fst).Nodup ∧ DistinctMembers members
  | _ => True

def DistinctItems : List JsonValue → Prop
  | [] => True
  | v :: items => DistinctKeys v ∧ DistinctItems items

def DistinctMembers : List (Units × JsonValue) → Prop
  | [] => True
  | (_, v) :: members => DistinctKeys v ∧ DistinctMembers members

end

mutual

/-- No object has the key `__proto__`. -/
def NoProto : JsonValue → Prop
  | .array items => NoProtoItems items
  | .object members => NoProtoMembers members
  | _ => True

def NoProtoItems : List JsonValue → Prop
  | [] => True
  | v :: items => NoProto v ∧ NoProtoItems items

def NoProtoMembers : List (Units × JsonValue) → Prop
  | [] => True
  | (name, v) :: members => name ≠ protoKey ∧ NoProto v ∧ NoProtoMembers members

end

variable {out : List (Units × JsonValue)}

theorem assign_of_new {name : Units} (hproto : name ≠ protoKey)
    (hnew : name ∉ out.map Prod.fst) (v : JsonValue) : assign out name v = out ++ [(name, v)] := by
  rw [assign, if_neg hproto, if_neg hnew]

theorem proto_notMem_assign (h : protoKey ∉ out.map Prod.fst)
    (name : Units) (v : JsonValue) : protoKey ∉ (assign out name v).map Prod.fst := by
  rw [assign]
  split
  · exact h
  next hproto =>
  split
  · intro hmem
    obtain ⟨m, hm, heq⟩ := mem_map.mp hmem
    obtain ⟨m', hm', rfl⟩ := mem_map.mp hm
    split at heq
    · exact hproto heq
    · exact h (mem_map.mpr ⟨m', hm', heq⟩)
  rw [map_append, mem_append, not_or]
  exact ⟨h, fun hmem => hproto (mem_singleton.mp hmem).symm⟩

variable (members : List (Units × JsonValue))

theorem proto_notMem_buildMembers :
    ∀ {out : List (Units × JsonValue)}, protoKey ∉ out.map Prod.fst →
      protoKey ∉ (buildMembers out members).map Prod.fst := by
  induction members with
  | nil => exact fun h => h
  | cons m members ih =>
    intro out h
    exact ih (proto_notMem_assign h m.1 (build m.2))

/-- Where the keys are new, the members are appended. -/
theorem buildMembers_eq :
    ∀ {out : List (Units × JsonValue)}, ((out ++ members).map Prod.fst).Nodup →
      protoKey ∉ members.map Prod.fst →
      buildMembers out members = out ++ members.map fun m => (m.1, build m.2) := by
  induction members with
  | nil =>
    intro out _ _
    exact (append_nil out).symm
  | cons m members ih =>
    intro out hnodup hproto
    obtain ⟨name, v⟩ := m
    rw [map_cons, mem_cons, not_or] at hproto
    have hnew : name ∉ out.map Prod.fst := by
      rw [map_append, nodup_append] at hnodup
      exact fun hmem => hnodup.2.2 name hmem name mem_cons_self rfl
    rw [buildMembers, assign_of_new (Ne.symm hproto.1) hnew, ih ?_ hproto.2, append_assoc]
    · rfl
    rw [append_assoc]
    simpa using hnodup

theorem noProtoMembers_of {members : List (Units × JsonValue)}
    (h : protoKey ∉ members.map Prod.fst) (hvalues : ∀ m ∈ members, NoProto m.2) :
    NoProtoMembers members := by
  induction members with
  | nil => exact trivial
  | cons m members ih =>
    rw [map_cons, mem_cons, not_or] at h
    rw [forall_mem_cons] at hvalues
    exact ⟨Ne.symm h.1, hvalues.1, ih h.2 hvalues.2⟩

theorem proto_notMem_of_noProtoMembers {members : List (Units × JsonValue)}
    (h : NoProtoMembers members) : protoKey ∉ members.map Prod.fst := by
  induction members with
  | nil => exact not_mem_nil
  | cons m members ih =>
    rw [map_cons, mem_cons, not_or]
    exact ⟨Ne.symm h.1, ih h.2.2⟩

mutual

/-- The parser builds the value itself exactly where no object has the key `__proto__`. -/
theorem build_eq_iff : ∀ {v : JsonValue}, DistinctKeys v → (build v = v ↔ NoProto v)
  | .null, _ => ⟨fun _ => trivial, fun _ => rfl⟩
  | .bool _, _ => ⟨fun _ => trivial, fun _ => rfl⟩
  | .number _, _ => ⟨fun _ => trivial, fun _ => rfl⟩
  | .string _, _ => ⟨fun _ => trivial, fun _ => rfl⟩
  | .array items, h => by
    rw [build, JsonValue.array.injEq]
    exact buildItems_eq_iff h
  | .object members, h => by
    rw [build, JsonValue.object.injEq]
    have hvalues := values_eq_iff h.2
    have hnodup : (([] ++ members).map Prod.fst).Nodup := h.1
    constructor
    · intro heq
      have hproto : protoKey ∉ members.map Prod.fst := by
        rw [← heq]
        exact proto_notMem_buildMembers members not_mem_nil
      refine noProtoMembers_of hproto (hvalues.mp ?_)
      rwa [buildMembers_eq members hnodup hproto, nil_append] at heq
    intro hno
    have hproto := proto_notMem_of_noProtoMembers hno
    rw [buildMembers_eq members hnodup hproto, nil_append]
    exact hvalues.mpr (noProto_of_noProtoMembers hno)

theorem buildItems_eq_iff : ∀ {items : List JsonValue}, DistinctItems items →
    (buildItems items = items ↔ NoProtoItems items)
  | [], _ => ⟨fun _ => trivial, fun _ => rfl⟩
  | v :: items, h => by
    rw [buildItems, List.cons.injEq, build_eq_iff h.1, buildItems_eq_iff h.2]
    rfl

theorem values_eq_iff : ∀ {members : List (Units × JsonValue)}, DistinctMembers members →
    ((members.map fun m => (m.1, build m.2)) = members ↔ ∀ m ∈ members, NoProto m.2)
  | [], _ => ⟨fun _ _ h => absurd h not_mem_nil, fun _ => rfl⟩
  | (name, v) :: members, h => by
    rw [map_cons, List.cons.injEq, forall_mem_cons, values_eq_iff h.2, Prod.mk.injEq,
      build_eq_iff h.1]
    exact and_congr_left' (and_iff_right rfl)

theorem noProto_of_noProtoMembers : ∀ {members : List (Units × JsonValue)},
    NoProtoMembers members → ∀ m ∈ members, NoProto m.2
  | [], _ => fun _ h => absurd h not_mem_nil
  | (_, _) :: _, h => forall_mem_cons.mpr ⟨h.2.1, noProto_of_noProtoMembers h.2.2⟩

end

/-! ### Space -/

variable {c : ℕ}

theorem isWhitespace_of_mem (h : c ∈ [32, 9, 10, 13]) : isWhitespace c = true := by
  simpa [isWhitespace, or_assoc] using h

variable {space : Units}

theorem ws_space (h : IsSpace space) (rest : Units) :
    ws .plain (space ++ rest) = ws .plain rest := by
  induction space with
  | nil => rfl
  | cons c space ih =>
    rw [IsSpace, forall_mem_cons] at h
    rw [cons_append, ws.eq_def]
    dsimp only
    rw [if_pos (isWhitespace_of_mem h.1), ih h.2]

theorem ws_of_isSpace (h : IsSpace space) : ws .plain space = [] := by
  have hws := ws_space h []
  rwa [append_nil] at hws

theorem ws_cons (hc : isWhitespace c = false) (hslash : c ≠ 47) (rest : Units) :
    ws .plain (c :: rest) = c :: rest := by
  rw [ws.eq_def]
  dsimp only
  rw [hc, if_neg Bool.false_ne_true, if_neg hslash]

/-- A value ends in front of the text. -/
def Ends (text : Units) : Prop := closesString text = true

theorem ends_space {space rest : Units} (h : IsSpace space) (hrest : Ends rest) :
    Ends (space ++ rest) := by
  have hall : ∀ c ∈ space, isWhitespace c = true := fun c hc => isWhitespace_of_mem (h c hc)
  rw [Ends, closesString, dropWhile_append, dropWhile_eq_nil_iff.mpr hall]
  exact hrest

theorem ends_nil : Ends [] := rfl

theorem ends_of_isSpace (h : IsSpace space) : Ends space :=
  append_nil space ▸ ends_space h ends_nil

theorem ends_cons (h : c = 44 ∨ c = 125 ∨ c = 93 ∨ c = 58) (rest : Units) : Ends (c :: rest) := by
  rcases h with rfl | rfl | rfl | rfl <;> rfl

variable {text : Units}

/-- Neither a number nor a word goes on where a value ends. -/
theorem Ends.head (h : Ends (c :: text)) : isNumberChar c = false ∧ isIdentChar c = false := by
  rw [Ends, closesString, dropWhile_cons] at h
  by_cases hspace : isWhitespace c = true
  · have hc := mem_space hspace
    simp only [mem_cons, not_mem_nil, or_false] at hc
    rcases hc with rfl | rfl | rfl | rfl <;> exact ⟨rfl, by decide⟩
  rw [if_neg hspace] at h
  simp only [Bool.or_eq_true, decide_eq_true_eq] at h
  rcases h with ((rfl | rfl) | rfl) | rfl <;> exact ⟨rfl, by decide⟩

/-! ### Strings and keys of JSON -/

variable (lenient : Bool)

theorem readString_nil (quote : ℕ) : readString lenient quote [] = ⟨[], [], false⟩ :=
  by rw [readString.eq_def]

variable {rest : Units}

theorem readString_quote {lenient : Bool} (h : lenient = true → closesString rest = true) :
    readString lenient 34 (34 :: rest) = ⟨[], rest, true⟩ := by
  rw [readString.eq_def]
  dsimp only
  rw [if_pos rfl]
  refine if_pos ?_
  cases lenient with
  | false => rfl
  | true => exact h rfl

theorem readString_plain (hquote : c ≠ 34) (hbackslash : c ≠ 92) (rest : Units) :
    readString lenient 34 (c :: rest) = (readString lenient 34 rest).prepend [c] := by
  rw [readString.eq_def]
  dsimp only
  rw [if_neg hquote, if_neg hbackslash]

theorem readString_escape {e : ℕ} (hu : e ≠ 117) (rest : Units) :
    readString lenient 34 (92 :: e :: rest) =
      (readString lenient 34 rest).prepend (unescape e) := by
  rw [readString.eq_def]
  dsimp only
  rw [if_neg (by decide), if_pos rfl, if_neg hu]

theorem readString_unicode {a b c d code : ℕ}
    (h : quadValue [a, b, c, d] = some code) (rest : Units) :
    readString lenient 34 (92 :: 117 :: a :: b :: c :: d :: rest) =
      (readString lenient 34 rest).prepend [code] := by
  rw [readString.eq_def]
  dsimp only
  rw [if_neg (by decide), if_pos rfl, if_pos rfl, h]

variable {digits : Units}

theorem readString_shortUnicode (h : digits.length < 4) :
    readString lenient 34 (92 :: 117 :: digits) =
      (readString lenient 34 digits).prepend [92, 117] := by
  rw [readString.eq_def]
  dsimp only
  rw [if_neg (by decide), if_pos rfl, if_pos rfl]
  rcases digits with _ | ⟨a, _ | ⟨b, _ | ⟨c, _ | ⟨d, digits⟩⟩⟩⟩
  case cons.cons.cons.cons =>
    simp only [length_cons] at h
    omega
  all_goals rfl

variable {body : Units}

theorem readString_of_stringBody (h : StringBody false body text)
    (lenient : Bool) (hends : Ends rest) :
    readString lenient 34 (body ++ rest) = ⟨text, rest, true⟩ := by
  induction h with
  | close => exact readString_quote fun _ => hends
  | plain _ hquote hbackslash _ ih =>
    rw [cons_append, readString_plain lenient hquote hbackslash, ih]
    rfl
  | @escape code v body text hvalue _ ih =>
    have hu : code ≠ 117 := by
      rintro rfl
      cases hvalue
    have hquote : code ≠ 39 := by
      rintro rfl
      cases hvalue
    rw [cons_append, cons_append, readString_escape lenient hu, ih, unescape, if_neg hquote, hvalue]
    rfl
  | @unicode a b c d v body text hvalue _ ih =>
    refine (readString_unicode lenient hvalue (body ++ rest)).trans ?_
    rw [ih]
    rfl
  | control hlenient => cases hlenient
  | stray hlenient => cases hlenient

theorem string_of_stringBody (h : StringBody false body text)
    (inPartial : Bool) (hends : Ends rest) :
    string inPartial 34 (body ++ rest) = some (text, rest) := by
  rw [string, readString_of_stringBody h _ hends]
  rfl

/-- The digits of an escape, without a quote, are read to the end. -/
theorem readString_closed_digits (h : ∀ c ∈ digits, isHexDigit c = true) :
    (readString false 34 digits).closed = false := by
  induction digits with
  | nil => rw [readString_nil]
  | cons c digits ih =>
    rw [forall_mem_cons] at h
    have hquote : c ≠ 34 := by
      rintro rfl
      cases h.1
    have hbackslash : c ≠ 92 := by
      rintro rfl
      cases h.1
    rw [readString_plain false hquote hbackslash]
    exact ih h.2

theorem isHexDigit_of_quadValue {a b c d code : ℕ} (h : quadValue [a, b, c, d] = some code) :
    ∀ x ∈ [a, b, c, d], isHexDigit x = true := by
  have hquad := isHexQuad_eq [a, b, c, d]
  rw [h, isHexQuad] at hquad
  simpa [and_assoc] using hquad

theorem readString_of_cut {cut : Units} (h : StringBody false body text)
    (hcut : cut <+: body) (hne : cut ≠ body) : (readString false 34 cut).closed = false := by
  induction h generalizing cut with
  | close =>
    cases cut with
    | nil => rw [readString_nil]
    | cons =>
      obtain ⟨rfl, hnil⟩ := cons_prefix_cons.mp hcut
      rw [prefix_nil.mp hnil] at hne
      exact absurd rfl hne
  | plain _ hquote hbackslash _ ih =>
    cases cut with
    | nil => rw [readString_nil]
    | cons =>
      obtain ⟨rfl, hrest⟩ := cons_prefix_cons.mp hcut
      rw [readString_plain false hquote hbackslash]
      exact ih hrest fun heq => hne (heq ▸ rfl)
  | @escape code v body text hvalue _ ih =>
    have hu : code ≠ 117 := by
      rintro rfl
      cases hvalue
    rcases cut with _ | ⟨c, _ | ⟨e, cut⟩⟩
    · rw [readString_nil]
    · obtain ⟨rfl, -⟩ := cons_prefix_cons.mp hcut
      rfl
    obtain ⟨rfl, hrest⟩ := cons_prefix_cons.mp hcut
    obtain ⟨rfl, htail⟩ := cons_prefix_cons.mp hrest
    rw [readString_escape false hu]
    exact ih htail fun heq => hne (heq ▸ rfl)
  | @unicode a b c d v body text hvalue _ ih =>
    have hhex := isHexDigit_of_quadValue hvalue
    have hshort {digits : Units} (hlength : digits.length < 4)
        (hdigits : ∀ x ∈ digits, isHexDigit x = true) :
        (readString false 34 (92 :: 117 :: digits)).closed = false := by
      rw [readString_shortUnicode false hlength]
      exact readString_closed_digits hdigits
    rcases cut with _ | ⟨x, _ | ⟨y, cut⟩⟩
    · rw [readString_nil]
    · obtain ⟨rfl, -⟩ := cons_prefix_cons.mp hcut
      rfl
    obtain ⟨rfl, hrest⟩ := cons_prefix_cons.mp hcut
    obtain ⟨rfl, htail⟩ := cons_prefix_cons.mp hrest
    by_cases hlength : cut.length < 4
    · refine hshort hlength fun x hx => hhex x ?_
      have hpre : cut <+: [a, b, c, d] :=
        prefix_of_prefix_length_le htail (prefix_append [a, b, c, d] body)
          (le_of_lt hlength)
      exact hpre.subset hx
    obtain ⟨a', b', c', d', cut, rfl⟩ := exists_four hlength
    obtain ⟨rfl, ha⟩ := cons_prefix_cons.mp htail
    obtain ⟨rfl, hb⟩ := cons_prefix_cons.mp ha
    obtain ⟨rfl, hc⟩ := cons_prefix_cons.mp hb
    obtain ⟨rfl, hd⟩ := cons_prefix_cons.mp hc
    rw [readString_unicode false hvalue]
    exact ih hd fun heq => hne (heq ▸ rfl)
  | control hlenient => cases hlenient
  | stray hlenient => cases hlenient

theorem string_of_cut {cut : Units} (h : StringBody false body text)
    (hcut : cut <+: body) (hne : cut ≠ body) : string false 34 cut = none := by
  rw [string, show (decide (34 = 39) || false) = false from rfl, readString_of_cut h hcut hne]
  rfl

/-! ### The loops at an item -/

theorem value_string (inPartial b : Bool) (fuel : ℕ) (rest : Units) :
    value inPartial (fuel + 1) b (34 :: rest) =
      match string inPartial 34 rest with
      | some (text, rest) => .ok (.string text) rest
      | none => .throws := by
  rw [value, if_neg (by decide), if_neg (by decide), if_pos (.inl rfl)]

variable {inPartial : Bool}

theorem arrayLoop_item {fuel : ℕ} {out : List JsonValue} {t : Units}
    (hws : ws .plain text = c :: t) (hclose : c ≠ 93) (hcomma : c ≠ 44) :
    arrayLoop inPartial (fuel + 1) out text =
      match value inPartial fuel true (c :: t) with
      | .exhausted => .exhausted
      | .throws => .throws
      | .incomplete rest => .ok (.array out) rest
      | .ok v rest =>
        match ws .plain rest with
        | [] => endOr inPartial (.array (out ++ [v])) []
        | e :: rest =>
          if e = 44 then arrayLoop inPartial fuel (out ++ [v]) rest
          else if e = 93 then .ok (.array (out ++ [v])) rest
          else endOr inPartial (.array (out ++ [v])) (e :: rest) := by
  rw [arrayLoop, hws]
  dsimp only
  rw [if_neg hclose, if_neg hcomma]

theorem objectLoop_member {fuel : ℕ}
    {t : Units} (hws : ws .plain text = 34 :: t) : objectLoop inPartial (fuel + 1) out text =
      match string inPartial 34 t with
      | none => .throws
      | some (name, rest) =>
        match ws .plain rest with
        | [] => endOr inPartial (.object out) []
        | colon :: rest =>
          if colon ≠ 58 then endOr inPartial (.object out) (colon :: rest)
          else
            match ws .plain rest with
            | [] => endOr inPartial (.object out) []
            | d :: rest =>
              match value inPartial fuel true (d :: rest) with
              | .exhausted => .exhausted
              | .throws => .throws
              | .incomplete rest => .ok (.object out) rest
              | .ok v rest =>
                match ws .plain rest with
                | [] => endOr inPartial (.object (assign out name v)) []
                | e :: rest =>
                  if e = 44 then objectLoop inPartial fuel (assign out name v) rest
                  else if e = 125 then .ok (.object (assign out name v)) rest
                  else endOr inPartial (.object (assign out name v)) (e :: rest) := by
  rw [objectLoop, hws]
  dsimp only
  rw [if_neg (by decide), if_neg (by decide), key, if_pos (.inl rfl)]

end BreadboardTui.JsonRepair
