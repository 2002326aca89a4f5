import BreadboardTui.Hashline.Tokenizer
import BreadboardTui.Js.Collections

/-!
# Python tool calls

The `gemini` dialect writes tool calls as Python call expressions between fences, and reads them
from the text of the model. A text is a list of code units.

Every loop of the reader begins in the same way: it passes a string literal as a whole, and a
comment as a whole, and looks at any other unit. `lexemes` is that beginning, and the loops are
recursions on what it gives.

An escape `\U` above the last code point makes `String.fromCodePoint` throw; what reads a literal
then has no result.
-/

namespace BreadboardTui.Gemini

open Hashline (Units units isDigitCode isTrimmedCode trim)

/-! ### Values -/

/-- A JSON value. An object lists its own keys in the order in which `for … in` visits them. -/
inductive Json (ν : Type) where
  | null
  | bool (value : Bool)
  | number (value : ν)
  | string (text : Units)
  | array (items : List (Json ν))
  | object (fields : List (Units × Json ν))

/-- A code unit of a numeral. -/
def isNumeralCode (code : ℕ) : Bool := isDigitCode code || [46, 43, 45, 101].contains code

/-- `/^[+-]?(\d|\.)/`. -/
def startsNumber : Units → Bool
  | code :: next :: _ =>
    isDigitCode code || code = 46 ||
      ((code = 43 || code = 45) && (isDigitCode next || next = 46))
  | [code] => isDigitCode code || code = 46
  | [] => false

/-- Numbers other than `NaN` and their numerals. `-0` and `0` are one number. -/
structure Numbers (ν : Type) where
  isFinite : ν → Bool
  /-- `String(value)`. -/
  text : ν → Units
  /-- `Number(text)`, if it is not `NaN`. -/
  value : Units → Option ν
  value_text : ∀ x, isFinite x = true → value (text x) = some x
  startsNumber_text : ∀ x, isFinite x = true → startsNumber (text x) = true
  isNumeralCode_text : ∀ x, isFinite x = true → ∀ code ∈ text x, isNumeralCode code = true

abbrev Arguments (ν : Type) : Type := JsMap Units (Json ν)

structure ToolCall (ν : Type) where
  name : Units
  arguments : Arguments ν

/-- The key that an assignment does not set. -/
def protoKey : Units := units "__proto__"

/-- `out[key] = value` on an object that was made with braces. -/
def assign {ν : Type} (out : Arguments ν) (key : Units) (value : Json ν) : Arguments ν :=
  if key = protoKey then out else JsMap.set key value out

/-! ### Rendering -/

section Rendering

variable {ν : Type} (N : Numbers ν)

/-- `replaceAll`, of one unit. -/
def replaceUnit (code : ℕ) (replacement text : Units) : Units :=
  text.flatMap fun c => if c = code then replacement else [c]

def pyString (value : Units) : Units :=
  let escaped := replaceUnit 9 (units "\\t") <| replaceUnit 13 (units "\\r") <|
    replaceUnit 10 (units "\\n") <| replaceUnit 34 (units "\\\"") <|
    replaceUnit 92 (units "\\\\") value
  34 :: escaped ++ [34]

/-- `join(", ")`. -/
def joinComma (parts : List Units) : Units := (units ", ").intercalate parts

mutual

def pyValue : Json ν → Units
  | .null => units "None"
  | .bool value => if value then units "True" else units "False"
  | .number value => if N.isFinite value then N.text value else pyString (N.text value)
  | .string text => pyString text
  | .array items => 91 :: joinComma (pyItems items) ++ [93]
  | .object fields => 123 :: pyEntries [] fields ++ [125]

def pyItems : List (Json ν) → List Units
  | [] => []
  | item :: items => pyValue item :: pyItems items

def pyEntries (entries : Units) : List (Units × Json ν) → Units
  | [] => entries
  | (key, value) :: fields =>
    pyEntries (entries ++ ((if entries = [] then [] else units ", ") ++ pyString key ++
      units ": " ++ pyValue value)) fields

end

def renderKwargs (kwargs : Units) : Arguments ν → Units
  | [] => kwargs
  | (key, value) :: arguments =>
    renderKwargs (kwargs ++ ((if kwargs = [] then [] else units ", ") ++ key ++ [61] ++
      pyValue N value)) arguments

def renderToolCall (call : ToolCall ν) : Units :=
  units "default_api." ++ call.name ++ [40] ++ renderKwargs N [] call.arguments ++ [41]

def fence : Units := units "```"

def codeOpen : Units := units "```tool_code"

/-- The body of a block: one call as it is, several as a list. -/
def callsBody (calls : List (ToolCall ν)) : Units :=
  match calls with
  | [call] => renderToolCall N call
  | calls => 91 :: joinComma (calls.map (renderToolCall N)) ++ [93]

def renderAssistantToolCalls (calls : List (ToolCall ν)) : Units :=
  codeOpen ++ [10] ++ callsBody N calls ++ [10] ++ fence

end Rendering

/-! ### Literals and comments -/

def isQuote (code : ℕ) : Bool := code = 34 || code = 39

def indexOf (part : Units) : Units → Option ℕ
  | [] => if part = [] then some 0 else none
  | code :: rest =>
    if part.isPrefixOf (code :: rest) then some 0 else (indexOf part rest).map (· + 1)

/-- How far the end of a literal in simple quotes is from the unit after the opening quote. -/
def skipQuoted (quote : ℕ) : Units → ℕ
  | [] => 0
  | [_] => 1
  | code :: next :: rest =>
    if code = 92 then 2 + skipQuoted quote rest
    else if code = quote then 1
    else 1 + skipQuoted quote (next :: rest)

/-- How many units `skipString` passes after the opening quote. -/
def skipString (quote : ℕ) (rest : Units) : ℕ :=
  if [quote, quote].isPrefixOf rest then
    match indexOf [quote, quote, quote] (rest.drop 2) with
    | none => rest.length
    | some close => 2 + close + 3
  else skipQuoted quote rest

/-- How many units `skipComment` passes after the `#`. -/
def skipComment (rest : Units) : ℕ :=
  match indexOf [10] rest with
  | none => rest.length
  | some newline => newline + 1

inductive Lexeme where
  | string (text : Units)
  | comment (text : Units)
  | unit (code : ℕ)
  deriving DecidableEq

def Lexeme.text : Lexeme → Units
  | .string text => text
  | .comment text => text
  | .unit code => [code]

def textOf (ls : List Lexeme) : Units := ls.flatMap Lexeme.text

def lexemes : Units → List Lexeme
  | [] => []
  | code :: rest =>
    if isQuote code then
      .string (code :: rest.take (skipString code rest)) ::
        lexemes (rest.drop (skipString code rest))
    else if code = 35 then
      .comment (code :: rest.take (skipComment rest)) :: lexemes (rest.drop (skipComment rest))
    else .unit code :: lexemes rest
termination_by text => text.length
decreasing_by all_goals simp only [List.length_drop, List.length_cons]; omega

/-- A comment becomes its line break, or nothing where it has none. -/
def stripComments (body : Units) : Units :=
  (lexemes body).flatMap fun
    | .comment text => if text.getLast? = some 10 then [10] else []
    | l => l.text

def isOpening (code : ℕ) : Bool := code = 40 || code = 91 || code = 123

def isClosing (code : ℕ) : Bool := code = 41 || code = 93 || code = 125

/-- The loop of `splitTopLevel`, with the part that is being read. -/
def splitFrom (sep : ℕ) (depth : ℤ) (part : Units) : List Lexeme → List Units
  | [] => [part]
  | .unit code :: ls =>
    if isOpening code then splitFrom sep (depth + 1) (part ++ [code]) ls
    else if isClosing code then splitFrom sep (depth - 1) (part ++ [code]) ls
    else if depth = 0 ∧ code = sep then part :: splitFrom sep depth [] ls
    else splitFrom sep depth (part ++ [code]) ls
  | l :: ls => splitFrom sep depth (part ++ l.text) ls

def splitTopLevel (text : Units) (sep : ℕ) : List Units := splitFrom sep 0 [] (lexemes text)

/-- The loop of `topLevelIndexOf`, from an index on. -/
def indexFrom (ch : ℕ) (depth : ℤ) (index : ℕ) : List Lexeme → Option ℕ
  | [] => none
  | .unit code :: ls =>
    if isOpening code then indexFrom ch (depth + 1) (index + 1) ls
    else if isClosing code then indexFrom ch (depth - 1) (index + 1) ls
    else if depth = 0 ∧ code = ch then some index
    else indexFrom ch depth (index + 1) ls
  | l :: ls => indexFrom ch depth (index + l.text.length) ls

def topLevelIndexOf (text : Units) (ch : ℕ) : Option ℕ := indexFrom ch 0 0 (lexemes text)

/-- How many lexemes are before the `)` that closes, where `depth` parentheses are open. -/
def matchParen (depth : ℤ) : List Lexeme → Option ℕ
  | [] => none
  | .unit code :: ls =>
    if code = 40 then (matchParen (depth + 1) ls).map (· + 1)
    else if code = 41 then
      if depth - 1 = 0 then some 0 else (matchParen (depth - 1) ls).map (· + 1)
    else (matchParen depth ls).map (· + 1)
  | _ :: ls => (matchParen depth ls).map (· + 1)

/-! ### Strings -/

def lowerUnit (code : ℕ) : ℕ := if 65 ≤ code ∧ code ≤ 90 then code + 32 else code

def stringPrefixes : List Units := [[], units "r", units "u", units "b", units "br", units "rb"]

def stringPrefixLength (t : Units) : Option ℕ :=
  [2, 1, 0].find? fun len =>
    stringPrefixes.contains ((t.take len).map lowerUnit) && (t[len]?).any isQuote

def isOctalCode (code : ℕ) : Bool := decide (48 ≤ code ∧ code ≤ 55)

def hexDigit (code : ℕ) : Option ℕ :=
  if 48 ≤ code ∧ code ≤ 57 then some (code - 48)
  else if 97 ≤ code ∧ code ≤ 102 then some (code - 87)
  else if 65 ≤ code ∧ code ≤ 70 then some (code - 55)
  else none

def radixValue (radix : ℕ) (digits : List ℕ) : ℕ :=
  digits.foldl (fun value digit => value * radix + digit) 0

/-- `parseInt` of the first `count` units, if they are that many hexadecimal digits. -/
def hexValue (count : ℕ) (text : Units) : Option ℕ :=
  if (text.take count).length = count then
    ((text.take count).mapM hexDigit).map (radixValue 16)
  else none

/-- `String.fromCodePoint`, which throws above the last code point. -/
def fromCodePoint (point : ℕ) : Option Units :=
  if point < 0x10000 then some [point]
  else if point ≤ 0x10ffff then
    some [0xd800 + (point - 0x10000) / 0x400, 0xdc00 + (point - 0x10000) % 0x400]
  else none

def simpleEscapes : List (ℕ × ℕ) :=
  [(110, 10), (116, 9), (114, 13), (92, 92), (39, 39), (34, 34), (48, 0)]

/-- What a backslash and the units after it stand for, and how many of these units it takes. -/
def escapeAt : Units → Option (Units × ℕ)
  | [] => some ([92], 0)
  | next :: after =>
    if isOctalCode next then
      let octal := ((next :: after).take 3).takeWhile isOctalCode
      some ([radixValue 8 (octal.map (· - 48))], octal.length)
    else
      match simpleEscapes.lookup next with
      | some code => some ([code], 1)
      | none =>
        if next = 120 then
          match hexValue 2 after with
          | some code => some ([code], 3)
          | none => some ([120], 1)
        else if next = 117 then
          match hexValue 4 after with
          | some code => some ([code], 5)
          | none => some ([117], 1)
        else if next = 85 then
          match hexValue 8 after with
          | some point => (fromCodePoint point).map (·, 9)
          | none => some ([85], 1)
        else some ([next], 1)

/-- The loop of `unescapePythonString`. -/
def unescapeFrom : Units → Option Units
  | [] => some []
  | code :: rest =>
    if code = 92 then
      match escapeAt rest with
      | none => none
      | some (out, used) => (unescapeFrom (rest.drop used)).map (out ++ ·)
    else (unescapeFrom rest).map (code :: ·)
termination_by s => s.length
decreasing_by all_goals simp only [List.length_drop, List.length_cons]; omega

def unescapePythonString (s : Units) : Option Units :=
  if s.contains 92 then unescapeFrom s else some s

def decodeString (t : Units) : Option Units :=
  let len := (stringPrefixLength t).getD 0
  let raw := ((t.take len).map lowerUnit).contains 114
  let quote := t.getD len 0
  let triple := [quote, quote, quote]
  let inner :=
    if triple.isPrefixOf (t.drop len) && decide (len + 6 ≤ t.length) && triple.isSuffixOf t then
      (t.take (t.length - 3)).drop (len + 3)
    else if [quote].isSuffixOf t && decide (len + 2 ≤ t.length) then
      (t.take (t.length - 1)).drop (len + 1)
    else t.drop (len + 1)
  if raw then some inner else unescapePythonString inner

/-! ### Values of a text -/

/-- `/^[A-Za-z_]/`. -/
def isNameStart (code : ℕ) : Bool :=
  decide (65 ≤ code ∧ code ≤ 90) || decide (97 ≤ code ∧ code ≤ 122) || code = 95

/-- `/[A-Za-z0-9_]/`, which is `/\w/`. -/
def isWordCode (code : ℕ) : Bool := isNameStart code || isDigitCode code

/-- `/^[A-Za-z_]\w*$/`. -/
def isIdentifier : Units → Bool
  | [] => false
  | code :: rest => isNameStart code && rest.all isWordCode

/-- The parts between the commas of a text, trimmed, without the empty ones. -/
def trimmedParts (text : Units) : List Units :=
  ((splitTopLevel (stripComments text) 44).map trim).filter (· ≠ [])

/-- The key and the value of a part `key=value`. -/
def argumentOf (trimmed : Units) : Option (Units × Units) := do
  let eq ← topLevelIndexOf trimmed 61
  let key := trim (trimmed.take eq)
  if isIdentifier key then some (key, trim (trimmed.drop (eq + 1))) else none

/-- The key and the value of a part `key: value`. -/
def entryOf (trimmed : Units) : Option (Units × Units) := do
  let colon ← topLevelIndexOf trimmed 58
  some (trim (trimmed.take colon), trim (trimmed.drop (colon + 1)))

/-- The text between the brackets, where the closing one may be missing. -/
def innerText (t : Units) (close : ℕ) : Units :=
  (if [close].isSuffixOf t then t.take (t.length - 1) else t).drop 1

section Parsing

variable {ν : Type} (N : Numbers ν)

/-- One assignment for each pair. -/
def assignAll (parse : Units → Option (Json ν)) (out : Arguments ν) :
    List (Units × Units) → Option (Arguments ν)
  | [] => some out
  | (key, raw) :: pairs => do
    let value ← parse raw
    assignAll parse (assign out key value) pairs

def parseList (parse : Units → Option (Json ν)) (t : Units) : Option (Json ν) :=
  ((trimmedParts (innerText t 93)).mapM parse).map .array

/-- The key of an entry, decoded where it is a literal. -/
def entryKey (keyRaw : Units) : Option Units :=
  if (stringPrefixLength keyRaw).isSome then decodeString keyRaw else some keyRaw

def parseDict (parse : Units → Option (Json ν)) (t : Units) : Option (Json ν) := do
  let pairs ← ((trimmedParts (innerText t 125)).filterMap entryOf).mapM fun entry => do
    let key ← entryKey entry.1
    some (key, entry.2)
  let fields ← assignAll parse [] pairs
  some (.object fields)

/-- A numeral, or the text where it is none. -/
def numberOf (t : Units) : Json ν :=
  match N.value t with
  | some x => .number x
  | none => .string t

/-- The recursion is bounded by the length of the text: a list or a dictionary is longer than what
is in it. -/
def parsePyValue : ℕ → Units → Option (Json ν)
  | 0, _ => none
  | bound + 1, raw =>
    let t := trim raw
    if t = [] then some (.string [])
    else if t = units "True" ∨ t = units "true" then some (.bool true)
    else if t = units "False" ∨ t = units "false" then some (.bool false)
    else if t = units "None" ∨ t = units "null" then some .null
    else if (stringPrefixLength t).isSome then (decodeString t).map .string
    else if t.head? = some 91 then parseList (parsePyValue bound) t
    else if t.head? = some 123 then parseDict (parsePyValue bound) t
    else if startsNumber t then some (numberOf N t)
    else some (.string t)

def parsePyArgs (text : Units) : Option (Arguments ν) :=
  assignAll (parsePyValue N (text.length + 1)) [] ((trimmedParts text).filterMap argumentOf)

/-! ### Calls of a text -/

/-- The identifier before a `(`, from the text before it. -/
def identBefore (before : Units) : Option Units :=
  let name := (before.rdropWhile isTrimmedCode).rtakeWhile isWordCode
  if isIdentifier name then some name else none

/-- The name and the number of lexemes in the parentheses, where a call begins with `l`. -/
def callAt (before : Units) (l : Lexeme) (ls : List Lexeme) : Option (Units × ℕ) := do
  if l = .unit 40 then
    let name ← identBefore before
    if name = units "print" then none
    else
      let count ← matchParen 1 ls
      some (name, count)
  else none

/-- The loop of `parseGeminiCalls`, after the text `before`. -/
def callsFrom (before : Units) : List Lexeme → Option (List (ToolCall ν))
  | [] => some []
  | l :: ls =>
    match callAt before l ls with
    | some (name, count) => do
      let arguments ← parsePyArgs N (textOf (ls.take count))
      let calls ← callsFrom (before ++ l.text ++ textOf (ls.take (count + 1))) (ls.drop (count + 1))
      some (⟨name, arguments⟩ :: calls)
    | none => callsFrom (before ++ l.text) ls
termination_by ls => ls.length
decreasing_by all_goals simp only [List.length_drop, List.length_cons]; omega

def parseGeminiCalls (body : Units) : Option (List (ToolCall ν)) := callsFrom N [] (lexemes body)

end Parsing

/-! ### The scanner -/

inductive Event (ν : Type) where
  | text (text : Units)
  | thinkingStart
  | thinkingDelta (delta : Units)
  | thinkingEnd (thinking : Units)
  | toolStart (id name : Units)
  | toolEnd (id name : Units) (arguments : Arguments ν) (rawBlock : Units)

inductive State where
  | outside
  | tool
  | thinking
  deriving DecidableEq

/-- What the fenced scanner returns. -/
structure FencedResult where
  thinking : Units
  closed : Bool
  rest : Units

/-- The scanner for the end of a thinking block. -/
structure FencedThinking (φ : Type) where
  new : φ
  feed : φ → Units → Bool → φ × FencedResult

structure Scanner (φ : Type) where
  buffer : Units
  state : State
  thinking : Units
  fenced : φ
  parseThinking : Bool
  /-- How many call ids have been made. -/
  minted : ℕ

section Scanning

variable {ν φ : Type} (N : Numbers ν) (F : FencedThinking φ) (mintToolCallId : ℕ → Units)

def thinkOpen : Units := units "```thinking\n"

/-- `partialSuffixOverlap`. -/
def suffixOverlap (text tag : Units) : ℕ :=
  ((List.range (min text.length (tag.length - 1))).reverse.map (· + 1)).find?
    (fun k => (tag.take k).isSuffixOf text) |>.getD 0

def suffixOverlapAny (text : Units) (tags : List Units) : ℕ :=
  tags.foldl (fun best tag => max best (suffixOverlap text tag)) 0

def textEvent (text : Units) : List (Event ν) := if text = [] then [] else [.text text]

/-- Where the next block begins, and if it is a thinking block. -/
def nextBlock (parseThinking : Bool) (buffer : Units) : Option (ℕ × Bool) :=
  match indexOf codeOpen buffer, if parseThinking then indexOf thinkOpen buffer else none with
  | none, none => none
  | some code, none => some (code, false)
  | none, some think => some (think, true)
  | some code, some think => if think < code then some (think, true) else some (code, false)

def consumeOutside (final : Bool) (s : Scanner φ) : Scanner φ × List (Event ν) :=
  match nextBlock s.parseThinking s.buffer with
  | none =>
    let tags := if s.parseThinking then [codeOpen, thinkOpen] else [codeOpen]
    let hold := if final then 0 else suffixOverlapAny s.buffer tags
    let kept := s.buffer.length - hold
    ({ s with buffer := s.buffer.drop kept }, textEvent (s.buffer.take kept))
  | some (start, true) =>
    ({ s with
        buffer := s.buffer.drop (start + thinkOpen.length)
        thinking := []
        fenced := F.new
        state := .thinking }, textEvent (s.buffer.take start) ++ [.thinkingStart])
  | some (start, false) =>
    ({ s with
        buffer := s.buffer.drop (start + codeOpen.length)
        state := .tool }, textEvent (s.buffer.take start))

def consumeThinking (final : Bool) (s : Scanner φ) : Scanner φ × List (Event ν) :=
  let (fenced, result) := F.feed s.fenced s.buffer final
  let thinking := s.thinking ++ result.thinking
  let events := if result.thinking = [] then [] else [.thinkingDelta result.thinking]
  let s := { s with buffer := if result.closed then result.rest else [], fenced := fenced }
  if result.closed || final then
    ({ s with thinking := [], state := .outside }, events ++ [.thinkingEnd thinking])
  else ({ s with thinking := thinking }, events)

/-- The events of the calls of a block. -/
def callEvents (rawBlock : Units) (minted : ℕ) : List (ToolCall ν) → List (Event ν)
  | [] => []
  | call :: calls =>
    .toolStart (mintToolCallId minted) call.name ::
      .toolEnd (mintToolCallId minted) call.name call.arguments rawBlock ::
        callEvents rawBlock (minted + 1) calls

def consumeTool (final : Bool) (s : Scanner φ) : Option (Scanner φ × List (Event ν)) :=
  match indexOf fence s.buffer with
  | none =>
    if final then some ({ s with buffer := [], state := .outside }, []) else some (s, [])
  | some close => do
    let body := s.buffer.take close
    let calls ← parseGeminiCalls N body
    some ({ s with
        buffer := s.buffer.drop (close + fence.length)
        state := .outside
        minted := s.minted + calls.length },
      callEvents mintToolCallId (codeOpen ++ body ++ fence) s.minted calls)

/-- The loop of `consume`, for so many rounds at most. -/
def consume (final : Bool) : ℕ → Scanner φ → Option (Scanner φ × List (Event ν))
  | 0, _ => none
  | rounds + 1, s => do
    if s.state ≠ .thinking ∧ s.buffer = [] then some (s, [])
    else
      let (s', events) ←
        match s.state with
        | .thinking => some (consumeThinking F final s)
        | .outside => some (consumeOutside F final s)
        | .tool => consumeTool N mintToolCallId final s
      if s'.state = s.state then some (s', events)
      else
        let (s'', later) ← consume final rounds s'
        some (s'', events ++ later)

/-- The events for a text that is fed as a whole, and then flushed. -/
def scan (parseThinking : Bool) (rounds : ℕ) (text : Units) : Option (List (Event ν)) := do
  let s : Scanner φ := ⟨[], .outside, [], F.new, parseThinking, 0⟩
  let (s, events) ← if text = [] then some (s, [])
    else consume N F mintToolCallId false rounds { s with buffer := s.buffer ++ text }
  let (_, flushed) ← consume N F mintToolCallId true rounds s
  some (events ++ flushed)

/-- The calls that were started and ended. -/
def calledOf : List (Event ν) → List (ToolCall ν)
  | [] => []
  | .toolEnd _ name arguments _ :: events => ⟨name, arguments⟩ :: calledOf events
  | _ :: events => calledOf events

end Scanning

end BreadboardTui.Gemini
