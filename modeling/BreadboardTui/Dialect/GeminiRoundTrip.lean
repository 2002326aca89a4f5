import BreadboardTui.Dialect.GeminiValues
import BreadboardTui.Edit.NotebookRoundTrip

/-!
# Python tool calls round trip

Between the calls of a block there are only units that begin no call, so the loop of the reader
stops at the parentheses of the calls and at nothing else. The arguments of a call are read like the
entries of a dictionary, but an argument `__proto__` is lost, as the parser assigns it.
-/

namespace BreadboardTui.Gemini

open List

open Hashline (Units units isDigitCode isTrimmedCode trim)

variable {ν φ : Type} (N : Numbers ν)

/-! ### Arguments -/

/-- A call whose name is an identifier other than `print`, with distinct identifiers as keys and
plain values. -/
structure ToolCall.IsPlain (call : ToolCall ν) : Prop where
  name : isIdentifier call.name = true
  notPrint : call.name ≠ units "print"
  keys : (call.arguments.map Prod.fst).Nodup
  identifiers : ∀ field ∈ call.arguments, isIdentifier field.1 = true
  values : ∀ field ∈ call.arguments, Gemini.IsPlain N field.2

/-- The call that is read. -/
def ToolCall.kept (call : ToolCall ν) : ToolCall ν :=
  { call with arguments := call.arguments.filter fun field => field.1 ≠ protoKey }

def argumentText (field : Units × Json ν) : Units := field.1 ++ 61 :: ([] ++ pyValue N field.2)

variable {code : ℕ} {key : Units}

theorem isWordCode_of_mem (h : isIdentifier key = true)
    (hcode : code ∈ key) : isWordCode code = true := by
  cases key with
  | nil => exact absurd hcode not_mem_nil
  | cons =>
    rw [isIdentifier, Bool.and_eq_true, all_eq_true] at h
    rcases mem_cons.mp hcode with rfl | hcode
    · rw [isWordCode, h.1, Bool.true_or]
    · exact h.2 code hcode

theorem le_of_isWordCode (h : isWordCode code = true) : 33 ≤ code ∧ code ≤ 126 ∧
      code ∉ [34, 39, 35, 96, 40, 91, 123, 41, 93, 125, 44, 58, 61] := by
  simp only [isWordCode, isNameStart, isDigitCode, Bool.or_eq_true, decide_eq_true_eq] at h
  simp only [mem_cons, not_mem_nil, or_false]
  omega

theorem ne_nil_of_isIdentifier (h : isIdentifier key = true) : key ≠ [] := by
  rintro rfl
  exact Bool.noConfusion h

theorem isValue_identifier (h : isIdentifier key = true) : IsValue key :=
  isValue_word (ne_nil_of_isIdentifier h)
    fun _ hcode => le_of_isWordCode (isWordCode_of_mem h hcode)

theorem renderKwargs_eq (arguments : Arguments ν) :
    renderKwargs N [] arguments = joinComma (arguments.map (argumentText N)) := by
  have hfold : ∀ kwargs, renderKwargs N kwargs arguments =
      (arguments.map (argumentText N)).foldl addPart kwargs := by
    induction arguments with
    | nil => exact fun kwargs => by rw [renderKwargs, map_nil, foldl_nil]
    | cons field arguments ih =>
      intro kwargs
      rw [renderKwargs, ih, map_cons, foldl_cons, addPart, argumentText]
      simp
  rw [hfold, foldl_addPart_nil]
  intro part hpart
  obtain ⟨field, -, rfl⟩ := mem_map.mp hpart
  simp [argumentText]

section Call

variable {N} {call : ToolCall ν} (h : call.IsPlain N)

include h

variable {field : Units × Json ν}

theorem ToolCall.IsPlain.pair (hfield : field ∈ call.arguments) : IsPart (argumentText N field) ∧
      topLevelIndexOf (argumentText N field) 61 = some field.1.length :=
  IsValue.pair 61 (by decide) (by decide) (by simp)
    (isValue_identifier (h.identifiers field hfield)) (isValue_pyValue N (h.values field hfield))

theorem ToolCall.IsPlain.argumentOf (hfield : field ∈ call.arguments) :
    argumentOf (argumentText N field) = some (field.1, pyValue N field.2) := by
  have hidentifier := h.identifiers field hfield
  obtain ⟨-, hindex⟩ := h.pair hfield
  have hspace : ∀ code ∈ ([] : Units), code = 32 := fun _ hcode => absurd hcode not_mem_nil
  obtain ⟨htake, hdrop⟩ := trim_pair 61 hspace (isValue_identifier hidentifier).visible
    (isValue_pyValue N (h.values field hfield)).visible
  rw [Gemini.argumentOf, hindex]
  rw [argumentText]
  simp only [Option.bind_eq_bind, Option.bind_some, htake, hdrop, hidentifier, if_true]

theorem ToolCall.IsPlain.parsePyArgs :
    parsePyArgs N (renderKwargs N [] call.arguments) = some call.kept.arguments := by
  have hparts : ∀ part ∈ call.arguments.map (argumentText N), IsPart part := by
    intro part hpart
    obtain ⟨field, hfield, rfl⟩ := mem_map.mp hpart
    exact (h.pair hfield).1
  have hpairs : (call.arguments.map (argumentText N)).filterMap Gemini.argumentOf =
      call.arguments.map fun field => (field.1, pyValue N field.2) := by
    rw [filterMap_map, ← filterMap_eq_map]
    exact filterMap_congr fun field hfield => h.argumentOf hfield
  have hparse : ∀ field ∈ call.arguments,
      parsePyValue N ((renderKwargs N [] call.arguments).length + 1) (pyValue N field.2) =
        some field.2 := by
    intro field hfield
    have hle := length_le_joinComma (mem_map_of_mem (f := argumentText N) hfield)
    rw [argumentText, length_append, length_cons, nil_append] at hle
    refine parsePyValue_pyValue N (h.values field hfield) ?_
    rw [renderKwargs_eq]
    omega
  have hassign := assignAll_eq N [] h.keys hparse
  rw [Gemini.parsePyArgs]
  rw [renderKwargs_eq] at hassign ⊢
  rw [trimmedParts_joinComma hparts, hpairs, hassign]
  rfl

theorem ToolCall.IsPlain.lexed : Lexed [] (renderKwargs N [] call.arguments) := by
  rw [renderKwargs_eq]
  refine lexed_joinComma ?_
  intro part hpart
  obtain ⟨field, hfield, rfl⟩ := mem_map.mp hpart
  exact (h.pair hfield).1.lexed.mono (nil_subset _)

end Call

/-! ### Calls -/

variable {name : Units}

theorem identBefore_append (h : isIdentifier name = true) (before : Units) :
    identBefore (before ++ 46 :: name) = some name := by
  have hvisible := (isValue_identifier h).visible
  have hdrop : (before ++ 46 :: name).rdropWhile isTrimmedCode = before ++ 46 :: name := by
    rcases name.eq_nil_or_concat' with rfl | ⟨init, last, rfl⟩
    · exact absurd rfl hvisible.ne_nil
    rw [← cons_append, ← append_assoc, rdropWhile_concat_neg]
    rw [hvisible.last last (by simp)]
    exact Bool.false_ne_true
  have htake : (before ++ 46 :: name).rtakeWhile isWordCode = name := by
    rw [List.rtakeWhile, reverse_append, reverse_cons, append_assoc,
      takeWhile_append_of_pos, singleton_append, takeWhile_cons_of_neg (by decide),
      append_nil, reverse_reverse]
    exact fun code hcode => isWordCode_of_mem h (mem_reverse.mp hcode)
  rw [identBefore, hdrop, htake, if_pos h]

theorem callAt_of_ne {l : Lexeme} (h : l ≠ .unit 40) (before : Units) (ls : List Lexeme) :
    callAt before l ls = none := by rw [callAt, if_neg h]

/-- The loop takes these calls from the text. -/
def Reads (t : Units) (calls : List (ToolCall ν)) : Prop :=
  ∃ ls, textOf ls = t ∧ Tidy ls ∧ ¬ fence <:+: t ∧ ∀ before rest,
    callsFrom N before (ls ++ rest) = (callsFrom N (before ++ t) rest).map (calls ++ ·)

theorem reads_nil : Reads N [] [] := by
  refine ⟨[], rfl, trivial, ?_, ?_⟩
  · intro h
    exact absurd (eq_nil_of_infix_nil h) (by decide)
  intro before rest
  rw [nil_append, append_nil]
  cases callsFrom N before rest <;> rfl

/-- A unit that begins no call. -/
structure IsBetween (code : ℕ) : Prop where
  quote : isQuote code = false
  comment : code ≠ 35
  backtick : code ≠ 96
  paren : code ≠ 40

variable {N} {calls : List (ToolCall ν)} {t : Units}

theorem Reads.glue {t' : Units} {calls' : List (ToolCall ν)}
    (h : Reads N t calls) (hcode : IsBetween code) (h' : Reads N t' calls') :
    Reads N (t ++ code :: t') (calls ++ calls') := by
  obtain ⟨ls, rfl, htidy, hfence, hcalls⟩ := h
  obtain ⟨ls', rfl, htidy', hfence', hcalls'⟩ := h'
  refine ⟨ls ++ .unit code :: ls', ?_, htidy.append_unit hcode.quote hcode.comment htidy', ?_, ?_⟩
  · rw [textOf_append, textOf_cons]
    rfl
  · intro h
    rcases infix_of_append_cons (notMem_fence hcode.backtick) h with h | h
    · exact hfence h
    · exact hfence' h
  intro before rest
  have hne : Lexeme.unit code ≠ .unit 40 := by
    intro h
    exact hcode.paren (Lexeme.unit.inj h)
  rw [append_assoc, hcalls, cons_append, callsFrom, callAt_of_ne hne]
  simp only
  rw [hcalls', Option.map_map]
  simp [Lexeme.text, Function.comp_def]

/-- The units before the parentheses of a call. -/
def callee (name : Units) : Units := units "default_api" ++ 46 :: name

theorem renderToolCall_eq (call : ToolCall ν) : renderToolCall N call =
    callee call.name ++ 40 :: (renderKwargs N [] call.arguments ++ [41]) := by
  have hunits : units "default_api." = units "default_api" ++ [46] := rfl
  rw [renderToolCall, callee, hunits]
  simp

theorem callsFrom_units (h : 40 ∉ t) (before : Units) (ls : List Lexeme) :
    callsFrom N before (t.map .unit ++ ls) = callsFrom N (before ++ t) ls := by
  induction t generalizing before with
  | nil => rw [map_nil, nil_append, append_nil]
  | cons code t ih =>
    rw [mem_cons, not_or] at h
    have hne : Lexeme.unit code ≠ .unit 40 := fun heq => h.1 (Lexeme.unit.inj heq).symm
    rw [map_cons, cons_append, callsFrom, callAt_of_ne hne]
    simp only
    rw [ih h.2, Lexeme.text, append_assoc, singleton_append]

theorem textOf_units (t : Units) : textOf (t.map .unit) = t := by
  induction t with
  | nil => rfl
  | cons code t ih => rw [map_cons, textOf_cons, ih, Lexeme.text, singleton_append]

theorem tidy_units (h : ∀ code ∈ t, isQuote code = false ∧ code ≠ 35) : Tidy (t.map .unit) := by
  induction t with
  | nil => trivial
  | cons code t ih =>
    obtain ⟨hquote, hcomment⟩ := h code mem_cons_self
    exact ⟨hquote, hcomment, ih fun other hother => h other (mem_cons_of_mem _ hother)⟩

theorem isBetween_of_notMem (h : code ∉ [34, 39, 35, 96, 40]) : IsBetween code := by
  simp only [mem_cons, not_mem_nil, or_false, not_or] at h
  refine ⟨?_, h.2.2.1, h.2.2.2.1, h.2.2.2.2⟩
  simp [isQuote, h]

theorem isBetween_callee (h : isIdentifier name = true)
    (hcode : code ∈ callee name) : IsBetween code := by
  have hunits : ∀ code ∈ units "default_api" ++ [46], code ∉ [34, 39, 35, 96, 40] := by decide
  refine isBetween_of_notMem ?_
  rw [callee, append_cons, mem_append] at hcode
  rcases hcode with hcode | hcode
  · exact hunits code hcode
  have hnot := (le_of_isWordCode (isWordCode_of_mem h hcode)).2.2
  simp only [mem_cons, not_mem_nil, or_false] at hnot ⊢
  omega

theorem ToolCall.IsPlain.callAt {call : ToolCall ν} (h : call.IsPlain N) {ls : List Lexeme}
    (hwalks : Walks [] ls) (before : Units) (rest : List Lexeme) :
    callAt (before ++ callee call.name) (.unit 40) (ls ++ .unit 41 :: rest) =
      some (call.name, ls.length) := by
  have hmatch : matchParen 1 (.unit 41 :: rest) = some 0 := by
    rw [matchParen, if_neg (by decide), if_pos rfl, sub_self, if_pos rfl]
  rw [Gemini.callAt, if_pos rfl, callee, ← append_assoc, identBefore_append h.name,
    hwalks.matchParen, hmatch]
  simp [h.notPrint]

theorem ToolCall.IsPlain.reads {call : ToolCall ν} (h : call.IsPlain N) :
    Reads N (renderToolCall N call) [call.kept] := by
  obtain ⟨ls, htext, htidy, hwalks, hfence⟩ := h.lexed
  have hcallee : ∀ code ∈ callee call.name, IsBetween code := fun _ => isBetween_callee h.name
  refine ⟨(callee call.name).map .unit ++ .unit 40 :: (ls ++ [.unit 41]), ?_, ?_, ?_, ?_⟩
  · rw [textOf_append, textOf_units, textOf_cons, textOf_append, htext, renderToolCall_eq]
    rfl
  · refine (tidy_units fun code hcode => ?_).append_unit rfl (by decide)
      (htidy.append_unit rfl (by decide) trivial)
    exact ⟨(hcallee code hcode).quote, (hcallee code hcode).comment⟩
  · rw [renderToolCall_eq]
    intro hin
    rcases infix_of_append_cons (notMem_fence (by decide)) hin with hin | hin
    · have h96 : 96 ∈ callee call.name := hin.subset (by decide)
      exact (hcallee 96 h96).backtick rfl
    rcases infix_of_append_cons (notMem_fence (by decide)) hin with hin | hin
    · exact hfence hin
    · exact absurd (eq_nil_of_infix_nil hin) (by decide)
  intro before rest
  have hparen : 40 ∉ callee call.name := fun hmem => (hcallee 40 hmem).paren rfl
  have htake : (ls ++ .unit 41 :: rest).take (ls.length + 1) = ls ++ [.unit 41] := by
    have hlength : ls.length + 1 = (ls ++ [Lexeme.unit 41]).length := by simp
    rw [append_cons, hlength, take_left]
  have hdrop : (ls ++ .unit 41 :: rest).drop (ls.length + 1) = rest := by
    rw [← drop_drop, drop_left, drop_succ_cons, drop_zero]
  rw [append_assoc, callsFrom_units hparen, cons_append, append_assoc,
    singleton_append, callsFrom, h.callAt hwalks]
  simp only
  rw [take_left, htext, h.parsePyArgs, htake, hdrop, textOf_append, htext, renderToolCall_eq]
  simp only [textOf_cons, textOf_nil, Lexeme.text, append_nil, append_assoc,
    nil_append, Option.bind_eq_bind, Option.bind_some, cons_append]
  cases callsFrom N (before ++ (callee call.name ++ 40 :: (renderKwargs N [] call.arguments ++
    [41]))) rest <;> rfl

theorem isBetween_bracket : IsBetween 93 := isBetween_of_notMem (by decide)

theorem isBetween_space : IsBetween 32 := isBetween_of_notMem (by decide)

theorem reads_joinComma (h : ∀ call ∈ calls, call.IsPlain N) :
    Reads N (joinComma (calls.map (renderToolCall N))) (calls.map ToolCall.kept) := by
  induction calls with
  | nil => exact reads_nil N
  | cons call calls ih =>
    have ih := ih fun other hother => h other (mem_cons_of_mem _ hother)
    have hcall := (h call mem_cons_self).reads
    cases calls with
    | nil =>
      rw [map_cons, map_nil, joinComma_cons, flatMap_nil, append_nil]
      exact hcall
    | cons =>
      rw [map_cons, map_cons, joinComma_cons_cons]
      refine hcall.glue (isBetween_of_notMem (by decide)) ?_
      rw [map_cons, joinComma_cons] at ih
      rw [joinComma_cons]
      exact (reads_nil N).glue isBetween_space ih

theorem reads_callsBody (h : ∀ call ∈ calls, call.IsPlain N) :
    Reads N (callsBody N calls) (calls.map ToolCall.kept) := by
  have hlist : Reads N (91 :: joinComma (calls.map (renderToolCall N)) ++ [93])
      (calls.map ToolCall.kept) := by
    have hjoined := (reads_joinComma h).glue (isBetween_bracket)
      (reads_nil N)
    rw [append_nil] at hjoined
    exact (reads_nil N).glue (isBetween_of_notMem (by decide)) hjoined
  cases calls with
  | nil => exact hlist
  | cons call calls =>
    cases calls with
    | nil => exact (h call mem_cons_self).reads
    | cons => exact hlist

/-! ### The scanner -/

/-- The text between the fences. -/
def blockBody (N : Numbers ν) (calls : List (ToolCall ν)) : Units := 10 :: callsBody N calls ++ [10]

variable (N) in
theorem renderAssistantToolCalls_eq (calls : List (ToolCall ν)) :
    renderAssistantToolCalls N calls = codeOpen ++ (blockBody N calls ++ fence) := by
  rw [renderAssistantToolCalls, blockBody]
  simp

theorem isBetween_newline : IsBetween 10 := isBetween_of_notMem (by decide)

theorem reads_blockBody (h : ∀ call ∈ calls, call.IsPlain N) :
    Reads N (blockBody N calls) (calls.map ToolCall.kept) := by
  have hbody := (reads_callsBody h).glue isBetween_newline (reads_nil N)
  rw [append_nil] at hbody
  exact (reads_nil N).glue isBetween_newline hbody

theorem parseGeminiCalls_blockBody (h : ∀ call ∈ calls, call.IsPlain N) :
    parseGeminiCalls N (blockBody N calls) = some (calls.map ToolCall.kept) := by
  obtain ⟨ls, htext, htidy, -, hcalls⟩ := reads_blockBody h
  have hrest := hcalls [] []
  rw [append_nil, callsFrom, Option.map_some, append_nil] at hrest
  rw [parseGeminiCalls, ← htext, lexemes_textOf htidy, hrest]

theorem indexOf_append_self {part : Units} (hne : part ≠ []) (rest : Units) :
    indexOf part (part ++ rest) = some 0 := by
  have hprefix : part.isPrefixOf (part ++ rest) = true :=
    isPrefixOf_iff_prefix.mpr (prefix_append part rest)
  cases hpart : part ++ rest with
  | nil => exact absurd (append_eq_nil_iff.mp hpart).1 hne
  | cons =>
    rw [hpart] at hprefix
    rw [indexOf, if_pos hprefix]

/-- The fence at the end of a line is the first one, if there is none before the line break. -/
theorem indexOf_fence {front : Units} (h : ¬ fence <:+: front) :
    indexOf fence (front ++ 10 :: fence) = some (front.length + 1) := by
  have hbreak : (10 : ℕ) ∉ fence := notMem_fence (by decide)
  have hcons : ∀ code text, ¬ fence <+: code :: text →
      indexOf fence (code :: text) = (indexOf fence text).map (· + 1) := by
    intro code text hnot
    rw [indexOf, if_neg]
    rwa [ isPrefixOf_iff_prefix]
  induction front with
  | nil =>
    have hself : indexOf fence (fence ++ []) = some 0 := indexOf_append_self (by decide) []
    rw [append_nil] at hself
    have hnot : ¬ fence <+: 10 :: fence := by decide
    rw [nil_append, hcons 10 fence hnot, hself]
    rfl
  | cons code front ih =>
    have hnot : ¬ fence <+: code :: (front ++ 10 :: fence) :=
      fun hprefix => h (prefix_of_append_cons hbreak hprefix).isInfix
    have hfront : ¬ fence <:+: front := fun hin => h (hin.trans (infix_cons (infix_refl _)))
    rw [cons_append, hcons code _ hnot, ih hfront]
    rfl

theorem nextBlock_codeOpen (parseThinking : Bool) (rest : Units) :
    nextBlock parseThinking (codeOpen ++ rest) = some (0, false) := by
  rw [nextBlock, indexOf_append_self (by decide)]
  cases (if parseThinking then indexOf thinkOpen (codeOpen ++ rest) else none) with
  | none => rfl
  | some => simp

section Scan

variable (N) (F : FencedThinking φ) (mintToolCallId : ℕ → Units) (parseThinking : Bool)

variable {s : Scanner φ} (final : Bool)

theorem consumeOutside_codeOpen {rest : Units} (hbuffer : s.buffer = codeOpen ++ rest) :
    consumeOutside F final s =
      ({ s with buffer := rest, state := .tool }, ([] : List (Event ν))) := by
  rw [consumeOutside, hbuffer, nextBlock_codeOpen]
  simp only [zero_add, drop_left, take_zero]
  rfl

theorem consumeTool_blockBody (h : ∀ call ∈ calls, call.IsPlain N)
    (hbuffer : s.buffer = blockBody N calls ++ fence) : consumeTool N mintToolCallId final s =
      some ({ s with buffer := [], state := .outside, minted := s.minted + calls.length },
        callEvents mintToolCallId (renderAssistantToolCalls N calls) s.minted
          (calls.map ToolCall.kept)) := by
  obtain ⟨-, -, -, hfence, -⟩ := reads_blockBody h
  have hfront : ¬ fence <:+: 10 :: callsBody N calls := by
    intro hin
    exact hfence (hin.trans (prefix_append _ [10]).isInfix)
  have hindex : indexOf fence (blockBody N calls ++ fence) = some (blockBody N calls).length := by
    rw [blockBody, append_assoc, singleton_append, indexOf_fence hfront]
    simp
  have hdrop : (blockBody N calls ++ fence).drop ((blockBody N calls).length + fence.length) =
      [] := by
    rw [← length_append, drop_length]
  rw [consumeTool, hbuffer, hindex]
  simp [parseGeminiCalls_blockBody h, hdrop, renderAssistantToolCalls_eq]

variable (rounds : ℕ)

theorem consume_empty (hstate : s.state = .outside) (hbuffer : s.buffer = []) :
    consume N F mintToolCallId final (rounds + 1) s = some (s, []) := by
  have hne : s.state ≠ .thinking := by
    rw [hstate]
    decide
  rw [consume, if_pos ⟨hne, hbuffer⟩]

variable {events : List (Event ν)}

theorem consume_outside {s s' : Scanner φ} (hstate : s.state = .outside) (hbuffer : s.buffer ≠ [])
    (hround : consumeOutside F final s = (s', events)) (hs' : s'.state ≠ .outside) :
    consume N F mintToolCallId final (rounds + 1) s =
      (consume N F mintToolCallId final rounds s').map fun next => (next.1, events ++ next.2) := by
  rw [consume, if_neg fun h => hbuffer h.2]
  simp only [hstate, hround, Option.bind_eq_bind, Option.bind_some, hs', if_false]
  cases consume N F mintToolCallId final rounds s' <;> rfl

theorem consume_tool {s s' : Scanner φ} (hstate : s.state = .tool) (hbuffer : s.buffer ≠ [])
    (hround : consumeTool N mintToolCallId final s = some (s', events)) (hs' : s'.state ≠ .tool) :
    consume N F mintToolCallId final (rounds + 1) s =
      (consume N F mintToolCallId final rounds s').map fun next => (next.1, events ++ next.2) := by
  rw [consume, if_neg fun h => hbuffer h.2]
  simp only [hstate, hround, Option.bind_eq_bind, Option.bind_some, hs', if_false]
  cases consume N F mintToolCallId final rounds s' <;> rfl

theorem scan_eq (h : ∀ call ∈ calls, call.IsPlain N) {rounds : ℕ} (hrounds : 3 ≤ rounds) :
    scan N F mintToolCallId parseThinking rounds (renderAssistantToolCalls N calls) =
      some (callEvents mintToolCallId (renderAssistantToolCalls N calls) 0
        (calls.map ToolCall.kept)) := by
  obtain ⟨rounds, rfl⟩ := Nat.exists_eq_add_of_le' hrounds
  have hcode : codeOpen ≠ [] := by decide
  have htext : renderAssistantToolCalls N calls ≠ [] := by
    rw [renderAssistantToolCalls_eq]
    exact append_ne_nil_of_left_ne_nil hcode _
  have hblock : blockBody N calls ++ fence ≠ [] := append_ne_nil_of_right_ne_nil _ (by decide)
  have hout : ∀ s : Scanner φ, s.state = .outside → s.minted = 0 →
      s.buffer = renderAssistantToolCalls N calls →
        consume N F mintToolCallId false (rounds + 3) s =
          some ({ s with buffer := [], state := .outside, minted := 0 + calls.length },
            callEvents mintToolCallId (renderAssistantToolCalls N calls) 0
              (calls.map ToolCall.kept)) := by
    intro s hstate hminted hbuffer
    have hbuffer' := hbuffer
    rw [renderAssistantToolCalls_eq] at hbuffer'
    have htool := consumeTool_blockBody N mintToolCallId false h
      (s := { s with buffer := blockBody N calls ++ fence, state := .tool }) rfl
    rw [consume_outside N F mintToolCallId false (rounds + 2) hstate (by rwa [hbuffer])
      (consumeOutside_codeOpen F false hbuffer') State.noConfusion,
      consume_tool N F mintToolCallId false (rounds + 1) rfl hblock htool State.noConfusion,
      consume_empty N F mintToolCallId false rounds rfl rfl]
    simp [hminted]
  rw [scan, if_neg htext, hout _ rfl rfl (nil_append _)]
  simp only [Option.bind_eq_bind, Option.bind_some]
  rw [consume_empty N F mintToolCallId true (rounds + 2) rfl rfl]
  simp

end Scan

theorem calledOf_callEvents (mintToolCallId : ℕ → Units) (rawBlock : Units) (minted : ℕ)
    (calls : List (ToolCall ν)) :
    calledOf (callEvents mintToolCallId rawBlock minted calls) = calls := by
  induction calls generalizing minted with
  | nil => rfl
  | cons call calls ih =>
    rw [callEvents, calledOf, calledOf, ih]
    rintro _ _ _ _ ⟨⟩

theorem kept_eq_self_iff {call : ToolCall ν} :
    call.kept = call ↔ protoKey ∉ call.arguments.map Prod.fst := by
  obtain ⟨name, arguments⟩ := call
  rw [ToolCall.kept, ToolCall.mk.injEq]
  simp only [true_and, filter_eq_self, decide_eq_true_eq, mem_map, not_exists, not_and]

/-- A rendered block is scanned to the events of its calls, one call after the other, exactly if no
argument has the key `__proto__`. -/
theorem scan_renderAssistantToolCalls_iff (N : Numbers ν) (F : FencedThinking φ)
    (mintToolCallId : ℕ → Units) (parseThinking : Bool) {calls : List (ToolCall ν)}
    (h : ∀ call ∈ calls, call.IsPlain N) {rounds : ℕ} (hrounds : 3 ≤ rounds) :
    scan N F mintToolCallId parseThinking rounds (renderAssistantToolCalls N calls) =
        some (callEvents mintToolCallId (renderAssistantToolCalls N calls) 0 calls) ↔
      ∀ call ∈ calls, protoKey ∉ call.arguments.map Prod.fst := by
  rw [scan_eq N F mintToolCallId parseThinking h hrounds]
  constructor
  · intro heq call hcall
    have hcalls := congrArg calledOf (Option.some.inj heq)
    rw [calledOf_callEvents, calledOf_callEvents] at hcalls
    have hkept : ∀ call ∈ calls, call.kept = call := by
      rw [← map_inj_left, hcalls]
      exact (map_id' calls).symm
    exact kept_eq_self_iff.mp (hkept call hcall)
  intro hproto
  have hkept : calls.map ToolCall.kept = calls := by
    refine (map_congr_left fun call hcall => ?_).trans calls.map_id
    exact kept_eq_self_iff.mpr (hproto call hcall)
  rw [hkept]

/-! ### A block -/

/-- The natural numbers and their decimal numerals. -/
def naturals : Numbers ℕ where
  isFinite _ := true
  text := Notebook.numberText
  value t := if t.all isDigitCode then some (Notebook.parseDigits t) else none
  value_text n _ := by
    have hall : (Notebook.numberText n).all isDigitCode = true :=
      all_eq_true.mpr fun _ => Notebook.isDigitCode_of_mem_numberText
    rw [if_pos hall, Notebook.parseDigits_numberText]
  startsNumber_text n _ := by
    cases htext : Notebook.numberText n with
    | nil => exact absurd htext (Notebook.numberText_ne_nil n)
    | cons code rest =>
      have hdigit : isDigitCode code = true :=
        Notebook.isDigitCode_of_mem_numberText (htext ▸ mem_cons_self)
      cases rest <;> simp [startsNumber, hdigit]
  isNumeralCode_text n _ code hcode := by
    rw [isNumeralCode, Notebook.isDigitCode_of_mem_numberText hcode, Bool.true_or]

/-- A scanner that finds no end; no rendered block comes to it. -/
def noThinking : FencedThinking Unit where
  new := ()
  feed _ text _ := ((), ⟨text, false, []⟩)

def searchCall : ToolCall ℕ where
  name := units "search"
  arguments := [(units "pattern", .string (units "a\"(#,")),
    (units "paths", .array [.object [(units "k:=", .null)], .number 40])]

theorem searchCall_isPlain : searchCall.IsPlain naturals where
  name := by decide
  notPrint := by decide
  keys := by decide
  identifiers := by decide
  values := by
    have hpattern : ¬ fence <:+: units "a\"(#," := by decide
    have hkey : ¬ fence <:+: units "k:=" := by decide
    simp only [searchCall, mem_cons, not_mem_nil, or_false, forall_eq_or_imp, forall_eq]
    refine ⟨hpattern, ⟨⟨?_, ⟨?_, hkey, trivial⟩, trivial⟩, rfl, trivial⟩⟩
    · decide
    · decide

theorem scan_renderAssistantToolCalls_search : scan naturals noThinking (fun _ => []) true 3
        (renderAssistantToolCalls naturals [searchCall, searchCall]) =
      some (callEvents (fun _ => [])
        (renderAssistantToolCalls naturals [searchCall, searchCall]) 0
          [searchCall, searchCall]) := by
  refine (scan_renderAssistantToolCalls_iff naturals noThinking (fun _ => []) true ?_ le_rfl).mpr ?_
  · intro call hcall
    simp only [mem_cons, not_mem_nil, or_false, or_self] at hcall
    rw [hcall]
    exact searchCall_isPlain
  intro call hcall
  simp only [mem_cons, not_mem_nil, or_false, or_self] at hcall
  rw [hcall]
  decide

def protoCall : ToolCall ℕ := ⟨units "set", [(protoKey, .bool true)]⟩

theorem protoCall_isPlain : protoCall.IsPlain naturals where
  name := by decide
  notPrint := by decide
  keys := by decide
  identifiers := by decide
  values := by
    simp only [protoCall, mem_cons, not_mem_nil, or_false, forall_eq]
    trivial

/-- An argument `__proto__` does not come back. -/
theorem protoCall_lost : protoCall.IsPlain naturals ∧
    scan naturals noThinking (fun _ => []) true 3 (renderAssistantToolCalls naturals [protoCall]) ≠
      some (callEvents (fun _ => []) (renderAssistantToolCalls naturals [protoCall]) 0
        [protoCall]) := by
  refine ⟨protoCall_isPlain, ?_⟩
  intro heq
  have hlost : (scan naturals noThinking (fun _ => []) true 3
      (renderAssistantToolCalls naturals [protoCall])).map
        (fun events => (calledOf events).map fun call => call.arguments.length) = some [0] := by
    decide +kernel
  rw [heq, Option.map_some, calledOf_callEvents] at hlost
  exact absurd hlost (by decide)

end BreadboardTui.Gemini
