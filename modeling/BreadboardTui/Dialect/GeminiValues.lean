import BreadboardTui.Dialect.GeminiLexemes

/-!
# Python values round trip

A rendered value is a part of a list, of a dictionary or of the arguments of a call: the loops of
the reader find its end. The parts of a joined text are found again, and the value of a part is the
value that was rendered.
-/

namespace BreadboardTui.Gemini

open List

open Hashline (Units units isDigitCode isTrimmedCode isWhitespaceCode trim)

variable {ν : Type} (N : Numbers ν)

/-! ### Values -/

theorem Json.induct {P : Json ν → Prop} (null : P .null) (bool : ∀ value, P (.bool value))
    (number : ∀ value, P (.number value)) (string : ∀ text, P (.string text))
    (array : ∀ items : List (Json ν), (∀ item ∈ items, P item) → P (.array items))
    (object : ∀ fields : List (Units × Json ν), (∀ field ∈ fields, P field.2) →
      P (.object fields)) (v : Json ν) : P v := by
  have hrec := @Json.rec ν P (fun items => ∀ item ∈ items, P item)
    (fun fields => ∀ field ∈ fields, P field.2) (fun field => P field.2)
  refine hrec null bool number string array object ?_ ?_ ?_ ?_ ?_ v
  · exact fun item hitem => absurd hitem not_mem_nil
  · exact fun head tail hhead htail item hitem =>
      (mem_cons.mp hitem).elim (fun h => h ▸ hhead) (htail item)
  · exact fun field hfield => absurd hfield not_mem_nil
  · exact fun head tail hhead htail field hfield =>
      (mem_cons.mp hfield).elim (fun h => h ▸ hhead) (htail field)
  · exact fun _ _ h => h

mutual

/-- A value with finite numbers, without fences in its strings and keys, and with distinct keys
other than `__proto__`. -/
def IsPlain : Json ν → Prop
  | .null | .bool _ => True
  | .number value => N.isFinite value = true
  | .string text => ¬ fence <:+: text
  | .array items => ItemsPlain items
  | .object fields => (fields.map Prod.fst).Nodup ∧ FieldsPlain fields

def ItemsPlain : List (Json ν) → Prop
  | [] => True
  | item :: items => IsPlain item ∧ ItemsPlain items

def FieldsPlain : List (Units × Json ν) → Prop
  | [] => True
  | (key, value) :: fields =>
    (key ≠ protoKey ∧ ¬ fence <:+: key ∧ IsPlain value) ∧ FieldsPlain fields

end

theorem itemsPlain_iff {items : List (Json ν)} :
    ItemsPlain N items ↔ ∀ item ∈ items, IsPlain N item := by
  induction items with
  | nil => simp [ItemsPlain]
  | cons item items ih => simp [ItemsPlain, ih]

theorem fieldsPlain_iff {fields : List (Units × Json ν)} : FieldsPlain N fields ↔
    ∀ field ∈ fields, field.1 ≠ protoKey ∧ ¬ fence <:+: field.1 ∧ IsPlain N field.2 := by
  induction fields with
  | nil => simp [FieldsPlain]
  | cons field fields ih => simp [FieldsPlain, ih]

theorem pyItems_eq_map (items : List (Json ν)) : pyItems N items = items.map (pyValue N) := by
  induction items with
  | nil => rfl
  | cons item items ih => rw [pyItems, ih, map_cons]

/-! ### Joined texts -/

theorem joinComma_cons (part : Units) (parts : List Units) :
    joinComma (part :: parts) = part ++ parts.flatMap (units ", " ++ ·) := by
  induction parts generalizing part with
  | nil => rw [joinComma, intercalate_singleton, flatMap_nil, append_nil]
  | cons next parts ih =>
    rw [joinComma, intercalate_cons_of_ne_nil (cons_ne_nil _ _), ← joinComma, ih,
      flatMap_cons, append_assoc, append_assoc]

theorem joinComma_cons_cons (part next : Units) (parts : List Units) :
    joinComma (part :: next :: parts) = part ++ 44 :: joinComma ((32 :: next) :: parts) := by
  rw [joinComma_cons, joinComma_cons, flatMap_cons]
  rfl

/-- What the loops of the renderer do with an entry. -/
def addPart (done part : Units) : Units := done ++ ((if done = [] then [] else units ", ") ++ part)

theorem foldl_addPart {done : Units} (hdone : done ≠ []) (parts : List Units) :
    parts.foldl addPart done = done ++ parts.flatMap (units ", " ++ ·) := by
  induction parts generalizing done with
  | nil => rw [foldl_nil, flatMap_nil, append_nil]
  | cons part parts ih =>
    have hadd : addPart done part = done ++ (units ", " ++ part) := by rw [addPart, if_neg hdone]
    have hne : done ++ (units ", " ++ part) ≠ [] := by simp [hdone]
    rw [foldl_cons, hadd, ih hne, flatMap_cons, append_assoc]

variable {parts : List Units}

theorem foldl_addPart_nil (hparts : ∀ part ∈ parts, part ≠ []) :
    parts.foldl addPart [] = joinComma parts := by
  cases parts with
  | nil => rfl
  | cons part =>
    have hadd : addPart [] part = part := rfl
    rw [foldl_cons, hadd, foldl_addPart (hparts part mem_cons_self), joinComma_cons]

variable {part : Units}

theorem length_le_joinComma (h : part ∈ parts) : part.length ≤ (joinComma parts).length := by
  induction parts with
  | nil => exact absurd h not_mem_nil
  | cons first parts ih =>
    rcases mem_cons.mp h with rfl | h
    · rw [joinComma_cons, length_append]
      omega
    cases parts with
    | nil => exact absurd h not_mem_nil
    | cons =>
      have hle := ih h
      rw [joinComma_cons] at hle
      rw [joinComma_cons_cons, joinComma_cons, length_append, length_cons,
        length_append, length_cons]
      rw [length_append] at hle
      omega

/-- The text of an entry of a dictionary. -/
def entryText (field : Units × Json ν) : Units :=
  pyString field.1 ++ units ": " ++ pyValue N field.2

theorem pyString_ne_nil (value : Units) : pyString value ≠ [] := by
  rw [pyString_eq]
  exact cons_ne_nil _ _

theorem pyEntries_eq (fields : List (Units × Json ν)) :
    pyEntries N [] fields = joinComma (fields.map (entryText N)) := by
  have hfold : ∀ entries, pyEntries N entries fields =
      (fields.map (entryText N)).foldl addPart entries := by
    induction fields with
    | nil => exact fun entries => by rw [pyEntries, map_nil, foldl_nil]
    | cons field fields ih =>
      intro entries
      rw [pyEntries, ih, map_cons, foldl_cons, addPart, entryText]
      simp
  rw [hfold, foldl_addPart_nil]
  intro part hpart
  obtain ⟨field, -, rfl⟩ := mem_map.mp hpart
  simp [entryText, pyString_ne_nil]

/-! ### Parts -/

/-- A text that `trim` does not change and that is not empty. -/
structure Visible (t : Units) : Prop where
  ne_nil : t ≠ []
  head : ∀ code ∈ t.head?, isTrimmedCode code = false
  last : ∀ code ∈ t.getLast?, isTrimmedCode code = false

variable {t : Units}

theorem Visible.trim (h : Visible t) : trim t = t := by
  have hdrop : t.dropWhile isTrimmedCode = t := by
    cases t with
    | nil => rfl
    | cons code =>
      rw [dropWhile_cons_of_neg]
      rw [h.head code rfl]
      exact Bool.false_ne_true
  rw [Hashline.trim, hdrop]
  rcases t.eq_nil_or_concat' with rfl | ⟨init, last, rfl⟩
  · rfl
  rw [rdropWhile_concat_neg]
  rw [h.last last (by simp)]
  exact Bool.false_ne_true

theorem Visible.append {t u : Units} (h : Visible t) (hu : Visible u) (middle : Units) :
    Visible (t ++ (middle ++ u)) := by
  refine ⟨append_ne_nil_of_left_ne_nil h.ne_nil _, ?_, ?_⟩
  · rw [head?_append_of_ne_nil _ h.ne_nil]
    exact h.head
  rw [← append_assoc, getLast?_append_of_ne_nil _ hu.ne_nil]
  exact hu.last

theorem visible_wrap {opening closing : ℕ} (h : isTrimmedCode opening = false)
    (h' : isTrimmedCode closing = false) (t : Units) : Visible (opening :: t ++ [closing]) := by
  refine ⟨cons_ne_nil _ _, ?_, ?_⟩
  · intro code hcode
    cases hcode
    exact h
  intro code hcode
  rw [getLast?_concat, Option.mem_some_iff] at hcode
  rw [← hcode]
  exact h'

variable {code : ℕ}

theorem isTrimmedCode_of_le (h : 33 ≤ code) (h' : code ≤ 126) : isTrimmedCode code = false := by
  simp only [isTrimmedCode, isWhitespaceCode, Bool.or_eq_false_iff]
  simp
  omega

theorem trim_cons_space (t : Units) : trim (32 :: t) = trim t := by
  rw [trim, dropWhile_cons_of_pos (by rfl), ← trim]

/-- A text between two commas. -/
structure IsPart (t : Units) : Prop where
  lexed : Lexed [44] t
  visible : Visible t

variable {seps : List ℕ}

theorem isMark_of_notMem (hseps : seps ⊆ separators)
    (h : code ∉ [34, 39, 35, 96, 40, 91, 123, 41, 93, 125, 44, 58, 61]) : IsMark seps code := by
  simp only [mem_cons, not_mem_nil, or_false, not_or] at h
  refine ⟨?_, ?_, ?_, ?_, ?_, ?_⟩
  · simp [isQuote, h]
  · exact h.2.2.1
  · exact h.2.2.2.1
  · simp [isOpening, h]
  · simp [isClosing, h]
  intro hmem
  have hsep := hseps hmem
  simp [separators, h] at hsep

theorem isMark_space (hseps : seps ⊆ separators) : IsMark seps 32 :=
  isMark_of_notMem hseps (by decide)

theorem isMark_separator (h : code ∈ separators) (hcode : code ∉ seps) : IsMark seps code := by
  simp only [separators, mem_cons, not_mem_nil, or_false] at h
  rcases h with rfl | rfl | rfl <;> exact ⟨rfl, by decide, by decide, rfl, rfl, hcode⟩

theorem lexed_joinComma (h : ∀ part ∈ parts, Lexed [] part) : Lexed [] (joinComma parts) := by
  induction parts with
  | nil => exact lexed_nil
  | cons part parts ih =>
    have ih := ih fun other hother => h other (mem_cons_of_mem _ hother)
    have hpart := h part mem_cons_self
    cases parts with
    | nil => rwa [joinComma_cons, flatMap_nil, append_nil]
    | cons =>
      rw [joinComma_cons_cons]
      refine hpart.glue (isMark_separator (by decide) not_mem_nil) ?_
      rw [joinComma_cons] at ih ⊢
      exact lexed_nil.glue (isMark_space (nil_subset _)) ih

theorem splitTopLevel_of_lexed (h : Lexed [44] t) : splitTopLevel t 44 = [t] := by
  obtain ⟨ls, rfl, htidy, hwalks, -⟩ := h
  have hsplit := hwalks.splitFrom 44 0 (.inr ⟨rfl, by decide⟩) [] []
  rw [append_nil] at hsplit
  rw [splitTopLevel, lexemes_textOf htidy, hsplit]
  rfl

theorem splitTopLevel_append {t rest : Units} (h : Lexed [44] t) (hrest : Lexed [] rest) :
    splitTopLevel (t ++ 44 :: rest) 44 = t :: splitTopLevel rest 44 := by
  obtain ⟨ls, rfl, htidy, hwalks, -⟩ := h
  obtain ⟨ls', rfl, htidy', -, -⟩ := hrest
  have htext : textOf ls ++ 44 :: textOf ls' = textOf (ls ++ .unit 44 :: ls') := by
    simp [Lexeme.text]
  rw [splitTopLevel, htext, lexemes_textOf (htidy.append_unit rfl (by decide) htidy'),
    hwalks.splitFrom 44 0 (.inr ⟨rfl, by decide⟩), splitTopLevel, lexemes_textOf htidy']
  rfl

theorem splitTopLevel_joinComma (h : Lexed [44] part) (hparts : ∀ next ∈ parts, Lexed [44] next) :
    splitTopLevel (joinComma (part :: parts)) 44 = part :: parts.map (32 :: ·) := by
  induction parts generalizing part with
  | nil =>
    rw [joinComma_cons, flatMap_nil, append_nil, splitTopLevel_of_lexed h]
    rfl
  | cons next parts ih =>
    have hnext : Lexed [44] (32 :: next) :=
      lexed_nil.glue (isMark_space (by decide)) (hparts next mem_cons_self)
    have hmem : ∀ other ∈ parts, Lexed [44] other :=
      fun other hother => hparts other (mem_cons_of_mem _ hother)
    have hrest : Lexed [] (joinComma ((32 :: next) :: parts)) := by
      refine lexed_joinComma ?_
      intro other hother
      rcases mem_cons.mp hother with rfl | hother
      · exact hnext.mono (nil_subset _)
      · exact (hmem other hother).mono (nil_subset _)
    rw [joinComma_cons_cons, splitTopLevel_append h hrest, ih hnext hmem, map_cons]

theorem stripComments_of_lexed (h : Lexed seps t) : stripComments t = t := by
  obtain ⟨ls, rfl, htidy, -, -⟩ := h
  exact stripComments_textOf htidy

theorem trimmedParts_joinComma (h : ∀ part ∈ parts, IsPart part) :
    trimmedParts (joinComma parts) = parts := by
  have hlexed : ∀ part ∈ parts, Lexed [] part :=
    fun part hpart => (h part hpart).lexed.mono (nil_subset _)
  rw [trimmedParts, stripComments_of_lexed (lexed_joinComma hlexed)]
  cases parts with
  | nil =>
    have hnil : joinComma [] = [] := rfl
    rw [hnil, splitTopLevel_of_lexed lexed_nil]
    rfl
  | cons part parts =>
    have hpart := h part mem_cons_self
    have hmem : ∀ next ∈ parts, IsPart next := fun next hnext => h next (mem_cons_of_mem _ hnext)
    have htrim : (parts.map (32 :: ·)).map trim = parts := by
      rw [map_map]
      refine (map_congr_left fun next hnext => ?_).trans parts.map_id
      rw [Function.comp_apply, trim_cons_space, (hmem next hnext).visible.trim, id]
    rw [splitTopLevel_joinComma hpart.lexed fun next hnext => (hmem next hnext).lexed,
      map_cons, htrim, hpart.visible.trim, filter_eq_self]
    intro other hother
    exact decide_eq_true (h other hother).visible.ne_nil

/-- A separator that no bracket is around is found. -/
theorem topLevelIndexOf_append {t rest : Units} {ch : ℕ} (hch : ch ∈ separators)
    (hmem : ch ∈ seps) (h : Lexed seps t) (hrest : Lexed [] rest) :
    topLevelIndexOf (t ++ ch :: rest) ch = some t.length := by
  obtain ⟨ls, rfl, htidy, hwalks, -⟩ := h
  obtain ⟨ls', rfl, htidy', -, -⟩ := hrest
  have hmark := isMark_separator hch not_mem_nil
  have htext : textOf ls ++ ch :: textOf ls' = textOf (ls ++ .unit ch :: ls') := by
    simp [Lexeme.text]
  rw [topLevelIndexOf, htext, lexemes_textOf (htidy.append_unit hmark.quote hmark.comment htidy'),
    hwalks.indexFrom ch 0 (.inr ⟨rfl, hmem⟩), indexFrom, hmark.opening, hmark.closing,
    if_neg Bool.false_ne_true, if_neg Bool.false_ne_true, if_pos ⟨rfl, rfl⟩, Nat.zero_add]

/-! ### Rendered values are parts -/

theorem le_of_isNumeralCode (h : isNumeralCode code = true) : 43 ≤ code ∧ code ≤ 101 ∧
      code ∉ [34, 39, 35, 96, 40, 91, 123, 41, 93, 125, 44, 58, 61] := by
  simp only [isNumeralCode, isDigitCode, Bool.or_eq_true, decide_eq_true_eq, contains_eq_mem,
    mem_cons, not_mem_nil, or_false] at h
  simp only [mem_cons, not_mem_nil, or_false]
  omega

/-- A numeral begins like no word and like no literal. -/
theorem not_word_of_isNumeralCode (h : isNumeralCode code = true) :
    code ∉ [84, 116, 70, 102, 78, 110] ∧ lowerUnit code ∉ [114, 117, 98] := by
  simp only [isNumeralCode, isDigitCode, Bool.or_eq_true, decide_eq_true_eq, contains_eq_mem,
    mem_cons, not_mem_nil, or_false] at h
  simp only [lowerUnit, mem_cons, not_mem_nil, or_false]
  split <;> omega

theorem isBracket_list : IsBracket 91 93 :=
  ⟨⟨rfl, by decide, by decide⟩, ⟨rfl, rfl, by decide, by decide⟩, by decide⟩

theorem isBracket_dict : IsBracket 123 125 :=
  ⟨⟨rfl, by decide, by decide⟩, ⟨rfl, rfl, by decide, by decide⟩, by decide⟩

/-- A rendered value: a part in which no separator is found. -/
structure IsValue (t : Units) : Prop where
  lexed : Lexed separators t
  visible : Visible t

theorem IsValue.isPart (h : IsValue t) : IsPart t :=
  ⟨h.lexed.mono (by decide), h.visible⟩

theorem isValue_word (hne : t ≠ []) (hcodes : ∀ code ∈ t, 33 ≤ code ∧ code ≤ 126 ∧
    code ∉ [34, 39, 35, 96, 40, 91, 123, 41, 93, 125, 44, 58, 61]) : IsValue t := by
  have hvisible : ∀ code ∈ t, isTrimmedCode code = false :=
    fun code hcode => isTrimmedCode_of_le (hcodes code hcode).1 (hcodes code hcode).2.1
  refine ⟨lexed_of_marks ?_, hne, ?_, ?_⟩
  · exact fun code hcode => isMark_of_notMem (List.Subset.refl _) (hcodes code hcode).2.2
  · exact fun code hcode => hvisible code (mem_of_mem_head? hcode)
  · exact fun code hcode => hvisible code (mem_of_mem_getLast? hcode)

variable {value : Units}

theorem isValue_pyString (h : ¬ fence <:+: value) : IsValue (pyString value) := by
  refine ⟨lexed_pyString h, ?_⟩
  rw [pyString_eq]
  exact visible_wrap (by decide) (by decide) _

theorem isValue_wrap {opening closing : ℕ} (hb : IsBracket opening closing)
    (hopening : isTrimmedCode opening = false) (hclosing : isTrimmedCode closing = false)
    (h : ∀ part ∈ parts, IsPart part) :
    IsValue (opening :: joinComma parts ++ [closing]) := by
  have hlexed : Lexed [] (joinComma parts) :=
    lexed_joinComma fun part hpart => (h part hpart).lexed.mono (nil_subset _)
  exact ⟨hlexed.wrap hb, visible_wrap hopening hclosing _⟩

/-- A key and a value with a separator between them, and perhaps a space. -/
theorem IsValue.pair {key space : Units} (ch : ℕ) (hch : ch ∈ separators) (hcomma : ch ≠ 44)
    (hspace : ∀ code ∈ space, code = 32) (hkey : IsValue key) (hvalue : IsValue value) :
    IsPart (key ++ ch :: (space ++ value)) ∧ topLevelIndexOf (key ++ ch :: (space ++ value)) ch =
      some key.length := by
  have hseps : [44] ⊆ separators := by decide
  have hrest : Lexed [44] (space ++ value) := by
    induction space with
    | nil => exact hvalue.lexed.mono hseps
    | cons code space ih =>
      obtain rfl := hspace code mem_cons_self
      exact lexed_nil.glue (isMark_space hseps)
        (ih fun other hother => hspace other (mem_cons_of_mem _ hother))
  have hmark : IsMark [44] ch := isMark_separator hch (by simpa using hcomma)
  refine ⟨⟨(hkey.lexed.mono hseps).glue hmark hrest, ?_⟩, ?_⟩
  · exact hkey.visible.append hvalue.visible (ch :: space)
  · exact topLevelIndexOf_append hch hch hkey.lexed (hrest.mono (nil_subset _))

theorem entryText_eq (field : Units × Json ν) :
    entryText N field = pyString field.1 ++ 58 :: ([32] ++ pyValue N field.2) := by
  rw [entryText, append_assoc]
  rfl

variable {field : Units × Json ν}

theorem isPart_entryText_of_value (hkey : ¬ fence <:+: field.1)
    (hvalue : IsValue (pyValue N field.2)) : IsPart (entryText N field) := by
  rw [entryText_eq]
  exact (IsValue.pair 58 (by decide) (by decide) (by simp) (isValue_pyString hkey) hvalue).1

variable {v : Json ν}

theorem isValue_pyValue (h : IsPlain N v) : IsValue (pyValue N v) := by
  have hword : ∀ t ∈ [units "None", units "True", units "False"], t ≠ [] ∧
      ∀ code ∈ t, 33 ≤ code ∧ code ≤ 126 ∧
        code ∉ [34, 39, 35, 96, 40, 91, 123, 41, 93, 125, 44, 58, 61] := by decide
  induction v using Json.induct with
  | null =>
    obtain ⟨hne, hcodes⟩ := hword (units "None") (by decide)
    exact isValue_word hne hcodes
  | bool value =>
    cases value with
    | false =>
      obtain ⟨hne, hcodes⟩ := hword (units "False") (by decide)
      exact isValue_word hne hcodes
    | true =>
      obtain ⟨hne, hcodes⟩ := hword (units "True") (by decide)
      exact isValue_word hne hcodes
  | number value =>
    have hfinite : N.isFinite value = true := h
    rw [pyValue, if_pos hfinite]
    refine isValue_word ?_ ?_
    · intro hnil
      have hstart := N.startsNumber_text value hfinite
      rw [hnil] at hstart
      exact Bool.noConfusion hstart
    intro code hcode
    have hnumeral := N.isNumeralCode_text value hfinite code hcode
    obtain ⟨hle, hle', hnot⟩ := le_of_isNumeralCode hnumeral
    exact ⟨by omega, by omega, hnot⟩
  | string => exact isValue_pyString h
  | array items ih =>
    rw [pyValue, pyItems_eq_map]
    refine isValue_wrap isBracket_list (by decide) (by decide) ?_
    intro part hpart
    obtain ⟨item, hitem, rfl⟩ := mem_map.mp hpart
    exact (ih item hitem ((itemsPlain_iff N).mp h item hitem)).isPart
  | object fields ih =>
    rw [pyValue, pyEntries_eq]
    refine isValue_wrap isBracket_dict (by decide) (by decide) ?_
    intro part hpart
    obtain ⟨field, hfield, rfl⟩ := mem_map.mp hpart
    obtain ⟨-, hkey, hvalue⟩ := (fieldsPlain_iff N).mp h.2 field hfield
    exact isPart_entryText_of_value N hkey (ih field hfield hvalue)

/-! ### Rendered values are read -/

/-- The pair of a part, where the separator is found. -/
theorem trim_pair {key space : Units} (ch : ℕ) (hspace : ∀ code ∈ space, code = 32)
    (hkey : Visible key) (hvalue : Visible value) :
    trim ((key ++ ch :: (space ++ value)).take key.length) = key ∧
      trim ((key ++ ch :: (space ++ value)).drop (key.length + 1)) = value := by
  refine ⟨?_, ?_⟩
  · rw [take_left, hkey.trim]
  have hdrop : (key ++ ch :: (space ++ value)).drop (key.length + 1) = space ++ value := by
    rw [← drop_drop, drop_left, drop_succ_cons, drop_zero]
  rw [hdrop]
  induction space with
  | nil => exact hvalue.trim
  | cons code space ih =>
    obtain rfl := hspace code mem_cons_self
    rw [cons_append, trim_cons_space]
    exact ih (fun other hother => hspace other (mem_cons_of_mem _ hother)) (by simp)

theorem entryOf_entryText (hkey : ¬ fence <:+: field.1) (hvalue : IsPlain N field.2) :
    entryOf (entryText N field) = some (pyString field.1, pyValue N field.2) := by
  have hspace : ∀ code ∈ [32], code = 32 := by simp
  have hk := isValue_pyString hkey
  have hv := isValue_pyValue N hvalue
  obtain ⟨-, hindex⟩ := IsValue.pair 58 (by decide) (by decide) hspace hk hv
  obtain ⟨htake, hdrop⟩ := trim_pair 58 hspace hk.visible hv.visible
  rw [entryText_eq, entryOf, hindex]
  simp only [Option.bind_eq_bind, Option.bind_some, htake, hdrop]

theorem entryKey_pyString (value : Units) : entryKey (pyString value) = some value := by
  have hlength : stringPrefixLength (pyString value) = some 0 := by
    rw [pyString_eq, cons_append, stringPrefixLength_quote]
  rw [entryKey, hlength, Option.isSome_some, if_pos rfl, decodeString_pyString]

theorem innerText_wrap (opening closing : ℕ) (t : Units) :
    innerText (opening :: t ++ [closing]) closing = t := by
  have hsuffix : [closing].isSuffixOf (opening :: t ++ [closing]) = true := by
    rw [isSuffixOf_iff_suffix]
    exact suffix_append _ _
  rw [innerText, if_pos hsuffix]
  simp

/-- The assignments keep every key but `__proto__`. -/
theorem assignAll_eq {parse : Units → Option (Json ν)} (out : Arguments ν) {fields : Arguments ν}
    (hnodup : ((out ++ fields).map Prod.fst).Nodup)
    (hparse : ∀ field ∈ fields, parse (pyValue N field.2) = some field.2) :
    assignAll parse out (fields.map fun field => (field.1, pyValue N field.2)) =
      some (out ++ fields.filter fun field => field.1 ≠ protoKey) := by
  induction fields generalizing out with
  | nil => rw [map_nil, assignAll, filter_nil, append_nil]
  | cons field fields ih =>
    obtain ⟨key, value⟩ := field
    have hmem : ∀ field ∈ fields, parse (pyValue N field.2) = some field.2 :=
      fun field hfield => hparse field (mem_cons_of_mem _ hfield)
    have hvalue := hparse (key, value) mem_cons_self
    rw [map_cons, assignAll, hvalue, Option.bind_eq_bind, Option.bind_some, assign]
    by_cases hproto : key = protoKey
    · have hsub : ((out ++ fields).map Prod.fst).Sublist
          ((out ++ (key, value) :: fields).map Prod.fst) :=
        ((sublist_cons_self (key, value) fields).append_left out).map _
      rw [if_pos hproto, ih out (hnodup.sublist hsub) hmem,
        filter_cons_of_neg (by simpa using hproto)]
    have hnot : key ∉ out.map Prod.fst := by
      rw [map_append, map_cons] at hnodup
      exact fun hkey => disjoint_of_nodup_append hnodup hkey mem_cons_self
    have hnodup' : ((out ++ [(key, value)] ++ fields).map Prod.fst).Nodup := by
      rwa [append_assoc, singleton_append]
    rw [if_neg hproto, JsMap.set_of_notMem hnot, ih (out ++ [(key, value)]) hnodup' hmem,
      filter_cons_of_pos (by simpa using hproto), append_assoc, singleton_append]

theorem mapM_map_eq_some {α β γ : Type} {f : α → β} {g : β → Option γ} {h : α → γ} {xs : List α}
    (hg : ∀ x ∈ xs, g (f x) = some (h x)) : (xs.map f).mapM g = some (xs.map h) := by
  induction xs with
  | nil => rfl
  | cons x xs ih =>
    rw [map_cons, mapM_cons, hg x mem_cons_self, ih fun y hy => hg y (mem_cons_of_mem _ hy)]
    rfl

variable {bound : ℕ}

/-- What is left of `parsePyValue` for a text that begins with another unit than the words. -/
theorem parsePyValue_cons (htrim : trim (code :: t) = code :: t)
    (hcode : code ∉ [84, 116, 70, 102, 78, 110]) : parsePyValue N (bound + 1) (code :: t) =
      if (stringPrefixLength (code :: t)).isSome then (decodeString (code :: t)).map .string
      else if code = 91 then parseList (parsePyValue N bound) (code :: t)
      else if code = 123 then parseDict (parsePyValue N bound) (code :: t)
      else if startsNumber (code :: t) then some (numberOf N (code :: t))
      else some (.string (code :: t)) := by
  simp only [mem_cons, not_mem_nil, or_false, not_or] at hcode
  rw [parsePyValue]
  simp [htrim, units, hcode]

theorem parsePyValue_pyValue (h : IsPlain N v)
    (hbound : (pyValue N v).length < bound) : parsePyValue N bound (pyValue N v) = some v := by
  obtain ⟨bound, rfl⟩ := Nat.exists_eq_succ_of_ne_zero (Nat.ne_zero_of_lt hbound)
  induction v using Json.induct generalizing bound with
  | null => rfl
  | bool value => cases value <;> rfl
  | number value =>
    have hfinite : N.isFinite value = true := h
    have htrim := (isValue_pyValue N h).visible.trim
    have hstart := N.startsNumber_text value hfinite
    have hcodes := N.isNumeralCode_text value hfinite
    have hvalue := N.value_text value hfinite
    rw [pyValue, if_pos hfinite] at htrim ⊢
    cases htext : N.text value with
    | nil =>
      rw [htext] at hstart
      exact Bool.noConfusion hstart
    | cons code t =>
      rw [htext] at htrim hstart hcodes hvalue
      obtain ⟨hle, hle', hnot⟩ := le_of_isNumeralCode (hcodes code mem_cons_self)
      have hquote : isQuote code = false := by
        rw [isQuote, Bool.or_eq_false_iff, decide_eq_false_iff_not, decide_eq_false_iff_not]
        omega
      have hword := not_word_of_isNumeralCode (hcodes code mem_cons_self)
      have hnone : stringPrefixLength (code :: t) = none := stringPrefixLength_cons hquote hword.2 t
      have hlist : code ≠ 91 := fun h => hnot (by simp [h])
      have hdict : code ≠ 123 := fun h => hnot (by simp [h])
      rw [parsePyValue_cons N htrim hword.1, hnone, Option.isSome_none,
        if_neg Bool.false_ne_true, if_neg hlist, if_neg hdict, if_pos hstart, numberOf, hvalue]
  | string text =>
    have htrim := (isValue_pyValue N h).visible.trim
    have hdecode := decodeString_pyString text
    rw [pyValue, pyString_eq, cons_append] at htrim ⊢
    rw [pyString_eq, cons_append] at hdecode
    rw [parsePyValue_cons N htrim (by decide), stringPrefixLength_quote, Option.isSome_some,
      if_pos rfl, hdecode]
    rfl
  | array items ih =>
    have htrim := (isValue_pyValue N h).visible.trim
    have hitems := (itemsPlain_iff N).mp h
    have hparts : ∀ part ∈ items.map (pyValue N), IsPart part := by
      intro part hpart
      obtain ⟨item, hitem, rfl⟩ := mem_map.mp hpart
      exact (isValue_pyValue N (hitems item hitem)).isPart
    have hparse : ∀ item ∈ items, parsePyValue N bound (pyValue N item) = some item := by
      intro item hitem
      have hle := length_le_joinComma (mem_map_of_mem (f := pyValue N) hitem)
      rw [pyValue, pyItems_eq_map, length_append, length_cons] at hbound
      have hlt : (pyValue N item).length < bound := by omega
      obtain ⟨smaller, rfl⟩ := Nat.exists_eq_succ_of_ne_zero (Nat.ne_zero_of_lt hlt)
      exact ih item hitem (hitems item hitem) smaller hlt
    rw [pyValue, pyItems_eq_map, cons_append] at htrim ⊢
    rw [parsePyValue_cons N htrim (by decide), stringPrefixLength_cons (by decide) (by decide),
      Option.isSome_none, if_neg Bool.false_ne_true, if_pos rfl, parseList, ← cons_append,
      innerText_wrap, trimmedParts_joinComma hparts, mapM_map_eq_some hparse, map_id']
    rfl
  | object fields ih =>
    have htrim := (isValue_pyValue N h).visible.trim
    have hfields := (fieldsPlain_iff N).mp h.2
    have hparts : ∀ part ∈ fields.map (entryText N), IsPart part := by
      intro part hpart
      obtain ⟨field, hfield, rfl⟩ := mem_map.mp hpart
      obtain ⟨-, hkey, hvalue⟩ := hfields field hfield
      exact isPart_entryText_of_value N hkey (isValue_pyValue N hvalue)
    have hparse : ∀ field ∈ fields, parsePyValue N bound (pyValue N field.2) = some field.2 := by
      intro field hfield
      have hle := length_le_joinComma (mem_map_of_mem (f := entryText N) hfield)
      rw [pyValue, pyEntries_eq, length_append, length_cons] at hbound
      have hlt : (pyValue N field.2).length < bound := by
        rw [entryText, length_append] at hle
        omega
      obtain ⟨smaller, rfl⟩ := Nat.exists_eq_succ_of_ne_zero (Nat.ne_zero_of_lt hlt)
      exact ih field hfield (hfields field hfield).2.2 smaller hlt
    have hentries : (fields.map (entryText N)).filterMap entryOf =
        fields.map fun field => (pyString field.1, pyValue N field.2) := by
      rw [filterMap_map, ← filterMap_eq_map]
      refine filterMap_congr ?_
      intro field hfield
      obtain ⟨-, hkey, hvalue⟩ := hfields field hfield
      exact entryOf_entryText N hkey hvalue
    have hkept : fields.filter (fun field => field.1 ≠ protoKey) = fields := by
      rw [filter_eq_self]
      exact fun field hfield => decide_eq_true (hfields field hfield).1
    have hassign := assignAll_eq N [] h.1 hparse
    have hkeys : (fields.map fun field => (pyString field.1, pyValue N field.2)).mapM
        (fun entry => (entryKey entry.1).bind fun key => some (key, entry.2)) =
          some (fields.map fun field => (field.1, pyValue N field.2)) := by
      refine mapM_map_eq_some fun field _ => ?_
      rw [entryKey_pyString, Option.bind_some]
    rw [pyValue, pyEntries_eq, cons_append] at htrim ⊢
    rw [parsePyValue_cons N htrim (by decide), stringPrefixLength_cons (by decide) (by decide),
      Option.isSome_none, if_neg Bool.false_ne_true, if_neg (by decide), if_pos rfl, parseDict,
      ← cons_append, innerText_wrap, trimmedParts_joinComma hparts, hentries]
    simp only [Option.bind_eq_bind, hkeys, Option.bind_some, hassign, hkept, nil_append]

end BreadboardTui.Gemini
