import BreadboardTui.JsonRepair.ScanTokens

/-!
# Classifying JSON prefixes

`classifyJsonPrefix`: what a buffer that is still filled is, a whole JSON text, the beginning of one,
or neither. The scan goes over the text once, with the open containers on a stack.
-/

namespace BreadboardTui.JsonRepair

open List

open Hashline (Units)

/-! ### The scan -/

inductive JsonPrefixState where
  | complete
  | prefixOnly
  | invalid
  deriving DecidableEq

inductive JsonExpect where
  | value
  | objKeyOrEnd
  | objKey
  | objColon
  | objCommaOrEnd
  | arrValueOrEnd
  | arrCommaOrEnd
  | finished
  deriving DecidableEq

def isWhitespace (cp : ℕ) : Bool := cp = 32 || cp = 9 || cp = 10 || cp = 13

/-- What comes after a value: the stack has the open containers, `true` for an object. -/
def valueDone : List Bool → JsonExpect
  | [] => .finished
  | true :: _ => .objCommaOrEnd
  | false :: _ => .arrCommaOrEnd

/-- What the scan does at a character. -/
inductive Move where
  | on (stack : List Bool) (expect : JsonExpect) (rest : Units)
  | cut
  | invalid

/-- A scan within the text, and what is expected behind its token. -/
def Scan.move (scan : Scan) (stack : List Bool) (expect : JsonExpect) : Move :=
  match scan with
  | .ok rest => .on stack expect rest
  | .cut => .cut
  | .invalid => .invalid

def moveValue (stack : List Bool) (c : ℕ) (rest : Units) : Move :=
  if c = 123 then .on (true :: stack) .objKeyOrEnd rest
  else if c = 91 then .on (false :: stack) .arrValueOrEnd rest
  else (scanScalar (c :: rest)).move stack (valueDone stack)

def moveKey (stack : List Bool) (c : ℕ) (rest : Units) : Move :=
  if c = 34 then (scanString rest).move stack .objColon else .invalid

/-- The end of a container. -/
def movePop (stack : List Bool) (rest : Units) : Move :=
  .on stack.tail (valueDone stack.tail) rest

def move (stack : List Bool) (expect : JsonExpect) (c : ℕ) (rest : Units) : Move :=
  if isWhitespace c then .on stack expect rest
  else
    match expect with
    | .value => moveValue stack c rest
    | .arrValueOrEnd => if c = 93 then movePop stack rest else moveValue stack c rest
    | .objKeyOrEnd => if c = 125 then movePop stack rest else moveKey stack c rest
    | .objKey => moveKey stack c rest
    | .objColon => if c = 58 then .on stack .value rest else .invalid
    | .objCommaOrEnd =>
      if c = 125 then movePop stack rest
      else if c = 44 then .on stack .objKey rest
      else .invalid
    | .arrCommaOrEnd =>
      if c = 93 then movePop stack rest
      else if c = 44 then .on stack .value rest
      else .invalid
    | .finished => .invalid

variable {stack stack' : List Bool}

variable {rest : Units} {text : Units} {expect' : JsonExpect}

/-- A scan that found a token has gone on. -/
theorem Scan.length_of_move {scan : Scan} {expect : JsonExpect}
    (hlt : ∀ rest, scan = .ok rest → rest.length < text.length)
    (h : scan.move stack expect = .on stack' expect' rest) : rest.length < text.length := by
  cases scan with
  | ok =>
    cases h
    exact hlt _ rfl
  | cut => cases h
  | invalid => cases h

theorem length_of_scanString (h : scanString text = .ok rest) :
    rest.length < (34 :: text).length := by
  obtain ⟨body, rfl, value, hbody⟩ := scanString_scanner.sound h
  rw [length_cons, length_append]
  omega

theorem IsScalar.ne_nil (h : IsScalar text) : text ≠ [] := by
  rcases h with ⟨body, rfl, -⟩ | h | h
  · exact cons_ne_nil _ _
  · obtain ⟨sign, text, -, hunsigned, rfl⟩ := h.split
    obtain ⟨c, text, -, rfl⟩ := hunsigned.exists_cons
    exact append_ne_nil_of_right_ne_nil _ (cons_ne_nil _ _)
  obtain ⟨a, rest, rfl, -⟩ := exists_cons_of_mem_keywords h
  exact cons_ne_nil _ _

theorem length_of_scanScalar (h : scanScalar text = .ok rest) : rest.length < text.length := by
  obtain ⟨token, rfl, htoken⟩ := scanScalar_scanner.sound h
  have hpos := length_pos_iff.mpr htoken.ne_nil
  rw [length_append]
  omega

variable {expect : JsonExpect} {c : ℕ}

/-- A move does not look at the text behind the character, or it is a scan. -/
theorem move_cases (stack : List Bool) (expect : JsonExpect) (c : ℕ) :
    (∃ stack' expect', ∀ text, move stack expect c text = .on stack' expect' text) ∨
      (∀ text, move stack expect c text = .invalid) ∨
      (∀ text, move stack expect c text =
        (scanScalar (c :: text)).move stack (valueDone stack)) ∨
      ∀ text, move stack expect c text = (scanString text).move stack .objColon := by
  have hvalue (h : ∀ text, move stack expect c text = moveValue stack c text) :
      (∃ stack' expect', ∀ text, move stack expect c text = .on stack' expect' text) ∨
        ∀ text, move stack expect c text =
          (scanScalar (c :: text)).move stack (valueDone stack) := by
    simp only [h, moveValue]
    split
    · exact .inl ⟨_, _, fun _ => rfl⟩
    split
    · exact .inl ⟨_, _, fun _ => rfl⟩
    · exact .inr fun _ => rfl
  have hkey (h : ∀ text, move stack expect c text = moveKey stack c text) :
      (∀ text, move stack expect c text = .invalid) ∨
        ∀ text, move stack expect c text = (scanString text).move stack .objColon := by
    simp only [h, moveKey]
    split
    · exact .inr fun _ => rfl
    · exact .inl fun _ => rfl
  by_cases hspace : isWhitespace c = true
  · exact .inl ⟨stack, expect, fun _ => if_pos hspace⟩
  have hmove (text : Units) := move.eq_def stack expect c text
  simp only [if_neg hspace] at hmove
  cases expect <;> dsimp only at hmove
  case value => exact (hvalue hmove).imp_right fun h => .inr (.inl h)
  case arrValueOrEnd =>
    split at hmove
    · exact .inl ⟨_, _, hmove⟩
    · exact (hvalue hmove).imp_right fun h => .inr (.inl h)
  case objKeyOrEnd =>
    split at hmove
    · exact .inl ⟨_, _, hmove⟩
    · exact .inr ((hkey hmove).imp_right .inr)
  case objKey => exact .inr ((hkey hmove).imp_right .inr)
  case objColon =>
    split at hmove
    · exact .inl ⟨_, _, hmove⟩
    · exact .inr (.inl hmove)
  case objCommaOrEnd | arrCommaOrEnd =>
    split at hmove
    · exact .inl ⟨_, _, hmove⟩
    split at hmove
    · exact .inl ⟨_, _, hmove⟩
    · exact .inr (.inl hmove)
  case finished => exact .inr (.inl hmove)

theorem length_of_move (h : move stack expect c text = .on stack' expect' rest) :
    rest.length < (c :: text).length := by
  rcases move_cases stack expect c with ⟨_, _, heq⟩ | heq | heq | heq
  · cases (heq text).symm.trans h
    exact Nat.lt_succ_self _
  · cases (heq text).symm.trans h
  · exact Scan.length_of_move (fun _ => length_of_scanScalar) ((heq text).symm.trans h)
  · exact Scan.length_of_move (fun _ => length_of_scanString) ((heq text).symm.trans h)

/-- The loop, from a state on. -/
def classifyFrom (stack : List Bool) (expect : JsonExpect) : Units → JsonPrefixState
  | [] => if expect = .finished then .complete else .prefixOnly
  | c :: rest =>
    match hmove : move stack expect c rest with
    | .on stack expect rest' =>
      have _ := length_of_move hmove
      classifyFrom stack expect rest'
    | .cut => .prefixOnly
    | .invalid => .invalid
termination_by text => text.length
decreasing_by assumption

def classifyJsonPrefix (text : Units) : JsonPrefixState := classifyFrom [] .value text

theorem classifyFrom_on {rest' : Units} (h : move stack expect c rest = .on stack' expect' rest') :
    classifyFrom stack expect (c :: rest) = classifyFrom stack' expect' rest' := by
  rw [classifyFrom]
  split
  · next heq =>
    rw [h] at heq
    cases heq
    rfl
  · next heq => cases h.symm.trans heq
  · next heq => cases h.symm.trans heq

theorem classifyFrom_cut (h : move stack expect c rest = .cut) :
    classifyFrom stack expect (c :: rest) = .prefixOnly := by
  rw [classifyFrom]
  split
  · next heq => cases h.symm.trans heq
  · rfl
  · next heq => cases h.symm.trans heq

theorem classifyFrom_invalid (h : move stack expect c rest = .invalid) :
    classifyFrom stack expect (c :: rest) = .invalid := by
  rw [classifyFrom]
  split
  · next heq => cases h.symm.trans heq
  · next heq => cases h.symm.trans heq
  · rfl

/-! ### Moves on a longer text -/

theorem scanString_append (h : scanString text = .ok rest) (suffix : Units) :
    scanString (text ++ suffix) = .ok (rest ++ suffix) := by
  obtain ⟨body, rfl, value, hbody⟩ := scanString_scanner.sound h
  rw [append_assoc, scanString_of_stringBody hbody]

variable {IsToken : Units → Prop} {scan : Units → Scan}

theorem Scan.move_append (hscan : Scanner IsToken scan) {suffix : Units}
    (h : (scan text).move stack expect = .on stack' expect' rest) (hstops : rest = [] → Stops suffix) :
    (scan (text ++ suffix)).move stack expect = .on stack' expect' (rest ++ suffix) := by
  cases hok : scan text with
  | ok =>
    rw [hok] at h
    cases h
    by_cases hrest : rest = []
    · subst hrest
      obtain ⟨token, rfl, htoken⟩ := hscan.sound hok
      rw [append_nil, hscan.complete htoken (hstops rfl)]
      rfl
    rw [hscan.goesOn hok hrest]
    rfl
  | cut =>
    rw [hok] at h
    cases h
  | invalid =>
    rw [hok] at h
    cases h

theorem Scan.move_invalid (hscan : Scanner IsToken scan)
    (h : (scan text).move stack expect = .invalid) (suffix : Units) :
    (scan (text ++ suffix)).move stack expect = .invalid := by
  cases hok : scan text with
  | ok =>
    rw [hok] at h
    cases h
  | cut =>
    rw [hok] at h
    cases h
  | invalid =>
    rw [hscan.invalid hok]
    rfl

/-- The scan goes on in the same way on a longer text. Only a number at the end of the text could go
on itself. -/
theorem move_append {suffix : Units} (h : move stack expect c text = .on stack' expect' rest)
    (hstops : rest = [] → expect' = valueDone stack' → Stops suffix) :
    move stack expect c (text ++ suffix) = .on stack' expect' (rest ++ suffix) := by
  rcases move_cases stack expect c with ⟨_, _, heq⟩ | heq | heq | heq
  · cases (heq text).symm.trans h
    exact heq _
  · cases (heq text).symm.trans h
  · rw [heq] at h
    rw [heq]
    refine Scan.move_append scanScalar_scanner h fun hrest => hstops hrest ?_
    cases hscan : scanScalar (c :: text) <;> rw [hscan] at h <;> cases h
    rfl
  rw [heq] at h
  cases hscan : scanString text <;> rw [hscan] at h <;> cases h
  rw [heq, scanString_append hscan]
  rfl

theorem move_invalid (h : move stack expect c text = .invalid) (suffix : Units) :
    move stack expect c (text ++ suffix) = .invalid := by
  rcases move_cases stack expect c with ⟨_, _, heq⟩ | heq | heq | heq
  · cases (heq text).symm.trans h
  · exact heq _
  · rw [heq] at h ⊢
    exact Scan.move_invalid scanScalar_scanner h suffix
  rw [heq] at h ⊢
  exact Scan.move_invalid scanString_scanner h suffix

theorem classifyFrom_nil_ne (stack : List Bool) (expect : JsonExpect) :
    classifyFrom stack expect [] ≠ .invalid := by
  rw [classifyFrom]
  split
  · exact fun h => by cases h
  · exact fun h => by cases h

/-- Nothing makes an invalid text valid. -/
theorem classifyFrom_invalid_append
    (h : classifyFrom stack expect text = .invalid) (suffix : Units) :
    classifyFrom stack expect (text ++ suffix) = .invalid := by
  induction hlen : text.length using Nat.strong_induction_on generalizing stack expect text with
  | _ n ih =>
    cases text with
    | nil => exact absurd h (classifyFrom_nil_ne stack expect)
    | cons c text =>
      cases hmove : move stack expect c text with
      | on stack' expect' rest =>
        rw [classifyFrom_on hmove] at h
        have hne : rest ≠ [] := by
          rintro rfl
          exact classifyFrom_nil_ne _ _ h
        refine (classifyFrom_on (move_append hmove fun hrest => absurd hrest hne)).trans ?_
        exact ih rest.length (hlen ▸ length_of_move hmove) h rfl
      | cut =>
        rw [classifyFrom_cut hmove] at h
        cases h
      | invalid => exact classifyFrom_invalid (move_invalid hmove suffix)

/-! ### Completions -/

/-- The container that is expected to go on is the innermost one. -/
def WellFormed (stack : List Bool) : JsonExpect → Prop
  | .value => True
  | .objKeyOrEnd | .objKey | .objColon | .objCommaOrEnd => ∃ outer, stack = true :: outer
  | .arrValueOrEnd | .arrCommaOrEnd => ∃ outer, stack = false :: outer
  | .finished => stack = []

theorem wellFormed_valueDone (stack : List Bool) : WellFormed stack (valueDone stack) := by
  rcases stack with _ | ⟨_ | _, outer⟩
  · rfl
  · exact ⟨outer, rfl⟩
  · exact ⟨outer, rfl⟩

theorem wellFormed_moveValue (h : moveValue stack c text = .on stack' expect rest) :
    WellFormed stack' expect := by
  rw [moveValue] at h
  split at h
  · cases h
    exact ⟨stack, rfl⟩
  split at h
  · cases h
    exact ⟨stack, rfl⟩
  cases hscan : scanScalar (c :: text) <;> rw [hscan] at h <;> cases h
  exact wellFormed_valueDone stack

variable {outer : List Bool}

theorem wellFormed_moveKey (h : moveKey (true :: outer) c text = .on stack' expect rest) :
    WellFormed stack' expect := by
  rw [moveKey] at h
  split at h
  · cases hscan : scanString text <;> rw [hscan] at h <;> cases h
    exact ⟨outer, rfl⟩
  · cases h

theorem wellFormed_movePop
    (h : movePop stack text = .on stack' expect rest) : WellFormed stack' expect := by
  cases h
  exact wellFormed_valueDone _

theorem wellFormed_move (hwf : WellFormed stack expect)
    (h : move stack expect c text = .on stack' expect' rest) : WellFormed stack' expect' := by
  rw [move.eq_def] at h
  split at h
  · cases h
    exact hwf
  cases expect with
  | value => exact wellFormed_moveValue h
  | arrValueOrEnd =>
    dsimp only at h
    split at h
    · exact wellFormed_movePop h
    · exact wellFormed_moveValue h
  | objKeyOrEnd =>
    obtain ⟨outer, rfl⟩ := hwf
    dsimp only at h
    split at h
    · exact wellFormed_movePop h
    · exact wellFormed_moveKey h
  | objKey =>
    obtain ⟨outer, rfl⟩ := hwf
    exact wellFormed_moveKey h
  | objColon =>
    dsimp only at h
    split at h
    · cases h
      trivial
    · cases h
  | objCommaOrEnd =>
    dsimp only at h
    split at h
    · exact wellFormed_movePop h
    split at h
    · cases h
      exact hwf
    · cases h
  | arrCommaOrEnd =>
    dsimp only at h
    split at h
    · exact wellFormed_movePop h
    split at h
    · cases h
      trivial
    · cases h
  | finished => cases h

/-- The character that closes a container. -/
def closer (object : Bool) : ℕ := if object then 125 else 93

def closers (stack : List Bool) : Units := stack.map closer

/-- A text that completes a state. -/
def completion (stack : List Bool) : JsonExpect → Units
  | .value => 48 :: closers stack
  | .objKey => 34 :: 34 :: 58 :: 48 :: closers stack
  | .objColon => 58 :: 48 :: closers stack
  | _ => closers stack

theorem stops_closers (stack : List Bool) : Stops (closers stack) := by
  rcases stack with _ | ⟨_ | _, outer⟩
  · exact stops_nil
  · intro c hc
    cases hc
    decide
  intro c hc
  cases hc
  decide

theorem completion_valueDone (stack : List Bool) :
    completion stack (valueDone stack) = closers stack := by
  rcases stack with _ | ⟨_ | _, outer⟩ <;> rfl

theorem classifyFrom_closers (stack : List Bool) :
    classifyFrom stack (valueDone stack) (closers stack) = .complete := by
  induction stack with
  | nil =>
    rw [closers, map_nil, classifyFrom]
    exact if_pos rfl
  | cons object outer ih =>
    refine (classifyFrom_on ?_).trans ih
    cases object <;> rfl

theorem classifyFrom_value_closers (stack : List Bool) :
    classifyFrom stack .value (48 :: closers stack) = .complete := by
  have hzero : IsScalar [48] := .inr (.inl (isNumberText_of_isUnsigned (s := []) (.inl rfl)
    (.inl ⟨[], .inl (.inl rfl), rfl⟩)))
  have hscan := scanScalar_scanner.complete hzero (stops_closers stack)
  refine (classifyFrom_on ?_).trans (classifyFrom_closers stack)
  show moveValue stack 48 (closers stack) = _
  rw [moveValue, if_neg (by decide), if_neg (by decide)]
  exact congrArg (Scan.move · stack (valueDone stack)) hscan

theorem classifyFrom_completion (h : WellFormed stack expect) :
    classifyFrom stack expect (completion stack expect) = .complete := by
  have hcolon (stack : List Bool) :
      classifyFrom stack .objColon (58 :: 48 :: closers stack) = .complete :=
    (classifyFrom_on rfl).trans (classifyFrom_value_closers stack)
  cases expect with
  | value => exact classifyFrom_value_closers stack
  | finished =>
    obtain rfl := h
    exact classifyFrom_closers []
  | objColon => exact hcolon stack
  | objKey =>
    refine (classifyFrom_on ?_).trans (hcolon stack)
    show moveKey stack 34 _ = _
    rw [moveKey, if_pos rfl, scanString_quote]
    rfl
  | objKeyOrEnd | objCommaOrEnd =>
    obtain ⟨outer, rfl⟩ := h
    exact (classifyFrom_on rfl).trans (classifyFrom_closers outer)
  | arrValueOrEnd | arrCommaOrEnd =>
    obtain ⟨outer, rfl⟩ := h
    exact (classifyFrom_on rfl).trans (classifyFrom_closers outer)

theorem completion_ne_nil (h : WellFormed stack expect)
    (hne : expect ≠ .finished) : completion stack expect ≠ [] := by
  cases expect with
  | finished => exact absurd rfl hne
  | value | objKey | objColon => exact cons_ne_nil _ _
  | objKeyOrEnd | objCommaOrEnd | arrValueOrEnd | arrCommaOrEnd =>
    obtain ⟨outer, rfl⟩ := h
    exact cons_ne_nil _ _

/-- A text that is cut within a token can be completed. -/
theorem moveValue_cut (h : moveValue stack c text = .cut) : ∃ suffix, suffix ≠ [] ∧
      moveValue stack c (text ++ suffix) = .on stack (valueDone stack) (closers stack) := by
  rw [moveValue] at h
  split at h
  · cases h
  next hobject =>
  split at h
  · cases h
  next harray =>
  have hscan : scanScalar (c :: text) = .cut := by
    cases hscan : scanScalar (c :: text) <;> rw [hscan] at h <;> cases h
  obtain ⟨suffix, hne, htoken⟩ := scanScalar_scanner.completable hscan
  refine ⟨suffix ++ closers stack, append_ne_nil_of_left_ne_nil hne _, ?_⟩
  have hok := scanScalar_scanner.complete htoken (stops_closers stack)
  rw [moveValue, if_neg hobject, if_neg harray, ← append_assoc]
  exact congrArg (Scan.move · stack (valueDone stack)) hok

theorem moveKey_cut (h : moveKey stack c text = .cut) : ∃ suffix, suffix ≠ [] ∧
      moveKey stack c (text ++ suffix) = .on stack .objColon (completion stack .objColon) := by
  rw [moveKey] at h
  split at h
  · next hc =>
    have hscan : scanString text = .cut := by
      cases hscan : scanString text <;> rw [hscan] at h <;> cases h
    obtain ⟨suffix, hne, value, hbody⟩ := scanString_scanner.completable hscan
    refine ⟨suffix ++ completion stack .objColon, append_ne_nil_of_left_ne_nil hne _, ?_⟩
    rw [moveKey, if_pos hc, ← append_assoc, scanString_of_stringBody hbody]
    rfl
  · cases h

theorem move_cut (hwf : WellFormed stack expect) (h : move stack expect c text = .cut) :
    ∃ suffix stack' expect', suffix ≠ [] ∧ WellFormed stack' expect' ∧
      move stack expect c (text ++ suffix) = .on stack' expect' (completion stack' expect') := by
  have hvalue (h : moveValue stack c text = .cut) : ∃ suffix stack' expect', suffix ≠ [] ∧
      WellFormed stack' expect' ∧
        moveValue stack c (text ++ suffix) = .on stack' expect' (completion stack' expect') := by
    obtain ⟨suffix, hne, hmove⟩ := moveValue_cut h
    refine ⟨suffix, stack, valueDone stack, hne, wellFormed_valueDone stack, ?_⟩
    rw [completion_valueDone]
    exact hmove
  have hkey (hobject : ∃ outer, stack = true :: outer) (h : moveKey stack c text = .cut) :
      ∃ suffix stack' expect', suffix ≠ [] ∧ WellFormed stack' expect' ∧
        moveKey stack c (text ++ suffix) = .on stack' expect' (completion stack' expect') := by
    obtain ⟨suffix, hne, hmove⟩ := moveKey_cut h
    exact ⟨suffix, stack, .objColon, hne, hobject, hmove⟩
  rw [move.eq_def] at h
  simp only [move.eq_def]
  split at h
  · cases h
  next hc =>
  simp only [if_neg hc]
  cases expect with
  | value => exact hvalue h
  | arrValueOrEnd =>
    dsimp only at h ⊢
    split at h
    · cases h
    next hc =>
    simp only [if_neg hc]
    exact hvalue h
  | objKeyOrEnd =>
    dsimp only at h ⊢
    split at h
    · cases h
    next hc =>
    simp only [if_neg hc]
    exact hkey hwf h
  | objKey => exact hkey hwf h
  | objColon =>
    dsimp only at h
    split at h <;> cases h
  | objCommaOrEnd | arrCommaOrEnd =>
    dsimp only at h
    split at h
    · cases h
    · split at h <;> cases h
  | finished => cases h

theorem exists_completion
    (hwf : WellFormed stack expect) (h : classifyFrom stack expect text = .prefixOnly) :
    ∃ suffix, suffix ≠ [] ∧ classifyFrom stack expect (text ++ suffix) = .complete := by
  have hnil {stack : List Bool} {expect : JsonExpect}
      (h : classifyFrom stack expect [] = .prefixOnly) : expect ≠ .finished := by
    rintro rfl
    rw [classifyFrom, if_pos rfl] at h
    cases h
  induction hlen : text.length using Nat.strong_induction_on generalizing stack expect text with
  | _ n ih =>
    cases text with
    | nil => exact ⟨_, completion_ne_nil hwf (hnil h), classifyFrom_completion hwf⟩
    | cons c text =>
      cases hmove : move stack expect c text with
      | on stack' expect' rest =>
        rw [classifyFrom_on hmove] at h
        have hwf' := wellFormed_move hwf hmove
        by_cases hrest : rest = []
        · subst hrest
          refine ⟨completion stack' expect', completion_ne_nil hwf' (hnil h),
            (classifyFrom_on (move_append hmove fun _ hdone => ?_)).trans
              (classifyFrom_completion hwf')⟩
          rw [hdone, completion_valueDone]
          exact stops_closers stack'
        obtain ⟨suffix, hne, hcomplete⟩ := ih rest.length (hlen ▸ length_of_move hmove) hwf' h rfl
        exact ⟨suffix, hne, (classifyFrom_on (move_append hmove fun h => absurd h hrest)).trans
          hcomplete⟩
      | cut =>
        obtain ⟨suffix, stack', expect', hne, hwf', hmove'⟩ := move_cut hwf hmove
        exact ⟨suffix, hne, (classifyFrom_on hmove').trans (classifyFrom_completion hwf')⟩
      | invalid =>
        rw [classifyFrom_invalid hmove] at h
        cases h

/-! ### What a complete text says -/

theorem mem_space (h : isWhitespace c = true) : c ∈ [32, 9, 10, 13] := by
  simpa [isWhitespace, or_assoc] using h

variable {space : Units}

theorem isSpace_cons (hc : isWhitespace c = true) (h : IsSpace space) : IsSpace (c :: space) :=
  forall_mem_cons.mpr ⟨mem_space hc, h⟩

theorem isSpace_nil : IsSpace [] := fun _ h => absurd h not_mem_nil

/-- The texts of what a container has in it, where it is not empty. -/
def Items : Bool → Units → Prop
  | true, text => ∃ members, Denotes false text (.members members)
  | false, text => ∃ items, Denotes false text (.elements items)

/-- The texts that complete the open containers behind a value. -/
def Closes : List Bool → Units → Prop
  | [], text => IsSpace text
  | object :: outer, text => ∃ space rest, IsSpace space ∧ Closes outer rest ∧
      (text = space ++ closer object :: rest ∨
        ∃ items, Items object items ∧ text = space ++ 44 :: (items ++ closer object :: rest))

def AcceptsValue (stack : List Bool) (text : Units) : Prop :=
  ∃ before value v rest, IsSpace before ∧ Denotes false value (.value v) ∧ Closes stack rest ∧
    text = before ++ (value ++ rest)

/-- The texts that complete a state. -/
def Accepts (stack : List Bool) : JsonExpect → Units → Prop
  | .value, text => AcceptsValue stack text
  | .objColon, text => ∃ before rest, IsSpace before ∧ AcceptsValue stack rest ∧
      text = before ++ 58 :: rest
  | .objKey, text => ∃ outer items rest, stack = true :: outer ∧ Items true items ∧
      Closes outer rest ∧ text = items ++ 125 :: rest
  | .objKeyOrEnd, text | .arrValueOrEnd, text => ∃ object outer rest, stack = object :: outer ∧
      Closes outer rest ∧ ((∃ space, IsSpace space ∧ text = space ++ closer object :: rest) ∨
        ∃ items, Items object items ∧ text = items ++ closer object :: rest)
  | .objCommaOrEnd, text | .arrCommaOrEnd, text | .finished, text => Closes stack text

theorem accepts_valueDone : Accepts stack (valueDone stack) text ↔ Closes stack text := by
  rcases stack with _ | ⟨_ | _, outer⟩ <;> exact Iff.rfl

variable {v : JsonValue}

theorem element_space (hc : isWhitespace c = true)
    (h : Denotes false text (.element v)) : Denotes false (c :: text) (.element v) := by
  cases h with
  | element hbefore hafter h => exact .element (isSpace_cons hc hbefore) hafter h

theorem member_space (hc : isWhitespace c = true) {key : Units}
    (h : Denotes false text (.member key v)) : Denotes false (c :: text) (.member key v) := by
  cases h with
  | member hbefore hkey hafter h => exact .member (isSpace_cons hc hbefore) hkey hafter h

theorem items_space (hc : isWhitespace c = true) {object : Bool}
    (h : Items object text) : Items object (c :: text) := by
  cases object with
  | true =>
    obtain ⟨members, h⟩ := h
    cases h with
    | lastMember h => exact ⟨_, .lastMember (member_space hc h)⟩
    | members h hrest => exact ⟨_, .members (member_space hc h) hrest⟩
  | false =>
    obtain ⟨items, h⟩ := h
    cases h with
    | lastElement h => exact ⟨_, .lastElement (element_space hc h)⟩
    | elements h hrest => exact ⟨_, .elements (element_space hc h) hrest⟩

theorem closes_space (hc : isWhitespace c = true)
    (h : Closes stack text) : Closes stack (c :: text) := by
  cases stack with
  | nil => exact isSpace_cons hc h
  | cons =>
    obtain ⟨space, rest, hspace, hrest, rfl | ⟨items, hitems, rfl⟩⟩ := h
    · exact ⟨c :: space, rest, isSpace_cons hc hspace, hrest, .inl rfl⟩
    · exact ⟨c :: space, rest, isSpace_cons hc hspace, hrest, .inr ⟨items, hitems, rfl⟩⟩

theorem acceptsValue_space (hc : isWhitespace c = true)
    (h : AcceptsValue stack text) : AcceptsValue stack (c :: text) := by
  obtain ⟨before, value, v, rest, hbefore, hvalue, hrest, rfl⟩ := h
  exact ⟨c :: before, value, v, rest, isSpace_cons hc hbefore, hvalue, hrest, rfl⟩

theorem accepts_space (hc : isWhitespace c = true)
    (h : Accepts stack expect text) : Accepts stack expect (c :: text) := by
  cases expect with
  | value => exact acceptsValue_space hc h
  | objColon =>
    obtain ⟨before, rest, hbefore, hrest, rfl⟩ := h
    exact ⟨c :: before, rest, isSpace_cons hc hbefore, hrest, rfl⟩
  | objKey =>
    obtain ⟨outer, items, rest, rfl, hitems, hrest, rfl⟩ := h
    exact ⟨outer, c :: items, rest, rfl, items_space hc hitems, hrest, rfl⟩
  | objKeyOrEnd | arrValueOrEnd =>
    obtain ⟨object, outer, rest, rfl, hrest, ⟨space, hspace, rfl⟩ | ⟨items, hitems, rfl⟩⟩ := h
    · exact ⟨object, outer, rest, rfl, hrest, .inl ⟨c :: space, isSpace_cons hc hspace, rfl⟩⟩
    · exact ⟨object, outer, rest, rfl, hrest, .inr ⟨c :: items, items_space hc hitems, rfl⟩⟩
  | objCommaOrEnd | arrCommaOrEnd | finished => exact closes_space hc h

/-- A value in an array, and what completes the array, are items and the end of the array. -/
theorem items_of_acceptsValue (h : AcceptsValue (false :: outer) text) :
    ∃ items rest, Items false items ∧ Closes outer rest ∧ text = items ++ 93 :: rest := by
  obtain ⟨before, value, v, _, hbefore, hvalue, ⟨space, rest, hspace, hrest, rfl | h⟩, rfl⟩ := h
  · refine ⟨before ++ value ++ space, rest, ⟨_, .lastElement (.element hbefore hspace hvalue)⟩, hrest,
      ?_⟩
    simp [closer]
  obtain ⟨items, ⟨vs, hitems⟩, rfl⟩ := h
  refine ⟨before ++ value ++ space ++ [44] ++ items, rest,
    ⟨_, .elements (.element hbefore hspace hvalue) hitems⟩, hrest, ?_⟩
  simp [closer]

theorem items_of_acceptsColon {body key : Units}
    (hkey : StringBody false body key) (h : Accepts (true :: outer) .objColon text) :
    ∃ items rest, Items true items ∧ Closes outer rest ∧
      34 :: (body ++ text) = items ++ 125 :: rest := by
  obtain ⟨after, _, hafter, ⟨before, value, v, _, hbefore, hvalue, ⟨space, rest, hspace, hrest, h⟩,
    rfl⟩, rfl⟩ := h
  have hmember : Denotes false ([] ++ (34 :: body) ++ after ++ [58] ++ (before ++ value ++ space))
      (.member key v) := .member isSpace_nil hkey hafter (.element hbefore hspace hvalue)
  rcases h with rfl | ⟨items, ⟨members, hitems⟩, rfl⟩
  · refine ⟨_, rest, ⟨_, .lastMember hmember⟩, hrest, ?_⟩
    simp [closer]
  refine ⟨_, rest, ⟨_, .members hmember hitems⟩, hrest, ?_⟩
  simp [closer]

theorem accepts_moveValue (h : moveValue stack c text = .on stack' expect rest)
    (haccepts : Accepts stack' expect rest) : AcceptsValue stack (c :: text) := by
  rw [moveValue] at h
  split at h
  · next hc =>
    cases h
    obtain ⟨object, outer, after, heq, hafter, h⟩ := haccepts
    cases heq
    rcases h with ⟨space, hspace, rfl⟩ | ⟨items, ⟨members, hitems⟩, rfl⟩
    · exact ⟨[], [123] ++ space ++ [125], _, after, isSpace_nil, .emptyObject hspace, hafter,
        by simp [closer, hc]⟩
    exact ⟨[], [123] ++ items ++ [125], _, after, isSpace_nil, .object hitems, hafter,
      by simp [closer, hc]⟩
  split at h
  · next hc =>
    cases h
    obtain ⟨object, outer, after, heq, hafter, h⟩ := haccepts
    cases heq
    rcases h with ⟨space, hspace, rfl⟩ | ⟨items, ⟨vs, hitems⟩, rfl⟩
    · exact ⟨[], [91] ++ space ++ [93], _, after, isSpace_nil, .emptyArray hspace, hafter,
        by simp [closer, hc]⟩
    exact ⟨[], [91] ++ items ++ [93], _, after, isSpace_nil, .array hitems, hafter,
      by simp [closer, hc]⟩
  cases hscan : scanScalar (c :: text) <;> rw [hscan] at h <;> cases h
  obtain ⟨token, heq, htoken⟩ := scanScalar_scanner.sound hscan
  obtain ⟨v, hv⟩ := htoken.exists_value
  exact ⟨[], token, v, rest, isSpace_nil, hv, accepts_valueDone.mp haccepts, heq⟩

theorem accepts_moveKey (h : moveKey (true :: outer) c text = .on stack' expect rest)
    (haccepts : Accepts stack' expect rest) : ∃ items after, Items true items ∧ Closes outer after ∧
      c :: text = items ++ 125 :: after := by
  rw [moveKey] at h
  split at h
  · next hc =>
    cases hscan : scanString text <;> rw [hscan] at h <;> cases h
    obtain ⟨body, rfl, key, hkey⟩ := scanString_scanner.sound hscan
    rw [hc]
    exact items_of_acceptsColon hkey haccepts
  · cases h

theorem accepts_move {expect : JsonExpect} {rest : Units} (hwf : WellFormed stack expect)
    (h : move stack expect c text = .on stack' expect' rest)
    (haccepts : Accepts stack' expect' rest) : Accepts stack expect (c :: text) := by
  rw [move.eq_def] at h
  split at h
  · next hc =>
    cases h
    exact accepts_space hc haccepts
  cases expect with
  | value => exact accepts_moveValue h haccepts
  | arrValueOrEnd =>
    obtain ⟨outer, rfl⟩ := hwf
    dsimp only at h
    split at h
    · next hc =>
      cases h
      exact ⟨false, outer, text, rfl, accepts_valueDone.mp haccepts,
        .inl ⟨[], isSpace_nil, congrArg (· :: text) hc⟩⟩
    obtain ⟨items, after, hitems, hafter, heq⟩ :=
      items_of_acceptsValue (accepts_moveValue h haccepts)
    exact ⟨false, outer, after, rfl, hafter, .inr ⟨items, hitems, heq⟩⟩
  | objKeyOrEnd =>
    obtain ⟨outer, rfl⟩ := hwf
    dsimp only at h
    split at h
    · next hc =>
      cases h
      exact ⟨true, outer, text, rfl, accepts_valueDone.mp haccepts,
        .inl ⟨[], isSpace_nil, congrArg (· :: text) hc⟩⟩
    obtain ⟨items, after, hitems, hafter, heq⟩ := accepts_moveKey h haccepts
    exact ⟨true, outer, after, rfl, hafter, .inr ⟨items, hitems, heq⟩⟩
  | objKey =>
    obtain ⟨outer, rfl⟩ := hwf
    obtain ⟨items, after, hitems, hafter, heq⟩ := accepts_moveKey h haccepts
    exact ⟨outer, items, after, rfl, hitems, hafter, heq⟩
  | objColon =>
    dsimp only at h
    split at h
    · next hc =>
      cases h
      exact ⟨[], text, isSpace_nil, haccepts, congrArg (· :: text) hc⟩
    · cases h
  | objCommaOrEnd =>
    obtain ⟨outer, rfl⟩ := hwf
    dsimp only at h
    split at h
    · next hc =>
      cases h
      exact ⟨[], text, isSpace_nil, accepts_valueDone.mp haccepts, .inl (congrArg (· :: text) hc)⟩
    split at h
    · next hc =>
      cases h
      obtain ⟨outer', items, after, heq, hitems, hafter, rfl⟩ := haccepts
      obtain ⟨-, rfl⟩ := List.cons.inj heq
      exact ⟨[], after, isSpace_nil, hafter, .inr ⟨items, hitems, by rw [hc]; rfl⟩⟩
    · cases h
  | arrCommaOrEnd =>
    obtain ⟨outer, rfl⟩ := hwf
    dsimp only at h
    split at h
    · next hc =>
      cases h
      exact ⟨[], text, isSpace_nil, accepts_valueDone.mp haccepts, .inl (congrArg (· :: text) hc)⟩
    split at h
    · next hc =>
      cases h
      obtain ⟨items, after, hitems, hafter, rfl⟩ := items_of_acceptsValue haccepts
      exact ⟨[], after, isSpace_nil, hafter, .inr ⟨items, hitems, by rw [hc]; rfl⟩⟩
    · cases h
  | finished => cases h

theorem accepts_of_complete
    (hwf : WellFormed stack expect) (h : classifyFrom stack expect text = .complete) :
    Accepts stack expect text := by
  induction hlen : text.length using Nat.strong_induction_on generalizing stack expect text with
  | _ n ih =>
    cases text with
    | nil =>
      rw [classifyFrom] at h
      split at h
      · next hfinished =>
        subst hfinished
        obtain rfl := hwf
        exact isSpace_nil
      · cases h
    | cons c text =>
      cases hmove : move stack expect c text with
      | on stack' expect' rest =>
        rw [classifyFrom_on hmove] at h
        exact accepts_move hwf hmove
          (ih rest.length (hlen ▸ length_of_move hmove) (wellFormed_move hwf hmove) h rfl)
      | cut =>
        rw [classifyFrom_cut hmove] at h
        cases h
      | invalid =>
        rw [classifyFrom_invalid hmove] at h
        cases h

theorem isJson_of_complete (h : classifyJsonPrefix text = .complete) : ∃ v, IsJson text v := by
  have haccepts : Accepts [] .value text := accepts_of_complete trivial h
  obtain ⟨before, value, v, rest, hbefore, hvalue, hrest, rfl⟩ := haccepts
  refine ⟨v, ?_⟩
  rw [← append_assoc]
  exact .element hbefore hrest hvalue

/-! ### What a JSON text is read as -/

theorem classifyFrom_space (h : IsSpace space) (stack : List Bool)
    (expect : JsonExpect) (rest : Units) :
    classifyFrom stack expect (space ++ rest) = classifyFrom stack expect rest := by
  induction space with
  | nil => rfl
  | cons c space ih =>
    rw [IsSpace, forall_mem_cons] at h
    have hc : isWhitespace c = true := by
      simpa [isWhitespace, or_assoc] using h.1
    have hmove : move stack expect c (space ++ rest) = .on stack expect (space ++ rest) := by
      rw [move.eq_def]
      exact if_pos hc
    exact (classifyFrom_on hmove).trans (ih h.2)

theorem stops_space (h : IsSpace space) (hrest : Stops rest) : Stops (space ++ rest) := by
  cases space with
  | nil => exact hrest
  | cons c =>
    intro d hd
    cases hd
    have hc := h c mem_cons_self
    simp only [mem_cons, not_mem_nil, or_false] at hc
    rcases hc with rfl | rfl | rfl | rfl <;> decide

/-- Where a value is read. -/
def ExpectsValue (expect : JsonExpect) : Prop := expect = .value ∨ expect = .arrValueOrEnd

def ExpectsKey (expect : JsonExpect) : Prop := expect = .objKey ∨ expect = .objKeyOrEnd

theorem move_eq_moveValue (h : ExpectsValue expect)
    (hspace : isWhitespace c = false) (hclose : c ≠ 93) (stack : List Bool) (rest : Units) :
    move stack expect c rest = moveValue stack c rest := by
  rw [move.eq_def, if_neg (Bool.eq_false_iff.mp hspace)]
  rcases h with rfl | rfl
  · rfl
  · exact if_neg hclose

theorem move_eq_moveKey (h : ExpectsKey expect) (stack : List Bool)
    (rest : Units) : move stack expect 34 rest = moveKey stack 34 rest := by
  rcases h with rfl | rfl <;> rfl

/-- How the phrases of the grammar are read. -/
def Reads : Phrase → Units → Prop
  | .value _, text | .element _, text => ∀ stack expect rest, ExpectsValue expect → Stops rest →
      classifyFrom stack expect (text ++ rest) = classifyFrom stack (valueDone stack) rest
  | .elements _, text => ∀ outer expect rest, ExpectsValue expect →
      classifyFrom (false :: outer) expect (text ++ 93 :: rest) =
        classifyFrom outer (valueDone outer) rest
  | .member _ _, text => ∀ outer expect rest, ExpectsKey expect → Stops rest →
      classifyFrom (true :: outer) expect (text ++ rest) =
        classifyFrom (true :: outer) .objCommaOrEnd rest
  | .members _, text => ∀ outer expect rest, ExpectsKey expect →
      classifyFrom (true :: outer) expect (text ++ 125 :: rest) =
        classifyFrom outer (valueDone outer) rest

theorem IsScalar.exists_cons (h : IsScalar text) : ∃ c rest, text = c :: rest ∧
    isWhitespace c = false ∧ c ≠ 93 ∧ c ≠ 123 ∧ c ≠ 91 := by
  rcases h with ⟨body, rfl, -⟩ | h | h
  · exact ⟨34, body, rfl, by decide⟩
  · obtain ⟨sign, text, rfl | rfl, hunsigned, rfl⟩ := h.split
    · obtain ⟨c, text, hc, rfl⟩ := hunsigned.exists_cons
      rw [isDigit_iff] at hc
      refine ⟨c, text, rfl, ?_, by omega, by omega, by omega⟩
      simp only [isWhitespace, Bool.or_eq_false_iff, decide_eq_false_iff_not]
      omega
    · exact ⟨45, text, rfl, by decide⟩
  obtain ⟨a, rest, rfl, rfl | rfl | rfl⟩ := exists_cons_of_mem_keywords h
  · exact ⟨_, rest, rfl, by decide⟩
  · exact ⟨_, rest, rfl, by decide⟩
  · exact ⟨_, rest, rfl, by decide⟩

theorem reads_scalar (h : IsScalar text) (v : JsonValue) : Reads (.value v) text := by
  intro stack expect rest hexpect hstops
  have hscan := scanScalar_scanner.complete h hstops
  obtain ⟨c, text, rfl, hspace, hclose, hobject, harray⟩ := h.exists_cons
  refine classifyFrom_on ?_
  rw [move_eq_moveValue hexpect hspace hclose, moveValue, if_neg hobject, if_neg harray]
  exact congrArg (Scan.move · stack (valueDone stack)) hscan

theorem classifyFrom_open (h : ExpectsValue expect) (object : Bool)
    (stack : List Bool) (rest : Units) :
    classifyFrom stack expect ((if object then 123 else 91) :: rest) =
      classifyFrom (object :: stack) (if object then .objKeyOrEnd else .arrValueOrEnd) rest := by
  cases object with
  | true => exact classifyFrom_on (move_eq_moveValue h (by decide) (by decide) stack rest)
  | false => exact classifyFrom_on (move_eq_moveValue h (by decide) (by decide) stack rest)

theorem stops_cons (h : c = 44 ∨ c = 93 ∨ c = 125) (rest : Units) : Stops (c :: rest) := by
  intro d hd
  cases hd
  rcases h with rfl | rfl | rfl <;> decide

theorem reads_of_denotes {phrase : Phrase} (h : Denotes false text phrase) : Reads phrase text := by
  induction h with
  | literalNull => exact reads_scalar (.inr (.inr (by decide))) _
  | literalTrue => exact reads_scalar (.inr (.inr (by decide))) _
  | literalFalse => exact reads_scalar (.inr (.inr (by decide))) _
  | number hnumber => exact reads_scalar (.inr (.inl ⟨_, _, _, _, hnumber, rfl⟩)) _
  | string hbody => exact reads_scalar (.inl ⟨_, rfl, _, hbody⟩) _
  | @emptyArray space hspace =>
    intro stack expect rest hexpect _
    rw [append_assoc, append_assoc]
    refine (classifyFrom_open hexpect false stack _).trans ?_
    exact (classifyFrom_space hspace (false :: stack) .arrValueOrEnd (93 :: rest)).trans
      (classifyFrom_on rfl)
  | @array text items _ ih =>
    intro stack expect rest hexpect _
    rw [append_assoc, append_assoc]
    exact (classifyFrom_open hexpect false stack _).trans (ih stack _ rest (.inr rfl))
  | @emptyObject space hspace =>
    intro stack expect rest hexpect _
    rw [append_assoc, append_assoc]
    refine (classifyFrom_open hexpect true stack _).trans ?_
    exact (classifyFrom_space hspace (true :: stack) .objKeyOrEnd (125 :: rest)).trans
      (classifyFrom_on rfl)
  | @object text members _ ih =>
    intro stack expect rest hexpect _
    rw [append_assoc, append_assoc]
    exact (classifyFrom_open hexpect true stack _).trans (ih stack _ rest (.inr rfl))
  | element hbefore hafter _ ih =>
    intro stack expect rest hexpect hstops
    rw [append_assoc, append_assoc, classifyFrom_space hbefore,
      ih stack expect _ hexpect (stops_space hafter hstops), classifyFrom_space hafter]
  | lastElement _ ih =>
    intro outer expect rest hexpect
    exact (ih (false :: outer) expect _ hexpect (stops_cons (.inr (.inl rfl)) rest)).trans
      (classifyFrom_on rfl)
  | @elements text items v vs _ _ ih ihrest =>
    intro outer expect rest hexpect
    rw [append_assoc, append_assoc]
    refine (ih (false :: outer) expect _ hexpect (stops_cons (.inl rfl) _)).trans ?_
    refine (classifyFrom_on ?_).trans (ihrest outer .value rest (.inl rfl))
    rfl
  | @member before body after text key v hbefore hkey hafter _ ih =>
    intro outer expect rest hexpect hstops
    simp only [append_assoc]
    rw [classifyFrom_space hbefore]
    have hmove : move (true :: outer) expect 34 (body ++ (after ++ (58 :: (text ++ rest)))) =
        .on (true :: outer) .objColon (after ++ (58 :: (text ++ rest))) := by
      rw [move_eq_moveKey hexpect, moveKey, if_pos rfl, scanString_of_stringBody hkey]
      rfl
    refine (classifyFrom_on hmove).trans ?_
    rw [classifyFrom_space hafter]
    refine (classifyFrom_on ?_).trans
      (ih (true :: outer) .value rest (.inl rfl) hstops)
    rfl
  | lastMember _ ih =>
    intro outer expect rest hexpect
    exact (ih outer expect _ hexpect (stops_cons (.inr (.inr rfl)) rest)).trans (classifyFrom_on rfl)
  | @members text items key v ms _ _ ih ihrest =>
    intro outer expect rest hexpect
    rw [append_assoc, append_assoc]
    refine (ih outer expect _ hexpect (stops_cons (.inl rfl) _)).trans ?_
    refine (classifyFrom_on ?_).trans
      (ihrest outer .objKey rest (.inl rfl))
    rfl

theorem complete_of_isJson (h : IsJson text v) : classifyJsonPrefix text = .complete := by
  have hreads := reads_of_denotes h [] .value [] (.inl rfl) stops_nil
  rw [append_nil] at hreads
  exact hreads.trans (classifyFrom_closers [])

theorem complete_iff (text : Units) : classifyJsonPrefix text = .complete ↔ ∃ v, IsJson text v :=
  ⟨isJson_of_complete, fun ⟨_, h⟩ => complete_of_isJson h⟩

/-- For every text: it is complete where it is a JSON text, a prefix where it is none but something
behind it makes it one, and invalid where nothing does; and then it stays so. -/
theorem classifyJsonPrefix_decides (text : Units) :
    (classifyJsonPrefix text = .complete ↔ ∃ v, IsJson text v) ∧
    (classifyJsonPrefix text = .prefixOnly ↔
      (¬ ∃ v, IsJson text v) ∧ ∃ suffix, suffix ≠ [] ∧ ∃ v, IsJson (text ++ suffix) v) ∧
    (classifyJsonPrefix text = .invalid ↔ ∀ suffix, ¬ ∃ v, IsJson (text ++ suffix) v) ∧
    (classifyJsonPrefix text = .invalid →
      ∀ suffix, classifyJsonPrefix (text ++ suffix) = .invalid) := by
  have hinvalid (h : classifyJsonPrefix text = .invalid) (suffix : Units) :
      ¬ ∃ v, IsJson (text ++ suffix) v := by
    rw [← complete_iff, classifyJsonPrefix, classifyFrom_invalid_append h suffix]
    exact fun h => by cases h
  have hcompletes (h : classifyJsonPrefix text = .prefixOnly) :
      (¬ ∃ v, IsJson text v) ∧ ∃ suffix, suffix ≠ [] ∧ ∃ v, IsJson (text ++ suffix) v := by
    have hwf : WellFormed [] .value := trivial
    obtain ⟨suffix, hne, hcomplete⟩ := exists_completion hwf h
    refine ⟨fun hjson => ?_, suffix, hne, isJson_of_complete hcomplete⟩
    cases h.symm.trans ((complete_iff text).mpr hjson)
  refine ⟨complete_iff text, ⟨hcompletes, fun ⟨hnot, suffix, _, hjson⟩ => ?_⟩,
    ⟨hinvalid, fun hnone => ?_⟩, fun h => classifyFrom_invalid_append h⟩
  · cases h : classifyJsonPrefix text with
    | complete => exact absurd ((complete_iff text).mp h) hnot
    | prefixOnly => rfl
    | invalid => exact absurd hjson (hinvalid h suffix)
  cases h : classifyJsonPrefix text with
  | complete =>
    refine absurd ((complete_iff text).mp h) ?_
    have hnil := hnone []
    rwa [append_nil] at hnil
  | prefixOnly =>
    obtain ⟨-, suffix, -, hjson⟩ := hcompletes h
    exact absurd hjson (hnone suffix)
  | invalid => rfl

end BreadboardTui.JsonRepair
