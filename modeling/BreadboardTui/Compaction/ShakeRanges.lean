import BreadboardTui.Hashline.Tokenizer
import Mathlib.Algebra.Order.BigOperators.Group.List
import Mathlib.Data.List.Sort
import Mathlib.Tactic

/-!
# Block ranges of a text

`scanTextForBlockRanges` finds the fenced code blocks and the top-level XML elements of a text. It
reads the text line by line with a flag for an open fence and a stack of open tags, and it drops the
ranges that lie inside another one at the end.

The grammar of what it looks for is `Inside`: the lines that can stand inside an element, or at the
top level. `scanTextForBlockRanges_spec` says that every range is a block of whole lines, a closed
fence or an element whose lines before it are top-level, and `pairwise_scanTextForBlockRanges` that
the ranges are disjoint and in order.
-/

namespace BreadboardTui.Shake

open List

open Hashline (Units isTrimmedCode)

/-! ### Lines -/

def newline : ℕ := 10

def textLines (text : Units) : List Units := text.splitOn newline

def trimStart (line : Units) : Units := line.dropWhile isTrimmedCode

/-- Backticks or tildes, three of them. -/
def isFenceLine (line : Units) : Bool :=
  List.isPrefixOf [96, 96, 96] (trimStart line) || List.isPrefixOf [126, 126, 126] (trimStart line)

/-- A lower case letter, an underscore or a hyphen. -/
def isTagCode (code : ℕ) : Bool := decide (97 ≤ code ∧ code ≤ 122) || code = 95 || code = 45

/-- `OPENING_XML`: the name of the tag, where attributes may follow it. -/
def OPENING_XML : Units → Option Units
  | 60 :: rest =>
    let name := rest.takeWhile isTagCode
    let attributes := rest.dropWhile isTagCode
    if name = [] then none
    else if attributes = [62] then some name
    else if (attributes.head?.any isTrimmedCode) && attributes.getLast? = some 62 &&
        !attributes.dropLast.contains 62 then some name
    else none
  | _ => none

def CLOSING_XML : Units → Option Units
  | 60 :: 47 :: rest =>
    let name := rest.takeWhile isTagCode
    if name ≠ [] ∧ rest.dropWhile isTagCode = [62] then some name else none
  | _ => none

/-- An opening tag counts only where nothing precedes it. -/
def openingTag (line : Units) : Option Units :=
  if line.length = (trimStart line).length then OPENING_XML (trimStart line) else none

def closingTag (line : Units) : Option Units := CLOSING_XML (trimStart line)

/-! ### The scan -/

structure Range where
  start : ℕ
  stop : ℕ

structure ScanState where
  ranges : List Range := []
  fenceStart : Option ℕ := none
  tagStack : List Units := []
  xmlStart : Option ℕ := none
  lineStart : ℕ := 0

/-- Closes the innermost tag, which ends a range where it is the outermost one too. -/
def popTag (s : ScanState) (start lineEnd : ℕ) (stack : List Units) : ScanState :=
  match stack, s.xmlStart with
  | [], some xmlStart =>
    { s with tagStack := [], ranges := s.ranges ++ [⟨xmlStart, lineEnd⟩], xmlStart := none,
             lineStart := start }
  | stack, _ => { s with tagStack := stack, lineStart := start }

/-- One line of the text. -/
def scanLine (s : ScanState) (line : Units) : ScanState :=
  let lineEnd := s.lineStart + line.length
  let next := { s with lineStart := lineEnd + 1 }
  if isFenceLine line then
    match s.fenceStart with
    | none => { next with fenceStart := some s.lineStart }
    | some start => { next with fenceStart := none, ranges := s.ranges ++ [⟨start, lineEnd⟩] }
  else if s.fenceStart.isSome then next
  else
    match openingTag line with
    | some name =>
      { next with xmlStart := if s.tagStack = [] then some s.lineStart else s.xmlStart,
                  tagStack := name :: s.tagStack }
    | none =>
      match s.tagStack with
      | [] => next
      | name :: stack =>
        if closingTag line = some name then popTag s (lineEnd + 1) lineEnd stack else next

/-- Keeps the ranges that start where the last one that was kept has ended. -/
def keepDisjoint (lastEnd : ℕ) : List Range → List Range
  | [] => []
  | range :: rest =>
    if range.start < lastEnd then keepDisjoint lastEnd rest
    else range :: keepDisjoint range.stop rest

def mergeRanges (ranges : List Range) : List Range :=
  if ranges.length ≤ 1 then ranges
  else keepDisjoint 0 (ranges.insertionSort fun a b => a.start ≤ b.start)

def scanTextForBlockRanges (text : Units) : List Range :=
  mergeRanges ((textLines text).foldl scanLine {}).ranges

/-! ### Blocks -/

/-- What the lines take with their newlines. -/
def size (lines : List Units) : ℕ := (lines.map fun line => line.length + 1).sum

def joinLines (lines : List Units) : Units := [newline].intercalate lines

/-- A fence line, lines without a fence, and the fence line that closes the block. -/
def ClosedFence (block : List Units) : Prop :=
  ∃ first body last, block = first :: body ++ [last] ∧ isFenceLine first = true ∧
    (∀ line ∈ body, isFenceLine line = false) ∧ isFenceLine last = true

/-- Lines that can stand inside the element `name`, or at the top level where there is no name. -/
inductive Inside : Option Units → List Units → Prop
  | nil {name} : Inside name []
  | line {name line lines} (hfence : isFenceLine line = false) (hopen : openingTag line = none)
      (hclose : ∀ n ∈ name, closingTag line ≠ some n) (h : Inside name lines) :
      Inside name (line :: lines)
  | fence {name block lines} (hblock : ClosedFence block) (h : Inside name lines) :
      Inside name (block ++ lines)
  | element {name tag first body last lines} (hfirst : isFenceLine first = false)
      (hopen : openingTag first = some tag) (hbody : Inside (some tag) body)
      (hlast : isFenceLine last = false) (hclose : closingTag last = some tag)
      (h : Inside name lines) : Inside name (first :: body ++ last :: lines)

/-- An opening tag, what stands inside, and the tag that closes it. -/
def BalancedElement (block : List Units) : Prop :=
  ∃ tag first body last, block = first :: body ++ [last] ∧ openingTag first = some tag ∧
    Inside (some tag) body ∧ closingTag last = some tag

/-- A fence, where every fence before it is closed, or an element with top-level lines before it. -/
def IsBlock (before block : List Units) : Prop :=
  (Even (before.countP isFenceLine) ∧ ClosedFence block) ∨
    (Inside none before ∧ BalancedElement block)

/-- `range` covers whole lines, which are a block. -/
def CoversBlock (lines : List Units) (range : Range) : Prop :=
  ∃ before block after, lines = before ++ block ++ after ∧ IsBlock before block ∧
    range.start = size before ∧ range.stop + 1 = size before + size block

/-- The lines up to tags that are open, innermost first; the outermost one stands at `xmlStart`. -/
inductive OpenTags : Option ℕ → List Units → List Units → Prop
  | top {xmlStart lines} (h : Inside none lines) : OpenTags xmlStart [] lines
  | push {xmlStart stack lines tag first body} (h : OpenTags xmlStart stack lines)
      (hfirst : isFenceLine first = false) (hopen : openingTag first = some tag)
      (hstart : stack = [] → xmlStart = some (size lines)) (hbody : Inside (some tag) body) :
      OpenTags xmlStart (tag :: stack) (lines ++ first :: body)

/-! ### Grammar lemmas -/

@[simp] theorem size_nil : size [] = 0 := rfl

@[simp] theorem size_cons (line : Units) (lines : List Units) :
    size (line :: lines) = line.length + 1 + size lines := by
  simp [size]

@[simp] theorem size_append (lines lines' : List Units) :
    size (lines ++ lines') = size lines + size lines' := by
  simp [size]

theorem Inside.append {name : Option Units} {lines lines' : List Units} (h : Inside name lines)
    (h' : Inside name lines') : Inside name (lines ++ lines') := by
  induction h with
  | nil => exact h'
  | line hfence hopen hclose _ ih => exact .line hfence hopen hclose (ih h')
  | fence hblock _ ih =>
    rw [append_assoc]
    exact .fence hblock (ih h')
  | element hfirst hopen hbody hlast hclose _ _ ih =>
    rw [append_assoc, cons_append]
    exact .element hfirst hopen hbody hlast hclose (ih h')

variable {name : Option Units}

theorem Inside.one {line : Units} (hfence : isFenceLine line = false)
    (hopen : openingTag line = none) (hclose : ∀ n ∈ name, closingTag line ≠ some n) :
    Inside name [line] :=
  .line hfence hopen hclose .nil

variable {block : List Units}

theorem ClosedFence.inside (h : ClosedFence block) : Inside name block := by
  have hinside : Inside name (block ++ []) := .fence h .nil
  rwa [append_nil] at hinside

theorem countP_of_forall {lines : List Units} (h : ∀ line ∈ lines, isFenceLine line = false) :
    lines.countP isFenceLine = 0 :=
  countP_eq_zero.mpr fun line hline => by simp [h line hline]

theorem ClosedFence.even (h : ClosedFence block) : Even (block.countP isFenceLine) := by
  obtain ⟨first, body, last, rfl, hfirst, hbody, hlast⟩ := h
  simp [hfirst, hlast, countP_of_forall hbody]

theorem Inside.even {lines : List Units} (h : Inside name lines) :
    Even (lines.countP isFenceLine) := by
  induction h with
  | nil => simp
  | line hfence _ _ _ ih => simpa [hfence] using ih
  | fence hblock _ ih =>
    rw [countP_append]
    exact hblock.even.add ih
  | element hfirst _ _ hlast _ _ ihbody ih =>
    simp only [cons_append, countP_cons, countP_append, hfirst, hlast]
    simpa using ihbody.add ih

variable {xmlStart : Option ℕ}

theorem OpenTags.even {stack lines : List Units}
    (h : OpenTags xmlStart stack lines) : Even (lines.countP isFenceLine) := by
  induction h with
  | top h => exact h.even
  | push _ hfirst _ _ hbody ih =>
    simp only [countP_append, countP_cons, hfirst]
    simpa using ih.add hbody.even

/-- Lines that can stand inside the innermost tag do not change what is open. -/
theorem OpenTags.append {xmlStart : Option ℕ} {stack lines lines' : List Units}
    (h : OpenTags xmlStart stack lines) (h' : Inside stack.head? lines') :
    OpenTags xmlStart stack (lines ++ lines') := by
  cases h with
  | top h => exact .top (h.append h')
  | push h hfirst hopen hstart hbody =>
    rw [append_assoc, cons_append]
    exact .push h hfirst hopen hstart (hbody.append h')

/-- With no tag open the offset does not matter. -/
theorem OpenTags.restart {lines : List Units}
    (h : OpenTags xmlStart [] lines) (xmlStart' : Option ℕ) : OpenTags xmlStart' [] lines := by
  cases h with
  | top h => exact .top h

/-- A tag that closes an inner element leaves the lines of that element as content. -/
theorem OpenTags.pop {tag outer last : Units} {stack lines : List Units}
    (h : OpenTags xmlStart (tag :: outer :: stack) lines) (hlast : isFenceLine last = false)
    (hclose : closingTag last = some tag) :
    OpenTags xmlStart (outer :: stack) (lines ++ [last]) := by
  cases h with
  | push h hfirst hopen _ hbody =>
    rw [append_assoc]
    exact h.append (.element hfirst hopen hbody hlast hclose .nil)

theorem OpenTags.close {tag last : Units} {lines : List Units}
    (h : OpenTags xmlStart [tag] lines) (hlast : isFenceLine last = false)
    (hclose : closingTag last = some tag) :
    ∃ before block, lines ++ [last] = before ++ block ∧ xmlStart = some (size before) ∧
      Inside none before ∧ BalancedElement block ∧ Inside none (before ++ block) := by
  cases h with
  | push h hfirst hopen hstart hbody =>
    rename_i before first body
    cases h with
    | top h =>
      refine ⟨before, first :: body ++ [last], by simp, hstart rfl, h,
        ⟨tag, first, body, last, rfl, hopen, hbody, hclose⟩, h.append ?_⟩
      exact .element hfirst hopen hbody hlast hclose .nil

/-! ### The invariant of the scan -/

/-- The lines after `body` are those of a fence that is still open, or there are none. -/
inductive FenceTail : Option ℕ → List Units → List Units → Prop
  | closed {body} : FenceTail none body []
  | opened {body first rest} (hfirst : isFenceLine first = true)
      (hrest : ∀ line ∈ rest, isFenceLine line = false) :
      FenceTail (some (size body)) body (first :: rest)

/-- What the state says about the lines that were read. -/
structure Scanned (lines : List Units) (s : ScanState) : Prop where
  lineStart : s.lineStart = size lines
  ranges : ∀ range ∈ s.ranges, CoversBlock lines range
  tags : ∃ body tail, lines = body ++ tail ∧ OpenTags s.xmlStart s.tagStack body ∧
    FenceTail s.fenceStart body tail

theorem scanned_nil : Scanned [] {} :=
  ⟨rfl, by simp, [], [], rfl, .top .nil, .closed⟩

theorem CoversBlock.append {lines : List Units} {range : Range} (h : CoversBlock lines range)
    (lines' : List Units) : CoversBlock (lines ++ lines') range := by
  obtain ⟨before, block, after, rfl, hblock, hstart, hstop⟩ := h
  exact ⟨before, block, after ++ lines', by simp, hblock, hstart, hstop⟩

variable {ranges : List Range} {range : Range}

theorem forall_mem_push {lines : List Units}
    (h : ∀ r ∈ ranges, CoversBlock lines r) (hrange : CoversBlock lines range) :
    ∀ r ∈ ranges ++ [range], CoversBlock lines r := by
  intro r hr
  obtain hr | hr := mem_append.mp hr
  · exact h r hr
  rw [mem_singleton.mp hr]
  exact hrange

section Step

variable {lines : List Units} {s : ScanState} {line : Units}

theorem Scanned.lineEnd (h : Scanned lines s) (line : Units) :
    s.lineStart + line.length + 1 = size (lines ++ [line]) := by
  rw [h.lineStart, size_append, size_cons, size_nil]
  omega

theorem Scanned.ranges_append (h : Scanned lines s) (line : Units) :
    ∀ range ∈ s.ranges, CoversBlock (lines ++ [line]) range :=
  fun range hrange => (h.ranges range hrange).append [line]

/-- A fence line opens a fence, or it closes the one that is open. -/
theorem Scanned.fenceLine (h : Scanned lines s) (hline : isFenceLine line = true) :
    Scanned (lines ++ [line]) (scanLine s line) := by
  have hend := h.lineEnd line
  have hranges := h.ranges_append line
  obtain ⟨hstart, -, body, tail, rfl, htags, htail⟩ := h
  unfold scanLine
  rw [if_pos hline]
  generalize s.fenceStart = fence at htail
  cases htail with
  | closed =>
    rw [append_nil] at hstart
    refine ⟨hend, hranges, body, [line], by simp, htags, ?_⟩
    rw [hstart]
    exact .opened hline (by simp)
  | opened hfirst hrest =>
    rename_i first rest
    have hblock : ClosedFence (first :: rest ++ [line]) :=
      ⟨first, rest, line, rfl, hfirst, hrest, hline⟩
    refine ⟨hend, forall_mem_push hranges ⟨body, first :: rest ++ [line], [], by simp,
      .inl ⟨htags.even, hblock⟩, rfl, ?_⟩, body ++ (first :: rest ++ [line]), [], by simp,
      htags.append hblock.inside, .closed⟩
    rw [hend]
    simp

theorem Scanned.insideFence (h : Scanned lines s) (hline : isFenceLine line = false)
    (hfence : s.fenceStart.isSome = true) : Scanned (lines ++ [line]) (scanLine s line) := by
  have hend := h.lineEnd line
  have hranges := h.ranges_append line
  obtain ⟨hstart, -, body, tail, rfl, htags, htail⟩ := h
  unfold scanLine
  rw [if_neg (by simp [hline]), if_pos hfence]
  refine ⟨hend, hranges, body, tail ++ [line], by simp, htags, ?_⟩
  generalize s.fenceStart = fence at htail hfence
  cases htail with
  | closed => cases hfence
  | opened hfirst hrest =>
    refine .opened hfirst fun l hl => ?_
    obtain hl | hl := mem_append.mp hl
    · exact hrest l hl
    rw [mem_singleton.mp hl]
    exact hline

theorem Scanned.popTag (h : Scanned lines s) (hline : isFenceLine line = false)
    (hfence : s.fenceStart = none) {name : Units} {stack : List Units}
    (hstack : s.tagStack = name :: stack) (hclose : closingTag line = some name) :
    Scanned (lines ++ [line])
      (popTag s (s.lineStart + line.length + 1) (s.lineStart + line.length) stack) := by
  have hend := h.lineEnd line
  have hranges := h.ranges_append line
  obtain ⟨hstart, -, body, tail, rfl, htags, htail⟩ := h
  rw [hfence] at htail
  cases htail
  rw [hstack] at htags
  rw [append_nil] at hend hranges ⊢
  cases stack with
  | nil =>
    obtain ⟨before, block, heq, hxml, hbefore, hblock, hinside⟩ := htags.close hline hclose
    unfold Shake.popTag
    rw [hxml]
    refine ⟨hend, forall_mem_push hranges ⟨before, block, [], by simp [heq], .inr ⟨hbefore, hblock⟩,
      rfl, ?_⟩, body ++ [line], [], by simp, ?_, ?_⟩
    · show s.lineStart + line.length + 1 = _
      rw [hend, heq, size_append]
    · rw [heq]
      exact .top hinside
    rw [hfence]
    exact .closed
  | cons =>
    unfold Shake.popTag
    refine ⟨hend, hranges, body ++ [line], [], by simp, htags.pop hline hclose, ?_⟩
    show FenceTail s.fenceStart _ _
    rw [hfence]
    exact .closed

theorem Scanned.outsideFence (h : Scanned lines s) (hline : isFenceLine line = false)
    (hfence : s.fenceStart = none) : Scanned (lines ++ [line]) (scanLine s line) := by
  have hend := h.lineEnd line
  have hranges := h.ranges_append line
  have hpop (name : Units) (stack : List Units) := @Scanned.popTag _ _ _ h hline hfence name stack
  obtain ⟨hstart, -, body, tail, rfl, htags, htail⟩ := h
  rw [hfence] at htail
  cases htail
  rw [append_nil] at hstart hend hranges hpop ⊢
  have hclosed : ∀ lines, FenceTail s.fenceStart lines [] := fun _ => hfence ▸ .closed
  unfold scanLine
  rw [if_neg (by simp [hline]), if_neg (by simp [hfence])]
  cases hopen : openingTag line with
  | some =>
    refine ⟨hend, hranges, body ++ [line], [], by simp, ?_, hclosed _⟩
    by_cases hstack : s.tagStack = []
    · rw [hstack] at htags
      simp only [hstack, if_true]
      exact .push (htags.restart _) hline hopen (fun _ => by rw [hstart]) .nil
    simp only [if_neg hstack]
    exact .push htags hline hopen (fun h => absurd h hstack) .nil
  | none =>
    have htext (hclose : ∀ n ∈ s.tagStack.head?, closingTag line ≠ some n) :
        OpenTags s.xmlStart s.tagStack (body ++ [line]) :=
      htags.append (.one hline hopen hclose)
    cases hstack : s.tagStack with
    | nil =>
      rw [hstack] at htext
      exact ⟨hend, hranges, body ++ [line], [], by simp, htext nofun, hclosed _⟩
    | cons name stack =>
      rw [hstack] at htext
      by_cases hclose : closingTag line = some name
      · simp only [if_pos hclose]
        exact hpop name stack hstack hclose
      simp only [if_neg hclose]
      exact ⟨hend, hranges, body ++ [line], [], by simp, htext (by simpa using hclose), hclosed _⟩

theorem Scanned.step (h : Scanned lines s) (line : Units) :
    Scanned (lines ++ [line]) (scanLine s line) := by
  by_cases hline : isFenceLine line = true
  · exact h.fenceLine hline
  rw [Bool.not_eq_true] at hline
  cases hfence : s.fenceStart with
  | none => exact h.outsideFence hline hfence
  | some => exact h.insideFence hline (by rw [hfence]; rfl)

end Step

theorem Scanned.foldl {lines : List Units} {s : ScanState} (h : Scanned lines s)
    (rest : List Units) : Scanned (lines ++ rest) (rest.foldl scanLine s) := by
  induction rest generalizing lines s with
  | nil => simpa using h
  | cons line rest ih => simpa using ih (h.step line)

variable (text : Units)

theorem scanned_textLines : Scanned (textLines text) ((textLines text).foldl scanLine {}) :=
  scanned_nil.foldl (textLines text)

/-! ### The ranges that are kept -/

theorem mem_of_mem_keepDisjoint {lastEnd : ℕ}
    (h : range ∈ keepDisjoint lastEnd ranges) : range ∈ ranges := by
  induction ranges generalizing lastEnd with
  | nil => exact h
  | cons r rest ih =>
    unfold keepDisjoint at h
    split at h
    · exact mem_cons_of_mem _ (ih h)
    obtain rfl | h := mem_cons.mp h
    · exact mem_cons_self
    · exact mem_cons_of_mem _ (ih h)

theorem pairwise_keepDisjoint (h : ∀ range ∈ ranges, range.start ≤ range.stop) (lastEnd : ℕ) :
    (∀ range ∈ keepDisjoint lastEnd ranges, lastEnd ≤ range.start) ∧
      (keepDisjoint lastEnd ranges).Pairwise fun a b => a.stop ≤ b.start := by
  induction ranges generalizing lastEnd with
  | nil => exact ⟨by simp [keepDisjoint], .nil⟩
  | cons r rest ih =>
    have hrest := ih fun range hrange => h range (mem_cons_of_mem _ hrange)
    unfold keepDisjoint
    split
    · exact hrest lastEnd
    next hkeep =>
      refine ⟨fun range hrange => ?_, pairwise_cons.mpr ⟨(hrest r.stop).1, (hrest r.stop).2⟩⟩
      obtain rfl | hrange := mem_cons.mp hrange
      · omega
      have hstop := h r mem_cons_self
      have hstart := (hrest r.stop).1 range hrange
      omega

theorem mem_of_mem_mergeRanges (h : range ∈ mergeRanges ranges) : range ∈ ranges := by
  unfold mergeRanges at h
  split at h
  · exact h
  · exact (mem_insertionSort _).mp (mem_of_mem_keepDisjoint h)

theorem pairwise_mergeRanges (h : ∀ range ∈ ranges, range.start ≤ range.stop) :
    (mergeRanges ranges).Pairwise fun a b => a.stop ≤ b.start := by
  unfold mergeRanges
  split
  next hlen =>
    match ranges, hlen with
    | [], _ => exact .nil
    | [_], _ => exact pairwise_singleton _ _
  · refine (pairwise_keepDisjoint (fun range hrange => ?_) 0).2
    exact h range ((mem_insertionSort _).mp hrange)

/-! ### Ranges and texts -/

/-- The part of a text between two offsets. -/
def slice (text : Units) (start stop : ℕ) : Units := (text.take stop).drop start

theorem joinLines_cons {lines : List Units} (h : lines ≠ []) (line : Units) :
    joinLines (line :: lines) = line ++ newline :: joinLines lines := by
  obtain ⟨next, rest, rfl⟩ := exists_cons_of_ne_nil h
  simp [joinLines]

theorem length_joinLines {lines : List Units} (h : lines ≠ []) :
    (joinLines lines).length + 1 = size lines := by
  induction lines with
  | nil => exact absurd rfl h
  | cons line rest ih =>
    by_cases hrest : rest = []
    · subst hrest
      simp [joinLines]
    rw [joinLines_cons hrest, length_append, length_cons, size_cons, ← ih hrest]
    omega

/-- The lines of a block stand in the text at the offset of the lines before it. -/
theorem exists_joinLines_append (before : List Units) (h : block ≠ []) (after : List Units) :
    ∃ front back, joinLines (before ++ block ++ after) = front ++ joinLines block ++ back ∧
      front.length = size before := by
  induction before with
  | nil =>
    refine ⟨[], ?_⟩
    induction block with
    | nil => exact absurd rfl h
    | cons line rest ih =>
      by_cases hrest : rest = []
      · subst hrest
        cases after with
        | nil => exact ⟨[], by simp, rfl⟩
        | cons next after =>
          refine ⟨newline :: joinLines (next :: after), ?_, rfl⟩
          simp [joinLines]
      obtain ⟨back, heq, -⟩ := ih hrest
      refine ⟨back, ?_, rfl⟩
      rw [nil_append, nil_append] at heq ⊢
      rw [cons_append, joinLines_cons (by simp [hrest]), joinLines_cons hrest, heq]
      simp
  | cons line rest ih =>
    obtain ⟨front, back, heq, hlen⟩ := ih
    refine ⟨line ++ newline :: front, back, ?_, by simp [hlen]; omega⟩
    rw [cons_append, cons_append, joinLines_cons (by simp [h]), heq]
    simp

theorem joinLines_textLines : joinLines (textLines text) = text :=
  intercalate_splitOn newline

theorem IsBlock.ne_nil {before block : List Units} (h : IsBlock before block) : block ≠ [] := by
  obtain ⟨-, first, body, last, rfl, -⟩ | ⟨-, tag, first, body, last, rfl, -⟩ := h
  · simp
  · simp

/-- `range` of `text` is a block of whole lines. -/
def BlockOfText (text : Units) (range : Range) : Prop :=
  range.start ≤ range.stop ∧ range.stop ≤ text.length ∧
    ∃ before block after, textLines text = before ++ block ++ after ∧ IsBlock before block ∧
      range.start = size before ∧ slice text range.start range.stop = joinLines block

theorem CoversBlock.blockOfText {text : Units}
    (h : CoversBlock (textLines text) range) : BlockOfText text range := by
  obtain ⟨before, block, after, hlines, hblock, hstart, hstop⟩ := h
  obtain ⟨front, back, htext, hfront⟩ := exists_joinLines_append before hblock.ne_nil after
  rw [← hlines, joinLines_textLines] at htext
  have hlen := length_joinLines hblock.ne_nil
  have hrange : range.stop = (front ++ joinLines block).length := by
    rw [length_append]
    omega
  refine ⟨by omega, ?_, before, block, after, hlines, hblock, hstart, ?_⟩
  · rw [hrange, htext]
    simp
  unfold slice
  rw [hstart, ← hfront, hrange, htext, take_left, drop_left]

/-- Every range is a block of whole lines, a closed fence or a top-level element. -/
theorem scanTextForBlockRanges_spec {text : Units}
    (h : range ∈ scanTextForBlockRanges text) : BlockOfText text range :=
  ((scanned_textLines text).ranges range (mem_of_mem_mergeRanges h)).blockOfText

theorem pairwise_scanTextForBlockRanges :
    (scanTextForBlockRanges text).Pairwise fun a b => a.stop ≤ b.start :=
  pairwise_mergeRanges fun range hrange =>
    ((scanned_textLines text).ranges range hrange).blockOfText.1

end BreadboardTui.Shake
