import Mathlib.Data.List.Nodup
import Mathlib.Tactic

/-!
# Blocks of lines behind headers

A text is a list of lines in which some lines are headers, and a block is a header with the lines
behind it. A line of a body that would be taken for a header is escaped when the block is written.

The lines are joined by a symbol that is in none of them. Joining the lines of all blocks is
joining the joined blocks: `intercalate_flatMap`. A part without that symbol lies in one of the
texts it joins: `infix_of_append_cons`.
-/

namespace BreadboardTui

open List

/-! ### Joining -/

theorem notMem_of_mem_splitOn {σ : Type} [DecidableEq σ] {sep : σ} {text part : List σ}
    (h : part ∈ text.splitOn sep) : sep ∉ part := by
  induction text generalizing part with
  | nil =>
    rw [splitOn_nil, mem_singleton] at h
    rw [h]
    exact not_mem_nil
  | cons unit text ih =>
    rw [splitOn_cons_eq_if_modifyHead] at h
    split at h
    · rcases mem_cons.mp h with rfl | h
      · exact not_mem_nil
      · exact ih h
    next hunit =>
    -- the symbol is put in front of the first part
    have hne : sep ≠ unit := fun heq => hunit (by rw [heq]; exact BEq.rfl)
    obtain ⟨first, rest, hsplit⟩ := exists_cons_of_ne_nil (splitOn_ne_nil sep text)
    rw [hsplit] at h ih
    rcases mem_cons.mp h with rfl | h
    · exact not_mem_cons_of_ne_of_not_mem hne (ih mem_cons_self)
    · exact ih (mem_cons_of_mem _ h)

section Join

variable {σ ι : Type} {sep : σ}

theorem intercalate_append {xs ys : List (List σ)} (hx : xs ≠ []) (hy : ys ≠ []) :
    [sep].intercalate (xs ++ ys) = [sep].intercalate xs ++ sep :: [sep].intercalate ys := by
  induction xs with
  | nil => exact absurd rfl hx
  | cons x xs ih =>
    rw [cons_append]
    by_cases hxs : xs = []
    · subst hxs
      rw [nil_append, intercalate_cons_of_ne_nil hy, intercalate_singleton,
        append_assoc, singleton_append]
    have happend : xs ++ ys ≠ [] := append_ne_nil_of_left_ne_nil hxs ys
    rw [intercalate_cons_of_ne_nil happend, intercalate_cons_of_ne_nil hxs, ih hxs]
    simp

/-- Parts that are joined and then joined again. -/
theorem intercalate_flatMap (items : List ι) (f : ι → List (List σ)) (hf : ∀ i ∈ items, f i ≠ []) :
    [sep].intercalate (items.map fun i => [sep].intercalate (f i)) =
      [sep].intercalate (items.flatMap f) := by
  induction items with
  | nil => rfl
  | cons i items ih =>
    have ih := ih fun j hj => hf j (mem_cons_of_mem _ hj)
    rw [map_cons, flatMap_cons]
    cases items with
    | nil => simp
    | cons j items =>
      have hi : f i ≠ [] := hf i mem_cons_self
      have hj : f j ≠ [] := hf j (mem_cons_of_mem _ mem_cons_self)
      have hrest : (j :: items).flatMap f ≠ [] := by
        rw [flatMap_cons]
        exact append_ne_nil_of_left_ne_nil hj _
      rw [intercalate_append hi hrest, ← ih, intercalate_cons_of_ne_nil (by simp),
        append_assoc, singleton_append]

theorem infix_intercalate (sep : σ) {x : List σ} {xs : List (List σ)} (h : x ∈ xs) :
    x <:+: [sep].intercalate xs := by
  obtain ⟨before, after, rfl⟩ := append_of_mem h
  have hafter : x <:+: [sep].intercalate (x :: after) := by
    by_cases hnil : after = []
    · rw [hnil, intercalate_singleton]
    rw [intercalate_cons_of_ne_nil hnil, append_assoc]
    exact (prefix_append _ _).isInfix
  by_cases hnil : before = []
  · rw [hnil, nil_append]
    exact hafter
  rw [intercalate_append hnil (cons_ne_nil _ _)]
  exact hafter.trans (suffix_append_of_suffix (suffix_cons _ _)).isInfix

end Join

/-! ### Parts of a joined text -/

section Parts

variable {σ : Type} {part front back : List σ} {x : σ}

/-- A part without the symbol that joins two texts begins and ends in the first one. -/
theorem prefix_of_append_cons (hx : x ∉ part) (h : part <+: front ++ x :: back) :
    part <+: front := by
  induction front generalizing part with
  | nil =>
    cases part with
    | nil => exact nil_prefix
    | cons =>
      have hfirst := (cons_prefix_cons.mp h).1
      exact absurd (mem_cons.mpr (.inl hfirst.symm)) hx
  | cons next front ih =>
    cases part with
    | nil => exact nil_prefix
    | cons =>
      rw [mem_cons, not_or] at hx
      obtain ⟨hfirst, hrest⟩ := cons_prefix_cons.mp h
      exact cons_prefix_cons.mpr ⟨hfirst, ih hx.2 hrest⟩

theorem infix_of_append_cons (hx : x ∉ part) (h : part <:+: front ++ x :: back) :
    part <:+: front ∨ part <:+: back := by
  induction front with
  | nil =>
    rw [nil_append, infix_cons_iff] at h
    rcases h with h | h
    · have hnil : part <+: [] := prefix_of_append_cons hx h
      exact .inl hnil.isInfix
    · exact .inr h
  | cons first front ih =>
    rw [cons_append, infix_cons_iff] at h
    rcases h with h | h
    · have hfront : part <+: first :: front := prefix_of_append_cons hx h
      exact .inl hfront.isInfix
    · exact (ih h).imp_left fun hin => hin.trans (infix_cons (infix_refl _))

end Parts

/-! ### Blocks -/

/-- Which lines are headers, and how the others are written. -/
structure BlockFormat (α η : Type) where
  header : α → Option η
  escape : α → α
  unescape : α → α
  header_escape : ∀ line, header (escape line) = none
  unescape_escape : ∀ line, unescape (escape line) = line

/-- A header with the lines behind it. -/
abbrev Block (α η : Type) : Type := η × List α

namespace BlockFormat

variable {α η : Type} (fmt : BlockFormat α η)

/-- Ends the current block, if there is one. -/
def flush (blocks : List (Block α η)) : Option (Block α η) → List (Block α η)
  | none => blocks
  | some current => blocks ++ [current]

/-- Reads lines, with the blocks so far and the current one. A line in front of the first header
is an error. -/
def scan (blocks : List (Block α η)) (current : Option (Block α η)) :
    List α → Option (List (Block α η))
  | [] => some (flush blocks current)
  | line :: lines =>
    match fmt.header line, current with
    | some header, current => scan (flush blocks current) (some (header, [])) lines
    | none, none => none
    | none, some (header, body) => scan blocks (some (header, body ++ [fmt.unescape line])) lines

/-- The lines of blocks, whose headers are written by `print`. -/
def lines (print : η → α) (blocks : List (Block α η)) : List α :=
  blocks.flatMap fun block => print block.1 :: block.2.map fmt.escape

variable {blocks : List (Block α η)}

variable {header : η}

theorem scan_header {current : Option (Block α η)} {line : α}
    (h : fmt.header line = some header) (rest : List α) :
    fmt.scan blocks current (line :: rest) =
      fmt.scan (flush blocks current) (some (header, [])) rest := by
  rw [scan.eq_def]
  simp [h]

theorem scan_body {body : List α} {line : α} (h : fmt.header line = none) (rest : List α) :
    fmt.scan blocks (some (header, body)) (line :: rest) =
      fmt.scan blocks (some (header, body ++ [fmt.unescape line])) rest := by
  rw [scan.eq_def]
  simp [h]

theorem scan_escaped (body added rest : List α) :
    fmt.scan blocks (some (header, body)) (added.map fmt.escape ++ rest) =
      fmt.scan blocks (some (header, body ++ added)) rest := by
  induction added generalizing body with
  | nil => rw [map_nil, nil_append, append_nil]
  | cons line added ih =>
    rw [map_cons, cons_append, fmt.scan_body (fmt.header_escape line),
      fmt.unescape_escape, ih, append_assoc, singleton_append]

/-- Blocks that were written are read again. -/
theorem scan_lines {print : η → α} (blocks before : List (Block α η)) (current : Option (Block α η))
    (hprint : ∀ block ∈ blocks, fmt.header (print block.1) = some block.1) :
    fmt.scan before current (fmt.lines print blocks) = some (flush before current ++ blocks) := by
  induction blocks generalizing before current with
  | nil => rw [lines, flatMap_nil, scan, append_nil]
  | cons block blocks ih =>
    have hblock := hprint block mem_cons_self
    rw [lines, flatMap_cons, cons_append, fmt.scan_header hblock, fmt.scan_escaped, nil_append]
    -- the block that was just read is the current one, which the next header ends
    have hrest := ih (flush before current) (some block) fun b hb =>
      hprint b (mem_cons_of_mem _ hb)
    rw [lines] at hrest
    rw [hrest, flush, append_assoc, singleton_append]

end BlockFormat

end BreadboardTui
