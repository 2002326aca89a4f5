import BreadboardTui.Edit.NumberedDiff
import BreadboardTui.Edit.NotebookRoundTrip

/-!
# Rows along a line edit

A line edit goes through two texts at once: it keeps a line, removes one, or adds one. Its rows have
all the changes, in their order, and some of the kept lines; a kept line is left out only where it
stands beside no change. What is put into the rows keeps that up.
-/

namespace BreadboardTui.NumberedDiff

open List Option

open Hashline (Units units isDigitCode)
open Notebook (numberText parseDigits parseDigits_numberText isDigitCode_of_mem_numberText
  numberText_ne_nil)

/-- What becomes of a line. -/
inductive LineOp where
  | keep (content : Units)
  | remove (content : Units)
  | add (content : Units)
  deriving DecidableEq, Repr

namespace LineOp

def content : LineOp → Units
  | keep content | remove content | add content => content

def inOld : LineOp → Option Units
  | keep content | remove content => some content
  | add _ => none

def inNew : LineOp → Option Units
  | keep content | add content => some content
  | remove _ => none

end LineOp

/-- All rows of a line edit, the next lines being `o` of the old text and `n` of the new one. -/
def numbered : ℕ → ℕ → List LineOp → List DiffRow
  | _, _, [] => []
  | o, n, .keep c :: ops => ⟨.context, o, c⟩ :: numbered (o + 1) (n + 1) ops
  | o, n, .remove c :: ops => ⟨.removed, o, c⟩ :: numbered (o + 1) n ops
  | o, n, .add c :: ops => ⟨.added, n, c⟩ :: numbered o (n + 1) ops

/-- The next line is kept. -/
def Settled : List LineOp → Prop
  | [] | .keep _ :: _ => True
  | .remove _ :: _ | .add _ :: _ => False

/-- The rows along a line edit; `none` is a row without text. The first argument says that the line
before was changed. -/
inductive Shown : Bool → ℕ → ℕ → List LineOp → List (Option DiffRow) → Prop
  | nil {changed o n} : Shown changed o n [] []
  | gap {changed o n ops rows} (h : Shown changed o n ops rows) :
      Shown changed o n ops (none :: rows)
  | keep {changed o n c ops rows} (h : Shown false (o + 1) (n + 1) ops rows) :
      Shown changed o n (.keep c :: ops) (some ⟨.context, o, c⟩ :: rows)
  | hide {o n c ops rows} (hnext : Settled ops) (h : Shown false (o + 1) (n + 1) ops rows) :
      Shown false o n (.keep c :: ops) rows
  | remove {changed o n c ops rows} (h : Shown true (o + 1) n ops rows) :
      Shown changed o n (.remove c :: ops) (some ⟨.removed, o, c⟩ :: rows)
  | add {changed o n c ops rows} (h : Shown true o (n + 1) ops rows) :
      Shown changed o n (.add c :: ops) (some ⟨.added, n, c⟩ :: rows)

/-! ### Rows as texts -/

def rowText : Option DiffRow → Units
  | none => []
  | some row => formatNumberedDiffLine row.kind row.lineNumber row.content

/-- The line of the old text that a row shows. -/
def sourceLine : Option DiffRow → Option ℕ
  | none => none
  | some row => if row.kind = .added then none else some row.lineNumber

theorem integerText_natCast (n : ℕ) : integerText n = numberText n := by
  rw [integerText, if_neg (by omega), Int.natAbs_natCast]

theorem kindOfCode_code (kind : RowKind) : kindOfCode kind.code = some kind := by
  cases kind <;> rfl

theorem takeWhile_number (n : ℕ) {code : ℕ} (hcode : isDigitCode code = false) (rest : Units) :
    (numberText n ++ code :: rest).takeWhile isDigitCode = numberText n ∧
      (numberText n ++ code :: rest).dropWhile isDigitCode = code :: rest := by
  have hdigits : ∀ digit ∈ numberText n, isDigitCode digit = true :=
    fun digit => isDigitCode_of_mem_numberText
  constructor
  · rw [takeWhile_append_of_pos hdigits, takeWhile_cons, hcode]
    exact append_nil _
  rw [dropWhile_append_of_pos hdigits, dropWhile_cons, hcode]
  rfl

@[simp] theorem parse_rowText (row : Option DiffRow) : parseNumberedDiffRow (rowText row) = row := by
  cases row with
  | none => rfl
  | some row =>
    obtain ⟨htake, hdrop⟩ := takeWhile_number row.lineNumber (by decide : isDigitCode 124 = false)
      row.content
    rw [rowText, formatNumberedDiffLine, integerText_natCast, parseNumberedDiffRow, hdrop,
      kindOfCode_code, htake]
    simp [numberText_ne_nil, parseDigits_numberText]

theorem rowText_ne_nil (row : DiffRow) : rowText (some row) ≠ [] := cons_ne_nil _ _

theorem isDiffChangeRow_rowText {row : Option DiffRow}
    (h : ∀ r, row = some r → r.kind = .context) : isDiffChangeRow (rowText row) = false := by
  cases row with
  | none => rfl
  | some row =>
    rw [rowText, formatNumberedDiffLine, h row rfl]
    rfl

/-! ### Lines and their numbers -/

section

variable {changed : Bool} {o n : ℕ} {ops : List LineOp} {rows : List (Option DiffRow)}

variable {row : DiffRow}

theorem le_of_mem_numbered (h : row ∈ numbered o n ops)
    (hkind : row.kind = .context) : o ≤ row.lineNumber := by
  induction ops generalizing o n with
  | nil => cases h
  | cons op ops ih =>
    cases op with
    | keep =>
      rcases mem_cons.mp h with rfl | h
      · exact le_rfl
      · exact Nat.le_of_succ_le (ih h)
    | remove =>
      rcases mem_cons.mp h with rfl | h
      · cases hkind
      · exact Nat.le_of_succ_le (ih h)
    | add =>
      rcases mem_cons.mp h with rfl | h
      · cases hkind
      · exact ih h

theorem Shown.le_of_source (h : Shown changed o n ops rows) {row : Option DiffRow} {line : ℕ}
    (hrow : row ∈ rows) (hline : sourceLine row = some line) : o ≤ line := by
  induction h with
  | nil => cases hrow
  | gap h ih =>
    rcases mem_cons.mp hrow with rfl | hrow
    · cases hline
    · exact ih hrow
  | keep h ih =>
    rcases mem_cons.mp hrow with rfl | hrow
    · exact (some.inj hline).le
    · exact Nat.le_of_succ_le (ih hrow)
  | hide hnext h ih => exact Nat.le_of_succ_le (ih hrow)
  | remove h ih =>
    rcases mem_cons.mp hrow with rfl | hrow
    · exact (some.inj hline).le
    · exact Nat.le_of_succ_le (ih hrow)
  | add h ih =>
    rcases mem_cons.mp hrow with rfl | hrow
    · cases hline
    · exact ih hrow

theorem Shown.content_mem (h : Shown changed o n ops rows)
    (hrow : some row ∈ rows) : ∃ op ∈ ops, op.content = row.content := by
  induction h with
  | nil => cases hrow
  | gap h ih =>
    rcases mem_cons.mp hrow with hrow | hrow
    · cases hrow
    · exact ih hrow
  | keep h ih | remove h ih | add h ih =>
    rcases mem_cons.mp hrow with hrow | hrow
    · cases hrow
      exact ⟨_, mem_cons_self, rfl⟩
    obtain ⟨op, hop, hcontent⟩ := ih hrow
    exact ⟨op, mem_cons_of_mem _ hop, hcontent⟩
  | hide hnext h ih =>
    obtain ⟨op, hop, hcontent⟩ := ih hrow
    exact ⟨op, mem_cons_of_mem _ hop, hcontent⟩

/-! ### Rows without text -/

theorem Shown.tail_of_gap (h : Shown changed o n ops (none :: rows)) :
    Shown changed o n ops rows := by
  generalize hrows : none :: rows = all at h
  induction h with
  | nil | keep h ih | remove h ih | add h ih => cases hrows
  | gap h =>
    obtain ⟨-, rfl⟩ := List.cons.inj hrows
    exact h
  | hide hnext h ih => exact .hide hnext (ih hrows)

theorem Shown.gaps (h : Shown changed o n ops rows) (count : ℕ) :
    Shown changed o n ops (List.replicate count none ++ rows) := by
  induction count with
  | zero => exact h
  | succ count ih => exact .gap ih

theorem Shown.of_gaps {front : List (Option DiffRow)} (hgaps : ∀ row ∈ front, row = none)
    (h : Shown changed o n ops (front ++ rows)) : Shown changed o n ops rows := by
  induction front with
  | nil => exact h
  | cons row front ih =>
    obtain rfl := hgaps row mem_cons_self
    exact ih (fun other hother => hgaps other (mem_cons_of_mem _ hother)) h.tail_of_gap

/-- The rest of the rows may be replaced by any that fit wherever they did. -/
theorem Shown.replace_tail {rest : List (Option DiffRow)}
    (h : Shown changed o n ops (some row :: rows))
    (hrest : ∀ changed o n ops, Shown changed o n ops rows → Shown changed o n ops rest) :
    Shown changed o n ops (some row :: rest) := by
  generalize hrows : some row :: rows = all at h
  induction h with
  | nil | gap h ih => cases hrows
  | keep h =>
    obtain ⟨hrow, rfl⟩ := List.cons.inj hrows
    cases hrow
    exact .keep (hrest _ _ _ _ h)
  | hide hnext h ih => exact .hide hnext (ih hrows)
  | remove h =>
    obtain ⟨hrow, rfl⟩ := List.cons.inj hrows
    cases hrow
    exact .remove (hrest _ _ _ _ h)
  | add h =>
    obtain ⟨hrow, rfl⟩ := List.cons.inj hrows
    cases hrow
    exact .add (hrest _ _ _ _ h)

/-- The sweep takes out rows without text, and nothing else. -/
theorem normalize_eq (rows : List (Option DiffRow)) (kept : List Units) :
    ∃ rest : List (Option DiffRow),
      normalizeDiffGapRows kept (rows.map rowText) = kept ++ rest.map rowText ∧
        ∀ changed o n ops, Shown changed o n ops rows → Shown changed o n ops rest := by
  induction rows generalizing kept with
  | nil => exact ⟨[], (append_nil kept).symm, fun _ _ _ _ h => h⟩
  | cons row rows ih =>
    rw [map_cons, normalizeDiffGapRows]
    cases row with
    | some row =>
      rw [if_pos (rowText_ne_nil row)]
      obtain ⟨rest, heq, hrest⟩ := ih (kept ++ [rowText (some row)])
      refine ⟨some row :: rest, ?_, fun _ _ _ _ h => h.replace_tail hrest⟩
      rw [heq, map_cons, append_assoc, singleton_append]
    | none =>
      have hdrop : ∃ rest : List (Option DiffRow),
          normalizeDiffGapRows kept (rows.map rowText) = kept ++ rest.map rowText ∧
            ∀ changed o n ops, Shown changed o n ops (none :: rows) →
              Shown changed o n ops rest := by
        obtain ⟨rest, heq, hrest⟩ := ih kept
        exact ⟨rest, heq, fun _ _ _ _ h => hrest _ _ _ _ h.tail_of_gap⟩
      rw [if_neg (fun hne => hne rfl)]
      split
      · exact hdrop
      split
      · split
        · exact hdrop
        · obtain ⟨rest, heq, hrest⟩ := ih (kept ++ [rowText none])
          refine ⟨none :: rest, ?_, fun _ _ _ _ h => .gap (hrest _ _ _ _ h.tail_of_gap)⟩
          rw [heq, map_cons, append_assoc, singleton_append]
      · exact hdrop

/-! ### A kept line that was left out -/

variable {front back : List (Option DiffRow)}

/-- Behind a line that was left out, no change comes before the next line of the old text. -/
theorem Shown.gaps_of_settled (h : Shown changed o n ops (front ++ back)) (hsettled : Settled ops)
    (hfront : ∀ row ∈ front, sourceLine row = none) : ∀ row ∈ front, row = none := by
  generalize hrows : front ++ back = rows at h
  induction h generalizing front with
  | nil =>
    rw [(append_eq_nil_iff.mp hrows).1]
    exact fun row hrow => absurd hrow not_mem_nil
  | gap h ih =>
    cases front with
    | nil => exact fun row hrow => absurd hrow not_mem_nil
    | cons =>
      obtain ⟨rfl, htail⟩ := List.cons.inj hrows
      intro row hrow
      rcases mem_cons.mp hrow with rfl | hrow
      · rfl
      · exact ih hsettled (fun row hrow => hfront row (mem_cons_of_mem _ hrow)) htail row hrow
  | keep =>
    cases front with
    | nil => exact fun row hrow => absurd hrow not_mem_nil
    | cons =>
      obtain ⟨rfl, -⟩ := List.cons.inj hrows
      have hsource := hfront _ mem_cons_self
      cases hsource
  | hide hnext h ih => exact ih hnext hfront hrows
  | remove h ih | add h ih => exact hsettled.elim

/-- The rows up to the first one that shows line `k` of the old text or a later one. -/
structure Cut (k : ℕ) (front back : List (Option DiffRow)) : Prop where
  front : ∀ row ∈ front, ∀ line, sourceLine row = some line → line < k
  back : ∀ row, back.head? = some row → ∃ line, sourceLine row = some line ∧ k ≤ line

theorem Cut.tail {k : ℕ} {first : Option DiffRow}
    (h : Cut k (first :: front) back) : Cut k front back :=
  ⟨fun row hrow => h.front row (mem_cons_of_mem _ hrow), h.back⟩

/-- What can be said of the rows in front of a line that was left out. -/
structure Insertable (changed : Bool) (o n : ℕ) (ops : List LineOp)
    (front back : List (Option DiffRow)) (row : DiffRow) : Prop where
  shown (before after : ℕ) : Shown changed o n ops
    (front ++ (List.replicate before none ++ some row :: List.replicate after none) ++ back)
  front_eq_nil : front = [] → changed = false
  getLast : ∀ last, front.getLast? = some (some last) → last.kind = .context

theorem Insertable.cons {changed' : Bool} {o' n' : ℕ} {ops' : List LineOp}
    {front back : List (Option DiffRow)} {row : DiffRow} {first : Option DiffRow}
    (h : Insertable changed o n ops front back row)
    (hfirst : ∀ f, first = some f → f.kind ≠ .context → changed = true)
    (hshown : ∀ rows, Shown changed o n ops rows → Shown changed' o' n' ops' (first :: rows)) :
    Insertable changed' o' n' ops' (first :: front) back row where
  shown before after := hshown _ (h.shown before after)
  front_eq_nil hnil := absurd hnil (cons_ne_nil _ _)
  getLast last hlast := by
    cases front with
    | nil =>
      cases hlast
      by_contra hkind
      rw [hfirst last rfl hkind] at h
      cases h.front_eq_nil rfl
    | cons =>
      rw [getLast?_cons_cons] at hlast
      exact h.getLast last hlast

/-- The step of the insertion: the line goes in front of the next line of the old text. -/
theorem Shown.insert (h : Shown changed o n ops (front ++ back)) (hkind : row.kind = .context)
    (hcut : Cut row.lineNumber front back) (hmem : row ∈ numbered o n ops)
    (hnew : some row ∉ front ++ back) : Insertable changed o n ops front back row := by
  generalize hrows : front ++ back = rows at h hnew
  induction h generalizing front with
  | nil => cases hmem
  | gap h ih =>
    cases front with
    | nil =>
      obtain ⟨line, hline, -⟩ := hcut.back none (by rw [← nil_append back, hrows]; rfl)
      cases hline
    | cons =>
      obtain ⟨rfl, htail⟩ := List.cons.inj hrows
      have hrest := ih hcut.tail hmem htail fun hin => hnew (mem_cons_of_mem _ hin)
      exact hrest.cons (fun f hf => by cases hf) fun rows hrows => .gap hrows
  | @keep changed o n c ops rows h ih =>
    rcases mem_cons.mp hmem with rfl | hmem
    · exact absurd mem_cons_self hnew
    have hlater := le_of_mem_numbered hmem hkind
    cases front with
    | nil =>
      obtain ⟨line, hline, hge⟩ := hcut.back _ (by rw [← nil_append back, hrows]; rfl)
      cases hline
      exact absurd hge (by simpa using hlater)
    | cons =>
      obtain ⟨rfl, htail⟩ := List.cons.inj hrows
      have hrest := ih hcut.tail hmem htail fun hin => hnew (mem_cons_of_mem _ hin)
      refine hrest.cons (fun f hf hcontext => ?_) fun rows hrows => .keep hrows
      cases hf
      exact absurd rfl hcontext
  | @hide o n c ops rows hnext h ih =>
    rcases mem_cons.mp hmem with rfl | hmem
    · -- this is the line that was left out
      have hnone : ∀ other ∈ front, sourceLine other = none := by
        intro other hother
        by_contra hsource
        obtain ⟨line, hline⟩ := Option.ne_none_iff_exists'.mp hsource
        have hlt := hcut.front other hother line hline
        have hle := h.le_of_source (hrows ▸ mem_append_left _ hother) hline
        simp only at hlt
        omega
      have hgaps := (hrows ▸ h : Shown false (o + 1) (n + 1) ops (front ++ back)).gaps_of_settled
        hnext hnone
      have hback := Shown.of_gaps hgaps (hrows ▸ h)
      have hfront : front = List.replicate front.length none := eq_replicate_iff.mpr ⟨rfl, hgaps⟩
      refine ⟨fun before after => ?_, fun _ => rfl, fun last hlast => ?_⟩
      · rw [hfront, append_assoc, append_assoc]
        exact ((Shown.keep (hback.gaps after)).gaps before).gaps _
      · cases hgaps _ (mem_of_getLast? hlast)
    have hrest := ih hcut hmem hrows hnew
    exact ⟨fun before after => .hide hnext (hrest.shown before after), fun _ => rfl, hrest.getLast⟩
  | @remove changed o n c ops rows h ih =>
    rcases mem_cons.mp hmem with rfl | hmem
    · cases hkind
    have hlater := le_of_mem_numbered hmem hkind
    cases front with
    | nil =>
      obtain ⟨line, hline, hge⟩ := hcut.back _ (by rw [← nil_append back, hrows]; rfl)
      cases hline
      exact absurd hge (by simpa using hlater)
    | cons =>
      obtain ⟨rfl, htail⟩ := List.cons.inj hrows
      have hrest := ih hcut.tail hmem htail fun hin => hnew (mem_cons_of_mem _ hin)
      exact hrest.cons (fun _ _ _ => rfl) fun rows hrows => .remove hrows
  | @add changed o n c ops rows h ih =>
    rcases mem_cons.mp hmem with rfl | hmem
    · cases hkind
    cases front with
    | nil =>
      obtain ⟨line, hline, -⟩ := hcut.back _ (by rw [← nil_append back, hrows]; rfl)
      cases hline
    | cons =>
      obtain ⟨rfl, htail⟩ := List.cons.inj hrows
      have hrest := ih hcut.tail hmem htail fun hin => hnew (mem_cons_of_mem _ hin)
      exact hrest.cons (fun _ _ _ => rfl) fun rows hrows => .add hrows

end

end BreadboardTui.NumberedDiff
