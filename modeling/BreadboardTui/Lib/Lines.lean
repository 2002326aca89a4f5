import Mathlib.Data.List.TakeWhile
import Mathlib.Data.Nat.Notation

/-!
# Records on lines

A text is a sequence of symbols in which one symbol ends a line, and a line holds one record, or
nothing, or something that is not a record. `LineFormat` says what the records are; `scan` reads a
text symbol by symbol and keeps the line it is in, so that a text may be given in parts:
`scan_append`.

Space in front of a line changes nothing. `lead` drops the blank lines and the space in front of a
text, and two texts with the same `lead` hold the same records: `scan_congr_lead`.
-/

namespace BreadboardTui

open List

/-- What a line of a text can be. -/
structure LineFormat (σ α : Type) where
  newline : σ
  isSpace : σ → Bool
  /-- The record on a line. -/
  value : List σ → Option α
  newline_not_space : isSpace newline = false
  value_nil : value [] = none
  value_cons_space : ∀ a line, isSpace a = true → value (a :: line) = value line

/-- What a reader finds on a line that is not blank. -/
inductive Outcome (σ α : Type) where
  | entry (value : α)
  /-- A line that is no record, from its first symbol that is not space. -/
  | malformed (line : List σ)
  deriving DecidableEq, Repr

namespace Outcome

variable {σ α : Type}

/-- The records among the outcomes. -/
def entries (outcomes : List (Outcome σ α)) : List α :=
  outcomes.filterMap fun outcome =>
    match outcome with
    | .entry value => some value
    | .malformed _ => none

/-- The number of malformed lines that are counted. -/
def malformedCount (counts : List σ → Bool) (outcomes : List (Outcome σ α)) : ℕ :=
  (outcomes.filter fun outcome =>
    match outcome with
    | .entry _ => false
    | .malformed line => counts line).length

variable {counts : List σ → Bool}

@[simp] theorem entries_nil : entries ([] : List (Outcome σ α)) = [] := rfl

@[simp] theorem malformedCount_nil : malformedCount counts ([] : List (Outcome σ α)) = 0 := rfl

@[simp] theorem entries_append (os os' : List (Outcome σ α)) :
    entries (os ++ os') = entries os ++ entries os' := filterMap_append

@[simp] theorem malformedCount_append (os os' : List (Outcome σ α)) :
    malformedCount counts (os ++ os') = malformedCount counts os + malformedCount counts os' := by
  simp [malformedCount]

@[simp] theorem entries_cons_entry (value : α) (os : List (Outcome σ α)) :
    entries (.entry value :: os) = value :: entries os := rfl

@[simp] theorem malformedCount_cons_entry (value : α) (os : List (Outcome σ α)) :
    malformedCount counts (.entry value :: os) = malformedCount counts os := rfl

@[simp] theorem entries_cons_malformed (line : List σ) (os : List (Outcome σ α)) :
    entries (.malformed line :: os) = entries os := rfl

@[simp] theorem malformedCount_cons_malformed (line : List σ) (os : List (Outcome σ α)) :
    malformedCount counts (.malformed line :: os) =
      (if counts line then 1 else 0) + malformedCount counts os := by
  by_cases h : counts line = true
  · simp [malformedCount, h, Nat.add_comm]
  · simp [malformedCount, h]

@[simp] theorem entries_map_entry (values : List α) :
    entries (values.map .entry : List (Outcome σ α)) = values := by
  induction values with
  | nil => rfl
  | cons value values ih => rw [map_cons, entries_cons_entry, ih]

@[simp] theorem malformedCount_map_entry (values : List α) :
    malformedCount counts (values.map .entry) = 0 := by
  induction values with
  | nil => rfl
  | cons value values ih => rw [map_cons, malformedCount_cons_entry, ih]

end Outcome

namespace LineFormat

variable {σ α : Type} [DecidableEq σ] (fmt : LineFormat σ α)

/-- Space, or the end of a line. -/
def isBlank (a : σ) : Bool := fmt.isSpace a || a == fmt.newline

/-- The text without the blank lines and the space in front of it. -/
def lead (text : List σ) : List σ := text.dropWhile fmt.isBlank

/-- What is found on a line. -/
def outcome (line : List σ) : List (Outcome σ α) :=
  match fmt.value line with
  | some value => [.entry value]
  | none => if fmt.lead line = [] then [] else [.malformed (fmt.lead line)]

/-- The outcomes of the lines that end in the text, and the line it breaks off in. `part` is the
line so far. -/
def scan (part : List σ) : List σ → List (Outcome σ α) × List σ
  | [] => ([], part)
  | a :: text =>
    if a = fmt.newline then (fmt.outcome part ++ (scan [] text).1, (scan [] text).2)
    else scan (part ++ [a]) text

/-- The outcomes of all lines, the last of which need not end. -/
def outcomes (text : List σ) : List (Outcome σ α) :=
  (fmt.scan [] text).1 ++ fmt.outcome (fmt.scan [] text).2

variable {fmt}

theorem scan_append (part text text' : List σ) : fmt.scan part (text ++ text') =
      ((fmt.scan part text).1 ++ (fmt.scan (fmt.scan part text).2 text').1,
        (fmt.scan (fmt.scan part text).2 text').2) := by
  induction text generalizing part with
  | nil => rfl
  | cons a text ih =>
    rw [cons_append, scan, scan]
    split
    · rw [ih, append_assoc]
    · rw [ih]

/-- A line without its end is the line so far. -/
theorem scan_of_notMem {part line : List σ} (h : fmt.newline ∉ line) :
    fmt.scan part line = ([], part ++ line) := by
  induction line generalizing part with
  | nil => rw [scan, append_nil]
  | cons a line ih =>
    rw [mem_cons, not_or] at h
    rw [scan, if_neg (Ne.symm h.1), ih h.2, append_assoc, singleton_append]

variable {line : List σ}

theorem scan_line (h : fmt.newline ∉ line) (text : List σ) :
    fmt.scan [] (line ++ fmt.newline :: text) =
      (fmt.outcome line ++ (fmt.scan [] text).1, (fmt.scan [] text).2) := by
  rw [scan_append, scan_of_notMem h, scan, if_pos rfl]
  rfl

variable (fmt) in
theorem newline_notMem_scan {part : List σ} (h : fmt.newline ∉ part) (text : List σ) :
    fmt.newline ∉ (fmt.scan part text).2 := by
  induction text generalizing part with
  | nil => exact h
  | cons a text ih =>
    rw [scan]
    split
    · exact ih not_mem_nil
    · next ha => exact ih (by simp [h, Ne.symm ha])

theorem outcomes_of_notMem (h : fmt.newline ∉ line) : fmt.outcomes line = fmt.outcome line := by
  rw [outcomes, scan_of_notMem h]
  rfl

theorem outcomes_line (h : fmt.newline ∉ line) (text : List σ) :
    fmt.outcomes (line ++ fmt.newline :: text) = fmt.outcome line ++ fmt.outcomes text := by
  rw [outcomes, scan_line h, outcomes, append_assoc]

/-! ### Space in front -/

variable {space : List σ}

omit [DecidableEq σ] in
theorem value_append_of_space (h : ∀ a ∈ space, fmt.isSpace a = true)
    (line : List σ) : fmt.value (space ++ line) = fmt.value line := by
  induction space with
  | nil => rfl
  | cons a space ih =>
    rw [cons_append, fmt.value_cons_space a _ (h a mem_cons_self)]
    exact ih fun b hb => h b (mem_cons_of_mem _ hb)

theorem isBlank_of_isSpace {a : σ} (h : fmt.isSpace a = true) : fmt.isBlank a = true := by
  rw [isBlank, h, Bool.true_or]

variable {blank : List σ}

theorem lead_append (h : ∀ a ∈ blank, fmt.isBlank a = true) (text : List σ) :
    fmt.lead (blank ++ text) = fmt.lead text := by
  rw [lead, dropWhile_append_of_pos h, lead]

theorem lead_of_blank (h : ∀ a ∈ blank, fmt.isBlank a = true) :
    fmt.lead blank = [] := dropWhile_eq_nil_iff.mpr h

theorem outcome_append_of_space (h : ∀ a ∈ space, fmt.isSpace a = true)
    (line : List σ) : fmt.outcome (space ++ line) = fmt.outcome line := by
  rw [outcome, outcome, value_append_of_space h,
    lead_append fun a ha => isBlank_of_isSpace (h a ha)]

omit [DecidableEq σ] in
theorem value_of_space (h : ∀ a ∈ space, fmt.isSpace a = true) : fmt.value space = none := by
  rw [← append_nil space, value_append_of_space h, fmt.value_nil]

theorem outcome_nil : fmt.outcome ([] : List σ) = [] := by
  rw [outcome, fmt.value_nil]
  rfl

theorem outcome_of_space (h : ∀ a ∈ space, fmt.isSpace a = true) : fmt.outcome space = [] := by
  rw [← append_nil space, outcome_append_of_space h, outcome_nil]

variable (fmt) in
theorem exists_lead (text : List σ) :
    ∃ blank, (∀ a ∈ blank, fmt.isBlank a = true) ∧ text = blank ++ fmt.lead text :=
  ⟨text.takeWhile fmt.isBlank, fun _ ha => mem_takeWhile_imp ha,
    takeWhile_append_dropWhile.symm⟩

theorem isSpace_of_isBlank {a : σ} (h : fmt.isBlank a = true) (hne : a ≠ fmt.newline) :
    fmt.isSpace a = true := by
  rcases Bool.or_eq_true _ _ ▸ h with h | h
  · exact h
  · exact absurd (eq_of_beq h) hne

theorem exists_lead_line (h : fmt.newline ∉ line) :
    ∃ space, (∀ a ∈ space, fmt.isSpace a = true) ∧ line = space ++ fmt.lead line := by
  obtain ⟨space, hspace, heq⟩ := exists_lead fmt line
  refine ⟨space, fun a ha => isSpace_of_isBlank (hspace a ha) ?_, heq⟩
  rintro rfl
  exact h (heq ▸ mem_append_left _ ha)

theorem value_lead (h : fmt.newline ∉ line) : fmt.value (fmt.lead line) = fmt.value line := by
  obtain ⟨space, hspace, heq⟩ := exists_lead_line h
  calc fmt.value (fmt.lead line) = fmt.value (space ++ fmt.lead line) :=
        (value_append_of_space hspace _).symm
    _ = fmt.value line := by rw [← heq]

theorem outcome_lead (h : fmt.newline ∉ line) : fmt.outcome (fmt.lead line) = fmt.outcome line := by
  obtain ⟨space, hspace, heq⟩ := exists_lead_line h
  calc fmt.outcome (fmt.lead line) = fmt.outcome (space ++ fmt.lead line) :=
        (outcome_append_of_space hspace _).symm
    _ = fmt.outcome line := by rw [← heq]

/-- Space in front of the line so far changes no outcome. -/
theorem scan_append_of_space (h : ∀ a ∈ space, fmt.isSpace a = true) (part text : List σ) :
    (fmt.scan (space ++ part) text).1 = (fmt.scan part text).1 ∧
      fmt.lead (fmt.scan (space ++ part) text).2 = fmt.lead (fmt.scan part text).2 := by
  induction text generalizing part with
  | nil => exact ⟨rfl, lead_append (fun a ha => isBlank_of_isSpace (h a ha)) part⟩
  | cons a text ih =>
    rw [scan, scan]
    split
    · exact ⟨by rw [outcome_append_of_space h], rfl⟩
    rw [append_assoc]
    exact ih _

variable (fmt) in
theorem scan_lead (text : List σ) : (fmt.scan [] (fmt.lead text)).1 = (fmt.scan [] text).1 ∧
      fmt.lead (fmt.scan [] (fmt.lead text)).2 = fmt.lead (fmt.scan [] text).2 := by
  induction text with
  | nil => exact ⟨rfl, rfl⟩
  | cons a text ih =>
    rw [lead, dropWhile_cons]
    split
    · next ha =>
      rw [← lead, scan]
      split
      · rw [outcome_nil, nil_append]
        exact ih
      next hne =>
      have hspace : ∀ b ∈ [a], fmt.isSpace b = true := fun b hb =>
        mem_singleton.mp hb ▸ isSpace_of_isBlank ha hne
      have hscan := scan_append_of_space hspace [] text
      exact ⟨ih.1.trans hscan.1.symm, ih.2.trans hscan.2.symm⟩
    · exact ⟨rfl, rfl⟩

variable {text' text : List σ}

theorem scan_congr_lead (h : fmt.lead text = fmt.lead text') :
    (fmt.scan [] text).1 = (fmt.scan [] text').1 ∧
      fmt.lead (fmt.scan [] text).2 = fmt.lead (fmt.scan [] text').2 := by
  have hleft := scan_lead fmt text
  have hright := scan_lead fmt text'
  rw [h] at hleft
  exact ⟨hleft.1.symm.trans hright.1, hleft.2.symm.trans hright.2⟩

theorem lead_append_congr (h : fmt.lead text = fmt.lead text')
    (rest : List σ) : fmt.lead (text ++ rest) = fmt.lead (text' ++ rest) := by
  obtain ⟨blank, hblank, heq⟩ := exists_lead fmt text
  obtain ⟨blank', hblank', heq'⟩ := exists_lead fmt text'
  rw [heq, heq', append_assoc, append_assoc, lead_append hblank, lead_append hblank', h]

theorem outcomes_congr_lead (h : fmt.lead text = fmt.lead text') :
    fmt.outcomes text = fmt.outcomes text' := by
  obtain ⟨hout, hrest⟩ := scan_congr_lead h
  have hno := newline_notMem_scan fmt not_mem_nil text
  have hno' := newline_notMem_scan fmt not_mem_nil text'
  rw [outcomes, outcomes, hout, ← outcome_lead hno, ← outcome_lead hno', hrest]

theorem outcomes_of_blank (h : ∀ a ∈ blank, fmt.isBlank a = true) : fmt.outcomes blank = [] := by
  have hlead : fmt.lead blank = fmt.lead [] := lead_of_blank h
  rw [outcomes_congr_lead hlead]
  exact outcome_nil

end LineFormat

end BreadboardTui
