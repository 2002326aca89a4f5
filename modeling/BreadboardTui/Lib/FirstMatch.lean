import Mathlib.Data.List.Basic
import Mathlib.Tactic

/-!
# The first occurrence of a pattern

`cutAt` cuts a list at the first occurrence of a pattern. It is found where it is in any longer
list, and in what is left when less than what is in front of it is taken away.
-/

namespace BreadboardTui

open List Option

variable {α : Type} [DecidableEq α]

/-- What is before and after the first occurrence of a pattern. -/
def cutAt (pattern : List α) : List α → Option (List α × List α)
  | [] => if pattern = [] then some ([], []) else none
  | a :: text =>
    if pattern.isPrefixOf (a :: text) then some ([], (a :: text).drop pattern.length)
    else (cutAt pattern text).map fun parts => (a :: parts.1, parts.2)

variable {pattern text before after : List α}

theorem eq_of_cutAt (h : cutAt pattern text = some (before, after)) :
    text = before ++ (pattern ++ after) := by
  induction text generalizing before with
  | nil =>
    rw [cutAt] at h
    split at h
    · next hnil =>
      cases h
      rw [hnil]
      rfl
    · cases h
  | cons a text ih =>
    rw [cutAt] at h
    split at h
    · next hhere =>
      cases h
      obtain ⟨rest, hrest⟩ := isPrefixOf_iff_prefix.mp hhere
      rw [← hrest, drop_left' rfl]
      rfl
    obtain ⟨⟨front, back⟩, hparts, heq⟩ := map_eq_some_iff.mp h
    cases heq
    rw [ih hparts]
    rfl

/-- Nothing before the first occurrence is one. -/
theorem length_le_of_cutAt (h : cutAt pattern text = some (before, after)) {front back : List α}
    (hother : text = front ++ (pattern ++ back)) : before.length ≤ front.length := by
  induction text generalizing before front with
  | nil =>
    rw [cutAt] at h
    split at h
    · cases h
      exact Nat.zero_le _
    · cases h
  | cons a text ih =>
    rw [cutAt] at h
    split at h
    · cases h
      exact Nat.zero_le _
    next hnot =>
    obtain ⟨⟨first, last⟩, hparts, heq⟩ := map_eq_some_iff.mp h
    cases heq
    cases front with
    | nil => exact absurd ( isPrefixOf_iff_prefix.mpr ⟨back, hother.symm⟩) hnot
    | cons =>
      injection hother with _ hother
      exact Nat.succ_le_succ (ih hparts hother)

theorem exists_cutAt {front back : List α} (h : text = front ++ (pattern ++ back)) :
    ∃ before after, cutAt pattern text = some (before, after) := by
  induction text generalizing front with
  | nil =>
    have hpattern : pattern = [] := by
      have hlength := congrArg List.length h
      simp only [length_append, length_nil] at hlength
      exact length_eq_zero_iff.mp (by omega)
    rw [cutAt, if_pos hpattern]
    exact ⟨[], [], rfl⟩
  | cons a text ih =>
    rw [cutAt]
    split
    · exact ⟨_, _, rfl⟩
    next hnot =>
    cases front with
    | nil => exact absurd ( isPrefixOf_iff_prefix.mpr ⟨back, h.symm⟩) hnot
    | cons =>
      injection h with _ h
      obtain ⟨first, last, hcut⟩ := ih h
      exact ⟨a :: first, last, by rw [hcut]; rfl⟩

theorem ne_of_cutAt_none (h : cutAt pattern text = none) (front back : List α) :
    text ≠ front ++ (pattern ++ back) := by
  intro heq
  obtain ⟨before, after, hcut⟩ := exists_cutAt heq
  rw [h] at hcut
  cases hcut

/-- An occurrence with none before it is the first. -/
theorem cutAt_eq_some (h : text = before ++ (pattern ++ after))
    (hfirst : ∀ front back, text = front ++ (pattern ++ back) → before.length ≤ front.length) :
    cutAt pattern text = some (before, after) := by
  obtain ⟨first, last, hcut⟩ := exists_cutAt h
  have heq := eq_of_cutAt hcut
  have hlength : first.length = before.length :=
    le_antisymm (length_le_of_cutAt hcut h) (hfirst first last heq)
  obtain ⟨rfl, hrest⟩ := append_inj (heq.symm.trans h) hlength
  rw [hcut, append_cancel_left hrest]

/-- What comes after an occurrence does not matter. -/
theorem cutAt_append (h : cutAt pattern text = some (before, after)) (more : List α) :
    cutAt pattern (text ++ more) = some (before, after ++ more) := by
  have hfits : pattern.length ≤ text.length := by
    rw [eq_of_cutAt h, length_append, length_append]
    omega
  refine cutAt_eq_some ?_ fun front back heq => ?_
  · rw [eq_of_cutAt h]
    simp
  by_contra hlt
  rw [not_le] at hlt
  have hlength := congrArg List.length (eq_of_cutAt h)
  simp only [length_append] at hlength
  -- an earlier occurrence is in the text
  have hinside : (front ++ pattern).length ≤ text.length := by
    rw [length_append]
    omega
  rw [← append_assoc] at heq
  obtain ⟨rest, hrest, -⟩ : ∃ rest, text = front ++ pattern ++ rest ∧ rest ++ more = back := by
    rcases append_eq_append_iff.mp heq with ⟨z, hz, hback⟩ | ⟨z, hz, hback⟩
    · have hz' : z = [] := by
        have hlength := congrArg List.length hz
        simp only [length_append] at hlength hinside
        exact length_eq_zero_iff.mp (by omega)
      subst hz'
      rw [append_nil] at hz
      exact ⟨[], by rw [hz, append_nil], hback⟩
    · exact ⟨z, hz, hback.symm⟩
  rw [append_assoc] at hrest
  exact absurd (length_le_of_cutAt h hrest) (not_le.mpr hlt)

variable {front rest : List α}

/-- What is in front of the first occurrence can be taken away. -/
theorem cutAt_of_append (h : cutAt pattern text = some (before, after))
    (htext : text = front ++ rest) (hle : front.length ≤ before.length) :
    ∃ gap, before = front ++ gap ∧ cutAt pattern rest = some (gap, after) := by
  have heq := (eq_of_cutAt h).symm.trans htext
  obtain ⟨gap, rfl⟩ : ∃ gap, before = front ++ gap := by
    rcases append_eq_append_iff.mp heq with ⟨z, hz, -⟩ | ⟨z, hz, -⟩
    · have hz' : z = [] := by
        have hlength := congrArg List.length hz
        rw [length_append] at hlength
        exact length_eq_zero_iff.mp (by omega)
      subst hz'
      rw [append_nil] at hz
      exact ⟨[], by rw [hz, append_nil]⟩
    · exact ⟨z, hz⟩
  rw [append_assoc] at heq
  refine ⟨gap, rfl, cutAt_eq_some (append_cancel_left heq).symm fun other back hother => ?_⟩
  have hle := length_le_of_cutAt h (show text = (front ++ other) ++ (pattern ++ back) by
    rw [htext, hother, append_assoc])
  rw [length_append, length_append] at hle
  omega

theorem cutAt_none_of_append (h : cutAt pattern (front ++ rest) = none) :
    cutAt pattern front = none ∧ cutAt pattern rest = none := by
  constructor
  · cases hfront : cutAt pattern front with
    | none => rfl
    | some =>
      rw [cutAt_append hfront] at h
      cases h
  cases hrest : cutAt pattern rest with
  | none => rfl
  | some parts =>
    refine absurd ?_ (ne_of_cutAt_none h (front ++ parts.1) parts.2)
    rw [eq_of_cutAt hrest, append_assoc]

/-- A text that ends in front of the end of the first occurrence has none. -/
theorem cutAt_none_of_length (h : cutAt pattern text = some (before, after))
    (htext : text = front ++ rest) (hlt : front.length < before.length + pattern.length) :
    cutAt pattern front = none := by
  cases hfront : cutAt pattern front with
  | none => rfl
  | some =>
    have hcut := cutAt_append hfront rest
    rw [← htext, h] at hcut
    cases hcut
    have hlength := congrArg List.length (eq_of_cutAt hfront)
    simp only [length_append] at hlength
    omega

/-- A text without an occurrence ends in front of the end of the first one of a longer text. -/
theorem length_lt_of_cutAt {more : List α} (h : cutAt pattern (text ++ more) = some (before, after))
    (hnone : cutAt pattern text = none) : text.length < before.length + pattern.length := by
  by_contra hle
  rw [not_lt] at hle
  have heq := eq_of_cutAt h
  rw [← append_assoc] at heq
  rcases append_eq_append_iff.mp heq with ⟨z, hz, -⟩ | ⟨z, hz, -⟩
  · have hlength := congrArg List.length hz
    simp only [length_append] at hlength
    obtain rfl : z = [] := length_eq_zero_iff.mp (by omega)
    rw [append_nil] at hz
    exact ne_of_cutAt_none hnone before [] (by rw [append_nil, hz])
  rw [append_assoc] at hz
  exact ne_of_cutAt_none hnone before z hz

/-- Of a text without an occurrence, only the end matters for a longer text: all of the pattern but
one. -/
theorem cutAt_none_drop_append (hnone : cutAt pattern text = none) (more : List α) :
    cutAt pattern (text.drop (text.length - (pattern.length - 1)) ++ more) = none ↔
      cutAt pattern (text ++ more) = none := by
  have htext : text ++ more = text.take (text.length - (pattern.length - 1)) ++
      (text.drop (text.length - (pattern.length - 1)) ++ more) := by
    rw [← append_assoc, take_append_drop]
  constructor
  · intro hdrop
    cases h : cutAt pattern (text ++ more) with
    | none => rfl
    | some parts =>
      obtain ⟨before, after⟩ := parts
      have hlt := length_lt_of_cutAt h hnone
      have hle : (text.take (text.length - (pattern.length - 1))).length ≤ before.length := by
        rw [length_take]
        omega
      obtain ⟨gap, -, hgap⟩ := cutAt_of_append h htext hle
      rw [hdrop] at hgap
      cases hgap
  intro h
  rw [htext] at h
  exact (cutAt_none_of_append h).2

end BreadboardTui
