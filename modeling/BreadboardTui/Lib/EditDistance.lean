import Mathlib.Order.Bounds.Basic
import Mathlib.Tactic

/-!
# The edit distance of two lists

`editDistance` is the least number of insertions, deletions and substitutions of single entries that
turn one list into another. It does not change when the lists are reversed or trade places, and what
they begin with alike does not count.
-/

namespace BreadboardTui

open List

variable {α : Type} {a b c d : List α} {n m : ℕ}

/-- A number of insertions, deletions and substitutions turns one list into another. -/
inductive Turns : ℕ → List α → List α → Prop
  | done : Turns 0 [] []
  | keep (x : α) {n a b} : Turns n a b → Turns n (x :: a) (x :: b)
  | insertion (y : α) {n a b} : Turns n a b → Turns (n + 1) a (y :: b)
  | deletion (x : α) {n a b} : Turns n a b → Turns (n + 1) (x :: a) b
  | substitution (x y : α) {n a b} : Turns n a b → Turns (n + 1) (x :: a) (y :: b)

namespace Turns

theorem symm (h : Turns n a b) : Turns n b a := by
  induction h with
  | done => exact done
  | keep x _ ih => exact ih.keep x
  | insertion y _ ih => exact ih.deletion y
  | deletion x _ ih => exact ih.insertion x
  | substitution x y _ ih => exact ih.substitution y x

theorem append (h : Turns n a b) (h' : Turns m c d) : Turns (m + n) (a ++ c) (b ++ d) := by
  induction h with
  | done => exact h'
  | keep x _ ih => exact ih.keep x
  | insertion y _ ih => exact ih.insertion y
  | deletion x _ ih => exact ih.deletion x
  | substitution x y _ ih => exact ih.substitution x y

theorem reverse (h : Turns n a b) : Turns n a.reverse b.reverse := by
  have hone {n : ℕ} {a b c d : List α} (h : Turns n a b) (h' : Turns 1 c d) :
      Turns (n + 1) (a ++ c) (b ++ d) := Nat.add_comm 1 n ▸ h.append h'
  induction h with
  | done => exact done
  | keep x _ ih => simpa using ih.append (done.keep x)
  | insertion y _ ih => simpa using hone ih (done.insertion y)
  | deletion x _ ih => simpa using hone ih (done.deletion x)
  | substitution x y _ ih => simpa using hone ih (done.substitution x y)

end Turns

variable [DecidableEq α]

def editDistance : List α → List α → ℕ
  | [], b => b.length
  | x :: a, [] => editDistance a [] + 1
  | x :: a, y :: b => min (min (editDistance a (y :: b) + 1) (editDistance (x :: a) b + 1))
      (editDistance a b + if x = y then 0 else 1)

theorem turns_editDistance (a b : List α) : Turns (editDistance a b) a b := by
  induction a, b using editDistance.induct with
  | case1 b =>
    rw [editDistance]
    induction b with
    | nil => exact .done
    | cons y b ih => exact ih.insertion y
  | case2 x a ih =>
    rw [editDistance]
    exact ih.deletion x
  | case3 x a y b hdeletion hinsertion hboth =>
    rw [editDistance]
    rcases min_choice (min (editDistance a (y :: b) + 1) (editDistance (x :: a) b + 1))
      (editDistance a b + if x = y then 0 else 1) with h | h
    · rw [h]
      rcases min_choice (editDistance a (y :: b) + 1) (editDistance (x :: a) b + 1) with h | h
      · rw [h]
        exact hdeletion.deletion x
      · rw [h]
        exact hinsertion.insertion y
    rw [h]
    split
    · next heq => exact heq ▸ hboth.keep x
    · exact hboth.substitution x y

theorem editDistance_le (h : Turns n a b) : editDistance a b ≤ n := by
  induction h with
  | done => simp [editDistance]
  | keep x _ ih =>
    rw [editDistance, if_pos rfl]
    exact (min_le_right _ _).trans ih
  | @insertion y n a b _ ih => cases a <;> grind [editDistance]
  | @deletion x n a b _ ih => cases b <;> grind [editDistance]
  | substitution =>
    rw [editDistance]
    split <;> omega

theorem isLeast_editDistance (a b : List α) : IsLeast {n | Turns n a b} (editDistance a b) :=
  ⟨turns_editDistance a b, fun _ => editDistance_le⟩

theorem editDistance_comm (a b : List α) : editDistance a b = editDistance b a :=
  le_antisymm (editDistance_le (turns_editDistance b a).symm)
    (editDistance_le (turns_editDistance a b).symm)

theorem editDistance_reverse (a b : List α) :
    editDistance a.reverse b.reverse = editDistance a b := by
  refine le_antisymm (editDistance_le (turns_editDistance a b).reverse) ?_
  have hle := editDistance_le (turns_editDistance a.reverse b.reverse).reverse
  rwa [reverse_reverse, reverse_reverse] at hle

theorem editDistance_le_of_cons {x : α} (h : Turns n a (x :: b)) : editDistance a b ≤ n + 1 := by
  generalize hc : x :: b = c at h
  induction h with
  | done => cases hc
  | keep _ h =>
    cases hc
    exact editDistance_le (h.deletion x)
  | insertion _ h =>
    cases hc
    exact (editDistance_le h).trans (Nat.le_add_right _ 2)
  | deletion z _ ih =>
    exact (editDistance_le ((turns_editDistance _ b).deletion z)).trans (Nat.succ_le_succ (ih hc))
  | substitution z _ h =>
    cases hc
    exact (editDistance_le (h.deletion z)).trans (Nat.le_succ _)

/-- What both lists begin with does not count. -/
theorem editDistance_cons_self (x : α) (a b : List α) :
    editDistance (x :: a) (x :: b) = editDistance a b := by
  refine le_antisymm (editDistance_le ((turns_editDistance a b).keep x)) ?_
  have hinsertion := editDistance_le_of_cons (turns_editDistance a (x :: b))
  have hdeletion := editDistance_le_of_cons (turns_editDistance (x :: a) b).symm
  rw [editDistance_comm] at hdeletion
  rw [editDistance, if_pos rfl]
  omega

theorem editDistance_nil_right (a : List α) : editDistance a [] = a.length := by
  rw [editDistance_comm, editDistance]

/-- The distance is at least the difference of the lengths, and at most the larger one. -/
theorem editDistance_bounds (a b : List α) : a.length ≤ b.length + editDistance a b ∧
    b.length ≤ a.length + editDistance a b ∧ editDistance a b ≤ max a.length b.length := by
  induction a, b using editDistance.induct with
  | case1 => simp [editDistance]
  | case2 => simp [editDistance_nil_right]
  | case3 =>
    rw [editDistance]
    simp only [length_cons] at *
    split <;> omega

end BreadboardTui
