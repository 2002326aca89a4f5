import Mathlib.Logic.Basic

/-!
# Runs of a step function

A system is a function that says what state an action leads to, if it can be taken. `Reached` are
the states of all runs from a first state; an invariant of the steps holds in all of them.

Runs whose steps meet a condition are the runs of `guarded`.
-/

namespace BreadboardTui.Runs

variable {σ α : Type}

/-- Takes one action after another. -/
def exec (step : σ → α → Option σ) : σ → List α → Option σ
  | s, [] => some s
  | s, a :: actions => (step s a).bind fun s' => exec step s' actions

/-- The states of all runs. -/
inductive Reached (step : σ → α → Option σ) (start : σ) : σ → Prop where
  | start : Reached step start start
  | step {s s' : σ} {a : α} : Reached step start s → step s a = some s' → Reached step start s'

/-- The steps that meet a condition. -/
def guarded (ok : σ → α → Bool) (step : σ → α → Option σ) (s : σ) (a : α) : Option σ :=
  if ok s a then step s a else none

variable {ok : σ → α → Bool}

theorem guarded_eq_some {step : σ → α → Option σ} {s s' : σ} {a : α} :
    guarded ok step s a = some s' ↔ ok s a = true ∧ step s a = some s' := by
  rw [guarded]
  split
  · next h => exact ⟨fun hstep => ⟨h, hstep⟩, And.right⟩
  next h =>
  constructor
  · intro hnone
    cases hnone
  · exact fun hok => absurd hok.1 h

namespace Reached

variable {step : σ → α → Option σ} {start s : σ}

/-- What every step keeps holds in every run. -/
theorem invariant (inv : σ → Prop) (h : Reached step start s) (hstart : inv start)
    (hstep : ∀ s a s', inv s → step s a = some s' → inv s') : inv s := by
  induction h with
  | start => exact hstart
  | step _ hs ih => exact hstep _ _ _ ih hs

/-- A run whose steps meet a condition is a run. -/
theorem of_guarded (h : Reached (guarded ok step) start s) : Reached step start s := by
  induction h with
  | start => exact .start
  | step _ hs ih => exact ih.step (guarded_eq_some.mp hs).2

theorem mono {ok' : σ → α → Bool} (hok : ∀ s a, ok s a = true → ok' s a = true)
    (h : Reached (guarded ok step) start s) : Reached (guarded ok' step) start s := by
  induction h with
  | start => exact .start
  | step _ hs ih =>
    obtain ⟨hmeets, hs⟩ := guarded_eq_some.mp hs
    exact ih.step (guarded_eq_some.mpr ⟨hok _ _ hmeets, hs⟩)

theorem of_exec {actions : List α} {s s' : σ} (h : Reached step start s)
    (hexec : exec step s actions = some s') : Reached step start s' := by
  induction actions generalizing s with
  | nil =>
    injection hexec with hexec
    rwa [← hexec]
  | cons a actions ih =>
    obtain ⟨t, hstep, hexec⟩ := Option.bind_eq_some_iff.mp hexec
    exact ih (h.step hstep) hexec

end Reached

end BreadboardTui.Runs
