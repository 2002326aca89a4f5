import Mathlib.Logic.Function.Basic

/-!
# Programs over requests

A **program** asks its environment for one thing after another and ends with a result or an
error. What can be asked is a type `Op`, and the answer to `op` is an `Ans op`; both are
parameters, so the same programs, rules and interpreters serve a file system, a scheduler or a
remote service.

`Program.Ensures` is the weakest precondition of a program against an environment that is only
known through a relation. Two rules carry every proof: `ensures_bind` composes, and
`ensures_attempt` turns an error into a value, from which `tryCatch` and `always` (the
`finally` of the modelled languages) follow.
-/

namespace Effects

/-- A program that asks requests `Op`, answered by `Ans`, and ends with an `α` or an error. -/
inductive Program (Op : Type) (Ans : Op → Type) (ε α : Type) where
  | ret (result : Except ε α)
  | request (op : Op) (next : Ans op → Program Op Ans ε α)

namespace Program

variable {Op : Type} {Ans : Op → Type} {ε α β σ C : Type}

/-- Sequencing: an error skips what follows. -/
def bind : Program Op Ans ε α → (α → Program Op Ans ε β) → Program Op Ans ε β
  | ret (.ok a), f => f a
  | ret (.error e), _ => ret (.error e)
  | request op next, f => request op fun a => (next a).bind f

instance : Monad (Program Op Ans ε) where
  pure a := ret (.ok a)
  bind := bind

/-- Ask for `op` and return the answer. -/
def ask (op : Op) : Program Op Ans ε (Ans op) :=
  request op fun a => ret (.ok a)

/-- Run a program and return its outcome, whether it is a result or an error. -/
def attempt : Program Op Ans ε α → Program Op Ans ε (Except ε α)
  | ret r => ret (.ok r)
  | request op next => request op fun a => (next a).attempt

instance : MonadExceptOf ε (Program Op Ans ε) where
  throw e := ret (.error e)
  tryCatch p handler := p.attempt.bind fun
    | .ok a => ret (.ok a)
    | .error e => handler e

/-- `try { p } finally { cleanup }`: the outcome of `p`, unless the cleanup itself fails. -/
def always (p : Program Op Ans ε α) (cleanup : Program Op Ans ε Unit) : Program Op Ans ε α :=
  p.attempt.bind fun r => cleanup.bind fun _ => ret r

/-! ### Weakest preconditions -/

/-- `p.Ensures guard env Q s`: started in `s`, the program makes only requests that `guard`
allows, and whatever answers the environment gives, it ends in a state satisfying `Q`. -/
def Ensures (guard : σ → Op → Prop) (env : σ → (op : Op) → Ans op → σ → Prop)
    (Q : Except ε α → σ → Prop) : Program Op Ans ε α → σ → Prop
  | ret r, s => Q r s
  | request op next, s =>
    guard s op ∧ ∀ a s', env s op a s' → (next a).Ensures guard env Q s'

section Rules

variable {guard : σ → Op → Prop} {env : σ → (op : Op) → Ans op → σ → Prop}

@[simp] theorem ensures_ret {Q : Except ε α → σ → Prop} {r : Except ε α} {s : σ} :
    (ret r : Program Op Ans ε α).Ensures guard env Q s ↔ Q r s := Iff.rfl

@[simp] theorem ensures_pure {Q : Except ε α → σ → Prop} {a : α} {s : σ} :
    (pure a : Program Op Ans ε α).Ensures guard env Q s ↔ Q (.ok a) s := Iff.rfl

variable {s : σ}

theorem ensures_ask {op : Op} {Q : Except ε (Ans op) → σ → Prop} :
    (ask op : Program Op Ans ε (Ans op)).Ensures guard env Q s ↔
      guard s op ∧ ∀ a s', env s op a s' → Q (.ok a) s' := Iff.rfl

variable {p : Program Op Ans ε α}

theorem Ensures.mono {Q Q' : Except ε α → σ → Prop} (hQ : ∀ r s, Q r s → Q' r s)
    (h : p.Ensures guard env Q s) :
    p.Ensures guard env Q' s := by
  induction p generalizing s with
  | ret r => exact hQ r s h
  | request op next ih => exact ⟨h.1, fun a s' henv => ih a (h.2 a s' henv)⟩

theorem ensures_bind {Q : Except ε β → σ → Prop} {f : α → Program Op Ans ε β} :
    (p >>= f).Ensures guard env Q s ↔
      p.Ensures guard env (fun r s' => match r with
        | .ok a => (f a).Ensures guard env Q s'
        | .error e => Q (.error e) s') s := by
  induction p generalizing s with
  | ret r => cases r <;> rfl
  | request op next ih =>
    exact and_congr Iff.rfl (forall_congr' fun a => forall_congr' fun s' =>
      imp_congr Iff.rfl (ih a))

theorem ensures_attempt {Q : Except ε (Except ε α) → σ → Prop} :
    p.attempt.Ensures guard env Q s ↔ p.Ensures guard env (fun r => Q (.ok r)) s := by
  induction p generalizing s with
  | ret => rfl
  | request op next ih =>
    exact and_congr Iff.rfl (forall_congr' fun a => forall_congr' fun s' =>
      imp_congr Iff.rfl (ih a))

variable {Q : Except ε α → σ → Prop}

theorem ensures_tryCatch {handler : ε → Program Op Ans ε α} :
    (tryCatch p handler).Ensures guard env Q s ↔
      p.Ensures guard env (fun r s' => match r with
        | .ok a => Q (.ok a) s'
        | .error e => (handler e).Ensures guard env Q s') s := by
  change (p.attempt >>= _).Ensures guard env Q s ↔ _
  rw [ensures_bind, ensures_attempt]
  refine ⟨Ensures.mono fun r s' => ?_, Ensures.mono fun r s' => ?_⟩ <;> cases r <;> exact id

theorem ensures_always {cleanup : Program Op Ans ε Unit} :
    (p.always cleanup).Ensures guard env Q s ↔
      p.Ensures guard env (fun r => cleanup.Ensures guard env (fun c s' => match c with
        | .ok _ => Q r s'
        | .error e => Q (.error e) s')) s := by
  change (p.attempt >>= fun r => cleanup >>= fun _ => ret r).Ensures guard env Q s ↔ _
  rw [ensures_bind, ensures_attempt]
  refine ⟨Ensures.mono fun r s' => ?_, Ensures.mono fun r s' => ?_⟩
  · exact fun h => (ensures_bind.mp h).mono fun c s'' => by cases c <;> exact id
  · exact fun h => ensures_bind.mpr (h.mono fun c s'' => by cases c <;> exact id)

end Rules

/-! ### Interpreting a program -/

/-- Answer the requests of a program one choice at a time. The program that is left and the
state it is left in come back; a program that is not a `ret` was stopped between requests. -/
def run (handle : (op : Op) → C → σ → Ans op × σ) :
    Program Op Ans ε α → List C → σ → Program Op Ans ε α × σ
  | ret r, _, s => (ret r, s)
  | request op next, [], s => (request op next, s)
  | request op next, c :: cs, s =>
    ((next (handle op c s).1).run handle cs (handle op c s).2)

/-- The environment an interpreter presents when it makes only the choices `allowed`. -/
def environment (handle : (op : Op) → C → σ → Ans op × σ) (allowed : C → Prop) (s : σ) (op : Op)
    (a : Ans op) (s' : σ) : Prop :=
  ∃ c, allowed c ∧ handle op c s = (a, s')

variable {handle : (op : Op) → C → σ → Ans op × σ} {p : Program Op Ans ε α}

variable {Q : Except ε α → σ → Prop} {cs : List C}

/-- Soundness of `Ensures` for the interpreter: a finished run satisfies the postcondition, and
an unfinished one has stopped at a request the guard allows. -/
theorem Ensures.run {allowed : C → Prop} {guard : σ → Op → Prop} {s : σ}
    (h : p.Ensures guard (environment handle allowed) Q s)
    (hcs : ∀ c ∈ cs, allowed c) :
    match p.run handle cs s with
    | (ret r, s') => Q r s'
    | (request op _, s') => guard s' op := by
  induction p generalizing s cs with
  | ret => cases cs <;> exact h
  | request op next ih =>
    cases cs with
    | nil => exact h.1
    | cons c =>
      rw [List.forall_mem_cons] at hcs
      exact ih _ (h.2 _ _ ⟨c, hcs.1, rfl⟩) hcs.2

/-- Every choice of a run is allowed where it is made. -/
def StepsAllowed (handle : (op : Op) → C → σ → Ans op × σ) (allowed : σ → Op → C → Prop) :
    Program Op Ans ε α → List C → σ → Prop
  | ret _, _, _ => True
  | request _ _, [], _ => True
  | request op next, c :: cs, s =>
    allowed s op c ∧ (next (handle op c s).1).StepsAllowed handle allowed cs (handle op c s).2

instance StepsAllowed.decidable (handle : (op : Op) → C → σ → Ans op × σ)
    (allowed : σ → Op → C → Prop) [∀ s op c, Decidable (allowed s op c)] :
    ∀ (p : Program Op Ans ε α) (cs : List C) (s : σ), Decidable (p.StepsAllowed handle allowed cs s)
  | ret _, _, _ => isTrue trivial
  | request _ _, [], _ => isTrue trivial
  | request op next, c :: cs, s =>
    have := StepsAllowed.decidable handle allowed (next (handle op c s).1) cs (handle op c s).2
    inferInstanceAs (Decidable (allowed s op c ∧ _))

/-- The environment of an interpreter that is restricted step by step. -/
def stepEnvironment (handle : (op : Op) → C → σ → Ans op × σ) (allowed : σ → Op → C → Prop) (s : σ)
    (op : Op) (a : Ans op) (s' : σ) : Prop :=
  ∃ c, allowed s op c ∧ handle op c s = (a, s')

/-- Soundness of `Ensures` for the runs whose steps are allowed. -/
theorem Ensures.run_steps {allowed : σ → Op → C → Prop} {guard : σ → Op → Prop} {s : σ}
    (h : p.Ensures guard (stepEnvironment handle allowed) Q s)
    (hcs : p.StepsAllowed handle allowed cs s) :
    match p.run handle cs s with
    | (ret r, s') => Q r s'
    | (request op _, s') => guard s' op := by
  induction p generalizing s cs with
  | ret => cases cs <;> exact h
  | request op next ih =>
    cases cs with
    | nil => exact h.1
    | cons c => exact ih _ (h.2 _ _ ⟨c, hcs.1, rfl⟩) hcs.2

/-- What every step keeps, a run keeps. -/
theorem run_induction {P : σ → Prop} (hstep : ∀ op c s, P s → P (handle op c s).2) {s : σ}
    (h : P s) : P (p.run handle cs s).2 := by
  induction p generalizing s cs with
  | ret => cases cs <;> exact h
  | request op next ih =>
    cases cs with
    | nil => exact h
    | cons c => exact ih _ (hstep op c s h)

/-- Run a program to its end with one fixed choice for every request. -/
def eval (handle : (op : Op) → C → σ → Ans op × σ) (choice : C) :
    Program Op Ans ε α → σ → Except ε α × σ
  | ret r, s => (r, s)
  | request op next, s =>
    ((next (handle op choice s).1).eval handle choice (handle op choice s).2)

@[simp] theorem eval_ret {choice : C} {r : Except ε α}
    {s : σ} : (ret r : Program Op Ans ε α).eval handle choice s = (r, s) := rfl

@[simp] theorem eval_pure {choice : C} {a : α} {s : σ} :
    (pure a : Program Op Ans ε α).eval handle choice s = (.ok a, s) := rfl

@[simp] theorem eval_throw {choice : C} {e : ε} {s : σ} :
    (throw e : Program Op Ans ε α).eval handle choice s = (.error e, s) := rfl

@[simp] theorem eval_ask {choice : C} {op : Op} {s : σ} :
    (ask op : Program Op Ans ε (Ans op)).eval handle choice s =
      (.ok (handle op choice s).1, (handle op choice s).2) := rfl

theorem eval_bind {choice : C} {f : α → Program Op Ans ε β} {s : σ} :
    (p >>= f).eval handle choice s =
      match p.eval handle choice s with
      | (.ok a, s') => (f a).eval handle choice s'
      | (.error e, s') => (.error e, s') := by
  induction p generalizing s with
  | ret r => cases r <;> rfl
  | request op next ih => exact ih _

/-- The fixed choice is one of the runs an `Ensures` speaks about. -/
theorem Ensures.eval {handle : (op : Op) → C → σ → Ans op × σ} {choice : C} {allowed : C → Prop}
    {guard : σ → Op → Prop} {Q : Except ε α → σ → Prop} {p : Program Op Ans ε α} {s : σ}
    (h : p.Ensures guard (environment handle allowed) Q s) (hchoice : allowed choice) :
    Q (p.eval handle choice s).1 (p.eval handle choice s).2 := by
  induction p generalizing s with
  | ret => exact h
  | request op next ih => exact ih _ (h.2 _ _ ⟨choice, hchoice, rfl⟩)

end Program

end Effects
