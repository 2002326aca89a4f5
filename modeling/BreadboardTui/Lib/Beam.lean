import Mathlib.Data.List.Flatten
import Mathlib.Data.List.Induction
import Mathlib.Data.List.Perm.Basic
import Mathlib.Order.Lattice

/-!
# Searches in the order of cost

A search extends its states stage by stage, and keeps the cheapest ones up to a limit. If a stage
never makes a state cheaper, and each state may stay as it is at no cost, what has been cut off is
nowhere cheaper than what is left.

Among states in the order of their costs, the first one with a value is taken, unless one of the
same cost has another value.
-/

namespace BreadboardTui.Beam

open List Option

variable {σ γ : Type} [LinearOrder γ] (cost : σ → γ)

/-! ### Stages -/

/-- The cheapest of the extensions, up to a limit. -/
def stage (limit : ℕ) (extend : σ → List σ) (states : List σ) : List σ :=
  ((states.flatMap extend).mergeSort fun a b => cost a ≤ cost b).take limit

def beam (limit : ℕ) (stages : List (σ → List σ)) (states : List σ) : List σ :=
  stages.foldl (fun states extend => stage cost limit extend states) states

/-- All extensions. -/
def all (stages : List (σ → List σ)) (states : List σ) : List σ :=
  stages.foldl (fun states extend => states.flatMap extend) states

/-- The extensions of a state are no cheaper, and one of them costs the same. -/
structure Extends (extend : σ → List σ) (stay : σ → σ) : Prop where
  stay_mem (s : σ) : stay s ∈ extend s
  cost_stay (s : σ) : cost (stay s) = cost s
  cost_le {s t : σ} (h : t ∈ extend s) : cost s ≤ cost t

variable {cost}

variable {states : List σ} {limit : ℕ} {s : σ} {extend : σ → List σ}

theorem mem_of_mem_stage (h : s ∈ stage cost limit extend states) : s ∈ states.flatMap extend :=
  mem_mergeSort.mp (mem_of_mem_take h)

theorem pairwise_mergeSort_cost (cost : σ → γ) (states : List σ) :
    (states.mergeSort fun a b => cost a ≤ cost b).Pairwise fun a b => cost a ≤ cost b := by
  refine (pairwise_mergeSort ?_ ?_ states).imp of_decide_eq_true
  · intro a b c hab hbc
    exact decide_eq_true ((of_decide_eq_true hab).trans (of_decide_eq_true hbc))
  intro a b
  rw [Bool.or_eq_true, decide_eq_true_eq, decide_eq_true_eq]
  exact le_total _ _

/-- Of a list in the order of costs the first states are no dearer than a bound, if so many states
are not. -/
theorem cost_le_of_mem_take {bound : γ} (hsorted : states.Pairwise fun a b => cost a ≤ cost b)
    (hcount : limit ≤ states.countP fun s => cost s ≤ bound) (h : s ∈ states.take limit) :
    cost s ≤ bound := by
  induction states generalizing limit with
  | nil =>
    rw [take_nil] at h
    exact absurd h not_mem_nil
  | cons first states ih =>
    obtain ⟨hfirst, hrest⟩ := pairwise_cons.mp hsorted
    cases limit with
    | zero =>
      rw [take_zero] at h
      exact absurd h not_mem_nil
    | succ limit =>
      -- one state under the bound is enough for the first one to be so
      have hbound : cost first ≤ bound := by
        by_contra hlt
        have hzero : ((first :: states).countP fun s => cost s ≤ bound) = 0 := by
          rw [countP_eq_zero]
          intro t ht hle
          have hle' := of_decide_eq_true hle
          rcases mem_cons.mp ht with rfl | ht
          · exact hlt hle'
          · exact hlt ((hfirst t ht).trans hle')
        rw [hzero] at hcount
        exact absurd hcount (Nat.not_succ_le_zero limit)
      rw [take_succ_cons] at h
      rcases mem_cons.mp h with rfl | h
      · exact hbound
      refine ih hrest ?_ h
      rw [countP_cons, decide_eq_true hbound] at hcount
      exact Nat.le_of_succ_le_succ hcount

variable {t : σ}

theorem cost_le_of_mem_take_of_mem_drop
    (hsorted : states.Pairwise fun a b => cost a ≤ cost b) (hs : s ∈ states.take limit)
    (ht : t ∈ states.drop limit) : cost s ≤ cost t := by
  rw [← take_append_drop limit states, pairwise_append] at hsorted
  exact hsorted.2.2 s hs t ht

/-- What a stage cuts off is nowhere cheaper than what it leaves, also where it comes from a state
that has been cut off before. -/
theorem cost_le_of_notMem_stage {stay : σ → σ}
    (hextend : Extends cost extend stay) (ht : t ∈ extend s)
    (hs : s ∈ states ∨ states.length = limit ∧ ∀ left ∈ states, cost left ≤ cost s)
    (hcut : t ∉ stage cost limit extend states) : (stage cost limit extend states).length = limit ∧
      ∀ left ∈ stage cost limit extend states, cost left ≤ cost t := by
  have hsorted := pairwise_mergeSort_cost cost (states.flatMap extend)
  have hperm := mergeSort_perm (states.flatMap extend) fun a b => cost a ≤ cost b
  rcases hs with hs | ⟨hfull, hle⟩
  · have hmem : t ∈ (states.flatMap extend).mergeSort fun a b => cost a ≤ cost b :=
      hperm.mem_iff.mpr (mem_flatMap.mpr ⟨s, hs, ht⟩)
    have hdrop : t ∈ ((states.flatMap extend).mergeSort fun a b => cost a ≤ cost b).drop limit := by
      rw [← take_append_drop limit (List.mergeSort _ _), mem_append] at hmem
      exact hmem.resolve_left hcut
    refine ⟨?_, fun left hleft => cost_le_of_mem_take_of_mem_drop hsorted hleft hdrop⟩
    have hlength := length_pos_of_mem hdrop
    rw [length_drop] at hlength
    rw [stage, length_take]
    omega
  have hstays : (states.map stay).Sublist (states.flatMap extend) := by
    rw [map_eq_flatMap]
    refine List.Sublist.flatMap_right states fun s _ => ?_
    exact singleton_sublist.mpr (hextend.stay_mem s)
  have hall : (states.map stay).countP (fun left => cost left ≤ cost t) =
      (states.map stay).length := by
    refine countP_eq_length.mpr fun left hleft => ?_
    obtain ⟨before, hbefore, rfl⟩ := mem_map.mp hleft
    rw [hextend.cost_stay]
    exact decide_eq_true ((hle before hbefore).trans (hextend.cost_le ht))
  have hcount : limit ≤ ((states.flatMap extend).mergeSort fun a b => cost a ≤ cost b).countP
      fun left => cost left ≤ cost t := by
    rw [hperm.countP_eq, ← hfull, ← length_map stay, ← hall]
    exact hstays.countP_le
  refine ⟨?_, fun left hleft => cost_le_of_mem_take hsorted hcount hleft⟩
  rw [stage, length_take, Nat.min_eq_left]
  exact Nat.le_trans hcount countP_le_length

variable {stages : List (σ → List σ)}

/-- What the search cuts off is nowhere cheaper than what it leaves. -/
theorem cost_le_of_notMem_beam (hextends : ∀ extend ∈ stages, ∃ stay, Extends cost extend stay)
    (ht : t ∈ all stages states) (hcut : t ∉ beam cost limit stages states) :
    (beam cost limit stages states).length = limit ∧
      ∀ left ∈ beam cost limit stages states, cost left ≤ cost t := by
  induction stages using List.reverseRecOn generalizing t with
  | nil => exact absurd ht hcut
  | append_singleton stages extend ih =>
    obtain ⟨stay, hextend⟩ := hextends extend (mem_append_right _ (mem_singleton_self _))
    rw [all, List.foldl_append, foldl_cons, foldl_nil, mem_flatMap] at ht
    rw [beam, List.foldl_append, foldl_cons, foldl_nil] at hcut ⊢
    obtain ⟨s, hs, hts⟩ := ht
    refine cost_le_of_notMem_stage hextend hts ?_ hcut
    by_cases hmem : s ∈ beam cost limit stages states
    · exact .inl hmem
    · exact .inr (ih (fun other hother => hextends other (mem_append_left _ hother)) hs hmem)

theorem mem_all_of_mem_beam (h : t ∈ beam cost limit stages states) : t ∈ all stages states := by
  induction stages using List.reverseRecOn generalizing t with
  | nil => exact h
  | append_singleton stages extend ih =>
    rw [beam, List.foldl_append, foldl_cons, foldl_nil] at h
    obtain ⟨s, hs, ht⟩ := mem_flatMap.mp (mem_of_mem_stage h)
    rw [all, List.foldl_append, foldl_cons, foldl_nil, mem_flatMap]
    exact ⟨s, ih hs, ht⟩

theorem length_beam_le
    (h : states.length ≤ limit) : (beam cost limit stages states).length ≤ limit := by
  induction stages using List.reverseRecOn with
  | nil => exact h
  | append_singleton =>
    rw [beam, List.foldl_append, foldl_cons, foldl_nil]
    exact length_take_le _ _

theorem beam_subperm_all (limit : ℕ) (stages : List (σ → List σ)) (states : List σ) :
    (beam cost limit stages states).Subperm (all stages states) := by
  induction stages using List.reverseRecOn with
  | nil => exact .refl _
  | append_singleton stages extend ih =>
    rw [beam, List.foldl_append, foldl_cons, foldl_nil]
    rw [all, List.foldl_append, foldl_cons, foldl_nil]
    obtain ⟨left, hperm, hsublist⟩ := ih
    have hflat : ((beam cost limit stages states).flatMap extend).Subperm
        ((all stages states).flatMap extend) :=
      ⟨left.flatMap extend, hperm.flatMap_right extend, hsublist.flatMap extend⟩
    exact ((take_sublist _ _).subperm.trans (mergeSort_perm _ _).subperm).trans hflat

theorem mem_beam_of_length_le (hstages : ∀ extend ∈ stages, ∃ stay, Extends cost extend stay)
    (ht : t ∈ all stages states) (hlength : (all stages states).length ≤ limit) :
    t ∈ beam cost limit stages states := by
  by_contra hcut
  have hfull := (cost_le_of_notMem_beam hstages ht hcut).1
  have hperm := (beam_subperm_all limit stages states).perm_of_length_le (hfull ▸ hlength)
  exact hcut (hperm.mem_iff.mpr ht)

/-! ### The cheapest state with a value -/

inductive Cheapest (σ : Type) where
  | found (s : σ)
  | tied
  | none
  deriving DecidableEq, Repr

variable {τ : Type} [DecidableEq τ]

/-- Compares the states with the one that has been found, as long as they cost the same. -/
def settle (cost : σ → γ) (value : σ → Option τ) (best : σ) (bestValue : τ) :
    List σ → Cheapest σ
  | [] => .found best
  | s :: states =>
    if cost best < cost s then .found best
    else match value s with
      | none => settle cost value best bestValue states
      | some v => if v = bestValue then settle cost value best bestValue states else .tied

def cheapest (cost : σ → γ) (value : σ → Option τ) : List σ → Cheapest σ
  | [] => .none
  | s :: states =>
    match value s with
    | none => cheapest cost value states
    | some v => settle cost value s v states

variable {value : σ → Option τ}

theorem eq_of_settle {best : σ} {bestValue : τ}
    (h : settle cost value best bestValue states = .found s)
    (hsorted : states.Pairwise fun a b => cost a ≤ cost b) :
    s = best ∧ ∀ t ∈ states, cost t ≤ cost best → ∀ v, value t = some v → v = bestValue := by
  induction states with
  | nil =>
    rw [settle] at h
    exact ⟨(Cheapest.found.inj h).symm, fun t ht => absurd ht not_mem_nil⟩
  | cons first states ih =>
    obtain ⟨hfirst, hrest⟩ := pairwise_cons.mp hsorted
    rw [settle] at h
    split at h
    · next hlt =>
      refine ⟨(Cheapest.found.inj h).symm, fun t ht hle => ?_⟩
      have hle' : cost first ≤ cost t := by
        rcases mem_cons.mp ht with rfl | ht
        · exact le_rfl
        · exact hfirst t ht
      exact absurd (hlt.trans_le (hle'.trans hle)) (lt_irrefl _)
    split at h
    · next hnone =>
      obtain ⟨heq, htie⟩ := ih h hrest
      refine ⟨heq, fun t ht hle v hv => ?_⟩
      rcases mem_cons.mp ht with rfl | ht
      · rw [hnone] at hv
        exact absurd hv (some_ne_none _).symm
      · exact htie t ht hle v hv
    next hsome =>
    split at h
    · next hsame =>
      obtain ⟨heq, htie⟩ := ih h hrest
      refine ⟨heq, fun t ht hle v hv => ?_⟩
      rcases mem_cons.mp ht with rfl | ht
      · rw [hsome] at hv
        rw [← some.inj hv, hsame]
      · exact htie t ht hle v hv
    · exact absurd h (by simp)

/-- A state that is found has a value, no cheaper one has any, and those of the same cost have the
same. -/
theorem eq_of_cheapest (h : cheapest cost value states = .found s)
    (hsorted : states.Pairwise fun a b => cost a ≤ cost b) :
    s ∈ states ∧ ∃ v, value s = some v ∧ ∀ t ∈ states,
      (cost t < cost s → value t = none) ∧ (cost t = cost s → ∀ u, value t = some u → u = v) := by
  induction states with
  | nil => exact absurd h (by simp [cheapest])
  | cons first states ih =>
    obtain ⟨hfirst, hrest⟩ := pairwise_cons.mp hsorted
    rw [cheapest] at h
    split at h
    · next hnone =>
      obtain ⟨hmem, v, hv, hcheap⟩ := ih h hrest
      refine ⟨mem_cons_of_mem _ hmem, v, hv, fun t ht => ?_⟩
      rcases mem_cons.mp ht with rfl | ht
      · refine ⟨fun _ => hnone, fun _ u hu => ?_⟩
        rw [hnone] at hu
        exact absurd hu (some_ne_none _).symm
      · exact hcheap t ht
    next v hv =>
    obtain ⟨rfl, htie⟩ := eq_of_settle h hrest
    refine ⟨mem_cons_self, v, hv, fun t ht => ?_⟩
    rcases mem_cons.mp ht with rfl | ht
    · refine ⟨fun hlt => absurd hlt (lt_irrefl _), fun _ u hu => ?_⟩
      rw [hv] at hu
      exact (some.inj hu).symm
    exact ⟨fun hlt => absurd (hlt.trans_le (hfirst t ht)) (lt_irrefl _),
      fun heq u hu => htie t ht heq.le u hu⟩

theorem settle_eq_found {v : τ} (honly : ∀ t ∈ states, ∀ u, value t = some u → u = v) :
    settle cost value s v states = .found s := by
  induction states with
  | nil => rfl
  | cons first states ih =>
    have hrest := ih fun t ht => honly t (mem_cons_of_mem _ ht)
    rw [settle]
    split
    · rfl
    split
    · exact hrest
    · next u hu => rw [if_pos (honly first mem_cons_self u hu), hrest]

theorem cheapest_eq_found {v : τ} (hmem : s ∈ states) (hv : value s = some v)
    (honly : ∀ t ∈ states, ∀ u, value t = some u → t = s) :
    cheapest cost value states = .found s := by
  induction states with
  | nil => exact absurd hmem not_mem_nil
  | cons first states ih =>
    have hrest : ∀ t ∈ states, ∀ u, value t = some u → t = s :=
      fun t ht => honly t (mem_cons_of_mem _ ht)
    rw [cheapest]
    split
    · next hnone =>
      refine ih ?_ hrest
      rcases mem_cons.mp hmem with rfl | hmem
      · rw [hnone] at hv
        exact absurd hv (some_ne_none _).symm
      · exact hmem
    next u hu =>
    obtain rfl := honly first mem_cons_self u hu
    refine settle_eq_found fun t ht w hw => ?_
    rw [hrest t ht w hw, hu] at hw
    exact (some.inj hw).symm

end BreadboardTui.Beam
