import BreadboardTui.Journal.Context
import Mathlib.Algebra.Order.Ring.Rat

/-!
# The cut point of a compaction

`findCutPoint` on the entries of a session path: the newest entry at which the messages from there on
reach the budget, the first valid cut point from it on, and the entries before it that are no
messages.

A valid cut point is never a tool result, but it may stand between the calls of a turn and their
results. `keepsPairs_findCutPoint_iff` says exactly when this separates a call from its result.
-/

namespace BreadboardTui

open List Option

namespace Compaction

open Journal

/-! ### Entries and roles -/

/-- The roles at which a message can be cut. -/
def isCutRole : AgentMessage → Bool
  | .user _ | .assistant _ | .branchSummary .. | .compactionSummary .. => true
  | .other .bashExecution _ | .other .hookMessage _ => true
  | _ => false

def isCutPoint (entry : SessionEntry) : Bool :=
  match entry.body with
  | .message message => isCutRole message
  | .branchSummary .. | .customMessage _ => true
  | _ => false

/-- The entries that start a turn. -/
def startsTurn (entry : SessionEntry) : Bool :=
  match entry.body with
  | .message (.user _) | .message (.other .bashExecution _) => true
  | .branchSummary .. | .customMessage _ => true
  | _ => false

def isUserMessage (entry : SessionEntry) : Bool :=
  match entry.body with
  | .message (.user _) => true
  | _ => false

/-- `entry.message`, where the entry is a message. -/
def message? (entry : SessionEntry) : Option AgentMessage :=
  match entry.body with
  | .message message => some message
  | _ => none

section Entries

variable (entries : List SessionEntry)

/-- The message at an index. -/
def messageAt (i : ℕ) : Option AgentMessage := entries[i]?.bind message?

/-! ### The search -/

/-- The indices from `startIndex` up to `endIndex`. -/
def indices (startIndex endIndex : ℕ) : List ℕ := List.range' startIndex (endIndex - startIndex)

def findValidCutPoints (startIndex endIndex : ℕ) : List ℕ :=
  (indices startIndex endIndex).filter fun i => entries[i]?.any isCutPoint

/-- `findTurnStartIndex`; `none` is `-1`. -/
def findTurnStartIndex (entryIndex startIndex : ℕ) : Option ℕ :=
  (indices startIndex (entryIndex + 1)).reverse.find? fun i => entries[i]?.any startsTurn

/-- The walk backwards, over the indices that are left. -/
def walkBack (countMessage : AgentMessage → ℚ) (keepRecentTokens : ℚ) : ℚ → List ℕ → Option ℕ
  | _, [] => none
  | accumulatedTokens, i :: rest =>
    match messageAt entries i with
    | none => walkBack countMessage keepRecentTokens accumulatedTokens rest
    | some message =>
      let accumulatedTokens := accumulatedTokens + countMessage message
      if keepRecentTokens ≤ accumulatedTokens then some i
      else walkBack countMessage keepRecentTokens accumulatedTokens rest

/-- The scan backwards from a cut over the entries that are no messages. -/
def includeNonMessages (startIndex : ℕ) : ℕ → ℕ
  | 0 => 0
  | n + 1 =>
    if n + 1 ≤ startIndex then n + 1
    else if entries[n]?.any fun entry => entry.isCompaction || (message? entry).isSome then n + 1
    else includeNonMessages startIndex n

structure CutPointResult where
  firstKeptEntryIndex : ℕ
  /-- `none` is `-1`. -/
  turnStartIndex : Option ℕ
  isSplitTurn : Bool
  deriving DecidableEq, Repr

/-- The cut among the valid cut points, before the scan. -/
def chooseCut (cutPoints : List ℕ) (default : ℕ) : Option ℕ → ℕ
  | none => default
  | some i => (cutPoints.find? (i ≤ ·)).getD default

def findCutPoint (countMessage : AgentMessage → ℚ) (startIndex endIndex : ℕ)
    (keepRecentTokens : ℚ) : CutPointResult :=
  match findValidCutPoints entries startIndex endIndex with
  | [] => ⟨startIndex, none, false⟩
  | first :: others =>
    let reached := walkBack entries countMessage keepRecentTokens 0
      (indices startIndex endIndex).reverse
    let cutIndex := includeNonMessages entries startIndex (chooseCut (first :: others) first reached)
    let isUser := entries[cutIndex]?.any isUserMessage
    let turnStartIndex := if isUser then none else findTurnStartIndex entries cutIndex startIndex
    ⟨cutIndex, turnStartIndex, !isUser && turnStartIndex.isSome⟩

/-! ### Calls and results -/

/-- The tool calls of the entry at an index. -/
def callsAt (i : ℕ) : List String := ((messageAt entries i).map AgentMessage.calls).getD []

/-- The call that the entry at an index answers. -/
def resultAt (i : ℕ) : Option String := (messageAt entries i).bind AgentMessage.resultId?

/-- The result at `j` answers the call at `i`, the last one before it with its id. -/
structure Answers (i j : ℕ) : Prop where
  lt : i < j
  call : ∃ id ∈ callsAt entries i, resultAt entries j = some id ∧
    ∀ k, i < k → k < j → id ∉ callsAt entries k

/-- Every result follows an assistant message with its call. -/
def CallsPrecede : Prop :=
  ∀ j id, resultAt entries j = some id → ∃ i < j, id ∈ callsAt entries i

/-- The cut lies in the window, leaves no call without its result, and knows the turn it splits. -/
structure KeepsPairs (startIndex endIndex : ℕ) (cut : CutPointResult) : Prop where
  start_le : startIndex ≤ cut.firstKeptEntryIndex
  lt_end : cut.firstKeptEntryIndex < endIndex
  pairs : ∀ i j, Answers entries i j → startIndex ≤ i → i < cut.firstKeptEntryIndex →
    j < cut.firstKeptEntryIndex
  turn : cut.isSplitTurn = true → ∃ t, cut.turnStartIndex = some t ∧
    t ≤ cut.firstKeptEntryIndex ∧
      ∀ k, t < k → k ≤ cut.firstKeptEntryIndex → entries[k]?.any isUserMessage = false

/-- The tokens of the messages at these indices. -/
def tokensOf (countMessage : AgentMessage → ℚ) (is : List ℕ) : ℚ :=
  (is.map fun i => ((messageAt entries i).map countMessage).getD 0).sum

/-- The messages from `k` on reach the budget: those from one of them to the end are enough. -/
def Reaches (countMessage : AgentMessage → ℚ) (endIndex : ℕ) (keepRecentTokens : ℚ) (k : ℕ) : Prop :=
  ∃ m, k ≤ m ∧ m < endIndex ∧ (messageAt entries m).isSome ∧
    keepRecentTokens ≤ tokensOf entries countMessage (indices m endIndex)

/-- No valid cut point between a call and its result is one that the budget leads to: if the
messages after the call reach it, those after the cut point already do. -/
def NoOpenCut (countMessage : AgentMessage → ℚ) (startIndex endIndex : ℕ)
    (keepRecentTokens : ℚ) : Prop :=
  ∀ i j q, Answers entries i j → startIndex ≤ i → i < q → q < j → q < endIndex →
    entries[q]?.any isCutPoint = true →
      Reaches entries countMessage endIndex keepRecentTokens (i + 1) →
        Reaches entries countMessage endIndex keepRecentTokens (q + 1)

end Entries

section Proofs

variable {entries : List SessionEntry} {countMessage : AgentMessage → ℚ} {keepRecentTokens : ℚ}
  {startIndex endIndex i j k : ℕ}

theorem mem_indices : i ∈ indices startIndex endIndex ↔ startIndex ≤ i ∧ i < endIndex := by
  rw [indices, mem_range'_1]
  omega

theorem indices_succ (h : startIndex ≤ k) :
    indices startIndex (k + 1) = indices startIndex k ++ [k] := by
  have hlength : k + 1 - startIndex = k - startIndex + 1 := by omega
  rw [indices, hlength, range'_1_concat, indices, Nat.add_sub_cancel' h]

theorem indices_self : indices startIndex startIndex = [] := by
  rw [indices, Nat.sub_self]
  rfl

theorem tokensOf_indices (entries : List SessionEntry) (countMessage : AgentMessage → ℚ)
    (h : k < endIndex) :
    tokensOf entries countMessage (indices k endIndex) =
      ((messageAt entries k).map countMessage).getD 0 +
        tokensOf entries countMessage (indices (k + 1) endIndex) := by
  have hlength : endIndex - k = endIndex - (k + 1) + 1 := by omega
  rw [tokensOf, indices, hlength, range'_succ, map_cons, sum_cons]
  rfl

/-! ### The walk backwards -/

/-- What the walk finds from `k` on down: the first message at which the budget is reached. -/
def FirstReached (entries : List SessionEntry) (countMessage : AgentMessage → ℚ)
    (startIndex endIndex : ℕ) (keepRecentTokens : ℚ) (k : ℕ) : Option ℕ → Prop
  | none => ∀ m, startIndex ≤ m → m < k → (messageAt entries m).isSome →
    ¬ keepRecentTokens ≤ tokensOf entries countMessage (indices m endIndex)
  | some b => startIndex ≤ b ∧ b < k ∧ (messageAt entries b).isSome ∧
    keepRecentTokens ≤ tokensOf entries countMessage (indices b endIndex) ∧
    ∀ m, b < m → m < k → (messageAt entries m).isSome →
      ¬ keepRecentTokens ≤ tokensOf entries countMessage (indices m endIndex)

/-- One more entry in which the budget is not reached. -/
theorem FirstReached.step {r : Option ℕ}
    (h : FirstReached entries countMessage startIndex endIndex keepRecentTokens k r)
    (hk : (messageAt entries k).isSome →
      ¬ keepRecentTokens ≤ tokensOf entries countMessage (indices k endIndex)) :
    FirstReached entries countMessage startIndex endIndex keepRecentTokens (k + 1) r := by
  cases r with
  | none =>
    intro m hstart hm hmessage
    rcases Nat.lt_succ_iff_lt_or_eq.mp hm with hm | rfl
    · exact h m hstart hm hmessage
    · exact hk hmessage
  | some =>
    obtain ⟨hstart, hb, hmessage, hreached, hafter⟩ := h
    refine ⟨hstart, by omega, hmessage, hreached, fun m hbm hm hsome => ?_⟩
    rcases Nat.lt_succ_iff_lt_or_eq.mp hm with hm | rfl
    · exact hafter m hbm hm hsome
    · exact hk hsome

/-- The loop: from `k` on the messages have been counted, below `k` they are still to come. -/
theorem firstReached_walkBack (hstart : startIndex ≤ k) (hend : k ≤ endIndex) :
    FirstReached entries countMessage startIndex endIndex keepRecentTokens k
      (walkBack entries countMessage keepRecentTokens
        (tokensOf entries countMessage (indices k endIndex)) (indices startIndex k).reverse) := by
  induction k, hstart using Nat.le_induction with
  | base =>
    rw [indices_self]
    intro m hm hlt
    omega
  | succ k hk ih =>
    have htokens := tokensOf_indices entries countMessage (Nat.lt_of_succ_le hend)
    have ih := ih (by omega)
    rw [indices_succ hk, reverse_append, reverse_singleton, singleton_append, walkBack]
    cases hmessage : messageAt entries k with
    | none =>
      rw [hmessage] at htokens
      have hsame : tokensOf entries countMessage (indices k endIndex) =
          tokensOf entries countMessage (indices (k + 1) endIndex) := htokens.trans (zero_add _)
      rw [hsame] at ih
      refine ih.step fun hsome => ?_
      rw [hmessage] at hsome
      cases hsome
    | some message =>
      rw [hmessage] at htokens
      have hsum : tokensOf entries countMessage (indices (k + 1) endIndex) + countMessage message =
          tokensOf entries countMessage (indices k endIndex) := (add_comm _ _).trans htokens.symm
      dsimp only
      rw [hsum]
      split
      · next hreached =>
        refine ⟨hk, Nat.lt_succ_self k, by rw [hmessage]; rfl, hreached, fun m hm hlt => ?_⟩
        omega
      · next hnot => exact ih.step fun _ => hnot

/-- What the walk finds says from where the budget is reached. -/
theorem FirstReached.reaches_iff {b : ℕ}
    (h : FirstReached entries countMessage startIndex endIndex keepRecentTokens endIndex (some b)) :
    Reaches entries countMessage endIndex keepRecentTokens k ↔ k ≤ b := by
  obtain ⟨-, hb, hmessage, hreached, hafter⟩ := h
  constructor
  · rintro ⟨m, hk, hm, hsome, hkeep⟩
    by_contra hlt
    exact hafter m (by omega) hm hsome hkeep
  · exact fun hk => ⟨b, hk, hb, hmessage, hreached⟩

theorem FirstReached.not_reaches
    (h : FirstReached entries countMessage startIndex endIndex keepRecentTokens endIndex none)
    (hk : startIndex ≤ k) : ¬ Reaches entries countMessage endIndex keepRecentTokens k := by
  rintro ⟨m, hm, hend, hsome, hkeep⟩
  exact h m (hk.trans hm) hend hsome hkeep

/-! ### The scan over entries that are no messages -/

/-- The scan stays in the window, and the entries that it takes in are no messages. -/
theorem includeNonMessages_spec (entries : List SessionEntry) (h : startIndex ≤ k) :
    startIndex ≤ includeNonMessages entries startIndex k ∧
      includeNonMessages entries startIndex k ≤ k ∧
        ∀ m, includeNonMessages entries startIndex k ≤ m → m < k → messageAt entries m = none := by
  induction k with
  | zero => exact ⟨h, le_rfl, fun m _ hm => absurd hm (Nat.not_lt_zero m)⟩
  | succ n ih =>
    rw [includeNonMessages]
    split
    · exact ⟨h, le_rfl, fun m hm hlt => by omega⟩
    next hle =>
    obtain ⟨hstart, hn, hnone⟩ := ih (by omega)
    split
    · exact ⟨h, le_rfl, fun m hm hlt => by omega⟩
    next hstop =>
    refine ⟨hstart, by omega, fun m hm hlt => ?_⟩
    rcases Nat.lt_succ_iff_lt_or_eq.mp hlt with hlt | rfl
    · exact hnone m hm hlt
    rw [messageAt]
    cases hentry : entries[m]? with
    | none => rfl
    | some =>
      rw [hentry, Option.any_some, Bool.or_eq_true, not_or] at hstop
      exact Option.not_isSome_iff_eq_none.mp hstop.2

/-! ### Cut points, calls and results -/

theorem mem_findValidCutPoints : k ∈ findValidCutPoints entries startIndex endIndex ↔
    (startIndex ≤ k ∧ k < endIndex) ∧ entries[k]?.any isCutPoint = true := by
  rw [findValidCutPoints, mem_filter, mem_indices]

variable {id : String}

/-- The message with a call is one of the assistant, at which a cut is valid. -/
theorem isCutPoint_of_call (h : id ∈ callsAt entries i) : entries[i]?.any isCutPoint = true := by
  rw [callsAt, messageAt] at h
  cases hentry : entries[i]? with
  | none =>
    rw [hentry] at h
    cases h
  | some entry =>
    rw [hentry, bind_some, message?] at h
    rw [Option.any_some, isCutPoint]
    cases hbody : entry.body with
    | message message =>
      rw [hbody] at h
      cases message with
      | assistant => rfl
      | _ => cases h
    | _ => exact absurd h (by rw [hbody]; exact not_mem_nil)

theorem isCutPoint_of_result (h : resultAt entries j = some id) :
    entries[j]?.any isCutPoint = false := by
  rw [resultAt, messageAt] at h
  cases hentry : entries[j]? with
  | none => rfl
  | some entry =>
    rw [hentry, bind_some, message?] at h
    rw [Option.any_some, isCutPoint]
    cases hbody : entry.body with
    | message message =>
      rw [hbody] at h
      cases message with
      | toolResult => rfl
      | _ => cases h
    | _ => exact absurd h (by rw [hbody]; exact nofun)

theorem message_of_call (h : id ∈ callsAt entries i) : messageAt entries i ≠ none := by
  intro hnone
  rw [callsAt, hnone] at h
  cases h

theorem message_of_result (h : resultAt entries j = some id) : messageAt entries j ≠ none := by
  intro hnone
  rw [resultAt, hnone] at h
  cases h

variable {p : ℕ → Bool}

/-- The indices from `start` on are found backwards: the last one with the property. -/
theorem find?_reverse_indices {t : ℕ} (h : (indices startIndex k).reverse.find? p = some t) :
    startIndex ≤ t ∧ t < k ∧ p t = true ∧ ∀ m, t < m → m < k → p m = false := by
  obtain ⟨hp, before, after, hsplit, hbefore⟩ := find?_eq_some_iff_append.mp h
  have hmem : t ∈ indices startIndex k := by
    rw [← mem_reverse, hsplit]
    simp
  obtain ⟨hstart, hlt⟩ := mem_indices.mp hmem
  refine ⟨hstart, hlt, hp, fun m htm hmk => ?_⟩
  -- the indices after `t` come before it in the reversed list
  have hm : m ∈ before ++ t :: after := by
    rw [← hsplit, mem_reverse]
    exact mem_indices.mpr ⟨by omega, hmk⟩
  rcases mem_append.mp hm with hm | hm
  · exact Bool.eq_false_of_not_eq_true' (hbefore m hm)
  have hsorted : (before ++ t :: after).Pairwise (· > ·) := by
    rw [← hsplit, pairwise_reverse, indices]
    exact pairwise_lt_range'
  have htail := (pairwise_cons.mp (pairwise_append.mp hsorted).2.1).1
  rcases mem_cons.mp hm with rfl | hm
  · omega
  have := htail m hm
  omega

theorem find?_indices {l : List ℕ} (hsorted : l.Pairwise (· < ·)) {q : ℕ}
    (h : l.find? p = some q) : q ∈ l ∧ p q = true ∧ ∀ m ∈ l, m < q → p m = false := by
  obtain ⟨hp, before, after, rfl, hbefore⟩ := find?_eq_some_iff_append.mp h
  refine ⟨by simp, hp, fun m hm hlt => ?_⟩
  rcases mem_append.mp hm with hm | hm
  · exact Bool.eq_false_of_not_eq_true' (hbefore m hm)
  have htail := (pairwise_cons.mp (pairwise_append.mp hsorted).2.1).1
  rcases mem_cons.mp hm with rfl | hm
  · omega
  have := htail m hm
  omega

theorem findValidCutPoints_sorted :
    (findValidCutPoints entries startIndex endIndex).Pairwise (· < ·) := by
  rw [findValidCutPoints, indices]
  exact List.Pairwise.filter _ pairwise_lt_range'

theorem not_isUserMessage_of_not_startsTurn {entry : SessionEntry} (h : startsTurn entry = false) :
    isUserMessage entry = false := by
  rw [isUserMessage]
  rw [startsTurn] at h
  split
  · next hbody =>
    rw [hbody] at h
    cases h
  · rfl

theorem chooseCut_mem (first : ℕ) (others : List ℕ) (reached : Option ℕ) :
    chooseCut (first :: others) first reached ∈ first :: others := by
  cases reached with
  | none => exact mem_cons_self
  | some b =>
    rw [chooseCut]
    cases hfind : (first :: others).find? (b ≤ ·) with
    | none => exact mem_cons_self
    | some => exact mem_of_find?_eq_some hfind

/-! ### The result -/

/-- The cut before the scan: a valid cut point, from which on the calls before the budget point are
still open, or the first one, before which there are no calls. -/
theorem pairs_chooseCut_iff {first : ℕ} {others : List ℕ} {reached : Option ℕ}
    (hpoints : findValidCutPoints entries startIndex endIndex = first :: others)
    (hreached : FirstReached entries countMessage startIndex endIndex keepRecentTokens endIndex
      reached) :
    (∀ i j, Answers entries i j → startIndex ≤ i → i < chooseCut (first :: others) first reached →
      j < chooseCut (first :: others) first reached) ↔
      NoOpenCut entries countMessage startIndex endIndex keepRecentTokens := by
  have hsorted : (first :: others).Pairwise (· < ·) := hpoints ▸ findValidCutPoints_sorted
  have hmem : ∀ {q}, q ∈ first :: others ↔
      (startIndex ≤ q ∧ q < endIndex) ∧ entries[q]?.any isCutPoint = true := by
    intro q
    rw [← hpoints]
    exact mem_findValidCutPoints
  -- a call in the window is a cut point itself
  have hcall : ∀ {i j}, Answers entries i j → startIndex ≤ i → i < endIndex → i ∈ first :: others := by
    intro i j hanswers hi hend
    obtain ⟨id, hid, -⟩ := hanswers.call
    exact hmem.mpr ⟨⟨hi, hend⟩, isCutPoint_of_call hid⟩
  have hfirst : ∀ {i j}, Answers entries i j → startIndex ≤ i → ¬ i < first := by
    intro i j hanswers hi hlt
    have hend := (hmem.mp mem_cons_self).1.2
    rcases mem_cons.mp (hcall hanswers hi (by omega)) with rfl | hmem'
    · exact lt_irrefl i hlt
    have := (pairwise_cons.mp hsorted).1 i hmem'
    omega
  cases reached with
  | none =>
    constructor
    · intro _ i j q _ hi _ _ _ _ hreaches
      exact absurd hreaches (hreached.not_reaches (by omega))
    intro _ i j hanswers hi hlt
    exact absurd hlt (hfirst hanswers hi)
  | some b =>
    rw [chooseCut]
    cases hfind : (first :: others).find? (b ≤ ·) with
    | none =>
      constructor
      · intro _ i j q _ hi hiq _ hq hcut _
        have hnot := find?_eq_none.mp hfind q (hmem.mpr ⟨⟨by omega, hq⟩, hcut⟩)
        rw [decide_eq_true_eq] at hnot
        exact hreached.reaches_iff.mpr (by omega)
      intro _ i j hanswers hi hlt
      exact absurd hlt (hfirst hanswers hi)
    | some p =>
      obtain ⟨hp, hbp, hleast⟩ := find?_indices hsorted hfind
      rw [decide_eq_true_eq] at hbp
      have hcutp := (hmem.mp hp).2
      rw [getD_some]
      constructor
      · intro hpairs i j q hanswers hi hiq hqj hq hcut hreaches
        refine hreached.reaches_iff.mpr ?_
        by_contra hlt
        have hib := hreached.reaches_iff.mp hreaches
        -- `p` is the first cut point from the budget point on
        have hpq : p ≤ q := by
          by_contra hqp
          have hnot := hleast q (hmem.mpr ⟨⟨by omega, hq⟩, hcut⟩) (by omega)
          rw [decide_eq_false_iff_not] at hnot
          omega
        have := hpairs i j hanswers hi (by omega)
        omega
      intro hopen i j hanswers hi hip
      by_contra hjp
      have hend := (hmem.mp hp).1.2
      have hnot := hleast i (hcall hanswers hi (by omega)) hip
      rw [decide_eq_false_iff_not] at hnot
      have hne : p ≠ j := by
        rintro rfl
        obtain ⟨id, -, hresult, -⟩ := hanswers.call
        rw [isCutPoint_of_result hresult] at hcutp
        cases hcutp
      have hreaches := hopen i j p hanswers hi hip (by omega) hend hcutp
        (hreached.reaches_iff.mpr (by omega))
      have := hreached.reaches_iff.mp hreaches
      omega

/-- The scan does not change which calls and results the cut separates. -/
theorem pairs_includeNonMessages_iff (h : startIndex ≤ k) :
    (∀ i j, Answers entries i j → startIndex ≤ i → i < includeNonMessages entries startIndex k →
      j < includeNonMessages entries startIndex k) ↔
      ∀ i j, Answers entries i j → startIndex ≤ i → i < k → j < k := by
  obtain ⟨hstart, hle, hnone⟩ := includeNonMessages_spec entries h
  have hmessage : ∀ m, messageAt entries m ≠ none →
      (m < includeNonMessages entries startIndex k ↔ m < k) := by
    intro m hm
    refine ⟨fun hlt => by omega, fun hlt => ?_⟩
    by_contra hge
    exact hm (hnone m (by omega) hlt)
  refine forall_congr' fun i => forall_congr' fun j => imp_congr_right fun hanswers => ?_
  obtain ⟨id, hid, hresult, -⟩ := hanswers.call
  rw [hmessage i (message_of_call hid), hmessage j (message_of_result hresult)]

/-- The turn that is split starts in the window, at or before the cut, and no user message follows its
start up to the cut. -/
theorem findCutPoint_turn (entries : List SessionEntry) (countMessage : AgentMessage → ℚ)
    (startIndex endIndex : ℕ) (keepRecentTokens : ℚ)
    (hsplit : (findCutPoint entries countMessage startIndex endIndex keepRecentTokens).isSplitTurn =
      true) :
    ∃ t, (findCutPoint entries countMessage startIndex endIndex keepRecentTokens).turnStartIndex =
      some t ∧ startIndex ≤ t ∧
        t ≤ (findCutPoint entries countMessage startIndex endIndex
          keepRecentTokens).firstKeptEntryIndex ∧
          ∀ k, t < k → k ≤ (findCutPoint entries countMessage startIndex endIndex
            keepRecentTokens).firstKeptEntryIndex → entries[k]?.any isUserMessage = false := by
  cases hpoints : findValidCutPoints entries startIndex endIndex with
  | nil =>
    rw [findCutPoint, hpoints] at hsplit
    cases hsplit
  | cons =>
    rw [findCutPoint, hpoints] at hsplit ⊢
    dsimp only at hsplit ⊢
    generalize includeNonMessages entries startIndex _ = cut at hsplit ⊢
    rw [Bool.and_eq_true, Bool.not_eq_true'] at hsplit
    obtain ⟨huser, hturn⟩ := hsplit
    rw [if_neg (by rw [huser]; exact Bool.false_ne_true)] at hturn ⊢
    obtain ⟨t, ht⟩ := isSome_iff_exists.mp hturn
    obtain ⟨hstart, hlt, -, hafter⟩ := find?_reverse_indices ht
    refine ⟨t, ht, hstart, Nat.lt_succ_iff.mp hlt, fun k htk hk => ?_⟩
    have hnot := hafter k htk (Nat.lt_succ_of_le hk)
    cases hentry : entries[k]? with
    | none => rfl
    | some =>
      rw [hentry] at hnot
      exact not_isUserMessage_of_not_startsTurn hnot

/-- The cut is in the window, unless the window is empty. -/
theorem findCutPoint_mem (entries : List SessionEntry) (countMessage : AgentMessage → ℚ)
    (startIndex endIndex : ℕ) (keepRecentTokens : ℚ) :
    startIndex ≤
        (findCutPoint entries countMessage startIndex endIndex keepRecentTokens).firstKeptEntryIndex ∧
      (startIndex < endIndex →
        (findCutPoint entries countMessage startIndex endIndex keepRecentTokens).firstKeptEntryIndex <
          endIndex) := by
  cases hpoints : findValidCutPoints entries startIndex endIndex with
  | nil =>
    rw [findCutPoint, hpoints]
    exact ⟨le_rfl, id⟩
  | cons first others =>
    have hchosen := chooseCut_mem first others (walkBack entries countMessage keepRecentTokens 0
      (indices startIndex endIndex).reverse)
    rw [← hpoints] at hchosen
    have hmem := (mem_findValidCutPoints.mp hchosen).1
    rw [hpoints] at hmem
    rw [findCutPoint, hpoints]
    obtain ⟨hstart, hle, -⟩ := includeNonMessages_spec entries hmem.1
    exact ⟨hstart, fun _ => hle.trans_lt hmem.2⟩

/-- The cut keeps calls and results together exactly where the budget leads to no cut point between
a call and its result. -/
theorem keepsPairs_findCutPoint_iff (entries : List SessionEntry)
    (countMessage : AgentMessage → ℚ) (startIndex endIndex : ℕ) (keepRecentTokens : ℚ)
    (hwindow : startIndex < endIndex) :
    KeepsPairs entries startIndex endIndex
      (findCutPoint entries countMessage startIndex endIndex keepRecentTokens) ↔
        NoOpenCut entries countMessage startIndex endIndex keepRecentTokens := by
  obtain ⟨hstart, hend⟩ := findCutPoint_mem entries countMessage startIndex endIndex keepRecentTokens
  have hturn := findCutPoint_turn entries countMessage startIndex endIndex keepRecentTokens
  have hwalk : FirstReached entries countMessage startIndex endIndex keepRecentTokens endIndex
      (walkBack entries countMessage keepRecentTokens 0 (indices startIndex endIndex).reverse) := by
    have hall : FirstReached entries countMessage startIndex endIndex keepRecentTokens endIndex
        (walkBack entries countMessage keepRecentTokens
          (tokensOf entries countMessage (indices endIndex endIndex))
          (indices startIndex endIndex).reverse) := firstReached_walkBack hwindow.le le_rfl
    rwa [indices_self] at hall
  -- the window and the turn are always right, so the pairs decide
  have hpairs : KeepsPairs entries startIndex endIndex
      (findCutPoint entries countMessage startIndex endIndex keepRecentTokens) ↔
        ∀ i j, Answers entries i j → startIndex ≤ i →
          i < (findCutPoint entries countMessage startIndex endIndex
            keepRecentTokens).firstKeptEntryIndex →
          j < (findCutPoint entries countMessage startIndex endIndex
            keepRecentTokens).firstKeptEntryIndex := by
    refine ⟨KeepsPairs.pairs, fun h => ⟨hstart, hend hwindow, h, fun hsplit => ?_⟩⟩
    obtain ⟨t, ht, -, hle, hafter⟩ := hturn hsplit
    exact ⟨t, ht, hle, hafter⟩
  rw [hpairs]
  cases hpoints : findValidCutPoints entries startIndex endIndex with
  | nil =>
    rw [findCutPoint, hpoints]
    refine ⟨fun _ i j q _ hi hiq _ hq hcut => ?_, fun _ i j _ hi hlt => ?_⟩
    · have hmem : q ∈ findValidCutPoints entries startIndex endIndex :=
        mem_findValidCutPoints.mpr ⟨⟨by omega, hq⟩, hcut⟩
      rw [hpoints] at hmem
      cases hmem
    · exact absurd hlt (not_lt.mpr hi)
  | cons first others =>
    have hchosen := chooseCut_mem first others (walkBack entries countMessage keepRecentTokens 0
      (indices startIndex endIndex).reverse)
    rw [← hpoints] at hchosen
    have hmem := (mem_findValidCutPoints.mp hchosen).1.1
    rw [hpoints] at hmem
    rw [← pairs_chooseCut_iff hpoints hwalk, findCutPoint, hpoints]
    exact pairs_includeNonMessages_iff hmem

end Proofs

/-! ### A note between the results of a turn -/

section Examples

def noteEntry (id : String) (body : EntryBody) : SessionEntry := ⟨id, none, "t", body⟩

/-- A turn with two calls, with a message that is injected between their results. -/
def interruptedTurn : List SessionEntry :=
  [noteEntry "e1" (.message (.user "go")),
    noteEntry "e2" (.message (.assistant ⟨"p", "m", .toolUse, false, [.toolCall "a" "read",
      .toolCall "b" "read"]⟩)),
    noteEntry "e3" (.message (.toolResult "a" "one" false)),
    noteEntry "e4" (.customMessage ⟨some "note", some "hello", none, none⟩),
    noteEntry "e5" (.message (.toolResult "b" "two" false))]

theorem callsPrecede_interruptedTurn : CallsPrecede interruptedTurn := by
  intro j id h
  rcases j with _ | _ | _ | _ | _ | j
  · cases h
  · cases h
  · cases h
    exact ⟨1, by decide, by decide⟩
  · cases h
  · cases h
    exact ⟨1, by decide, by decide⟩
  · cases h

theorem keepsPairs_iff_interruptedTurn :
    KeepsPairs interruptedTurn 0 5 (findCutPoint interruptedTurn (fun _ => 1) 0 5 2) ↔
      NoOpenCut interruptedTurn (fun _ => 1) 0 5 2 :=
  keepsPairs_findCutPoint_iff interruptedTurn (fun _ => 1) 0 5 2 (by decide)

/-- The cut in front of the note leaves a call without its result. -/
theorem not_keepsPairs_interruptedTurn : ¬ ∀ (entries : List SessionEntry)
    (countMessage : AgentMessage → ℚ) (startIndex endIndex : ℕ) (keepRecentTokens : ℚ),
    CallsPrecede entries → startIndex < endIndex → endIndex ≤ entries.length →
      KeepsPairs entries startIndex endIndex
        (findCutPoint entries countMessage startIndex endIndex keepRecentTokens) := by
  intro hall
  have hkeeps := hall interruptedTurn (fun _ => 1) 0 5 2 callsPrecede_interruptedTurn (by decide)
    le_rfl
  have hcut : (findCutPoint interruptedTurn (fun _ => 1) 0 5 2).firstKeptEntryIndex = 3 := by
    decide +kernel
  have hanswers : Answers interruptedTurn 1 4 := by
    refine ⟨by decide, "b", by decide, rfl, fun k hk hlt => ?_⟩
    obtain rfl | rfl : k = 2 ∨ k = 3 := by omega
    · decide
    · decide
  have hlt := hkeeps.pairs 1 4 hanswers (Nat.zero_le 1) (by rw [hcut]; decide)
  rw [hcut] at hlt
  omega

end Examples

end Compaction

end BreadboardTui
