import BreadboardTui.Journal.Context
import Mathlib.Data.List.Basic

/-!
# Tool calls and their results in the model context

A provider refuses a request in which a tool call has no result or a result has no call.
`PairedMessages` says when the messages of a context are free of both and nothing of an intact
turn is missing.

The filters match calls and results by their id alone, over the whole emitted portion. That is
enough as long as ids are not shared between a failed turn and another one, and every emitted
result has its turn: `PairsById`. The condition is exact, which `pairedMessages_iff` shows for
every journal and every leaf.

The proof follows the messages from the left. `keptMessages` reads the two filters as one pass with
the ids of the failed turns removed so far, and each part of `PairedMessages` becomes a statement
about that pass.
-/

namespace BreadboardTui

open List

namespace Journal

/-! ### The promise -/

/-- Every call of every assistant message is answered later in the list. -/
def CallsAnswered : List AgentMessage → Prop
  | [] => True
  | message :: messages =>
    (∀ id ∈ message.calls, ∃ result ∈ messages, result.resultId? = some id) ∧
      CallsAnswered messages

/-- Every tool result follows an assistant message that contains its call; `called` are the calls
before the list. -/
def ResultsPreceded (called : List String) : List AgentMessage → Prop
  | [] => True
  | message :: messages =>
    (∀ id ∈ message.resultId?, id ∈ called) ∧ ResultsPreceded (called ++ message.calls) messages

instance CallsAnswered.decidable :
    (messages : List AgentMessage) → Decidable (CallsAnswered messages)
  | [] => inferInstanceAs (Decidable True)
  | _ :: messages =>
    have := CallsAnswered.decidable messages
    inferInstanceAs (Decidable (_ ∧ CallsAnswered messages))

instance ResultsPreceded.decidable :
    (called : List String) → (messages : List AgentMessage) →
      Decidable (ResultsPreceded called messages)
  | _, [] => inferInstanceAs (Decidable True)
  | called, message :: messages =>
    have := ResultsPreceded.decidable (called ++ message.calls) messages
    inferInstanceAs (Decidable ((∀ id ∈ message.resultId?, id ∈ called) ∧ _))

/-- The first message that carries or answers a call answers it. -/
def AnsweredNext (id : String) : List AgentMessage → Prop
  | [] => False
  | message :: messages =>
    message.resultId? = some id ∨ id ∉ message.calls ∧ AnsweredNext id messages

instance AnsweredNext.decidable (id : String) :
    (messages : List AgentMessage) → Decidable (AnsweredNext id messages)
  | [] => inferInstanceAs (Decidable False)
  | message :: messages =>
    have := AnsweredNext.decidable id messages
    inferInstanceAs (Decidable (_ ∨ _ ∧ AnsweredNext id messages))

/-- The messages of the turns that neither failed nor have a dangling call, with all messages that
belong to no turn. The results of the latest turn with a call are its own; `live` are the calls
whose latest turn is intact. -/
def intactPart (live : List String) : List AgentMessage → List AgentMessage
  | [] => []
  | .assistant assistant :: messages =>
    let message := AgentMessage.assistant assistant
    if message.isFailedTurn = false ∧ ∀ id ∈ message.calls, AnsweredNext id messages then
      message :: intactPart (live ++ message.calls) messages
    else intactPart (live.filter (· ∉ message.calls)) messages
  | message :: messages =>
    if message.resultId?.all (· ∈ live) then message :: intactPart live messages
    else intactPart live messages

/-- The messages of a context pair every call with its result, and nothing of an intact turn of the
emitted portion is missing. -/
structure PairedMessages (emitted messages : List AgentMessage) : Prop where
  answered : CallsAnswered messages
  preceded : ResultsPreceded [] messages
  complete : (intactPart [] emitted).Sublist messages

/-! ### The condition -/

/-- A failed turn that is removed, given the messages after it. -/
def removesTurn (paired : List String) (message : AgentMessage) (messages : List AgentMessage) :
    Bool :=
  message.isFailedTurn && !(dropFailedTurns
    (messages.filterMap (stripDangling paired))).head?.any (·.isInterruptedThinking)

/-- The calls of a message that some emitted result answers. -/
def pairedCalls (paired : List String) (message : AgentMessage) : List String :=
  message.calls.filter (· ∈ paired)

/-- A call is answered before the next removed turn that carries it too. -/
def AnsweredInTime (paired : List String) (id : String) : List AgentMessage → Prop
  | [] => False
  | message :: messages =>
    if removesTurn paired message messages ∧ id ∈ message.calls then False
    else message.resultId? = some id ∨ AnsweredInTime paired id messages

/-- A turn that stays shares no answered call with an earlier turn that was removed, and each of its
answered calls is answered in time; `removed` are the calls of the turns removed so far. -/
def TurnsApart (paired removed : List String) : List AgentMessage → Prop
  | [] => True
  | message :: messages =>
    if removesTurn paired message messages then
      TurnsApart paired (removed ++ pairedCalls paired message) messages
    else
      (∀ id ∈ pairedCalls paired message, id ∉ removed ∧ AnsweredInTime paired id messages) ∧
        TurnsApart paired removed messages

/-- The condition under which matching by id is enough: no emitted result has lost its turn, and no
call id is shared between a turn that stays and a failed turn before its result. -/
structure PairsById (emitted : List AgentMessage) : Prop where
  owned : ResultsPreceded [] emitted
  apart : TurnsApart (pairedToolResultIds emitted) [] emitted

/-! ### The filters as one pass -/

/-- The two filters, from the left; `removed` are the calls of the turns removed so far. -/
def keptMessages (paired removed : List String) : List AgentMessage → List AgentMessage
  | [] => []
  | message :: messages =>
    match stripDangling paired message with
    | none => keptMessages paired removed messages
    | some stripped =>
      if removesTurn paired message messages then
        keptMessages paired (removed ++ pairedCalls paired message) messages
      else if stripped.resultId?.all (· ∉ removed) then
        stripped :: keptMessages paired removed messages
      else keptMessages paired removed messages

section Filters

variable {paired removed : List String} {message stripped : AgentMessage}
  {messages : List AgentMessage}

theorem callId?_normalizeBlock (block : AssistantBlock) :
    (normalizeBlock paired block).bind AssistantBlock.callId? =
      block.callId?.filter (· ∈ paired) := by
  cases block with
  | toolCall =>
    rw [normalizeBlock, AssistantBlock.callId?, Option.filter_some]
    split <;> simp_all [AssistantBlock.callId?]
  | _ => rfl

/-- What stripping leaves of a message: its answered calls, its result and its stop reason. -/
theorem stripDangling_spec (h : stripDangling paired message = some stripped) :
    stripped.calls = pairedCalls paired message ∧ stripped.resultId? = message.resultId? ∧
      stripped.isFailedTurn = message.isFailedTurn := by
  cases message with
  | assistant =>
    simp only [stripDangling] at h
    split at h
    · next hall =>
      cases h
      refine ⟨(filter_eq_self.mpr fun id hid => ?_).symm, rfl, rfl⟩
      exact all_eq_true.mp hall id hid
    split at h
    · cases h
    cases h
    refine ⟨?_, rfl, rfl⟩
    simp [AgentMessage.calls, pairedCalls, filterMap_filterMap, callId?_normalizeBlock, filter_filterMap]
  | _ =>
    cases h
    exact ⟨rfl, rfl, rfl⟩

/-- A message that is dropped for want of content has no answered call. -/
theorem pairedCalls_of_stripDangling_none (h : stripDangling paired message = none) :
    pairedCalls paired message = [] ∧ message.resultId? = none := by
  cases message with
  | assistant =>
    simp only [stripDangling] at h
    split at h
    · cases h
    split at h
    · next hempty =>
      refine ⟨?_, rfl⟩
      have hnormalized := List.isEmpty_iff.mp hempty
      rw [pairedCalls, AgentMessage.calls, filter_filterMap]
      simp [← callId?_normalizeBlock, ← filterMap_filterMap, hnormalized]
    · cases h
  | _ => cases h

theorem filter_dropFailedTurns :
    (dropFailedTurns (messages.filterMap (stripDangling paired))).filter
        (fun candidate => candidate.resultId?.all (· ∉ removed)) =
      keptMessages paired removed messages := by
  induction messages generalizing removed with
  | nil => rfl
  | cons message messages ih =>
    rw [filterMap_cons, keptMessages]
    cases hstrip : stripDangling paired message with
    | none => exact ih
    | some stripped =>
      obtain ⟨hcalls, -, hfailed⟩ := stripDangling_spec hstrip
      have hdrop : dropFailedTurns (stripped :: messages.filterMap (stripDangling paired)) =
          if removesTurn paired message messages then
            (dropFailedTurns (messages.filterMap (stripDangling paired))).filter
              fun candidate => candidate.resultId?.all (· ∉ stripped.calls)
          else stripped :: dropFailedTurns (messages.filterMap (stripDangling paired)) := by
        rw [dropFailedTurns, hfailed, removesTurn]
      simp only [hdrop]
      split
      · rw [filter_filter, ← ih, hcalls]
        refine filter_congr fun candidate _ => ?_
        cases candidate.resultId? <;> simp
      · rw [filter_cons, ih]

theorem filterMessages_eq (emitted : List AgentMessage) :
    filterMessages emitted = keptMessages (pairedToolResultIds emitted) [] emitted := by
  rw [filterMessages, ← filter_dropFailedTurns]
  refine (filter_eq_self.mpr fun candidate _ => ?_).symm
  cases candidate.resultId? <;> simp

variable {id : String}

theorem AgentMessage.calls_of_resultId? (h : message.resultId? = some id) : message.calls = [] := by
  cases message with
  | toolResult => rfl
  | _ => cases h

theorem removesTurn_resultId? (h : removesTurn paired message messages = true) :
    message.resultId? = none := by
  cases message with
  | assistant => rfl
  | _ => cases h

theorem mem_pairedCalls : id ∈ pairedCalls paired message ↔ id ∈ message.calls ∧ id ∈ paired := by
  simp [pairedCalls]

/-! ### Each part of the promise, along the pass -/

/-- A call is answered in what is kept exactly when it is answered in time. -/
theorem exists_result_keptMessages (hid : id ∈ paired) :
    (∃ result ∈ keptMessages paired removed messages, result.resultId? = some id) ↔
      id ∉ removed ∧ AnsweredInTime paired id messages := by
  induction messages generalizing removed with
  | nil => simp [keptMessages, AnsweredInTime]
  | cons message messages ih =>
    rw [keptMessages, AnsweredInTime]
    cases hstrip : stripDangling paired message with
    | none =>
      obtain ⟨hcalls, hresult⟩ := pairedCalls_of_stripDangling_none hstrip
      have hno : id ∉ message.calls := fun h =>
        not_mem_nil (hcalls ▸ mem_pairedCalls.mpr ⟨h, hid⟩)
      rw [if_neg fun h => hno h.2, hresult]
      simpa using ih
    | some =>
      obtain ⟨-, hresult, -⟩ := stripDangling_spec hstrip
      by_cases hremoves : removesTurn paired message messages = true
      · simp only [if_pos hremoves]
        rw [ih, removesTurn_resultId? hremoves]
        by_cases hcall : id ∈ message.calls <;> simp [hremoves, hcall, mem_pairedCalls, hid]
      simp only [if_neg hremoves, hremoves, false_and, if_false, hresult, Bool.false_eq_true]
      split
      · next hkept =>
        simp only [mem_cons, exists_eq_or_imp, ih, hresult]
        constructor
        · rintro (hself | ⟨hnew, hlater⟩)
          · rw [hself] at hkept
            exact ⟨by simpa using hkept, .inl hself⟩
          · exact ⟨hnew, .inr hlater⟩
        rintro ⟨hnew, hself | hlater⟩
        · exact .inl hself
        · exact .inr ⟨hnew, hlater⟩
      next hgone =>
      rw [ih]
      refine and_congr_right fun hnew => (or_iff_right fun hself => hgone ?_).symm
      simp [hself, hnew]

theorem callsAnswered_keptMessages :
    CallsAnswered (keptMessages paired removed messages) ↔ TurnsApart paired removed messages := by
  induction messages generalizing removed with
  | nil => exact Iff.rfl
  | cons message messages ih =>
    rw [keptMessages, TurnsApart]
    cases hstrip : stripDangling paired message with
    | none =>
      obtain ⟨hcalls, -⟩ := pairedCalls_of_stripDangling_none hstrip
      simp [hcalls, ih]
    | some =>
      obtain ⟨hcalls, hresult, -⟩ := stripDangling_spec hstrip
      by_cases hremoves : removesTurn paired message messages = true
      · simp only [if_pos hremoves]
        exact ih
      simp only [if_neg hremoves]
      split
      · rw [CallsAnswered, ih, hcalls]
        refine and_congr_left fun _ => forall₂_congr fun id hid => ?_
        exact exists_result_keptMessages (mem_pairedCalls.mp hid).2
      next hgone =>
      -- only a tool result can go here, and it carries no call
      have hnone : pairedCalls paired message = [] := by
        cases hid : message.resultId? with
        | none => simp [hresult, hid] at hgone
        | some => rw [pairedCalls, AgentMessage.calls_of_resultId? hid, filter_nil]
      simp [hnone, ih]

theorem resultsPreceded_keptMessages {called all : List String}
    (hall : ∀ id ∈ paired, id ∈ all ↔ id ∈ called ∨ id ∈ removed)
    (hpaired : ∀ message ∈ messages, ∀ id ∈ message.resultId?, id ∈ paired) :
    ResultsPreceded called (keptMessages paired removed messages) ↔
      ResultsPreceded all messages := by
  induction messages generalizing removed called all with
  | nil => exact Iff.rfl
  | cons message messages ih =>
    have hpaired' := fun m hm => hpaired m (mem_cons_of_mem _ hm)
    rw [keptMessages, ResultsPreceded]
    cases hstrip : stripDangling paired message with
    | none =>
      obtain ⟨hcalls, hresult⟩ := pairedCalls_of_stripDangling_none hstrip
      have hcalls' : ∀ id ∈ paired, id ∉ message.calls := fun id hid h =>
        not_mem_nil (hcalls ▸ mem_pairedCalls.mpr ⟨h, hid⟩)
      simp only [hresult, Option.mem_def, reduceCtorEq, false_imp_iff, implies_true, true_and]
      refine ih (fun id hid => ?_) hpaired'
      simp [hall id hid, hcalls' id hid]
    | some stripped =>
      obtain ⟨hcalls, hresult, -⟩ := stripDangling_spec hstrip
      by_cases hremoves : removesTurn paired message messages = true
      · simp only [if_pos hremoves, removesTurn_resultId? hremoves, Option.mem_def, reduceCtorEq,
          false_imp_iff, implies_true, true_and]
        refine ih (fun id hid => ?_) hpaired'
        simp [hall id hid, mem_pairedCalls, hid, or_assoc]
      simp only [if_neg hremoves]
      have hnext : ∀ id ∈ paired, id ∈ all ++ message.calls ↔
          id ∈ called ++ stripped.calls ∨ id ∈ removed := by
        intro id hid
        rw [hcalls, mem_append, mem_append, hall id hid, mem_pairedCalls]
        simp [hid, or_right_comm]
      split
      · next hkept =>
        rw [ResultsPreceded, ih hnext hpaired', hresult]
        refine and_congr_left fun _ => forall₂_congr fun id hid => ?_
        have hnew : id ∉ removed := by
          rw [hresult, Option.mem_def.mp hid] at hkept
          simpa using hkept
        simp [hall id (hpaired message mem_cons_self id hid), hnew]
      next hgone =>
      cases hid : message.resultId? with
      | none => simp [hresult, hid] at hgone
      | some id =>
        have hin : id ∈ removed := by simpa [hresult, hid] using hgone
        have hmem := hpaired message mem_cons_self id hid
        have hnone := AgentMessage.calls_of_resultId? hid
        simp only [hnone, append_nil, Option.mem_def, Option.some.injEq, forall_eq',
          (hall id hmem).mpr (.inr hin), true_and]
        exact ih hall hpaired'

variable {live : List String}

theorem intactPart_of_not_assistant (h : ∀ assistant, message ≠ .assistant assistant) :
    intactPart live (message :: messages) =
      if message.resultId?.all (· ∈ live) then message :: intactPart live messages
      else intactPart live messages := by
  cases message with
  | assistant assistant => exact absurd rfl (h assistant)
  | _ => rfl

theorem AnsweredNext.mem_paired (h : AnsweredNext id messages)
    (hpaired : ∀ message ∈ messages, ∀ id ∈ message.resultId?, id ∈ paired) : id ∈ paired := by
  induction messages with
  | nil => exact h.elim
  | cons message messages ih =>
    rcases h with h | ⟨-, h⟩
    · exact hpaired message mem_cons_self id h
    · exact ih h fun m hm => hpaired m (mem_cons_of_mem _ hm)

theorem stripDangling_of_paired (h : ∀ id ∈ message.calls, id ∈ paired) :
    stripDangling paired message = some message := by
  cases message with
  | assistant =>
    rw [stripDangling, if_pos]
    exact all_eq_true.mpr fun id hid => decide_eq_true (h id hid)
  | _ => rfl

theorem intactPart_sublist_keptMessages
    (hapart : TurnsApart paired removed messages) (hlive : ∀ id ∈ live, id ∉ removed)
    (hpaired : ∀ message ∈ messages, ∀ id ∈ message.resultId?, id ∈ paired) :
    (intactPart live messages).Sublist (keptMessages paired removed messages) := by
  induction messages generalizing live removed with
  | nil => exact List.Sublist.refl _
  | cons message messages ih =>
    have hpaired' := fun m hm => hpaired m (mem_cons_of_mem _ hm)
    rw [TurnsApart] at hapart
    by_cases hassistant : ∃ assistant, message = .assistant assistant
    · obtain ⟨assistant, rfl⟩ := hassistant
      set message := AgentMessage.assistant assistant with hmessage
      rw [intactPart]
      split
      · next hintact =>
        obtain ⟨hfailed, hanswered⟩ := hintact
        have hcalls : ∀ id ∈ message.calls, id ∈ paired := fun id hid =>
          (hanswered id hid).mem_paired hpaired'
        have hstays : removesTurn paired message messages = false := by
          rw [removesTurn, hfailed, Bool.false_and]
        rw [hstays, if_neg Bool.false_ne_true] at hapart
        rw [keptMessages, stripDangling_of_paired hcalls]
        simp only [hstays, Bool.false_eq_true, if_false]
        refine (ih hapart.2 (fun id hid => ?_) hpaired').cons_cons _
        rcases mem_append.mp hid with hid | hid
        · exact hlive id hid
        · exact (hapart.1 id (mem_pairedCalls.mpr ⟨hid, hcalls id hid⟩)).1
      rw [keptMessages]
      have hlive' : ∀ id ∈ live.filter (· ∉ message.calls),
          id ∉ removed ++ pairedCalls paired message := by
        intro id hid
        obtain ⟨hid, hcall⟩ := mem_filter.mp hid
        have hcall := of_decide_eq_true hcall
        simp [hlive id hid, mem_pairedCalls, hcall]
      have hlive'' := fun id hid h => hlive' id hid (mem_append_left _ h)
      cases hstrip : stripDangling paired message with
      | none =>
        obtain ⟨hcalls, -⟩ := pairedCalls_of_stripDangling_none hstrip
        rw [hcalls, append_nil] at hapart
        split at hapart
        · exact ih hapart hlive'' hpaired'
        · exact ih hapart.2 hlive'' hpaired'
      | some =>
        split at hapart
        · next hremoves =>
          simp only [if_pos hremoves]
          exact ih hapart hlive' hpaired'
        next hstays =>
        simp only [if_neg hstays]
        have hrest := ih hapart.2 hlive'' hpaired'
        split
        · exact hrest.cons _
        · exact hrest
    have hne : ∀ assistant, message ≠ .assistant assistant := fun a h => hassistant ⟨a, h⟩
    have hcalls : message.calls = [] := by
      cases message with
      | assistant assistant => exact absurd rfl (hne assistant)
      | _ => rfl
    have hstays : removesTurn paired message messages = false := by
      cases message with
      | assistant assistant => exact absurd rfl (hne assistant)
      | _ => rfl
    rw [hstays, if_neg Bool.false_ne_true] at hapart
    rw [intactPart_of_not_assistant hne, keptMessages, stripDangling_of_paired (by simp [hcalls])]
    simp only [hstays, Bool.false_eq_true, if_false]
    have hrest := ih hapart.2 hlive hpaired'
    cases hid : message.resultId? with
    | none => simpa using hrest
    | some id =>
      by_cases hin : id ∈ live
      · simpa [hin, hlive id hin] using hrest
      simp only [Option.all_some, hin, decide_false, Bool.false_eq_true, if_false]
      split
      · exact hrest.cons _
      · exact hrest

end Filters

theorem mem_pairedToolResultIds {emitted : List AgentMessage} {message : AgentMessage}
    (hmem : message ∈ emitted) (id : String) (hid : id ∈ message.resultId?) :
    id ∈ pairedToolResultIds emitted :=
  mem_filterMap.mpr ⟨message, hmem, hid⟩

/-- The messages of a filtered list are paired exactly when matching by id is enough. -/
theorem pairedMessages_filterMessages (emitted : List AgentMessage) :
    PairedMessages emitted (filterMessages emitted) ↔ PairsById emitted := by
  have hpaired : ∀ message ∈ emitted, ∀ id ∈ message.resultId?, id ∈ pairedToolResultIds emitted :=
    fun _ hmem => mem_pairedToolResultIds hmem
  have hpreceded : ResultsPreceded [] (filterMessages emitted) ↔ ResultsPreceded [] emitted := by
    rw [filterMessages_eq]
    exact resultsPreceded_keptMessages (by simp) hpaired
  have hanswered : CallsAnswered (filterMessages emitted) ↔
      TurnsApart (pairedToolResultIds emitted) [] emitted := by
    rw [filterMessages_eq]
    exact callsAnswered_keptMessages
  constructor
  · intro h
    exact ⟨hpreceded.mp h.preceded, hanswered.mp h.answered⟩
  intro h
  refine ⟨hanswered.mpr h.apart, hpreceded.mpr h.owned, ?_⟩
  rw [filterMessages_eq]
  exact intactPart_sublist_keptMessages h.apart (by simp) hpaired

/-- The messages that a context is filtered from: those that the path to the leaf emits. -/
def emittedFor (entries : List SessionEntry) (leaf : LeafRef) : List AgentMessage :=
  emittedMessages (pathFrom (indexById entries) (leafEntry entries (indexById entries) leaf))

/-- **The model context pairs every call with its result** exactly when matching by id is
enough. -/
theorem pairedMessages_buildSessionContext (entries : List SessionEntry) (leaf : LeafRef) :
    PairedMessages (emittedFor entries leaf)
        (buildSessionContext entries leaf (indexById entries)).messages ↔
      PairsById (emittedFor entries leaf) :=
  pairedMessages_filterMessages _

/-! ### A reused call id -/

def messageEntry (id : String) (parentId : Option String) (message : AgentMessage) : SessionEntry :=
  ⟨id, parentId, "2026-01-01T00:00:00.000Z", .message message⟩

def turn (stopReason : StopReason) (callId : String) : AgentMessage :=
  .assistant ⟨"anthropic", "model", stopReason, false, [.toolCall callId "read"]⟩

/-- A failed turn with its placeholder result, and after the next prompt a turn that uses the same
call id and is answered. -/
def reusedCall : List SessionEntry :=
  [messageEntry "1" none (.user "first"),
    messageEntry "2" (some "1") (turn .error "call-1"),
    messageEntry "3" (some "2") (.toolResult "call-1" "aborted" true),
    messageEntry "4" (some "3") (.user "second"),
    messageEntry "5" (some "4") (turn .toolUse "call-1"),
    messageEntry "6" (some "5") (.toolResult "call-1" "contents" false)]

/-- The failed turn takes the result of the later turn with it, whose call is left unanswered. -/
theorem not_pairedMessages_reusedCall : ResultsPreceded [] (emittedFor reusedCall (.entry "6")) ∧
      ¬ PairedMessages (emittedFor reusedCall (.entry "6"))
        (buildSessionContext reusedCall (.entry "6") (indexById reusedCall)).messages := by
  refine ⟨by decide +kernel, fun h => ?_⟩
  have hunanswered : ¬ CallsAnswered
      (buildSessionContext reusedCall (.entry "6") (indexById reusedCall)).messages := by
    decide +kernel
  exact hunanswered h.answered

end Journal

end BreadboardTui
