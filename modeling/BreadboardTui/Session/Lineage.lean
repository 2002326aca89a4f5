import BreadboardTui.Session.Binding
import Mathlib

/-!
# The lineage of bindings on a transcript branch

A bridge appends every binding it writes to the transcript, and a resumed runtime folds the
branch back. The writers check an operation against the **current** binding; the reader checks
every **adjacent pair** of the branch under rules of its own. Here both are put on one run.

The two rule sets differ in one place: a projection write at the cursor the binding already has
may drop submissions the binding owns, and the reader refuses the pair. `KeepsOwnership` says
that a run never does this, and `readBreadboardSessionBinding_run` shows that nothing else
separates the writers from the reader.
-/

namespace BreadboardTui

open List

/-- The two operations that write a binding. -/
inductive BindingOperation where
  | addOwnedSubmission (submission : E4OwnedSubmission)
  | advanceProjectionBinding (cursor : E4DurableCursor) (ownedSubmissions : List E4OwnedSubmission)

/-- The writer an operation names, applied to the latest binding. -/
def BindingOperation.apply (localeCompare : String → String → ℤ)
    (current : BreadboardSessionBindingData) :
    BindingOperation → Except BreadboardSessionTransitionError BreadboardSessionBindingData
  | .addOwnedSubmission submission =>
    BreadboardTui.addOwnedSubmission localeCompare current submission
  | .advanceProjectionBinding cursor ownedSubmissions =>
    BreadboardTui.advanceProjectionBinding current cursor ownedSubmissions

/-- A branch of the transcript together with the latest binding on it. -/
structure BoundTranscript where
  branch : List BreadboardSessionBindingEntry
  binding : BreadboardSessionBindingData

/-- A transcript whose only entry carries `value`, which parses to `initial`. -/
def BoundTranscript.start (value : JsValue) (initial : BreadboardSessionBindingData) :
    BoundTranscript :=
  ⟨[bindingEntry value], initial⟩

/-- One operation: its result is appended unless the writer throws. -/
def BoundTranscript.step (localeCompare : String → String → ℤ) (t : BoundTranscript)
    (op : BindingOperation) : BoundTranscript :=
  match op.apply localeCompare t.binding with
  | .ok next => ⟨t.branch ++ [bindingEntry next.toJs], next⟩
  | .error _ => t

/-- A finite sequence of operations. -/
def BoundTranscript.run (localeCompare : String → String → ℤ) (t : BoundTranscript)
    (ops : List BindingOperation) : BoundTranscript :=
  ops.foldl (BoundTranscript.step localeCompare) t

/-- An operation **keeps ownership** when, as a projection write at exactly the cursor of
`current` with a well-formed list of submissions, it keeps every submission of `current`. -/
def BindingOperation.KeepsOwnership (current : BreadboardSessionBindingData) :
    BindingOperation → Prop
  | .addOwnedSubmission _ => True
  | .advanceProjectionBinding cursor ownedSubmissions =>
    cursor.sequence = .integer current.cursor.sequence →
      some cursor.eventId = current.cursor.eventId → OwnedSubmissionsValid ownedSubmissions →
        containsOwnedSubmissions ownedSubmissions current.ownedSubmissions = true

/-- Every operation of a run keeps the ownership of the binding it is applied to. -/
def KeepsOwnership (localeCompare : String → String → ℤ) (t : BoundTranscript) :
    List BindingOperation → Prop
  | [] => True
  | op :: ops =>
    op.KeepsOwnership t.binding ∧ KeepsOwnership localeCompare (t.step localeCompare op) ops

/-! ### Reading back what was written -/

theorem exactSafeString?_string {s : String} (h : isExactSafeString s = true) :
    exactSafeString? (.string s) = some s :=
  exactSafeString?_eq_some.mpr ⟨rfl, h⟩

theorem parseOwnedSubmission_submissionObject {s s' : E4OwnedSubmission} :
    parseOwnedSubmission (submissionObject s) = some s' ↔ s' = s ∧ s.IsSafe := by
  have hfields : parseOwnedSubmission (submissionObject s) = (do
      let clientMessageId ← exactSafeString? (.string s.clientMessageId)
      let inputId ← exactSafeString? (.string s.inputId)
      let turnId ← exactSafeString? (.string s.turnId)
      return ⟨clientMessageId, inputId, turnId⟩) := rfl
  rw [hfields]
  simp only [Option.bind_eq_bind, Option.bind_eq_some_iff, exactSafeString?_eq_some,
    JsValue.string.injEq, Option.pure_def, Option.some.injEq, E4OwnedSubmission.IsSafe]
  constructor
  · rintro ⟨_, ⟨rfl, hc⟩, _, ⟨rfl, hi⟩, _, ⟨rfl, ht⟩, rfl⟩
    exact ⟨rfl, hc, hi, ht⟩
  rintro ⟨rfl, hc, hi, ht⟩
  exact ⟨_, ⟨rfl, hc⟩, _, ⟨rfl, hi⟩, _, ⟨rfl, ht⟩, rfl⟩

variable {cs is ts : List String}

/-- The loop reads a list of written submissions back unchanged, whenever it reads it at
all. -/
theorem parseOwnedSubmissions_map_eq {owned owned' : List E4OwnedSubmission}
    (h : parseOwnedSubmissions cs is ts (owned.map submissionObject) = some owned') :
    owned' = owned := by
  induction owned generalizing cs is ts owned' with
  | nil => cases h; rfl
  | cons s owned ih =>
    simp only [map_cons, parseOwnedSubmissions, Option.bind_eq_bind, Option.bind_eq_some_iff,
      parseOwnedSubmission_submissionObject, Option.ite_none_left_eq_some, Option.pure_def,
      Option.some.injEq] at h
    obtain ⟨_, ⟨rfl, -⟩, -, rest, hrest, rfl⟩ := h
    rw [ih hrest]

variable {owned : List E4OwnedSubmission}

/-- Safe submissions with fresh and distinct identities are read. -/
theorem parseOwnedSubmissions_map
    (hsafe : ∀ s ∈ owned, s.IsSafe) (hc : (owned.map E4OwnedSubmission.clientMessageId).Nodup)
    (hi : (owned.map E4OwnedSubmission.inputId).Nodup)
    (ht : (owned.map E4OwnedSubmission.turnId).Nodup)
    (hnew : ∀ s ∈ owned, s.clientMessageId ∉ cs ∧ s.inputId ∉ is ∧ s.turnId ∉ ts) :
    parseOwnedSubmissions cs is ts (owned.map submissionObject) = some owned := by
  induction owned generalizing cs is ts with
  | nil => rfl
  | cons s owned ih =>
    rw [forall_mem_cons] at hsafe hnew
    rw [map_cons, nodup_cons] at hc hi ht
    have hrest : parseOwnedSubmissions (s.clientMessageId :: cs) (s.inputId :: is)
        (s.turnId :: ts) (owned.map submissionObject) = some owned := by
      refine ih hsafe.2 hc.2 hi.2 ht.2 fun x hx => ?_
      have hx' := hnew.2 x hx
      simp only [mem_cons, not_or]
      exact ⟨⟨fun e => hc.1 (e ▸ mem_map_of_mem hx), hx'.1⟩,
        ⟨fun e => hi.1 (e ▸ mem_map_of_mem hx), hx'.2.1⟩,
        ⟨fun e => ht.1 (e ▸ mem_map_of_mem hx), hx'.2.2⟩⟩
    simp only [map_cons, parseOwnedSubmissions, Option.bind_eq_bind,
      parseOwnedSubmission_submissionObject.mpr ⟨rfl, hsafe.1⟩, Option.bind_some]
    rw [if_neg (by simpa using hnew.1), hrest]
    rfl

theorem parseOwnedSubmissions_written {owned owned' : List E4OwnedSubmission} :
    owned.length ≤ 10000 ∧
        parseOwnedSubmissions [] [] [] (owned.map submissionObject) = some owned' ↔
      owned' = owned ∧ OwnedSubmissionsValid owned := by
  constructor
  · rintro ⟨hlen, h⟩
    obtain rfl := parseOwnedSubmissions_map_eq h
    obtain ⟨-, hsafe, hc, hi, ht, -⟩ := parseOwnedSubmissions_spec h
    exact ⟨rfl, hlen, hsafe, hc, hi, ht⟩
  rintro ⟨rfl, h⟩
  exact ⟨h.bounded, parseOwnedSubmissions_map h.safe h.clientMessageIds h.inputIds h.turnIds
    (by simp)⟩

/-- A written cursor object is read through its two fields. -/
theorem parseCursor_cursorObject (eventId : JsValue) (sequence : JsNumber) :
    parseCursor (cursorObject eventId sequence) = (do
      let sequence ← parseSequence (.number sequence)
      if sequence = 0 then
        match eventId with
        | .null => return ⟨none, 0⟩
        | _ => none
      else
        let eventId ← exactSafeString? eventId
        return ⟨some eventId, sequence⟩) := rfl

theorem parseSequence_integer {n : ℕ} (h : n ≤ maxSafeInteger) :
    parseSequence (.number (.integer n)) = some n := by
  simp [parseSequence, JsNumber.safeInteger?, h]

theorem BindingCursor.parseCursor_toJs {cursor : BindingCursor} (h : cursor.IsValid) :
    parseCursor cursor.toJs = some cursor := by
  obtain ⟨eventId, sequence⟩ := cursor
  obtain ⟨hsafe, hevent⟩ := h
  rw [BindingCursor.toJs, parseCursor_cursorObject]
  simp only [parseSequence_integer hsafe, Option.bind_eq_bind, Option.bind_some]
  cases eventId with
  | none =>
    obtain rfl : sequence = 0 := hevent
    rfl
  | some eventId =>
    obtain ⟨hpos, hid⟩ : 0 < sequence ∧ isExactSafeString eventId = true := hevent
    rw [if_neg (pos_iff_ne_zero.mp hpos)]
    simp [exactSafeString?_string hid]

/-- What the validator makes of a binding object: identity and submissions come back as they
were written, and only the cursor is left to parse. -/
theorem parse_bindingObject {sessionId digest : String} {cursor : JsValue}
    {binding : BreadboardSessionBindingData} :
    parseBreadboardSessionBindingData (bindingObject sessionId digest cursor owned) =
        .ok binding ↔
      (binding.sessionId = sessionId ∧ binding.replayConfigurationDigest = digest ∧
        binding.ownedSubmissions = owned) ∧
        parseCursor cursor = some binding.cursor := by
  rw [parseBreadboardSessionBindingData_eq_ok]
  constructor
  · rintro ⟨data, items, hdata, -, -, hs, hd, hi, hlen, hc, ho⟩
    cases hdata
    obtain ⟨hs, -⟩ := exactSafeString?_eq_some.mp hs
    obtain ⟨hd, -⟩ := exactSafeString?_eq_some.mp hd
    cases hs
    cases hd
    cases hi
    rw [length_map] at hlen
    exact ⟨⟨rfl, rfl, (parseOwnedSubmissions_written.mp ⟨hlen, ho⟩).1⟩, hc⟩
  rintro ⟨⟨rfl, rfl, rfl⟩, hc⟩
  obtain ⟨hlen, ho⟩ := parseOwnedSubmissions_written.mpr ⟨rfl, binding.owned_valid⟩
  exact ⟨_, _, rfl, rfl, rfl, exactSafeString?_string binding.sessionId_safe,
    exactSafeString?_string binding.digest_safe, rfl, by simpa using hlen, hc, ho⟩

/-- A binding survives being written and read. -/
theorem BreadboardSessionBindingData.parse_toJs (binding : BreadboardSessionBindingData) :
    parseBreadboardSessionBindingData binding.toJs = .ok binding :=
  parse_bindingObject.mpr
    ⟨⟨rfl, rfl, rfl⟩, BindingCursor.parseCursor_toJs binding.cursor_valid⟩

/-! ### What the writers write -/

/-- With one submission per turn, every sublist of the owned submissions up to order is
contained in them. -/
theorem containsOwnedSubmissions_of_subset {candidate required : List E4OwnedSubmission}
    (hturns : (candidate.map E4OwnedSubmission.turnId).Nodup) (hsub : required ⊆ candidate) :
    containsOwnedSubmissions candidate required = true := by
  simp only [containsOwnedSubmissions, all_eq_true]
  intro s hs
  have hmem : s ∈ candidate.reverse := mem_reverse.mpr (hsub hs)
  cases hfind : candidate.reverse.find? (fun found => found.turnId == s.turnId) with
  | none => simpa using find?_eq_none.mp hfind s hmem
  | some found =>
    have hfound : found ∈ candidate := mem_reverse.mp (mem_of_find?_eq_some hfind)
    have hturn : found.turnId = s.turnId := by simpa using find?_some hfind
    obtain rfl : found = s := inj_on_of_nodup_map hturns hfound (hsub hs) hturn
    simp

variable {current next : BreadboardSessionBindingData}

/-- A binding never conflicts with a successor of the same identity and cursor that owns at
least its submissions. -/
theorem not_conflicts_of_subset (hid : next.sessionId = current.sessionId)
    (hdigest : next.replayConfigurationDigest = current.replayConfigurationDigest)
    (hcursor : next.cursor = current.cursor)
    (hsub : current.ownedSubmissions ⊆ next.ownedSubmissions) : current.conflicts next = false := by
  have hcontains := containsOwnedSubmissions_of_subset next.owned_valid.turnIds hsub
  simp [BreadboardSessionBindingData.conflicts, hid, hdigest, hcursor, hcontains]

variable {localeCompare : String → String → ℤ}

theorem addOwnedSubmission_not_conflicts {submission : E4OwnedSubmission}
    (h : addOwnedSubmission localeCompare current submission = .ok next) :
    current.conflicts next = false := by
  unfold addOwnedSubmission at h
  split at h
  · split at h
    · cases h
    · cases h
      exact not_conflicts_of_subset rfl rfl rfl (List.Subset.refl _)
  rw [parse_bindingObject, BindingCursor.parseCursor_toJs current.cursor_valid] at h
  obtain ⟨⟨hid, hdigest, howned⟩, hcursor⟩ := h
  refine not_conflicts_of_subset hid hdigest (Option.some.inj hcursor).symm ?_
  intro s hs
  rw [howned, mem_insertionSort]
  exact mem_append_left _ hs

variable {cursor : E4DurableCursor}

/-- A successful projection write, read field by field. -/
theorem advanceProjectionBinding_eq_ok
    (h : advanceProjectionBinding current cursor owned = .ok next) :
    cursor.Advances current.cursor ∧ next.sessionId = current.sessionId ∧
      next.replayConfigurationDigest = current.replayConfigurationDigest ∧
      next.ownedSubmissions = owned ∧ next.cursor.eventId = some cursor.eventId ∧
      cursor.sequence = .integer next.cursor.sequence := by
  unfold advanceProjectionBinding at h
  split at h
  · next hadv =>
    obtain ⟨⟨hid, hdigest, howned⟩, hcursor⟩ := parse_bindingObject.mp h
    refine ⟨hadv, hid, hdigest, howned, ?_⟩
    obtain ⟨hsafe, sequence, hsequence, hpos, -⟩ := hadv
    obtain ⟨hinteger, hbound⟩ := JsNumber.safeInteger?_eq_some hsequence
    lift sequence to ℕ using hpos.le
    rw [parseCursor_cursorObject, hinteger, parseSequence_integer (by simpa using hbound)] at hcursor
    have hne : sequence ≠ 0 := by omega
    simp only [Option.bind_eq_bind, Option.bind_some, if_neg hne, exactSafeString?_string hsafe,
      Option.pure_def, Option.some.injEq] at hcursor
    rw [← hcursor]
    exact ⟨rfl, hinteger⟩
  · cases h

/-- A projection write conflicts with the binding it advances exactly when it stays at the
cursor and drops a submission. -/
theorem advanceProjectionBinding_conflicts
    (h : advanceProjectionBinding current cursor owned = .ok next) :
    current.conflicts next = false ↔
      (BindingOperation.advanceProjectionBinding cursor owned).KeepsOwnership current := by
  obtain ⟨⟨-, sequence, hsequence, -, hle, hevent⟩, hid, hdigest, howned, hcursorId, hinteger⟩ :=
    advanceProjectionBinding_eq_ok h
  obtain ⟨hinteger', -⟩ := JsNumber.safeInteger?_eq_some hsequence
  obtain rfl : sequence = next.cursor.sequence := by
    rw [hinteger] at hinteger'
    exact (JsNumber.integer.inj hinteger').symm
  have hvalid : OwnedSubmissionsValid owned := howned ▸ next.owned_valid
  have hroll : ¬ next.cursor.sequence < current.cursor.sequence := by omega
  simp only [BreadboardSessionBindingData.conflicts, BindingOperation.KeepsOwnership, hid, hdigest,
    howned, hcursorId, hinteger, JsNumber.integer.injEq, Int.natCast_inj, bne_self_eq_false,
    Bool.false_or, hroll, decide_false]
  by_cases heq : next.cursor.sequence = current.cursor.sequence
  · have hsame : some cursor.eventId = current.cursor.eventId := hevent (by rw [heq])
    simp [heq, hsame, hvalid]
  · simp [heq]

variable {op : BindingOperation}

/-- The step lemma: an operation that the writer accepts yields a binding the reader accepts
after the current one exactly when it keeps ownership. -/
theorem BindingOperation.apply_conflicts (h : op.apply localeCompare current = .ok next) :
    current.conflicts next = false ↔ op.KeepsOwnership current := by
  cases op with
  | addOwnedSubmission =>
    exact iff_of_true (addOwnedSubmission_not_conflicts h) trivial
  | advanceProjectionBinding => exact advanceProjectionBinding_conflicts h

/-- An operation that breaks ownership is one the writer accepts. -/
theorem BindingOperation.apply_of_not_keepsOwnership
    (h : ¬ op.KeepsOwnership current) : ∃ next, op.apply localeCompare current = .ok next := by
  cases op with
  | addOwnedSubmission => exact (h trivial).elim
  | advanceProjectionBinding cursor owned =>
    simp only [BindingOperation.KeepsOwnership, not_forall] at h
    obtain ⟨hsequence, hevent, hvalid, -⟩ := h
    obtain ⟨hbound, hcursor⟩ := current.cursor_valid
    rw [← hevent] at hcursor
    obtain ⟨hpos, hsafe⟩ : 0 < current.cursor.sequence ∧ isExactSafeString cursor.eventId = true :=
      hcursor
    have hadv : cursor.Advances current.cursor := by
      refine ⟨hsafe, current.cursor.sequence, ?_, by exact_mod_cast hpos, le_refl _, fun _ => hevent⟩
      simp [hsequence, JsNumber.safeInteger?, hbound]
    let next : BreadboardSessionBindingData :=
      { sessionId := current.sessionId
        replayConfigurationDigest := current.replayConfigurationDigest
        cursor := ⟨some cursor.eventId, current.cursor.sequence⟩
        ownedSubmissions := owned
        sessionId_safe := current.sessionId_safe
        digest_safe := current.digest_safe
        cursor_valid := ⟨hbound, hpos, hsafe⟩
        owned_valid := hvalid }
    refine ⟨next, ?_⟩
    simp only [BindingOperation.apply, BreadboardTui.advanceProjectionBinding, if_pos hadv]
    refine parse_bindingObject.mpr ⟨⟨rfl, rfl, rfl⟩, ?_⟩
    have hread := BindingCursor.parseCursor_toJs next.cursor_valid
    simpa only [BindingCursor.toJs, next, Option.elim, hsequence] using hread

/-! ### Reading a whole run back -/

theorem readBreadboardSessionBinding_append (branch : List BreadboardSessionBindingEntry)
    (entry : BreadboardSessionBindingEntry) :
    readBreadboardSessionBinding (branch ++ [entry]) =
      (readBreadboardSessionBinding branch >>= fun binding => readBindingEntry binding entry) := by
  simp [readBreadboardSessionBinding]

/-- Appending a written binding: the reader accepts it exactly when it does not conflict. -/
theorem readBreadboardSessionBinding_append_toJs {branch : List BreadboardSessionBindingEntry}
    (h : readBreadboardSessionBinding branch = .ok (some current))
    (next : BreadboardSessionBindingData) :
    readBreadboardSessionBinding (branch ++ [bindingEntry next.toJs]) =
      if current.conflicts next then
        .error ⟨"BreadBoard session binding conflicts with the active transcript or rolls back its durable cursor."⟩
      else .ok (some next) := by
  rw [readBreadboardSessionBinding_append, h]
  simp [readBindingEntry, bindingEntry, BreadboardSessionBindingData.parse_toJs, Except.bind, bind,
    pure, Except.pure]

variable (ops : List BindingOperation) {t : BoundTranscript}

/-- Once the reader has thrown on a branch it throws on every extension of it. -/
theorem BoundTranscript.run_read_error {error : BreadboardSessionTransitionError}
    (h : readBreadboardSessionBinding t.branch = .error error) :
    readBreadboardSessionBinding (t.run localeCompare ops).branch = .error error := by
  induction ops generalizing t with
  | nil => exact h
  | cons op ops ih =>
    refine ih ?_
    unfold BoundTranscript.step
    split
    · rw [readBreadboardSessionBinding_append, h]
      rfl
    · exact h

/-- The run lemma, from any transcript whose branch reads back as its latest binding. -/
theorem BoundTranscript.run_read
    (h : readBreadboardSessionBinding t.branch = .ok (some t.binding)) :
    readBreadboardSessionBinding (t.run localeCompare ops).branch =
        .ok (some (t.run localeCompare ops).binding) ↔ KeepsOwnership localeCompare t ops := by
  induction ops generalizing t with
  | nil => exact iff_of_true h trivial
  | cons op ops ih =>
    change readBreadboardSessionBinding ((t.step localeCompare op).run localeCompare ops).branch =
      .ok (some ((t.step localeCompare op).run localeCompare ops).binding) ↔
        op.KeepsOwnership t.binding ∧ KeepsOwnership localeCompare (t.step localeCompare op) ops
    cases happly : op.apply localeCompare t.binding with
    | error =>
      have hkeeps : op.KeepsOwnership t.binding := by
        by_contra hkeeps
        obtain ⟨next, hnext⟩ := BindingOperation.apply_of_not_keepsOwnership hkeeps
        rw [happly] at hnext
        cases hnext
      have hstep : t.step localeCompare op = t := by simp [BoundTranscript.step, happly]
      rw [hstep, ih h, and_iff_right hkeeps]
    | ok next =>
      have hstep : t.step localeCompare op = ⟨t.branch ++ [bindingEntry next.toJs], next⟩ := by
        simp [BoundTranscript.step, happly]
      have hread := readBreadboardSessionBinding_append_toJs h next
      have hconflicts := BindingOperation.apply_conflicts happly
      rw [hstep]
      cases hc : t.binding.conflicts next with
      | true =>
        have hnot : ¬ op.KeepsOwnership t.binding := by simp [← hconflicts, hc]
        rw [hc, if_pos rfl] at hread
        rw [run_read_error ops hread]
        simp [hnot]
      | false =>
        rw [hc, if_neg Bool.false_ne_true] at hread
        rw [ih hread, and_iff_right (hconflicts.mp hc)]

/-- What the writers accept, the reader accepts, **exactly** on the runs that keep ownership:
there, and only there, the branch reads back as the last binding appended to it. -/
theorem readBreadboardSessionBinding_run (localeCompare : String → String → ℤ) {value : JsValue}
    {initial : BreadboardSessionBindingData}
    (h : parseBreadboardSessionBindingData value = .ok initial) (ops : List BindingOperation) :
    readBreadboardSessionBinding
          ((BoundTranscript.start value initial).run localeCompare ops).branch =
        .ok (some ((BoundTranscript.start value initial).run localeCompare ops).binding) ↔
      KeepsOwnership localeCompare (.start value initial) ops := by
  refine BoundTranscript.run_read ops ?_
  simp [BoundTranscript.start, readBreadboardSessionBinding, readBindingEntry, bindingEntry, h,
    bind, Except.bind, pure, Except.pure]

theorem session_one_safe : isExactSafeString "session-1" = true := by decide

theorem sha256_replay_safe : isExactSafeString "sha256:replay" = true := by decide

theorem event_five_valid : BindingCursor.IsValid ⟨some "event-5", 5⟩ :=
  ⟨by decide, by decide, by decide⟩

theorem client_one_valid : OwnedSubmissionsValid [⟨"client-1", "input-1", "turn-1"⟩] :=
  ⟨by decide, forall_mem_singleton.mpr (And.intro (by decide)
    (And.intro (by decide) (by decide))), by decide, by decide, by decide⟩

/-- A binding at event five that owns one submission. -/
def ownedAtFive : BreadboardSessionBindingData where
  sessionId := "session-1"
  replayConfigurationDigest := "sha256:replay"
  cursor := ⟨some "event-5", 5⟩
  ownedSubmissions := [⟨"client-1", "input-1", "turn-1"⟩]
  sessionId_safe := session_one_safe
  digest_safe := sha256_replay_safe
  cursor_valid := event_five_valid
  owned_valid := client_one_valid

/-- Admitting a second submission at event five and dropping the first at event six. -/
def handOver : List BindingOperation :=
  [.addOwnedSubmission ⟨"client-2", "input-2", "turn-2"⟩,
    .advanceProjectionBinding ⟨"event-6", .integer 6⟩ [⟨"client-2", "input-2", "turn-2"⟩]]

theorem readBreadboardSessionBinding_run_handOver : readBreadboardSessionBinding
        ((BoundTranscript.start ownedAtFive.toJs ownedAtFive).run (fun _ _ => 0) handOver).branch =
      .ok (some
        ((BoundTranscript.start ownedAtFive.toJs ownedAtFive).run (fun _ _ => 0) handOver).binding) :=
  (readBreadboardSessionBinding_run _ ownedAtFive.parse_toJs handOver).mpr
    ⟨trivial, fun hsame => absurd hsame (by decide), trivial⟩

/-- A projection write at event five itself that no longer lists the submission: the writer
accepts it, and the branch it leaves can never be read again. -/
theorem readBreadboardSessionBinding_run_drop_at_cursor :
    parseBreadboardSessionBindingData ownedAtFive.toJs = .ok ownedAtFive ∧
      (∃ next, advanceProjectionBinding ownedAtFive ⟨"event-5", .integer 5⟩ [] = .ok next) ∧
      readBreadboardSessionBinding ((BoundTranscript.start ownedAtFive.toJs ownedAtFive).run
          (fun _ _ => 0) [.advanceProjectionBinding ⟨"event-5", .integer 5⟩ []]).branch =
        .error ⟨"BreadBoard session binding conflicts with the active transcript or rolls back its durable cursor."⟩ :=
  ⟨ownedAtFive.parse_toJs, ⟨_, rfl⟩, rfl⟩

end BreadboardTui
