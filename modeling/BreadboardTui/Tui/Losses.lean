import BreadboardTui.Tui.Chunks

/-!
# When input is lost

What is left of the text in front of a paste marker is forgotten, and a paste that is longer than
the limit ends where the limit was noticed, which depends on the chunks.
-/

namespace BreadboardTui.Tui

open List

open StdinBuffer

/-! ### The log grows -/

variable (o : Output)

theorem Output.log_emitData (sequence : Units) : o.log <+: (o.emitData sequence).log := by
  rw [emitData]
  split
  · exact prefix_append _ _
  · exact prefix_append _ _

theorem Output.log_emitAll (sequences : List Units) : o.log <+: (o.emitAll sequences).log := by
  induction sequences generalizing o with
  | nil => exact prefix_refl _
  | cons sequence sequences ih => exact (o.log_emitData sequence).trans (ih _)

theorem Output.log_emitPaste (content : Units) : o.log <+: (o.emitPaste content).log :=
  prefix_append _ _

namespace StdinBuffer

/-- Whether the log of a state starts with a log. -/
def Logged (log : List Item) (result : StdinBuffer × Option Units) : Prop :=
  log <+: result.1.output.log

variable (pasteByteLimit : ℕ)

theorem log_consumePasteChunk (s : StdinBuffer) (chunk : Units) :
    Logged s.output.log (consumePasteChunk pasteByteLimit s chunk) := by
  rw [consumePasteChunk]
  split
  · dsimp only
    split
    · exact Output.log_emitPaste _ _
    · exact prefix_refl _
  split
  · exact prefix_refl _
  · exact Output.log_emitPaste _ _

theorem output_consumeStringDiscard (s : StdinBuffer) (str : Units) :
    (s.consumeStringDiscard str).1.output = s.output := by
  rw [consumeStringDiscard]
  split
  · rfl
  split
  · rfl
  dsimp only
  split
  · rfl
  · rfl

theorem log_processKeys (s : StdinBuffer) (str : Units) :
    Logged s.output.log (processKeys pasteByteLimit s str) := by
  rw [processKeys]
  split
  · refine List.IsPrefix.trans ?_ (log_consumePasteChunk ..)
    exact Output.log_emitAll _ _
  dsimp only
  split
  · rw [Logged]
    rw [output_consumeStringDiscard]
    exact Output.log_emitAll _ _
  · exact Output.log_emitAll _ _

theorem log_processUnheld (s : StdinBuffer) (str : Units) :
    Logged s.output.log (processUnheld pasteByteLimit s str) := by
  rw [processUnheld]
  split
  · dsimp only
    rw [Logged]
    split
    · exact Output.log_emitPaste _ _
    · exact prefix_refl _
  · exact log_processKeys ..

theorem log_processText (s : StdinBuffer) (str : Units) :
    Logged s.output.log (processText pasteByteLimit s str) := by
  rw [processText]
  split
  · exact Output.log_emitData _ _
  split
  · exact log_consumePasteChunk ..
  split
  · exact log_processUnheld ..
  · split
    · refine List.IsPrefix.trans ?_ (log_processUnheld ..)
      exact Output.log_emitAll _ _
    · dsimp only
      rw [Logged]
      split
      · exact Output.log_emitPaste _ _
      · exact prefix_refl _

theorem log_activate (s : StdinBuffer) (str : Units) :
    Logged s.output.log (activate pasteByteLimit s str) := by
  rw [activate]
  split
  · dsimp only
    have houtput := output_consumeStringDiscard s str
    split
    · rw [Logged, houtput]
    rw [← houtput]
    exact log_processText ..
  · exact log_processText ..

theorem log_process (s : StdinBuffer) (str : Units) :
    s.output.log <+: (process pasteByteLimit s str).output.log := by
  induction hsize : size s str using Nat.strong_induction_on generalizing s str with
  | _ bound ih =>
    have hlog := log_activate pasteByteLimit s str
    rw [process]
    split
    · next hstep =>
      rw [hstep] at hlog
      exact hlog
    next s' rest hstep =>
    have hless := activate_size hstep
    rw [hstep] at hlog
    exact List.IsPrefix.trans hlog (ih _ (by omega) s' rest rfl)

/-- The rest of a call of `process`. -/
def finish (pasteByteLimit : ℕ) : StdinBuffer × Option Units → StdinBuffer
  | (s, none) => s
  | (s, some rest) => process pasteByteLimit s rest

theorem process_eq (s : StdinBuffer) (str : Units) :
    process pasteByteLimit s str = finish pasteByteLimit (activate pasteByteLimit s str) := by
  rw [process]
  split
  · next hstep => rw [hstep, finish]
  · next hstep => rw [hstep, finish]

theorem log_finish {pasteByteLimit : ℕ} {log : List Item}
    {result : StdinBuffer × Option Units} (h : Logged log result) :
    log <+: (finish pasteByteLimit result).output.log := by
  obtain ⟨s, rest⟩ := result
  cases rest with
  | none => exact h
  | some rest => exact List.IsPrefix.trans h (log_process pasteByteLimit s rest)

/-- The input that a state stands for. -/
def consumed (s : StdinBuffer) : Units := s.output.input ++ s.buffered

end StdinBuffer

theorem Output.input_of_log {o o' : Output} (h : o.log <+: o'.log) : o.input <+: o'.input := by
  obtain ⟨more, hmore⟩ := h
  rw [input, input, ← hmore, flatMap_append]
  exact prefix_append _ _

variable {s : StdinBuffer}

/-- After a paste marker comes a paste, emitted or held. -/
theorem consumed_of_paste (pasteByteLimit : ℕ) (chunk : Units)
    (hmode : s.pasteMode = true) (hraw : s.rawPasteCandidate = []) :
    s.output.input ++ pasteStart <+:
      (finish pasteByteLimit (consumePasteChunk pasteByteLimit s chunk)).consumed := by
  -- a state that has not left the paste
  have hopen : ∀ s' : StdinBuffer, s'.output = s.output → s'.pasteMode = true →
      s'.rawPasteCandidate = [] → s.output.input ++ pasteStart <+: s'.consumed := by
    intro s' houtput hmode' hraw'
    rw [consumed, buffered, houtput, hmode', hraw', if_pos rfl, nil_append,
      append_assoc pasteStart, ← append_assoc]
    exact prefix_append _ _
  -- a log with a paste after the one there was
  have hemitted : ∀ (s' : StdinBuffer) (content : Units),
      s.output.log ++ [.paste content] <+: s'.output.log →
        s.output.input ++ pasteStart <+: s'.consumed := by
    intro s' content hlog
    have hinput : (s.output.emitPaste content).input <+: s'.output.input := Output.input_of_log hlog
    rw [Output.emitPaste_input] at hinput
    refine List.IsPrefix.trans ?_ (hinput.trans (prefix_append _ _))
    rw [append_assoc pasteStart, ← append_assoc]
    exact prefix_append _ _
  rw [consumePasteChunk]
  split
  · dsimp only
    split
    · exact hemitted _ (s.pasteChunks ++ [chunk]).flatten (prefix_refl _)
    · exact hopen _ rfl hmode hraw
  split
  · exact hopen _ rfl hmode hraw
  next content remaining _ =>
  refine hemitted _ content (log_finish ?_)
  exact prefix_refl _

/-! ### Where input is lost -/

/-- A call of `process` on what comes where a buffer stands for a reading that holds nothing. -/
def run (pasteByteLimit : ℕ) (pasting : Bool) (s : StdinBuffer) (text : Units) : StdinBuffer :=
  finish pasteByteLimit (if pasting then consumePasteChunk pasteByteLimit s text
    else processKeys pasteByteLimit s text)

variable {r : Reading} {text : Units}

theorem process_eq_run (pasteByteLimit : ℕ)
    (h : Holds s r) (hordinary : ∀ segment ∈ r.row text, segment.Ordinary) (hne : text ≠ []) :
    process pasteByteLimit s text = run pasteByteLimit r.pasting s text := by
  rw [process_eq, activate_eq pasteByteLimit h hordinary hne, run]

theorem run_marker (pasteByteLimit : ℕ)
    {before after : Units} (h : Holds s r) (hpasting : r.pasting = false)
    (hheld : r.held = []) (hcut : cutAt pasteStart text = some (before, after)) :
    ∃ s', run pasteByteLimit false s text = run pasteByteLimit true s' after ∧
      Holds s' (r.next (.typed before true)) := by
  have hwhole : cutAt pasteStart (r.held ++ text) = some (before, after) := by
    rw [hheld]
    exact hcut
  obtain ⟨s', hstep, hholds⟩ := processKeys_marker pasteByteLimit h hpasting hwhole
  refine ⟨s', ?_, hholds⟩
  rw [run, run, if_neg Bool.false_ne_true, if_pos rfl, hstep]

variable {content : Units}

/-- Where a paste is closed, and more comes. -/
theorem run_closed (pasteByteLimit : ℕ)
    {after : Units} (h : Holds s r) (hpasting : r.pasting = true)
    (hheld : r.held = []) (hcut : cutAt pasteEnd text = some (content, after))
    (hordinary : ∀ segment ∈ segments false after, segment.Ordinary) (hne : after ≠ []) :
    ∃ s', run pasteByteLimit true s text = run pasteByteLimit false s' after ∧
      Holds s' (r.next (.pasted content true)) := by
  have hwhole : cutAt pasteEnd (r.held ++ text) = some (content, after) := by
    rw [hheld]
    exact hcut
  obtain ⟨s', hstep, hholds⟩ := consumePasteChunk_closed pasteByteLimit h hpasting hwhole
  refine ⟨s', ?_, hholds⟩
  rw [run, if_pos rfl, hstep, if_neg hne, finish]
  exact process_eq_run pasteByteLimit hholds hordinary hne

theorem segments_nil : segments false [] = [.typed [] false] :=
  segments_typed rfl

/-- A sequence that is cut off by a paste marker is lost. -/
theorem run_unclean {pasteByteLimit : ℕ} (h : Holds s r) (hheld : r.held = [])
    (hordinary : ∀ segment ∈ segments r.pasting text, segment.Ordinary) {unclean : Units}
    (hunclean : .typed unclean true ∈ segments r.pasting text)
    (hremainder : (split unclean).remainder ≠ []) : (run pasteByteLimit r.pasting s text).consumed ≠
      (Reading.mk r.output r.pasting text).consumed := by
  generalize hpasting : r.pasting = pasting at hordinary hunclean ⊢
  induction pasting, text using segments.induct generalizing s r with
  | case1 text before after hcut ih =>
    rw [segments_typed_marker hcut] at hordinary hunclean
    obtain ⟨⟨-, -, hdiscard⟩, hafter⟩ := forall_mem_cons.mp hordinary
    obtain ⟨s', hrun, hholds⟩ := run_marker pasteByteLimit h hpasting hheld hcut
    have hinput := (split_input hdiscard).1
    rw [hrun]
    by_cases hclean : (split before).remainder = []
    · -- it is further on
      have hrest : .typed unclean true ∈ segments true after := by
        rcases mem_cons.mp hunclean with heq | hrest
        · injection heq with heq
          rw [heq] at hremainder
          exact absurd hclean hremainder
        · exact hrest
      have hnext := ih hholds rfl rfl hafter hrest
      rw [hclean, append_nil] at hinput
      intro heq
      refine hnext (heq.trans ?_)
      show r.output.input ++ ([] ++ text) =
        (r.output.emitAll (split before).sequences).input ++ (pasteStart ++ after)
      rw [Output.emitAll_input, hinput, append_assoc, ← eq_of_cutAt hcut]
      rfl
    -- the paste marker comes too early
    intro heq
    have hmarker := consumed_of_paste pasteByteLimit after hholds.pasteMode hholds.raw
    rw [hholds.output] at hmarker
    obtain ⟨more, hmore⟩ := hmarker
    have hwhole : (r.output.emitAll (split before).sequences).input ++ pasteStart ++ more =
        r.output.input ++ ([] ++ text) := hmore.trans heq
    rw [Output.emitAll_input, append_assoc, append_assoc, nil_append] at hwhole
    have hle := length_le_of_cutAt hcut (append_cancel_left hwhole).symm
    have hlengths := congrArg List.length hinput
    rw [length_append] at hlengths
    exact hclean (length_eq_zero_iff.mp (by omega))
  | case2 text hcut =>
    rw [segments_typed hcut, mem_singleton] at hunclean
    cases hunclean
  | case3 text content after hcut ih =>
    rw [segments_pasted_closed hcut] at hordinary hunclean
    obtain ⟨-, hafter⟩ := forall_mem_cons.mp hordinary
    have hrest : .typed unclean true ∈ segments false after := by
      rcases mem_cons.mp hunclean with heq | hrest
      · cases heq
      · exact hrest
    -- `process` is not called again on nothing
    have hne : after ≠ [] := by
      rintro rfl
      rw [segments_nil, mem_singleton] at hrest
      cases hrest
    obtain ⟨s', hrun, hholds⟩ := run_closed pasteByteLimit h hpasting hheld hcut hafter hne
    have hnext := ih hholds rfl rfl hafter hrest
    rw [hrun]
    intro heq
    refine hnext (heq.trans ?_)
    show r.output.input ++ (pasteStart ++ text) =
      (r.output.clearPending.emitPaste content).input ++ ([] ++ after)
    rw [Output.emitPaste_input, eq_of_cutAt hcut]
    simp only [append_assoc, nil_append]
    rfl
  | case4 text hcut =>
    rw [segments_pasted hcut, mem_singleton] at hunclean
    cases hunclean

/-- A paste above the limit ends where the chunk does. -/
theorem run_aborted {pasteByteLimit : ℕ} (h : Holds s r) (hheld : r.held = [])
    (hordinary : ∀ segment ∈ segments r.pasting text, segment.Ordinary)
    (hclean : ∀ before, .typed before true ∈ segments r.pasting text →
      (split before).remainder = []) (hpasted : .pasted content false ∈ segments r.pasting text)
    (hlimit : pasteByteLimit < content.length) :
    (run pasteByteLimit r.pasting s text).output.input =
      (Reading.mk r.output r.pasting text).consumed ++ pasteEnd := by
  generalize hpasting : r.pasting = pasting at hordinary hclean hpasted ⊢
  induction pasting, text using segments.induct generalizing s r with
  | case1 text before after hcut ih =>
    rw [segments_typed_marker hcut] at hordinary hpasted hclean
    obtain ⟨⟨-, -, hdiscard⟩, hafter⟩ := forall_mem_cons.mp hordinary
    obtain ⟨s', hrun, hholds⟩ := run_marker pasteByteLimit h hpasting hheld hcut
    have hinput := (split_input hdiscard).1
    rw [hclean before mem_cons_self, append_nil] at hinput
    have hrest : .pasted content false ∈ segments true after := by
      rcases mem_cons.mp hpasted with heq | hrest
      · cases heq
      · exact hrest
    have hnext := ih hholds rfl rfl hafter
      (fun other hother => hclean other (mem_cons_of_mem _ hother)) hrest
    rw [hrun]
    refine Eq.trans hnext (congrArg (· ++ pasteEnd) ?_)
    show (r.output.emitAll (split before).sequences).input ++ (pasteStart ++ after) =
      r.output.input ++ ([] ++ text)
    rw [Output.emitAll_input, hinput, append_assoc, ← eq_of_cutAt hcut]
    rfl
  | case2 text hcut =>
    rw [segments_typed hcut, mem_singleton] at hpasted
    cases hpasted
  | case3 text closed after hcut ih =>
    rw [segments_pasted_closed hcut] at hordinary hpasted hclean
    obtain ⟨-, hafter⟩ := forall_mem_cons.mp hordinary
    have hrest : .pasted content false ∈ segments false after := by
      rcases mem_cons.mp hpasted with heq | hrest
      · cases heq
      · exact hrest
    have hne : after ≠ [] := by
      rintro rfl
      rw [segments_nil, mem_singleton] at hrest
      cases hrest
    obtain ⟨s', hrun, hholds⟩ := run_closed pasteByteLimit h hpasting hheld hcut hafter hne
    have hnext := ih hholds rfl rfl hafter
      (fun other hother => hclean other (mem_cons_of_mem _ hother)) hrest
    rw [hrun]
    refine Eq.trans hnext (congrArg (· ++ pasteEnd) ?_)
    show (r.output.clearPending.emitPaste closed).input ++ ([] ++ after) =
      r.output.input ++ (pasteStart ++ text)
    rw [Output.emitPaste_input, eq_of_cutAt hcut]
    simp only [append_assoc, nil_append]
    rfl
  | case4 text hcut =>
    -- this is the open paste, and the limit is noticed at the end of the chunk
    rw [segments_pasted hcut, mem_singleton] at hpasted
    injection hpasted with hpasted
    have hwhole : cutAt pasteEnd (r.held ++ text) = none := by
      rw [hheld]
      exact hcut
    obtain ⟨s', hstep, -, haborted⟩ := consumePasteChunk_open pasteByteLimit h hpasting hwhole
    rw [hheld, nil_append] at haborted
    rw [run, if_pos rfl, hstep]
    refine (haborted (by rw [← hpasted]; exact hlimit)).trans ?_
    rw [← append_assoc]
    rfl

/-- An input up to the last unit of an end marker: the paste is open, and is longer. -/
theorem exists_front {pasting : Bool} (h : .pasted content true ∈ segments pasting text) :
    ∃ front rest, text = front ++ 0x7e :: rest ∧
      .pasted (content ++ pasteEnd.take 5) false ∈ segments pasting front ∧
      ∀ segment ∈ segments pasting front,
        segment = .pasted (content ++ pasteEnd.take 5) false ∨ segment ∈ segments pasting text := by
  induction pasting, text using segments.induct with
  | case1 text before after hcut ih =>
    rw [segments_typed_marker hcut] at h ⊢
    have hrest : .pasted content true ∈ segments true after := by
      rcases mem_cons.mp h with heq | hrest
      · cases heq
      · exact hrest
    obtain ⟨front, rest, hafter, hpasted, hall⟩ := ih hrest
    have htext : text = (before ++ (pasteStart ++ front)) ++ 0x7e :: rest := by
      rw [eq_of_cutAt hcut, hafter]
      simp
    have hfront : cutAt pasteStart (before ++ (pasteStart ++ front)) = some (before, front) := by
      refine cutAt_eq_some rfl fun first last heq => ?_
      have hother : text = first ++ (pasteStart ++ (last ++ 0x7e :: rest)) := by
        rw [htext, heq]
        simp
      exact length_le_of_cutAt hcut hother
    refine ⟨before ++ (pasteStart ++ front), rest, htext, ?_, ?_⟩
    · rw [segments_typed_marker hfront]
      exact mem_cons_of_mem _ hpasted
    rw [segments_typed_marker hfront, forall_mem_cons]
    exact ⟨.inr mem_cons_self, fun segment hsegment =>
      (hall segment hsegment).imp_right (mem_cons_of_mem _)⟩
  | case2 text hcut =>
    rw [segments_typed hcut, mem_singleton] at h
    cases h
  | case3 text closed after hcut ih =>
    rw [segments_pasted_closed hcut] at h ⊢
    rcases mem_cons.mp h with heq | hrest
    · cases heq
      have hmarker : pasteEnd = pasteEnd.take 5 ++ [0x7e] := rfl
      have htext : text = (content ++ pasteEnd.take 5) ++ 0x7e :: after := by
        rw [eq_of_cutAt hcut]
        conv_lhs => rw [hmarker]
        simp
      have hnone : cutAt pasteEnd (content ++ pasteEnd.take 5) = none := by
        refine cutAt_none_of_length hcut htext ?_
        rw [length_append]
        exact Nat.add_lt_add_left (by decide) _
      refine ⟨_, after, htext, ?_, ?_⟩
      · rw [segments_pasted hnone]
        exact mem_singleton_self _
      rw [segments_pasted hnone, forall_mem_singleton]
      exact .inl rfl
    obtain ⟨front, rest, hafter, hpasted, hall⟩ := ih hrest
    have htext : text = (closed ++ (pasteEnd ++ front)) ++ 0x7e :: rest := by
      rw [eq_of_cutAt hcut, hafter]
      simp
    have hfront : cutAt pasteEnd (closed ++ (pasteEnd ++ front)) = some (closed, front) := by
      refine cutAt_eq_some rfl fun first last heq => ?_
      have hother : text = first ++ (pasteEnd ++ (last ++ 0x7e :: rest)) := by
        rw [htext, heq]
        simp
      exact length_le_of_cutAt hcut hother
    refine ⟨closed ++ (pasteEnd ++ front), rest, htext, ?_, ?_⟩
    · rw [segments_pasted_closed hfront]
      exact mem_cons_of_mem _ hpasted
    rw [segments_pasted_closed hfront, forall_mem_cons]
    exact ⟨.inr mem_cons_self, fun segment hsegment =>
      (hall segment hsegment).imp_right (mem_cons_of_mem _)⟩
  | case4 text hcut =>
    rw [segments_pasted hcut, mem_singleton] at h
    cases h

end BreadboardTui.Tui
