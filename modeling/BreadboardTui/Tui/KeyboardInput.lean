import BreadboardTui.Tui.Losses

/-!
# Keyboard input in chunks

What is told of an input does not depend on its chunks and loses nothing, exactly when there is
some input, no paste marker cuts off an escape sequence, and no paste goes above the limit.
-/

namespace BreadboardTui.Tui

open List

open StdinBuffer

/-- No line break is typed, and no string gets as long as it may be. -/
def Ordinary (input : Units) : Prop := ∀ segment ∈ segments false input, segment.Ordinary

/-- No paste marker cuts off an escape sequence, and no paste goes above the limit. -/
def Clean (pasteByteLimit : ℕ) (input : Units) : Prop :=
  ∀ segment ∈ segments false input, segment.Clean pasteByteLimit

/-- What is told of an input in chunks is what is told of the whole. The input is what was emitted
or dropped and what is still buffered, and what was dropped is a duplicate. -/
structure Faithful (pasteByteLimit : ℕ) (input : Units) (chunks : List Units) : Prop where
  events : (feed pasteByteLimit chunks).output.events = (feed pasteByteLimit [input]).output.events
  conserved : (feed pasteByteLimit chunks).output.input ++ (feed pasteByteLimit chunks).buffered =
    input
  duplicates : ∀ front printable back,
    (feed pasteByteLimit chunks).output.log = front ++ .dropped printable :: back →
      ∃ sequence codepoint, front.getLast? = some (.data sequence) ∧
        parseUnmodifiedKittyPrintableCodepoint sequence = some codepoint ∧
          printable = [codepoint]

variable {input : Units}

theorem Division.whole (h : input ≠ []) : Division input [input] where
  flatten := flatten_singleton
  nonempty chunk hchunk := by
    rw [mem_singleton.mp hchunk]
    exact h
  uncut front back heq := by
    rintro ⟨high, hhigh, low, hlow, -⟩
    cases front with
    | nil => cases hhigh
    | cons =>
      injection heq with _ heq
      rw [(append_eq_nil_iff.mp heq.symm).2] at hlow
      cases hlow

theorem Division.pair {front back : Units} (hfront : front ≠ []) (hback : back ≠ [])
    (hcut : ¬CutsPair front back) : Division (front ++ back) [front, back] where
  flatten := by rw [flatten_cons, flatten_singleton]
  nonempty := by
    rw [forall_mem_cons, forall_mem_singleton]
    exact ⟨hfront, hback⟩
  uncut first last heq := by
    match first with
    | [] =>
      rintro ⟨high, hhigh, -⟩
      cases hhigh
    | [_] =>
      injection heq with heq hlast
      have hlast' : [back] = last := hlast
      rw [← heq, ← hlast', flatten_singleton, flatten_singleton]
      exact hcut
    | _ :: _ :: first =>
      injection heq with _ heq
      injection heq with _ heq
      rintro ⟨high, -, low, hlow, -⟩
      rw [(append_eq_nil_iff.mp heq.symm).2] at hlow
      cases hlow

variable {pasteByteLimit : ℕ}

theorem faithful_of_clean {chunks : List Units}
    (hordinary : Ordinary input) (hclean : Clean pasteByteLimit input) (hne : input ≠ [])
    (hdivision : Division input chunks) : Faithful pasteByteLimit input chunks := by
  have hgood : Good pasteByteLimit (segments false input) := fun segment hsegment =>
    ⟨hordinary segment hsegment, hclean segment hsegment⟩
  have hchunks := feed_holds hdivision hne hgood
  have hwhole := feed_holds (.whole hne) hne hgood
  have hpaired : (reading input).output.Paired := Reading.foldl_paired Output.Paired.fresh _
  refine ⟨?_, ?_, fun front printable back hlog => ?_⟩
  · rw [hchunks.output, hwhole.output]
  · rw [hchunks.consumed]
    exact foldl_consumed hgood
  rw [hchunks.output] at hlog
  exact hpaired.dropped front printable back hlog

/-- A call of `process` on a whole input. -/
theorem feed_whole (hordinary : Ordinary input)
    (hne : input ≠ []) : feed pasteByteLimit [input] = run pasteByteLimit false {} input :=
  process_eq_run pasteByteLimit .fresh hordinary hne

theorem not_faithful_of_remainder {before : Units} (hordinary : Ordinary input) (hne : input ≠ [])
    (hbefore : .typed before true ∈ segments false input)
    (hremainder : (split before).remainder ≠ []) : ¬Faithful pasteByteLimit input [input] := by
  intro hfaithful
  have hconserved := hfaithful.conserved
  rw [feed_whole hordinary hne] at hconserved
  exact run_unclean .fresh rfl hordinary hbefore hremainder hconserved

/-- A paste without an end marker that is above the limit ends all the same. -/
theorem not_faithful_of_open {content : Units} (hordinary : Ordinary input) (hne : input ≠ [])
    (hclean : ∀ before, .typed before true ∈ segments false input → (split before).remainder = [])
    (hpasted : .pasted content false ∈ segments false input)
    (hlimit : pasteByteLimit < content.length) : ¬Faithful pasteByteLimit input [input] := by
  intro hfaithful
  have haborted := run_aborted .fresh rfl hordinary hclean hpasted hlimit
  have hconserved := hfaithful.conserved
  rw [feed_whole hordinary hne] at hconserved
  have hlength := congrArg List.length hconserved
  rw [show (run pasteByteLimit false {} input).output.input = input ++ pasteEnd from haborted,
    length_append, length_append] at hlength
  have hmarker : pasteEnd.length = 6 := rfl
  omega

/-- A paste with an end marker may be above the limit before the last unit of the marker is
there. -/
theorem not_faithful_of_closed {content : Units} (hordinary : Ordinary input)
    (hclean : ∀ before, .typed before true ∈ segments false input → (split before).remainder = [])
    (hpasted : .pasted content true ∈ segments false input)
    (hlimit : pasteByteLimit < content.length + (pasteEnd.length - 1)) :
    ∃ chunks, Division input chunks ∧ ¬Faithful pasteByteLimit input chunks := by
  obtain ⟨front, rest, hinput, hfront, hall⟩ := exists_front hpasted
  have hne : front ≠ [] := by
    rintro rfl
    rw [segments_nil, mem_singleton] at hfront
    cases hfront
  have hordinary' : Ordinary front := by
    intro segment hsegment
    rcases hall segment hsegment with rfl | hmem
    · trivial
    · exact hordinary segment hmem
  have hclean' : ∀ before, .typed before true ∈ segments false front →
      (split before).remainder = [] := by
    intro before hbefore
    rcases hall _ hbefore with heq | hmem
    · cases heq
    · exact hclean before hmem
  have haborted := run_aborted .fresh rfl hordinary' hclean'
    hfront (by rw [length_append]; exact hlimit)
  have hcut : ¬CutsPair front (0x7e :: rest) := by
    rintro ⟨high, -, low, hlow, -, hpair⟩
    cases hlow
    exact absurd hpair (by decide)
  refine ⟨[front, 0x7e :: rest], ?_, fun hfaithful => ?_⟩
  · rw [hinput]
    exact .pair hne (cons_ne_nil _ _) hcut
  -- the paste was emitted before its end marker was complete
  have hlog := log_process pasteByteLimit (feed pasteByteLimit [front]) (0x7e :: rest)
  have hstart := Output.input_of_log hlog
  rw [feed_whole hordinary' hne,
    show (run pasteByteLimit false {} front).output.input = front ++ pasteEnd from haborted]
    at hstart
  obtain ⟨more, hmore⟩ := hstart
  have hconserved := hfaithful.conserved
  rw [hinput] at hconserved
  have hfeed : feed pasteByteLimit [front, 0x7e :: rest] =
      process pasteByteLimit (run pasteByteLimit false {} front) (0x7e :: rest) := by
    rw [← feed_whole hordinary' hne]
    rfl
  rw [hfeed, ← hmore, append_assoc, append_assoc] at hconserved
  cases append_cancel_left hconserved

theorem not_faithful_of_unclean
    (hordinary : Ordinary input) (hne : input ≠ []) (hunclean : ¬Clean pasteByteLimit input) :
    ∃ chunks, Division input chunks ∧ ¬Faithful pasteByteLimit input chunks := by
  by_cases hclean : ∀ before, .typed before true ∈ segments false input →
      (split before).remainder = []
  · rw [Clean] at hunclean
    push Not at hunclean
    obtain ⟨segment, hsegment, hnot⟩ := hunclean
    cases segment with
    | typed text marker =>
      cases marker with
      | false => exact absurd trivial hnot
      | true => exact absurd (hclean text hsegment) hnot
    | pasted content closed =>
      cases closed with
      | false =>
        exact ⟨[input], .whole hne,
          not_faithful_of_open hordinary hne hclean hsegment (Nat.lt_of_not_le hnot)⟩
      | true => exact not_faithful_of_closed hordinary hclean hsegment (Nat.lt_of_not_le hnot)
  -- the whole in one chunk loses what is cut off
  push Not at hclean
  obtain ⟨before, hbefore, hremainder⟩ := hclean
  exact ⟨[input], .whole hne, not_faithful_of_remainder hordinary hne hbefore hremainder⟩

/-- Input in chunks is told as the whole, and nothing of it is lost, exactly when there is some, no
paste marker cuts off an escape sequence, and no paste goes above the limit. -/
theorem chunks_faithful (pasteByteLimit : ℕ) (input : Units) (hordinary : Ordinary input) :
    (∀ chunks, Division input chunks → Faithful pasteByteLimit input chunks) ↔
      input ≠ [] ∧ Clean pasteByteLimit input := by
  constructor
  · intro hall
    have hne : input ≠ [] := by
      rintro rfl
      -- a call of `process` without input emits an empty key
      have hnone := (hall [] ⟨rfl, by simp, by simp [CutsPair]⟩).events
      have hempty : feed pasteByteLimit [[]] = { output := ({} : Output).emitData [] } := by
        show process pasteByteLimit {} [] = _
        rw [process_eq]
        rfl
      rw [hempty] at hnone
      cases hnone
    refine ⟨hne, ?_⟩
    by_contra hunclean
    obtain ⟨chunks, hdivision, hnot⟩ := not_faithful_of_unclean hordinary hne hunclean
    exact hnot (hall chunks hdivision)
  rintro ⟨hne, hclean⟩ chunks hdivision
  exact faithful_of_clean hordinary hclean hne hdivision

theorem split_singleton : split [0x61] = { sequences := [[0x61]] } := by
  have hstep : nextStep [0x61] 0 = .emit [[0x61]] 1 := by decide +kernel
  rw [split_of_emit hstep]
  show (split []).after [[0x61]] = _
  rw [split_nil]
  rfl

/-- A key, a paste with a line break, and nothing more. -/
theorem segments_keyAndPaste : segments false ([0x61] ++ (pasteStart ++ ([0x0d] ++ pasteEnd))) =
    [.typed [0x61] true, .pasted [0x0d] true, .typed [] false] := by
  have hstart : cutAt pasteStart ([0x61] ++ (pasteStart ++ ([0x0d] ++ pasteEnd))) =
      some ([0x61], [0x0d] ++ pasteEnd) := by decide +kernel
  have hend : cutAt pasteEnd ([0x0d] ++ pasteEnd) = some ([0x0d], []) := by decide +kernel
  rw [segments_typed_marker hstart, segments_pasted_closed hend, segments_nil]

theorem chunks_faithful_keyAndPaste :
    Faithful pasteMaxBytes ([0x61] ++ (pasteStart ++ ([0x0d] ++ pasteEnd)))
      [[0x61], pasteStart ++ ([0x0d] ++ pasteEnd)] := by
  have hordinary : Ordinary ([0x61] ++ (pasteStart ++ ([0x0d] ++ pasteEnd))) := by
    rw [Ordinary, segments_keyAndPaste, forall_mem_cons, forall_mem_cons, forall_mem_singleton]
    refine ⟨?_, trivial, ?_⟩
    · rw [Segment.Ordinary, split_singleton]
      decide
    rw [Segment.Ordinary, split_nil]
    decide
  have hclean : Clean pasteMaxBytes ([0x61] ++ (pasteStart ++ ([0x0d] ++ pasteEnd))) := by
    rw [Clean, segments_keyAndPaste, forall_mem_cons, forall_mem_cons, forall_mem_singleton]
    refine ⟨?_, ?_, trivial⟩
    · rw [Segment.Clean, split_singleton]
    rw [Segment.Clean]
    decide
  have hcut : ¬CutsPair [0x61] (pasteStart ++ ([0x0d] ++ pasteEnd)) := by
    rintro ⟨high, hhigh, low, -, hpair, -⟩
    cases hhigh
    exact absurd hpair (by decide)
  exact (chunks_faithful pasteMaxBytes _ hordinary).mpr ⟨cons_ne_nil _ _, hclean⟩ _
    (.pair (cons_ne_nil _ _) (cons_ne_nil _ _) hcut)

/-- An ESC in front of a paste is lost. -/
theorem not_faithful_escapeAndPaste : ¬∀ pasteByteLimit input, Ordinary input →
    ∀ chunks, Division input chunks → Faithful pasteByteLimit input chunks := by
  intro hall
  have hstart : cutAt pasteStart ([esc] ++ (pasteStart ++ ([0x78] ++ pasteEnd))) =
      some ([esc], [0x78] ++ pasteEnd) := by decide +kernel
  have hend : cutAt pasteEnd ([0x78] ++ pasteEnd) = some ([0x78], []) := by decide +kernel
  have hsplit : split [esc] = { sequences := [], remainder := [esc] } :=
    split_of_hold (by decide +kernel)
  have hrow : segments false ([esc] ++ (pasteStart ++ ([0x78] ++ pasteEnd))) =
      [.typed [esc] true, .pasted [0x78] true, .typed [] false] := by
    rw [segments_typed_marker hstart, segments_pasted_closed hend, segments_nil]
  have hordinary : Ordinary ([esc] ++ (pasteStart ++ ([0x78] ++ pasteEnd))) := by
    rw [Ordinary, hrow, forall_mem_cons, forall_mem_cons, forall_mem_singleton]
    refine ⟨?_, trivial, ?_⟩
    · rw [Segment.Ordinary, hsplit]
      decide
    rw [Segment.Ordinary, split_nil]
    decide
  have hne : [esc] ++ (pasteStart ++ ([0x78] ++ pasteEnd)) ≠ [] := cons_ne_nil _ _
  have hbefore : .typed [esc] true ∈
      segments false ([esc] ++ (pasteStart ++ ([0x78] ++ pasteEnd))) := by
    rw [hrow]
    exact mem_cons_self
  refine not_faithful_of_remainder hordinary hne hbefore ?_
    (hall pasteMaxBytes _ hordinary _ (.whole hne))
  rw [hsplit]
  exact cons_ne_nil _ _

end BreadboardTui.Tui
