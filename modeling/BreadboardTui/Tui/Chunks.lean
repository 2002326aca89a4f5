import BreadboardTui.Tui.Segments

/-!
# Chunks of input

A buffer that is fed an input in chunks holds what a reading of the whole input is.
-/

namespace BreadboardTui.Tui

open List Option

open StdinBuffer

/-- A buffer stands for a reading: nothing is discarded or held as a raw paste; what is held of a
sequence has no complete one; what is held of a paste has no end marker, and its end is the
overlap. -/
structure Holds (s : StdinBuffer) (r : Reading) : Prop where
  output : s.output = r.output
  discard : s.stringDiscardActive = false
  raw : s.rawPasteCandidate = []
  pasteMode : s.pasteMode = r.pasting
  buffer : s.buffer = if r.pasting then [] else r.held
  hold : r.pasting = false → nextStep r.held 0 = .hold
  offset : s.escapeSearchOffset = 0 ∨
    r.pasting = false ∧ s.escapeSearchOffset = r.held.length
  chunks : r.pasting = true → s.pasteChunks.flatten = r.held
  overlap : r.pasting = true →
    s.pasteOverlap = r.held.drop (r.held.length - (pasteEnd.length - 1))
  bytes : r.pasting = true → s.pasteBytes = r.held.length
  unclosed : r.pasting = true → cutAt pasteEnd r.held = none

theorem Holds.fresh : Holds {} ⟨{}, false, []⟩ where
  output := rfl
  discard := rfl
  raw := rfl
  pasteMode := rfl
  buffer := rfl
  hold _ := rfl
  offset := .inl rfl
  chunks := by rintro ⟨⟩
  overlap := by rintro ⟨⟩
  bytes := by rintro ⟨⟩
  unclosed := by rintro ⟨⟩

variable {s : StdinBuffer} {r : Reading}

/-- Nothing was consumed but what is in the log or held. -/
theorem Holds.consumed (h : Holds s r) : s.output.input ++ s.buffered = r.consumed := by
  rw [buffered, h.raw, h.pasteMode, h.buffer, h.output, Reading.consumed]
  cases hpasting : r.pasting with
  | false => rfl
  | true =>
    rw [if_pos rfl, if_pos rfl, if_pos rfl, h.chunks hpasting]
    rw [nil_append, append_nil]

/-- A call of `process` ends in a reading, or goes on to it from another. -/
def Continues (pasteByteLimit : ℕ) (result : StdinBuffer × Option Units) (r : Reading) : Prop :=
  match result.2 with
  | none => Holds result.1 r
  | some text => text ≠ [] ∧ ∃ r', Holds result.1 r' ∧ Good pasteByteLimit (r'.row text) ∧
      r'.read text = r

theorem read_nil (o : Output) : Reading.read ⟨o, false, []⟩ [] = ⟨o, false, []⟩ := by
  have hnone : cutAt pasteStart ([] ++ []) = none := rfl
  rw [Reading.read, Reading.row, segments_typed hnone]
  show Reading.mk (o.emitAll (split []).sequences) false (split []).remainder = _
  rw [split_nil]
  rfl

theorem overlap_append (held chunk : Units) :
    (held.drop (held.length - (pasteEnd.length - 1)) ++ chunk).drop
        ((held.drop (held.length - (pasteEnd.length - 1)) ++ chunk).length -
          (pasteEnd.length - 1)) =
      (held ++ chunk).drop ((held ++ chunk).length - (pasteEnd.length - 1)) := by
  generalize hkeep : pasteEnd.length - 1 = keep
  -- both are the end of what was pasted so far
  have hdrop : held.drop (held.length - keep) ++ chunk =
      (held ++ chunk).drop (held.length - keep) := by
    rw [drop_append_of_le_length (Nat.sub_le _ _)]
  rw [hdrop, drop_drop, length_drop]
  congr 1
  rw [length_append]
  omega

theorem Holds.offset_eq (h : Holds s r)
    (hpasting : r.pasting = true) : s.escapeSearchOffset = 0 := by
  rcases h.offset with hzero | ⟨hfalse, -⟩
  · exact hzero
  rw [hpasting] at hfalse
  cases hfalse

variable {chunk : Units}

/-- A chunk of a paste without the end marker is kept, or it is too much. -/
theorem consumePasteChunk_open (pasteByteLimit : ℕ) (h : Holds s r) (hpasting : r.pasting = true)
    (hcut : cutAt pasteEnd (r.held ++ chunk) = none) :
    ∃ s', consumePasteChunk pasteByteLimit s chunk = (s', none) ∧
      ((r.held ++ chunk).length ≤ pasteByteLimit →
        Holds s' (r.next (.pasted (r.held ++ chunk) false))) ∧
      (pasteByteLimit < (r.held ++ chunk).length →
        s'.output.input = r.output.input ++ (pasteStart ++ (r.held ++ chunk) ++ pasteEnd)) := by
  rw [consumePasteChunk, h.overlap hpasting,
    (cutAt_none_drop_append (h.unclosed hpasting) chunk).mpr hcut]
  rw [h.bytes hpasting, ← length_append]
  refine ⟨_, rfl, fun hlimit => ?_, fun hlimit => ?_⟩
  · rw [if_neg (not_lt.mpr hlimit)]
    exact {
      output := h.output
      discard := h.discard
      raw := h.raw
      pasteMode := h.pasteMode.trans hpasting
      buffer := by
        rw [h.buffer, hpasting]
        rfl
      hold := by rintro ⟨⟩
      offset := .inl (h.offset_eq hpasting)
      chunks := fun _ => by
        show (s.pasteChunks ++ [chunk]).flatten = r.held ++ chunk
        rw [flatten_append, h.chunks hpasting, flatten_singleton]
      overlap := fun _ => overlap_append r.held chunk
      bytes := fun _ => rfl
      unclosed := fun _ => hcut }
  rw [if_pos hlimit]
  show (s.output.emitPaste (s.pasteChunks ++ [chunk]).flatten).input = _
  rw [Output.emitPaste_input, h.output, flatten_append, h.chunks hpasting, flatten_singleton]

theorem consumePasteChunk_closed (pasteByteLimit : ℕ)
    {content remaining : Units} (h : Holds s r) (hpasting : r.pasting = true)
    (hcut : cutAt pasteEnd (r.held ++ chunk) = some (content, remaining)) :
    ∃ s', consumePasteChunk pasteByteLimit s chunk =
        (s', if remaining = [] then none else some remaining) ∧
      Holds s' (r.next (.pasted content true)) := by
  have hprobe : cutAt pasteEnd
      (r.held.drop (r.held.length - (pasteEnd.length - 1)) ++ chunk) ≠ none := by
    rw [Ne, cutAt_none_drop_append (h.unclosed hpasting), hcut]
    exact some_ne_none _
  obtain ⟨found, hfound⟩ := ne_none_iff_exists'.mp hprobe
  rw [consumePasteChunk, h.overlap hpasting, h.chunks hpasting, hfound, hcut]
  refine ⟨_, rfl, ?_⟩
  exact {
    output := by
      rw [h.output]
      rfl
    discard := h.discard
    raw := h.raw
    pasteMode := rfl
    buffer := by
      show s.buffer = []
      rw [h.buffer, hpasting]
      rfl
    hold := fun _ => rfl
    offset := .inl (h.offset_eq hpasting)
    chunks := by rintro ⟨⟩
    overlap := by rintro ⟨⟩
    bytes := by rintro ⟨⟩
    unclosed := by rintro ⟨⟩ }

variable {pasteByteLimit : ℕ}

theorem consumePasteChunk_continues (h : Holds s r) (hpasting : r.pasting = true)
    (hgood : Good pasteByteLimit (r.row chunk)) :
    Continues pasteByteLimit (consumePasteChunk pasteByteLimit s chunk) (r.read chunk) := by
  have hrow : r.row chunk = segments true (r.held ++ chunk) := by rw [Reading.row, hpasting]
  rw [Reading.read, hrow]
  rw [hrow] at hgood
  cases hcut : cutAt pasteEnd (r.held ++ chunk) with
  | none =>
    rw [segments_pasted hcut] at hgood ⊢
    obtain ⟨s', hstep, hkept, -⟩ := consumePasteChunk_open pasteByteLimit h hpasting hcut
    rw [hstep]
    exact hkept (good_singleton.mp hgood).2
  | some parts =>
    obtain ⟨content, remaining⟩ := parts
    rw [segments_pasted_closed hcut] at hgood ⊢
    obtain ⟨s', hstep, hdone⟩ := consumePasteChunk_closed pasteByteLimit h hpasting hcut
    rw [hstep]
    by_cases hnil : remaining = []
    · rw [if_pos hnil, hnil, foldl_cons]
      have hread : (r.next (.pasted content true)).read [] = r.next (.pasted content true) :=
        read_nil _
      show Holds _ ((r.next (.pasted content true)).read [])
      rw [hread]
      exact hdone
    rw [if_neg hnil]
    exact ⟨hnil, _, hdone, (good_cons.mp hgood).2, rfl⟩

theorem processKeys_marker (pasteByteLimit : ℕ)
    {str beforePaste firstChunk : Units} (h : Holds s r) (hpasting : r.pasting = false)
    (hcut : cutAt pasteStart (r.held ++ str) = some (beforePaste, firstChunk)) :
    ∃ s', processKeys pasteByteLimit s str = consumePasteChunk pasteByteLimit s' firstChunk ∧
      Holds s' (r.next (.typed beforePaste true)) := by
  have hbuffer : s.buffer = r.held := by
    rw [h.buffer, hpasting]
    rfl
  obtain ⟨resume, hextracted, -⟩ := extractLoop_eq true (rfl : nextStep beforePaste 0 = _)
  rw [processKeys, hbuffer, hcut]
  refine ⟨_, rfl, ?_⟩
  exact {
    output := by
      rw [extractCompleteSequences, hextracted, h.output]
      rfl
    discard := h.discard
    raw := h.raw
    pasteMode := rfl
    buffer := rfl
    hold := by rintro ⟨⟩
    offset := .inl rfl
    chunks := fun _ => rfl
    overlap := fun _ => rfl
    bytes := fun _ => rfl
    unclosed := fun _ => rfl }

variable {str : Units}

theorem processKeys_continues (h : Holds s r) (hpasting : r.pasting = false)
    (hgood : Good pasteByteLimit (r.row str)) :
    Continues pasteByteLimit (processKeys pasteByteLimit s str) (r.read str) := by
  have hrow : r.row str = segments false (r.held ++ str) := by rw [Reading.row, hpasting]
  have hbuffer : s.buffer = r.held := by
    rw [h.buffer, hpasting]
    rfl
  rw [Reading.read, hrow]
  rw [hrow] at hgood
  cases hcut : cutAt pasteStart (r.held ++ str) with
  | some parts =>
    obtain ⟨beforePaste, firstChunk⟩ := parts
    rw [segments_typed_marker hcut] at hgood ⊢
    obtain ⟨s', hstep, hpaste⟩ := processKeys_marker pasteByteLimit h hpasting hcut
    rw [hstep]
    exact consumePasteChunk_continues hpaste rfl (good_cons.mp hgood).2
  | none =>
    rw [segments_typed hcut] at hgood ⊢
    obtain ⟨⟨-, -, hdiscard⟩, -⟩ := good_singleton.mp hgood
    have hoffset : s.escapeSearchOffset = 0 ∨ s.escapeSearchOffset = r.held.length :=
      h.offset.imp_right And.right
    obtain ⟨resume, hextracted, hresume⟩ :=
      extractCompleteSequences_eq (h.hold hpasting) hoffset str
    rw [processKeys, hbuffer, hcut]
    rw [hextracted]
    dsimp only
    rw [hdiscard]
    exact {
      output := by
        rw [h.output]
        rfl
      discard := h.discard
      raw := h.raw
      pasteMode := h.pasteMode.trans hpasting
      buffer := rfl
      hold := fun _ => (split_input hdiscard).2
      offset := hresume.imp_right fun hlength => ⟨rfl, hlength⟩
      chunks := by rintro ⟨⟩
      overlap := by rintro ⟨⟩
      bytes := by rintro ⟨⟩
      unclosed := by rintro ⟨⟩ }

/-- Without an ESC there is no marker, so a line break would be typed. -/
theorem notMem_lineBreak
    (hordinary : ∀ segment ∈ segments false str, segment.Ordinary) (hesc : esc ∉ str) :
    0x0d ∉ str ∧ 0x0a ∉ str := by
  have hnone : cutAt pasteStart str = none := by
    cases hcut : cutAt pasteStart str with
    | none => rfl
    | some =>
      refine absurd ?_ hesc
      rw [eq_of_cutAt hcut]
      exact mem_append_right _ (mem_append_left _ mem_cons_self)
  rw [segments_typed hnone, forall_mem_singleton] at hordinary
  obtain ⟨hcr, hlf, -⟩ := hordinary
  exact ⟨hcr, hlf⟩

theorem activate_eq (pasteByteLimit : ℕ)
    (h : Holds s r) (hordinary : ∀ segment ∈ r.row str, segment.Ordinary) (hne : str ≠ []) :
    StdinBuffer.activate pasteByteLimit s str =
      if r.pasting then consumePasteChunk pasteByteLimit s str
      else processKeys pasteByteLimit s str := by
  rw [StdinBuffer.activate, h.discard, if_neg Bool.false_ne_true, processText,
    if_neg fun hall => hne hall.1, h.pasteMode]
  cases hpasting : r.pasting with
  | true => rfl
  | false =>
    rw [if_neg Bool.false_ne_true, if_neg Bool.false_ne_true, if_pos h.raw, processUnheld, if_neg]
    -- a chunk with a line break and without an ESC would be typed
    rintro ⟨hbuffer, hesc, hbreak⟩
    rw [h.buffer, hpasting] at hbuffer
    rw [Reading.row, hpasting, show r.held = [] from hbuffer, nil_append] at hordinary
    obtain ⟨hcr, hlf⟩ := notMem_lineBreak hordinary hesc
    exact hbreak.elim hcr hlf

theorem activate_continues
    (h : Holds s r) (hgood : Good pasteByteLimit (r.row str)) (hne : str ≠ []) :
    Continues pasteByteLimit (StdinBuffer.activate pasteByteLimit s str) (r.read str) := by
  rw [activate_eq pasteByteLimit h (fun segment hmem => (hgood segment hmem).1) hne]
  cases hpasting : r.pasting with
  | true => exact consumePasteChunk_continues h hpasting hgood
  | false => exact processKeys_continues h hpasting hgood

/-- A chunk, with all calls of `process` on what is left of it. -/
theorem process_holds (h : Holds s r) (hgood : Good pasteByteLimit (r.row str)) (hne : str ≠ []) :
    Holds (process pasteByteLimit s str) (r.read str) := by
  induction hsize : size s str using Nat.strong_induction_on generalizing s r str with
  | _ bound ih =>
    have hcontinues := activate_continues h hgood hne
    rw [process]
    split
    · next hstep =>
      rw [hstep] at hcontinues
      exact hcontinues
    next hstep =>
    have hless := activate_size hstep
    rw [hstep] at hcontinues
    obtain ⟨hrest, r', hholds, hrow, hread⟩ := hcontinues
    rw [← hread]
    exact ih _ (by omega) hholds hrow hrest rfl

/-- A division of an input into chunks, none of which is empty, which cuts no character with two
units. -/
structure Division (input : Units) (chunks : List Units) : Prop where
  flatten : chunks.flatten = input
  nonempty : ∀ chunk ∈ chunks, chunk ≠ []
  uncut : ∀ front back, chunks = front ++ back → ¬CutsPair front.flatten back.flatten

variable {chunks : List Units} {input : Units}

theorem Division.tail (h : Division input (chunk :: chunks)) : Division chunks.flatten chunks where
  flatten := rfl
  nonempty other hother := h.nonempty other (mem_cons_of_mem _ hother)
  uncut front back heq := by
    have huncut := h.uncut (chunk :: front) back (by rw [heq]; rfl)
    rw [flatten_cons] at huncut
    exact mt (fun hpair => hpair.append_left chunk) huncut

theorem CutsPair.of_append {held text more : Units} (hne : text ≠ [])
    (h : CutsPair (held ++ text) more) : CutsPair text more := by
  obtain ⟨high, hhigh, low, hlow, hpair⟩ := h
  rw [getLast?_append_of_ne_nil _ hne] at hhigh
  exact ⟨high, hhigh, low, hlow, hpair⟩

theorem foldl_process_holds (h : Holds s r)
    (hdivision : Division input (chunk :: chunks)) (hgood : Good pasteByteLimit (r.row input)) :
    Holds ((chunk :: chunks).foldl (process pasteByteLimit) s) (r.read input) := by
  -- a first chunk is read, and the rest is read by the reading that it leaves
  induction chunks generalizing s r input chunk with
  | nil =>
    have hinput : chunk = input := (append_nil _).symm.trans hdivision.flatten
    rw [← hinput] at hgood ⊢
    exact process_holds h hgood (hdivision.nonempty _ mem_cons_self)
  | cons second chunks ih =>
    have hne := hdivision.nonempty _ mem_cons_self
    have huncut : ¬CutsPair (r.held ++ chunk) (second :: chunks).flatten := by
      have hfirst := hdivision.uncut [chunk] (second :: chunks) rfl
      rw [flatten_singleton] at hfirst
      exact mt (CutsPair.of_append hne) hfirst
    have hinput : input = chunk ++ (second :: chunks).flatten := hdivision.flatten.symm
    rw [hinput] at hgood ⊢
    obtain ⟨hfirst, hrest, hread⟩ := read_append hgood huncut
    rw [hread, foldl_cons]
    exact ih (process_holds h hfirst hne) hdivision.tail hrest

/-- The reading of a whole input. -/
def reading (input : Units) : Reading := Reading.read ⟨{}, false, []⟩ input

/-- A buffer that is fed the chunks of an input stands for the reading of the whole. -/
theorem feed_holds (hdivision : Division input chunks) (hne : input ≠ [])
    (hgood : Good pasteByteLimit (segments false input)) :
    Holds (feed pasteByteLimit chunks) (reading input) := by
  cases chunks with
  | nil => exact absurd hdivision.flatten.symm hne
  | cons => exact foldl_process_holds .fresh hdivision hgood

end BreadboardTui.Tui
