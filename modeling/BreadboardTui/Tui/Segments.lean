import BreadboardTui.Tui.Sequences

/-!
# Keys and pastes

An input is a row of segments: what is typed up to a paste marker, what is pasted up to the other
marker, and so on. `Reading` is what a buffer is after an input, told segment by segment; an input
in two pieces reads like the whole.
-/

namespace BreadboardTui.Tui

/-- What is typed, up to a paste marker or not, and what is pasted, up to the end marker or not. -/
inductive Segment where
  | typed (text : Units) (marker : Bool)
  | pasted (content : Units) (closed : Bool)
  deriving DecidableEq, Repr

variable {text : Units}

theorem length_lt_of_marker {pattern before after : Units} (hpattern : 0 < pattern.length)
    (h : cutAt pattern text = some (before, after)) : after.length < text.length := by
  rw [eq_of_cutAt h, List.length_append, List.length_append]
  omega

/-- The segments of a text, which starts in a paste or not. -/
def segments (pasting : Bool) (text : Units) : List Segment :=
  match pasting with
  | false =>
    match _hcut : cutAt pasteStart text with
    | some (before, after) => .typed before true :: segments true after
    | none => [.typed text false]
  | true =>
    match _hcut : cutAt pasteEnd text with
    | some (content, after) => .pasted content true :: segments false after
    | none => [.pasted text false]
termination_by text.length
decreasing_by
  · exact length_lt_of_marker (by decide) _hcut
  · exact length_lt_of_marker (by decide) _hcut

theorem segments_typed_marker {before after : Units}
    (h : cutAt pasteStart text = some (before, after)) :
    segments false text = .typed before true :: segments true after := by
  rw [segments]
  split
  · next hother =>
    rw [h] at hother
    cases hother
    rfl
  next hother =>
  rw [h] at hother
  cases hother

theorem segments_typed (h : cutAt pasteStart text = none) :
    segments false text = [.typed text false] := by
  rw [segments]
  split
  · next hother =>
    rw [h] at hother
    cases hother
  · rfl

theorem segments_pasted_closed {content after : Units}
    (h : cutAt pasteEnd text = some (content, after)) :
    segments true text = .pasted content true :: segments false after := by
  conv_lhs => rw [segments]
  split
  · next hother =>
    rw [h] at hother
    cases hother
    rfl
  next hother =>
  rw [h] at hother
  cases hother

theorem segments_pasted (h : cutAt pasteEnd text = none) :
    segments true text = [.pasted text false] := by
  rw [segments]
  split
  · next hother =>
    rw [h] at hother
    cases hother
  · rfl

/-! ### Conditions on an input -/

/-- No line break is typed, and no OSC, DCS or APC string is as long as it may be. -/
def Segment.Ordinary : Segment → Prop
  | .typed text _ => 0x0d ∉ text ∧ 0x0a ∉ text ∧ (split text).discardFrom = none
  | .pasted _ _ => True

/-- No escape sequence is cut off by a paste marker. A paste is within the limit, with all of the
end marker but its last unit. -/
def Segment.Clean (pasteByteLimit : ℕ) : Segment → Prop
  | .typed text true => (split text).remainder = []
  | .typed _ false => True
  | .pasted content true => content.length + (pasteEnd.length - 1) ≤ pasteByteLimit
  | .pasted content false => content.length ≤ pasteByteLimit

def Good (pasteByteLimit : ℕ) (row : List Segment) : Prop :=
  ∀ segment ∈ row, segment.Ordinary ∧ segment.Clean pasteByteLimit

theorem good_cons {pasteByteLimit : ℕ} {segment : Segment} {row : List Segment} :
    Good pasteByteLimit (segment :: row) ↔
      (segment.Ordinary ∧ segment.Clean pasteByteLimit) ∧ Good pasteByteLimit row :=
  List.forall_mem_cons

theorem good_singleton {pasteByteLimit : ℕ} {segment : Segment} :
    Good pasteByteLimit [segment] ↔ segment.Ordinary ∧ segment.Clean pasteByteLimit :=
  List.forall_mem_singleton

/-! ### Reading -/

/-- What was emitted, whether a paste is open, and what is held: of the paste or of a sequence. -/
structure Reading where
  output : Output
  pasting : Bool
  held : Units
  deriving DecidableEq, Repr

namespace Reading

def next (r : Reading) : Segment → Reading
  | .typed text true => ⟨(r.output.emitAll (split text).sequences).clearPending, true, []⟩
  | .typed text false =>
    ⟨r.output.emitAll (split text).sequences, false, (split text).remainder⟩
  | .pasted content true => ⟨r.output.clearPending.emitPaste content, false, []⟩
  | .pasted content false => ⟨r.output, true, content⟩

def row (r : Reading) (text : Units) : List Segment := segments r.pasting (r.held ++ text)

def read (r : Reading) (text : Units) : Reading := (r.row text).foldl next r

theorem next_congr {r r' : Reading} (h : r.output = r'.output) (segment : Segment) :
    r.next segment = r'.next segment := by
  cases segment with
  | typed text marker => cases marker <;> simp only [next, h]
  | pasted content closed => cases closed <;> simp only [next, h]

theorem foldl_next_congr {r r' : Reading} (h : r.output = r'.output) {segment : Segment}
    (rest : List Segment) :
    (segment :: rest).foldl next r = (segment :: rest).foldl next r' := by
  rw [List.foldl_cons, List.foldl_cons, next_congr h]

end Reading

theorem segments_ne_nil (pasting : Bool) (text : Units) :
    ∃ segment rest, segments pasting text = segment :: rest := by
  cases pasting with
  | false =>
    cases h : cutAt pasteStart text with
    | none => exact ⟨_, _, segments_typed h⟩
    | some => exact ⟨_, _, segments_typed_marker h⟩
  | true =>
    cases h : cutAt pasteEnd text with
    | none => exact ⟨_, _, segments_pasted h⟩
    | some => exact ⟨_, _, segments_pasted_closed h⟩

theorem Output.emitAll_append (o : Output) (first last : List Units) :
    o.emitAll (first ++ last) = (o.emitAll first).emitAll last :=
  List.foldl_append

/-! ### Two pieces -/

theorem split_of_marker {part more after : Units} (hpart : part ≠ [])
    (hlength : part.length < pasteStart.length) (h : part ++ more = pasteStart ++ after) :
    part.head? = some esc ∧ (∀ code ∈ part, code ∈ pasteStart) ∧
      split part = { sequences := [], remainder := part } := by
  have htake : part = pasteStart.take part.length := by
    have hleft := congrArg (List.take part.length) h
    rwa [List.take_left' rfl, List.take_append_of_le_length hlength.le] at hleft
  -- a part is one of five, and none of them is a complete sequence
  generalize part.length = length at htake hlength
  have hsix : length < 6 := hlength
  subst htake
  have hpos : length ≠ 0 := by
    rintro rfl
    exact hpart rfl
  refine ⟨?_, fun code hcode => List.mem_of_mem_take hcode, split_of_hold ?_⟩
  · interval_cases length
    · exact absurd rfl hpos
    all_goals rfl
  interval_cases length
  · exact absurd rfl hpos
  all_goals decide +kernel

/-- Where a first piece without a paste marker ends, when there is one in the whole. -/
theorem cutAt_of_pieces {text more before after : Units} (hnone : cutAt pasteStart text = none)
    (h : cutAt pasteStart (text ++ more) = some (before, after))
    (hdiscard : (split before).discardFrom = none) (hclean : (split before).remainder = [])
    (hcut : ¬CutsPair text more) :
    (split text).discardFrom = none ∧ (∀ code ∈ text, code ∈ before ∨ code ∈ pasteStart) ∧
      ∃ gap, cutAt pasteStart ((split text).remainder ++ more) = some (gap, after) ∧
        (split before).sequences = (split text).sequences ++ (split gap).sequences ∧
        (split gap).remainder = [] ∧ (split gap).discardFrom = none ∧
        ∀ code ∈ gap, code ∈ before := by
  by_cases hle : text.length ≤ before.length
  · -- the marker is in the second piece
    obtain ⟨gap, hbefore, hgap⟩ := cutAt_of_append h rfl hle
    have hcutgap : ¬CutsPair text gap := by
      rintro ⟨high, hhigh, low, hlow, hpair⟩
      refine hcut ⟨high, hhigh, low, ?_, hpair⟩
      cases gap with
      | nil => cases hlow
      | cons =>
        rw [eq_of_cutAt hgap]
        exact hlow
    have htext : (split text).discardFrom = none := by
      rw [hbefore] at hdiscard
      exact split_discard_of_append hdiscard hcutgap
    obtain ⟨hinput, -⟩ := split_input htext
    have hsplit := split_append htext hcutgap
    rw [← hbefore] at hsplit
    rw [hsplit] at hdiscard hclean
    refine ⟨htext, fun code hcode => .inl ?_, (split text).remainder ++ gap, ?_, ?_, hclean,
      hdiscard, fun code hcode => ?_⟩
    · rw [hbefore]
      exact List.mem_append_left _ hcode
    · have hflat : (split text).sequences.flatten.length ≤ before.length := by
        refine le_trans ?_ hle
        rw [← hinput, List.length_append, hinput]
        exact Nat.le_add_right _ _
      obtain ⟨gap', hbefore', hgap'⟩ := cutAt_of_append h (show text ++ more =
        (split text).sequences.flatten ++ ((split text).remainder ++ more) by
          rw [← List.append_assoc, hinput]) hflat
      have hsame : (split text).sequences.flatten ++ gap' =
          (split text).sequences.flatten ++ ((split text).remainder ++ gap) := by
        rw [← hbefore', hbefore, ← List.append_assoc, hinput]
      rw [hgap', List.append_cancel_left hsame]
    · rw [hsplit]
      rfl
    rw [hbefore]
    rcases List.mem_append.mp hcode with hcode | hcode
    · refine List.mem_append_left _ ?_
      rw [← hinput]
      exact List.mem_append_right _ hcode
    · exact List.mem_append_right _ hcode
  -- the marker starts in the first piece, which ends with a part of it
  rw [not_le] at hle
  have hlt := length_lt_of_cutAt h hnone
  have heq := eq_of_cutAt h
  obtain ⟨part, hpart, hrest⟩ : ∃ part, text = before ++ part ∧
      part ++ more = pasteStart ++ after := by
    rcases List.append_eq_append_iff.mp heq with ⟨z, hz, -⟩ | ⟨z, hz, hrest⟩
    · have hlength := congrArg List.length hz
      rw [List.length_append] at hlength
      omega
    · exact ⟨z, hz, hrest.symm⟩
  rw [hpart, List.length_append] at hle hlt
  have hne : part ≠ [] := by
    rintro rfl
    exact absurd hle (lt_irrefl _)
  obtain ⟨hhead, hmem, hheld⟩ := split_of_marker hne (by omega) hrest
  have hcutpart : ¬CutsPair before part := by
    rintro ⟨high, -, low, hlow, -, hpair⟩
    rw [hhead] at hlow
    cases hlow
    exact absurd hpair (by decide)
  have hsplit := split_append hdiscard hcutpart
  rw [hclean, List.nil_append, hheld, ← hpart] at hsplit
  have hgap : cutAt pasteStart (part ++ more) = some ([], after) :=
    cutAt_eq_some hrest fun _ _ _ => Nat.zero_le _
  rw [hsplit]
  refine ⟨rfl, fun code hcode => ?_, [], hgap, ?_, ?_, ?_, fun code hcode => by cases hcode⟩
  · rw [hpart] at hcode
    exact (List.mem_append.mp hcode).imp_right (hmem code)
  · rw [split_nil]
    show _ = ((split before).sequences ++ []) ++ []
    rw [List.append_nil, List.append_nil]
  · rw [split_nil]
  · rw [split_nil]

theorem carriageReturn_notMem_pasteStart : 0x0d ∉ pasteStart ∧ 0x0a ∉ pasteStart := by
  decide

theorem foldl_typed_append {pasteByteLimit : ℕ} {text more : Units} {r : Reading}
    (hnone : cutAt pasteStart text = none)
    (hgood : Good pasteByteLimit (segments false (text ++ more))) (hcut : ¬CutsPair text more) :
    Good pasteByteLimit [.typed text false] ∧
      Good pasteByteLimit (segments false ((split text).remainder ++ more)) ∧
      (segments false (text ++ more)).foldl Reading.next r =
        (segments false ((split text).remainder ++ more)).foldl Reading.next
          (r.next (.typed text false)) := by
  cases h : cutAt pasteStart (text ++ more) with
  | none =>
    rw [segments_typed h] at hgood ⊢
    obtain ⟨⟨hcr, hlf, hdiscard⟩, -⟩ := good_singleton.mp hgood
    have htext := split_discard_of_append hdiscard hcut
    obtain ⟨hinput, -⟩ := split_input htext
    have hsplit := split_append htext hcut
    -- what is held is the end of the first piece, so no marker is there either
    have hheld : cutAt pasteStart ((split text).remainder ++ more) = none := by
      rw [← hinput, List.append_assoc] at h
      exact (cutAt_none_of_append h).2
    have hsub : ∀ code ∈ (split text).remainder ++ more, code ∈ text ++ more := by
      intro code hcode
      rcases List.mem_append.mp hcode with hcode | hcode
      · refine List.mem_append_left _ ?_
        rw [← hinput]
        exact List.mem_append_right _ hcode
      · exact List.mem_append_right _ hcode
    rw [hsplit] at hdiscard
    rw [segments_typed hheld, good_singleton, good_singleton]
    refine ⟨⟨⟨?_, ?_, htext⟩, trivial⟩, ⟨⟨mt (hsub _) hcr, mt (hsub _) hlf, hdiscard⟩, trivial⟩, ?_⟩
    · exact mt (List.mem_append_left _) hcr
    · exact mt (List.mem_append_left _) hlf
    show Reading.mk _ _ _ = Reading.mk ..
    rw [hsplit]
    show Reading.mk (r.output.emitAll (_ ++ _)) _ _ = _
    rw [Output.emitAll_append]
    rfl
  | some parts =>
    obtain ⟨before, after⟩ := parts
    rw [segments_typed_marker h] at hgood ⊢
    obtain ⟨⟨⟨hcr, hlf, hdiscard⟩, hclean⟩, hafter⟩ := good_cons.mp hgood
    obtain ⟨htext, hmem, gap, hgap, hsequences, hremainder, hgapdiscard, hsub⟩ :=
      cutAt_of_pieces hnone h hdiscard hclean hcut
    obtain ⟨hcrm, hlfm⟩ := carriageReturn_notMem_pasteStart
    rw [segments_typed_marker hgap, good_singleton, good_cons]
    refine ⟨⟨⟨fun hcode => ?_, fun hcode => ?_, htext⟩, trivial⟩,
      ⟨⟨⟨mt (hsub _) hcr, mt (hsub _) hlf, hgapdiscard⟩, hremainder⟩, hafter⟩, ?_⟩
    · exact (hmem _ hcode).elim hcr hcrm
    · exact (hmem _ hcode).elim hlf hlfm
    rw [List.foldl_cons, List.foldl_cons]
    have hnext : r.next (.typed before true) =
        (r.next (.typed text false)).next (.typed gap true) := by
      show Reading.mk (r.output.emitAll _).clearPending _ _ = _
      rw [hsequences, Output.emitAll_append]
      rfl
    rw [hnext]

/-- An input in two pieces. What is held after the first is read again in front of the second. -/
theorem foldl_append {pasteByteLimit : ℕ} {pasting : Bool} {text more : Units} {r : Reading}
    (hgood : Good pasteByteLimit (segments pasting (text ++ more))) (hcut : ¬CutsPair text more) :
    let first := (segments pasting text).foldl Reading.next r
    Good pasteByteLimit (segments pasting text) ∧ Good pasteByteLimit (first.row more) ∧
      (segments pasting (text ++ more)).foldl Reading.next r = first.read more := by
  induction pasting, text using segments.induct generalizing r with
  | case1 text before after h ih =>
    rw [segments_typed_marker (cutAt_append h more)] at hgood ⊢
    rw [segments_typed_marker h]
    obtain ⟨hhead, hafter⟩ := good_cons.mp hgood
    have hcutafter : ¬CutsPair after more := by
      rw [eq_of_cutAt h] at hcut
      exact fun hpair => hcut ((hpair.append_left _).append_left _)
    obtain ⟨hfirst, hrow, hread⟩ := ih
      (r := r.next (.typed before true)) hafter hcutafter
    exact ⟨good_cons.mpr ⟨hhead, hfirst⟩, hrow, hread⟩
  | case2 text h =>
    rw [segments_typed h]
    exact foldl_typed_append h hgood hcut
  | case3 text content after h ih =>
    rw [segments_pasted_closed (cutAt_append h more)] at hgood ⊢
    rw [segments_pasted_closed h]
    obtain ⟨hhead, hafter⟩ := good_cons.mp hgood
    have hcutafter : ¬CutsPair after more := by
      rw [eq_of_cutAt h] at hcut
      exact fun hpair => hcut ((hpair.append_left _).append_left _)
    obtain ⟨hfirst, hrow, hread⟩ := ih
      (r := r.next (.pasted content true)) hafter hcutafter
    exact ⟨good_cons.mpr ⟨hhead, hfirst⟩, hrow, hread⟩
  | case4 text h =>
    -- the paste is held as a whole and read again
    rw [segments_pasted h]
    obtain ⟨segment, rest, hrow⟩ := segments_ne_nil true (text ++ more)
    refine ⟨good_singleton.mpr ⟨trivial, ?_⟩, hgood, ?_⟩
    · show text.length ≤ pasteByteLimit
      cases hmore : cutAt pasteEnd (text ++ more) with
      | none =>
        rw [segments_pasted hmore] at hgood
        have hle : (text ++ more).length ≤ pasteByteLimit := (good_singleton.mp hgood).2
        rw [List.length_append] at hle
        omega
      | some parts =>
        rw [segments_pasted_closed hmore] at hgood
        have hle : parts.1.length + (pasteEnd.length - 1) ≤ pasteByteLimit :=
          (good_cons.mp hgood).1.2
        -- a first piece has all of the end marker but one unit at most
        have hlt := length_lt_of_cutAt hmore h
        omega
    show _ = (segments true (text ++ more)).foldl Reading.next _
    rw [hrow]
    exact Reading.foldl_next_congr rfl rest

theorem read_append {pasteByteLimit : ℕ} {r : Reading} {text more : Units}
    (hgood : Good pasteByteLimit (r.row (text ++ more))) (hcut : ¬CutsPair (r.held ++ text) more) :
    Good pasteByteLimit (r.row text) ∧ Good pasteByteLimit ((r.read text).row more) ∧
      r.read (text ++ more) = (r.read text).read more := by
  rw [Reading.row, ← List.append_assoc] at hgood
  obtain ⟨hfirst, hrow, hread⟩ := foldl_append (r := r) hgood hcut
  refine ⟨hfirst, hrow, ?_⟩
  rw [Reading.read, Reading.row, ← List.append_assoc, hread]
  rfl

/-! ### What was consumed -/

theorem Output.emitData_input (o : Output) (sequence : Units) :
    (o.emitData sequence).input = o.input ++ sequence := by
  rw [emitData]
  split
  · rw [input, input, List.flatMap_append, List.flatMap_singleton]
    rfl
  rw [input, input, List.flatMap_append, List.flatMap_singleton]
  rfl

theorem Output.emitAll_input (o : Output) (sequences : List Units) :
    (o.emitAll sequences).input = o.input ++ sequences.flatten := by
  induction sequences generalizing o with
  | nil => exact (List.append_nil _).symm
  | cons sequence sequences ih =>
    show ((o.emitData sequence).emitAll sequences).input = _
    rw [ih, emitData_input, List.flatten_cons, List.append_assoc]

theorem Output.emitPaste_input (o : Output) (content : Units) :
    (o.emitPaste content).input = o.input ++ (pasteStart ++ content ++ pasteEnd) := by
  show (o.log ++ [Item.paste content]).flatMap Item.input = _
  rw [List.flatMap_append, List.flatMap_singleton]
  rfl

/-- The input that was read: what was emitted or dropped, and what is held. -/
def Reading.consumed (r : Reading) : Units :=
  r.output.input ++ ((if r.pasting then pasteStart else []) ++ r.held)

/-- No unit of input is lost. -/
theorem foldl_consumed {pasteByteLimit : ℕ} {r : Reading} {pasting : Bool} {text : Units}
    (hgood : Good pasteByteLimit (segments pasting text)) :
    ((segments pasting text).foldl Reading.next r).consumed =
      (Reading.mk r.output pasting text).consumed := by
  induction pasting, text using segments.induct generalizing r with
  | case1 text before after h ih =>
    rw [segments_typed_marker h] at hgood ⊢
    obtain ⟨⟨⟨-, -, hdiscard⟩, hclean⟩, hafter⟩ := good_cons.mp hgood
    have hinput := (split_input hdiscard).1
    have hremainder : (split before).remainder = [] := hclean
    rw [hremainder, List.append_nil] at hinput
    rw [List.foldl_cons, ih hafter]
    show (r.output.emitAll _).input ++ (pasteStart ++ after) = r.output.input ++ ([] ++ text)
    rw [Output.emitAll_input, hinput, List.append_assoc, ← eq_of_cutAt h]
    rfl
  | case2 text h =>
    rw [segments_typed h] at hgood ⊢
    obtain ⟨⟨-, -, hdiscard⟩, -⟩ := good_singleton.mp hgood
    show (r.output.emitAll (split text).sequences).input ++ ([] ++ (split text).remainder) =
      r.output.input ++ ([] ++ text)
    rw [Output.emitAll_input, List.nil_append, List.append_assoc, (split_input hdiscard).1,
      List.nil_append]
  | case3 text content after h ih =>
    rw [segments_pasted_closed h] at hgood ⊢
    obtain ⟨-, hafter⟩ := good_cons.mp hgood
    rw [List.foldl_cons, ih hafter]
    show (r.output.clearPending.emitPaste content).input ++ ([] ++ after) =
      r.output.input ++ (pasteStart ++ text)
    rw [Output.emitPaste_input, eq_of_cutAt h]
    simp only [List.append_assoc, List.nil_append]
    rfl
  | case4 text h =>
    rw [segments_pasted h]
    rfl

/-! ### Duplicates -/

/-- What is dropped is the printable of the Kitty event directly in front of it, and what waits to
be repeated is of the last event. -/
structure Output.Paired (o : Output) : Prop where
  pending : ∀ codepoint, o.pendingKitty = some codepoint → ∃ sequence,
    o.log.getLast? = some (.data sequence) ∧
      parseUnmodifiedKittyPrintableCodepoint sequence = some codepoint
  dropped : ∀ front printable back, o.log = front ++ .dropped printable :: back →
    ∃ sequence codepoint, front.getLast? = some (.data sequence) ∧
      parseUnmodifiedKittyPrintableCodepoint sequence = some codepoint ∧ printable = [codepoint]

namespace Output.Paired

theorem fresh : Output.Paired {} where
  pending := by
    rintro _ ⟨⟩
  dropped front printable back h := by
    cases front with
    | nil => cases h
    | cons => cases h

variable {o : Output}

theorem clearPending (h : o.Paired) : o.clearPending.Paired where
  pending := by
    rintro _ ⟨⟩
  dropped := h.dropped

/-- An item at the end, which is not a duplicate or is one of the last. -/
theorem dropped_append (h : o.Paired) (item : Item)
    (hitem : ∀ printable, item = .dropped printable → ∃ sequence codepoint,
      o.log.getLast? = some (.data sequence) ∧
        parseUnmodifiedKittyPrintableCodepoint sequence = some codepoint ∧
          printable = [codepoint])
    {front back : List Item} {printable : Units}
    (hlog : o.log ++ [item] = front ++ .dropped printable :: back) :
    ∃ sequence codepoint, front.getLast? = some (.data sequence) ∧
      parseUnmodifiedKittyPrintableCodepoint sequence = some codepoint ∧
        printable = [codepoint] := by
  rcases List.append_eq_append_iff.mp hlog with ⟨z, hz, hrest⟩ | ⟨z, hz, hrest⟩
  · cases z with
    | nil =>
      rw [List.append_nil] at hz
      injection hrest with hhead _
      rw [hz]
      exact hitem printable hhead
    | cons first z =>
      injection hrest with _ hrest
      cases z with
      | nil => cases hrest
      | cons => cases hrest
  cases z with
  | nil =>
    rw [List.append_nil] at hz
    injection hrest with hhead _
    rw [← hz]
    exact hitem printable hhead.symm
  | cons first z =>
    injection hrest with hhead hrest
    rw [← hhead] at hz
    exact h.dropped front printable z hz

theorem emitPaste (h : o.Paired) (hpending : o.pendingKitty = none)
    (content : Units) : (o.emitPaste content).Paired where
  pending codepoint hcodepoint := by
    have hnone : (o.emitPaste content).pendingKitty = none := hpending
    rw [hnone] at hcodepoint
    cases hcodepoint
  dropped front printable back hlog := by
    refine h.dropped_append (.paste content) ?_ hlog
    rintro _ ⟨⟩

theorem emitData (h : o.Paired) (sequence : Units) : (o.emitData sequence).Paired := by
  rw [Output.emitData]
  split
  · next hrepeats =>
    refine ⟨by rintro _ ⟨⟩, fun front printable back hlog => ?_⟩
    refine h.dropped_append (.dropped sequence) (fun other hother => ?_) hlog
    cases hother
    obtain ⟨hone, hhead⟩ := hrepeats
    obtain ⟨code, rfl⟩ := List.length_eq_one_iff.mp hone
    obtain ⟨kitty, hlast, hparse⟩ := h.pending code hhead.symm
    exact ⟨kitty, code, hlast, hparse, rfl⟩
  refine ⟨fun codepoint hparse => ⟨sequence, ?_, hparse⟩, fun front printable back hlog => ?_⟩
  · exact List.getLast?_concat
  refine h.dropped_append (.data sequence) ?_ hlog
  rintro _ ⟨⟩

theorem emitAll (h : o.Paired) (sequences : List Units) : (o.emitAll sequences).Paired := by
  induction sequences generalizing o with
  | nil => exact h
  | cons sequence sequences ih => exact ih (h.emitData sequence)

end Output.Paired

theorem Reading.next_paired {r : Reading} (h : r.output.Paired) (segment : Segment) :
    (r.next segment).output.Paired := by
  cases segment with
  | typed text marker =>
    cases marker with
    | false => exact h.emitAll _
    | true => exact (h.emitAll _).clearPending
  | pasted content closed =>
    cases closed with
    | false => exact h
    | true => exact h.clearPending.emitPaste rfl content

theorem Reading.foldl_paired {r : Reading} (h : r.output.Paired) (row : List Segment) :
    (row.foldl next r).output.Paired := by
  induction row generalizing r with
  | nil => exact h
  | cons segment row ih => exact ih (next_paired h segment)

end BreadboardTui.Tui
