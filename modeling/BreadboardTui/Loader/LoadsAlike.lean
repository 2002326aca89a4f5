import BreadboardTui.Loader.Streaming

/-!
# Streamed loading and full loading

The stream takes what has arrived of a line for a record as soon as it is one, finds the title slot
behind any white space, and counts every line that is not a record and not JSON white space.
`parseSessionContent` does none of this. Neither the number of records nor, for the same records,
the number of malformed lines can be smaller in the stream, line by line, so differences in two
lines never cancel out: `loadEntriesFromFileStream_eq_iff` says exactly when the results agree.
-/

namespace BreadboardTui

open List

namespace Loader

/-- The tokens of a line give what the line gives: where what has arrived at the end of a chunk is a
record, only white space follows. -/
def RecordsWhole (R : JsonlRuntime) (line : List (Option UInt8)) : Prop :=
  ∀ before after, line = before ++ none :: after →
    (R.byteFormat.value (bytesOf before)).isSome = true →
      ∀ b ∈ bytesOf after, R.byteFormat.isSpace b = true

/-- A line is not only white space that JSON does not know. -/
def NotTrimmedAway (R : JsonlRuntime) (line : List UInt8) : Prop :=
  R.byteFormat.value line = none → R.byteFormat.lead line ≠ [] → countsText (R.decode line) = true

/-- The slot that `parseSessionContent` finds on the first line. -/
def slotOf (R : JsonlRuntime) (line : List UInt8) : Option SessionTitleUpdate :=
  (parseTitleSlotLine R (R.decode line)).map titleUpdateFromSlot

/-- The condition under which streamed and full loading agree. -/
structure LoadsAlike (R : JsonlRuntime) (chunks : List (List UInt8)) : Prop where
  lines : ∀ line ∈ (tokens chunks).splitOn (some 0x0a),
    RecordsWhole R line ∧ NotTrimmedAway R (bytesOf line)
  /-- The first line is a slot with and without the white space around it, or neither. -/
  slot : ∀ line rest, tokens chunks = line ++ some 0x0a :: rest → some 0x0a ∉ line →
    firstLineSlot R (bytesOf line) = slotOf R (bytesOf line)
  /-- No chunk ends where the slot is complete. -/
  slotWhole : ∀ line rest, tokens chunks = line ++ some 0x0a :: rest → some 0x0a ∉ line →
    (slotOf R (bytesOf line)).isSome = true → ∀ before after, line = before ++ none :: after →
      R.byteFormat.value (bytesOf before) = none

/-! ### Records found early -/

/-- What the stream finds in tokens behind the first line, and the part of a line that it holds at
the end. -/
def scanTokens (R : JsonlRuntime) (part : List UInt8) :
    List (Option UInt8) → List (Outcome UInt8 JsValue) × List UInt8
  | [] => ([], part)
  | none :: toks =>
    (earlyEntry R part ++ (scanTokens R (pendingPart R part) toks).1,
      (scanTokens R (pendingPart R part) toks).2)
  | some b :: toks =>
    if b = 0x0a then
      (R.byteFormat.outcome part ++ (scanTokens R [] toks).1, (scanTokens R [] toks).2)
    else scanTokens R (part ++ [b]) toks

/-- All that the stream finds, with what it holds at the end. -/
def streamed (R : JsonlRuntime) (part : List UInt8) (toks : List (Option UInt8)) :
    List (Outcome UInt8 JsValue) :=
  (scanTokens R part toks).1 ++ R.byteFormat.outcome (scanTokens R part toks).2

section Scan

variable {R : JsonlRuntime} (toks : List (Option UInt8))

theorem foldl_token (visited : Visited) (part : List UInt8) :
    toks.foldl (LineState.token R) ⟨visited, true, part⟩ =
      ⟨visited.consumeAll (scanTokens R part toks).1, true, (scanTokens R part toks).2⟩ := by
  induction toks generalizing visited part with
  | nil => rfl
  | cons tok toks ih =>
    rw [foldl_cons]
    cases tok with
    | none =>
      rw [LineState.token, ih, scanTokens, Visited.consumeAll_append]
    | some b =>
      rw [LineState.token, scanTokens]
      by_cases hb : b = 0x0a
      · rw [if_pos hb, if_pos hb, LineState.newline]
        simp only [if_true]
        rw [ih, Visited.consumeAll_append]
      · rw [if_neg hb, if_neg hb, ih]

variable {line : List (Option UInt8)}

theorem append_bytesOf_some (part : List UInt8) (b : UInt8) (toks : List (Option UInt8)) :
    part ++ bytesOf (some b :: toks) = part ++ [b] ++ bytesOf toks := by
  rw [bytesOf_cons_some, append_assoc, singleton_append]

/-- Along a line: between two bytes the stream may look for a record. -/
@[elab_as_elim]
theorem line_induction {motive : (line : List (Option UInt8)) → some 0x0a ∉ line → Prop}
    (nil : motive [] not_mem_nil)
    (early : ∀ line h, motive line h → motive (none :: line) (by simpa using h))
    (byte : ∀ b line (hb : b ≠ 0x0a) h, motive line h →
      motive (some b :: line) (by simpa [Ne.symm hb] using h))
    (line : List (Option UInt8)) (h : some 0x0a ∉ line) : motive line h := by
  induction line with
  | nil => exact nil
  | cons tok line ih =>
    obtain ⟨hne, hline⟩ := not_or.mp (mem_cons.not.mp h)
    cases tok with
    | none => exact early line hline (ih hline)
    | some b => exact byte b line (fun heq => hne (by rw [heq])) hline (ih hline)

/-- Within a line it does not matter whether it is the first. -/
theorem foldl_token_line (h : some 0x0a ∉ line) (visited : Visited)
    (sawFirstLine : Bool) (part : List UInt8) :
    line.foldl (LineState.token R) ⟨visited, sawFirstLine, part⟩ =
      ⟨visited.consumeAll (scanTokens R part line).1, sawFirstLine,
        (scanTokens R part line).2⟩ := by
  induction line, h using line_induction generalizing visited part with
  | nil => rfl
  | early line h ih =>
    rw [foldl_cons, LineState.token, ih, scanTokens, Visited.consumeAll_append]
  | byte b line hb h ih =>
    rw [foldl_cons, LineState.token, scanTokens, if_neg hb, if_neg hb, ih]

theorem streamed_cons_none (part : List UInt8) (toks : List (Option UInt8)) :
    streamed R part (none :: toks) = earlyEntry R part ++ streamed R (pendingPart R part) toks := by
  rw [streamed, scanTokens, append_assoc, streamed]

theorem streamed_cons_some {b : UInt8} (hb : b ≠ 0x0a) (part : List UInt8)
    (toks : List (Option UInt8)) :
    streamed R part (some b :: toks) = streamed R (part ++ [b]) toks := by
  rw [streamed, scanTokens, if_neg hb, streamed]

theorem scanTokens_line (h : some 0x0a ∉ line) (part : List UInt8) (rest : List (Option UInt8)) :
    scanTokens R part (line ++ some 0x0a :: rest) =
      (streamed R part line ++ (scanTokens R [] rest).1, (scanTokens R [] rest).2) := by
  induction line, h using line_induction generalizing part with
  | nil => rw [nil_append, scanTokens, if_pos rfl, streamed, scanTokens, nil_append]
  | early line h ih =>
    rw [cons_append, scanTokens, ih, streamed_cons_none, append_assoc]
  | byte b line hb h ih =>
    rw [cons_append, scanTokens, if_neg hb, ih, streamed_cons_some hb]

theorem streamed_line (h : some 0x0a ∉ line) (part : List UInt8) (rest : List (Option UInt8)) :
    streamed R part (line ++ some 0x0a :: rest) = streamed R part line ++ streamed R [] rest := by
  rw [streamed, scanTokens_line h, append_assoc]
  rfl

variable {part : List UInt8} {value : JsValue}

theorem early_of_value (h : R.byteFormat.value part = some value) :
    earlyEntry R part = [.entry value] ∧ pendingPart R part = [] := by
  rw [earlyEntry, pendingPart, h]
  exact ⟨rfl, rfl⟩

theorem early_of_none (h : R.byteFormat.value part = none) :
    earlyEntry R part = [] ∧ pendingPart R part = part := by
  rw [earlyEntry, pendingPart, h]
  exact ⟨rfl, rfl⟩

theorem scanTokens_of_space {line : List (Option UInt8)} {part : List UInt8}
    (hline : some 0x0a ∉ line)
    (h : ∀ b ∈ part ++ bytesOf line, R.byteFormat.isSpace b = true) :
    (scanTokens R part line).1 = [] ∧
      ∀ b ∈ (scanTokens R part line).2, R.byteFormat.isSpace b = true := by
  induction line, hline using line_induction generalizing part with
  | nil => exact ⟨rfl, fun b hb => h b (mem_append_left _ hb)⟩
  | early line hline ih =>
    have hspace : ∀ b ∈ part, R.byteFormat.isSpace b = true := fun b hb =>
      h b (mem_append_left _ hb)
    have hpart := LineFormat.value_of_space hspace
    obtain ⟨hearly, hpending⟩ := early_of_none hpart
    rw [scanTokens, hearly, hpending]
    exact ih h
  | byte b line hb hline ih =>
    rw [scanTokens, if_neg hb]
    refine ih fun c hc => h c ?_
    rwa [append_assoc] at hc

theorem streamed_of_space (hline : some 0x0a ∉ line)
    (h : ∀ b ∈ bytesOf line, R.byteFormat.isSpace b = true) : streamed R [] line = [] := by
  obtain ⟨hout, hpart⟩ := @scanTokens_of_space R line [] hline h
  rw [streamed, hout, LineFormat.outcome_of_space hpart]
  rfl

/-- White space behind a record does not change it. -/
theorem value_append_space (part : List UInt8) {space : List UInt8}
    (h : ∀ b ∈ space, R.byteFormat.isSpace b = true) :
    R.byteFormat.value (part ++ space) = R.byteFormat.value part := by
  induction space generalizing part with
  | nil => rw [append_nil]
  | cons b space ih =>
    have hb := isSpaceByte_ascii (h b mem_cons_self)
    have hone : R.byteFormat.value (part ++ [b]) = R.byteFormat.value part := by
      have hdecode := R.decode_ascii part b [] hb.1
      rw [R.decode_nil] at hdecode
      change R.parse (R.decode (part ++ [b])) = R.parse (R.decode part)
      rw [hdecode, R.parse_append_space _ _ hb.2]
    have htail := ih (part ++ [b]) fun c hc => h c (mem_cons_of_mem _ hc)
    rwa [append_assoc, singleton_append, hone] at htail

theorem outcome_of_value {line : List UInt8}
    (h : R.byteFormat.value line = some value) : R.byteFormat.outcome line = [.entry value] := by
  rw [LineFormat.outcome, h]

/-- Where records arrive whole, a line is seen as it is. -/
theorem streamed_eq_outcome (hline : some 0x0a ∉ line)
    (h : ∀ before after, line = before ++ none :: after →
      (R.byteFormat.value (part ++ bytesOf before)).isSome = true →
        ∀ b ∈ bytesOf after, R.byteFormat.isSpace b = true) :
    streamed R part line = R.byteFormat.outcome (part ++ bytesOf line) := by
  induction line, hline using line_induction generalizing part with
  | nil =>
    rw [bytesOf_nil, append_nil]
    rfl
  | early line hline ih =>
    rw [streamed_cons_none, bytesOf_cons_none]
    cases hvalue : R.byteFormat.value part with
    | none =>
      obtain ⟨hearly, hpending⟩ := early_of_none hvalue
      rw [hearly, hpending, nil_append]
      refine ih fun before after heq hsome => h (none :: before) after ?_ hsome
      rw [heq, cons_append]
    | some value =>
      obtain ⟨hearly, hpending⟩ := early_of_value hvalue
      have hspace : ∀ b ∈ bytesOf line, R.byteFormat.isSpace b = true :=
        h [] line rfl (by rw [bytesOf_nil, append_nil, hvalue]; rfl)
      have hwhole : R.byteFormat.value (part ++ bytesOf line) = some value := by
        rw [value_append_space part hspace, hvalue]
      rw [hearly, hpending, streamed_of_space hline hspace, outcome_of_value hwhole, append_nil]
  | byte b line hb hline ih =>
    rw [streamed_cons_some hb, append_bytesOf_some]
    refine ih fun before after heq hsome => h (some b :: before) after ?_ ?_
    · rw [heq, cons_append]
    · rwa [append_bytesOf_some]

/-- The malformed lines that `parseSessionContent` counts. -/
def countsLine (R : JsonlRuntime) (line : List UInt8) : Bool := countsText (R.decode line)

/-- The stream finds more than the text holds. -/
def Exceeds (R : JsonlRuntime) (os os' : List (Outcome UInt8 JsValue)) : Prop :=
  (Outcome.entries os').length < (Outcome.entries os).length ∨
    (Outcome.entries os').length = (Outcome.entries os).length ∧
      Outcome.malformedCount (countsLine R) os' < Outcome.malformedCount (fun _ => true) os

/-- The stream finds what the text holds. -/
def Agrees (R : JsonlRuntime) (os os' : List (Outcome UInt8 JsValue)) : Prop :=
  Outcome.entries os = Outcome.entries os' ∧
    Outcome.malformedCount (fun _ => true) os = Outcome.malformedCount (countsLine R) os'

theorem Agrees.append {os os' ps ps' : List (Outcome UInt8 JsValue)} (h : Agrees R os os')
    (h' : Agrees R ps ps') : Agrees R (os ++ ps) (os' ++ ps') := by
  obtain ⟨hentries, hcount⟩ := h
  obtain ⟨hentries', hcount'⟩ := h'
  refine ⟨?_, ?_⟩
  · rw [Outcome.entries_append, Outcome.entries_append, hentries, hentries']
  · rw [Outcome.malformedCount_append, Outcome.malformedCount_append, hcount, hcount']

variable {os os' ps ps' : List (Outcome UInt8 JsValue)}

theorem Agrees.append_exceeds (h : Agrees R os os')
    (h' : Exceeds R ps ps') : Exceeds R (os ++ ps) (os' ++ ps') := by
  obtain ⟨hentries, hcount⟩ := h
  have hlength := congrArg List.length hentries
  simp only [Exceeds, Outcome.entries_append, length_append, Outcome.malformedCount_append] at h' ⊢
  omega

theorem Exceeds.append_agrees (h : Exceeds R os os')
    (h' : Agrees R ps ps') : Exceeds R (os ++ ps) (os' ++ ps') := by
  obtain ⟨hentries, hcount⟩ := h'
  have hlength := congrArg List.length hentries
  simp only [Exceeds, Outcome.entries_append, length_append, Outcome.malformedCount_append] at h ⊢
  omega

theorem Exceeds.append {os os' ps ps' : List (Outcome UInt8 JsValue)} (h : Exceeds R os os')
    (h' : Exceeds R ps ps') : Exceeds R (os ++ ps) (os' ++ ps') := by
  simp only [Exceeds, Outcome.entries_append, length_append,
    Outcome.malformedCount_append] at h h' ⊢
  omega

theorem Exceeds.not_agrees (h : Exceeds R os os') : ¬Agrees R os os' := by
  rintro ⟨hentries, hcount⟩
  have hlength := congrArg List.length hentries
  unfold Exceeds at h
  omega

theorem streamed_of_not_space (hline : some 0x0a ∉ line) (hpart : (0x0a : UInt8) ∉ part)
    (h : ∃ b ∈ part ++ bytesOf line, R.byteFormat.isSpace b = false) :
    0 < (Outcome.entries (streamed R part line)).length +
      Outcome.malformedCount (fun _ => true) (streamed R part line) := by
  induction line, hline using line_induction generalizing part with
  | nil =>
    rw [bytesOf_nil, append_nil] at h
    have hstreamed : streamed R part [] = R.byteFormat.outcome part := rfl
    rw [hstreamed]
    cases hvalue : R.byteFormat.value part with
    | some => simp [outcome_of_value hvalue]
    | none => simp [outcome_of_isMalformed hpart ⟨hvalue, h⟩]
  | early line hline ih =>
    rw [streamed_cons_none]
    cases hvalue : R.byteFormat.value part with
    | none =>
      obtain ⟨hearly, hpending⟩ := early_of_none hvalue
      rw [hearly, hpending, nil_append]
      exact ih hpart h
    | some => simp [early_of_value hvalue]
  | byte b line hb hline ih =>
    rw [streamed_cons_some hb]
    refine ih (by simp [hpart, Ne.symm hb]) ?_
    rwa [append_assoc, singleton_append, ← bytesOf_cons_some]

/-- Where something follows a record that was found early, the stream finds more. -/
theorem exceeds_of_early (hline : some 0x0a ∉ line) {before after : List (Option UInt8)}
    (heq : line = before ++ none :: after)
    (hsome : (R.byteFormat.value (part ++ bytesOf before)).isSome = true)
    (hafter : ∃ b ∈ bytesOf after, R.byteFormat.isSpace b = false) :
    Exceeds R (streamed R part line) (R.byteFormat.outcome (part ++ bytesOf line)) := by
  induction line, hline using line_induction generalizing part before with
  | nil => simp at heq
  | early line hline ih =>
    rw [streamed_cons_none, bytesOf_cons_none]
    cases hvalue : R.byteFormat.value part with
    | none =>
      obtain ⟨hearly, hpending⟩ := early_of_none hvalue
      rw [hearly, hpending, nil_append]
      cases before with
      | nil => simp [hvalue] at hsome
      | cons =>
        obtain ⟨rfl, htail⟩ := List.cons.inj heq
        exact ih htail hsome
    | some =>
      obtain ⟨hearly, hpending⟩ := early_of_value hvalue
      have hrest : ∃ b ∈ [] ++ bytesOf line, R.byteFormat.isSpace b = false := by
        obtain ⟨b, hb, hspace⟩ := hafter
        refine ⟨b, ?_, hspace⟩
        cases before with
        | nil => exact (List.cons.inj heq).2 ▸ hb
        | cons =>
          rw [(List.cons.inj heq).2]
          simp [hb]
      have hmore := streamed_of_not_space hline not_mem_nil hrest
      rw [hearly, hpending, LineFormat.outcome]
      unfold Exceeds
      split
      · simp only [singleton_append, Outcome.entries_cons_entry, Outcome.entries_nil,
          Outcome.malformedCount_cons_entry, Outcome.malformedCount_nil, length_cons,
          length_nil]
        omega
      split
      · simp
      · simp
  | byte b line hb hline ih =>
    rw [streamed_cons_some hb, append_bytesOf_some]
    cases before with
    | nil => cases (List.cons.inj heq).1
    | cons =>
      obtain ⟨rfl, htail⟩ := List.cons.inj heq
      rw [append_bytesOf_some] at hsome
      exact ih htail hsome

theorem countsLine_lead {line : List UInt8} (h : (0x0a : UInt8) ∉ line) :
    countsLine R (R.byteFormat.lead line) = countsLine R line := by
  have hline : R.byteFormat.newline ∉ line := h
  obtain ⟨space, hspace, heq⟩ := LineFormat.exists_lead_line hline
  have htrim := trimChars_decode_append hspace (R.byteFormat.lead line)
  rw [← heq] at htrim
  rw [countsLine, countsLine, countsText, countsText, htrim]

/-- A line gives the same in the stream as in the text exactly when its records arrive whole and it
is not only white space that JSON does not know; else the stream finds more. -/
theorem agrees_or_exceeds_line (hline : some 0x0a ∉ line) :
    (RecordsWhole R line ∧ NotTrimmedAway R (bytesOf line) ∧
        Agrees R (streamed R [] line) (R.byteFormat.outcome (bytesOf line))) ∨
      ¬(RecordsWhole R line ∧ NotTrimmedAway R (bytesOf line)) ∧
        Exceeds R (streamed R [] line) (R.byteFormat.outcome (bytesOf line)) := by
  have hbytes : (0x0a : UInt8) ∉ bytesOf line := fun h => hline (mem_bytesOf.mp h)
  by_cases hwhole : RecordsWhole R line
  · have hstreamed : streamed R [] line = R.byteFormat.outcome (bytesOf line) :=
      streamed_eq_outcome hline hwhole
    rw [hstreamed]
    by_cases htrim : NotTrimmedAway R (bytesOf line)
    · refine .inl ⟨hwhole, htrim, rfl, ?_⟩
      rw [LineFormat.outcome]
      cases hvalue : R.byteFormat.value (bytesOf line) with
      | some => rfl
      | none =>
        by_cases hlead : R.byteFormat.lead (bytesOf line) = []
        · simp [hlead]
        have hcounts : countsLine R (R.byteFormat.lead (bytesOf line)) = true := by
          rw [countsLine_lead hbytes]
          exact htrim hvalue hlead
        simp [hlead, hcounts]
    refine .inr ⟨fun h => htrim h.2, .inr ⟨rfl, ?_⟩⟩
    simp only [NotTrimmedAway, Classical.not_imp] at htrim
    obtain ⟨hvalue, hlead, hcounts⟩ := htrim
    have hcounts : countsLine R (R.byteFormat.lead (bytesOf line)) = false := by
      rw [countsLine_lead hbytes]
      exact Bool.eq_false_iff.mpr hcounts
    simp [LineFormat.outcome, hvalue, hlead, hcounts]
  refine .inr ⟨fun h => hwhole h.1, ?_⟩
  simp only [RecordsWhole, not_forall, exists_prop, Bool.not_eq_true] at hwhole
  obtain ⟨before, after, heq, hsome, hafter⟩ := hwhole
  exact exceeds_of_early hline heq hsome hafter

theorem agrees_or_exceeds :
    ((∀ line ∈ toks.splitOn (some 0x0a), RecordsWhole R line ∧ NotTrimmedAway R (bytesOf line)) ∧
        Agrees R (streamed R [] toks) (R.byteFormat.outcomes (bytesOf toks))) ∨
      ¬(∀ line ∈ toks.splitOn (some 0x0a),
          RecordsWhole R line ∧ NotTrimmedAway R (bytesOf line)) ∧
        Exceeds R (streamed R [] toks) (R.byteFormat.outcomes (bytesOf toks)) := by
  induction hn : toks.length using Nat.strong_induction_on generalizing toks with
  | _ n ih =>
    by_cases hmem : some 0x0a ∈ toks
    · obtain ⟨line, rest, rfl, hline⟩ := eq_append_cons_of_mem hmem
      have hbytes : R.byteFormat.newline ∉ bytesOf line := fun h => hline (mem_bytesOf.mp h)
      have hsplit : (line ++ some 0x0a :: rest).splitOn (some 0x0a) =
          line :: rest.splitOn (some 0x0a) := by
        rw [splitOn_append_cons_of_beq _ _ BEq.rfl, splitOn_eq_singleton hline]
        rfl
      have houtcomes : R.byteFormat.outcomes (bytesOf (line ++ some 0x0a :: rest)) =
          R.byteFormat.outcome (bytesOf line) ++ R.byteFormat.outcomes (bytesOf rest) := by
        rw [bytesOf_append, bytesOf_cons_some]
        exact LineFormat.outcomes_line hbytes _
      have hlength : rest.length < n := by
        rw [← hn, length_append, length_cons]
        omega
      rw [hsplit, houtcomes, streamed_line hline, forall_mem_cons]
      rcases agrees_or_exceeds_line (R := R) hline with ⟨hwhole, htrim, hagrees⟩ | ⟨hnot, hexceeds⟩
      · rcases ih _ hlength rest rfl with ⟨hall, hrest⟩ | ⟨hnot, hrest⟩
        · exact .inl ⟨⟨⟨hwhole, htrim⟩, hall⟩, hagrees.append hrest⟩
        · exact .inr ⟨fun h => hnot h.2, hagrees.append_exceeds hrest⟩
      refine .inr ⟨fun h => hnot h.1, ?_⟩
      rcases ih _ hlength rest rfl with ⟨-, hrest⟩ | ⟨-, hrest⟩
      · exact hexceeds.append_agrees hrest
      · exact hexceeds.append hrest
    have hbytes : R.byteFormat.newline ∉ bytesOf toks := fun h => hmem (mem_bytesOf.mp h)
    rw [splitOn_eq_singleton hmem, LineFormat.outcomes_of_notMem hbytes, forall_mem_singleton]
    rcases agrees_or_exceeds_line (R := R) hmem with ⟨hwhole, htrim, hagrees⟩ | hexceeds
    · exact .inl ⟨⟨hwhole, htrim⟩, hagrees⟩
    · exact .inr hexceeds

end Scan

/-! ### The text -/

section Text

variable {R : JsonlRuntime}

theorem decode_line (line rest : List UInt8) :
    R.decode (line ++ 0x0a :: rest) = R.decode line ++ '\n' :: R.decode rest :=
  R.decode_ascii line 0x0a rest (by decide)

theorem newline_notMem_decode {line : List UInt8} (h : (0x0a : UInt8) ∉ line) :
    '\n' ∉ R.decode line := by
  intro hmem
  obtain ⟨b, hb, hascii, hchar⟩ := R.decode_mem line '\n' hmem (by decide)
  have hvalid : b.toNat.isValidChar := .inl (by
    have hlt : b.toNat < 0x80 := hascii
    omega)
  have hnat : b.toNat = 10 := by
    have hto : (Char.ofNat b.toNat).toNat = b.toNat := by
      rw [Char.ofNat, dif_pos hvalid]
      rfl
    rw [← hto, ← hchar]
    rfl
  have hnewline : b = 0x0a := UInt8.toNat_inj.mp hnat
  exact h (hnewline ▸ hb)

/-- A line that is no record is counted once or not at all. -/
theorem malformedCount_outcome {σ : Type} [DecidableEq σ] {fmt : LineFormat σ JsValue}
    {counts : List σ → Bool} {line : List σ} (hvalue : fmt.value line = none)
    (hlead : counts (fmt.lead line) = counts line) (hnil : counts [] = false) :
    Outcome.entries (fmt.outcome line) = [] ∧
      Outcome.malformedCount counts (fmt.outcome line) = if counts line then 1 else 0 := by
  rw [LineFormat.outcome, hvalue, ← hlead]
  by_cases h : fmt.lead line = []
  · simp [h, hnil]
  · simp [h]

/-- The records and the counted lines of the decoded text are those of the bytes. -/
theorem outcomes_decode (bytes : List UInt8) :
    Outcome.entries (R.textFormat.outcomes (R.decode bytes)) =
        Outcome.entries (R.byteFormat.outcomes bytes) ∧
      Outcome.malformedCount countsText (R.textFormat.outcomes (R.decode bytes)) =
        Outcome.malformedCount (countsLine R) (R.byteFormat.outcomes bytes) := by
  have hone : ∀ line : List UInt8, (0x0a : UInt8) ∉ line →
      Outcome.entries (R.textFormat.outcome (R.decode line)) =
          Outcome.entries (R.byteFormat.outcome line) ∧
        Outcome.malformedCount countsText (R.textFormat.outcome (R.decode line)) =
          Outcome.malformedCount (countsLine R) (R.byteFormat.outcome line) := by
    intro line hline
    cases hvalue : R.byteFormat.value line with
    | some value =>
      have htext : R.textFormat.value (R.decode line) = some value := hvalue
      rw [LineFormat.outcome, LineFormat.outcome, hvalue, htext]
      exact ⟨rfl, rfl⟩
    | none =>
      have htext : R.textFormat.value (R.decode line) = none := hvalue
      have hnil : countsLine R [] = false := by
        rw [countsLine, R.decode_nil]
        rfl
      obtain ⟨hentries, hcount⟩ := malformedCount_outcome hvalue (countsLine_lead hline) hnil
      obtain ⟨hentries', hcount'⟩ := malformedCount_outcome htext (countsText_lead R _) rfl
      rw [hentries, hentries', hcount, hcount']
      exact ⟨rfl, rfl⟩
  induction hn : bytes.length using Nat.strong_induction_on generalizing bytes with
  | _ n ih =>
    by_cases hmem : (0x0a : UInt8) ∈ bytes
    · obtain ⟨line, rest, rfl, hline⟩ := eq_append_cons_of_mem hmem
      have hbytes : R.byteFormat.newline ∉ line := hline
      have htext : R.textFormat.newline ∉ R.decode line := newline_notMem_decode hline
      have hlength : rest.length < n := by
        rw [← hn, length_append, length_cons]
        omega
      have houtcomes : R.byteFormat.outcomes (line ++ 0x0a :: rest) =
          R.byteFormat.outcome line ++ R.byteFormat.outcomes rest :=
        LineFormat.outcomes_line hbytes rest
      have houtcomes' : R.textFormat.outcomes (R.decode (line ++ 0x0a :: rest)) =
          R.textFormat.outcome (R.decode line) ++ R.textFormat.outcomes (R.decode rest) := by
        rw [decode_line]
        exact LineFormat.outcomes_line htext _
      obtain ⟨hentries, hcount⟩ := hone line hline
      obtain ⟨hentries', hcount'⟩ := ih _ hlength rest rfl
      rw [houtcomes, houtcomes']
      simp [hentries, hentries', hcount, hcount']
    have hbytes : R.byteFormat.newline ∉ bytes := hmem
    have htext : R.textFormat.newline ∉ R.decode bytes := newline_notMem_decode hmem
    rw [LineFormat.outcomes_of_notMem hbytes, LineFormat.outcomes_of_notMem htext]
    exact hone bytes hmem

theorem applyTitleSlot_none (entries : List JsValue) :
    entries.modifyHead (applyTitleSlot none) = entries := by
  cases entries <;> rfl

theorem parseSessionContent_of_notMem {bytes : List UInt8} (h : (0x0a : UInt8) ∉ bytes) :
    parseSessionContent R (R.decode bytes) =
      ⟨Outcome.entries (R.byteFormat.outcomes bytes), none,
        Outcome.malformedCount (countsLine R) (R.byteFormat.outcomes bytes)⟩ := by
  have hindex : (R.decode bytes).findIdx? (· == '\n') = none := by
    rw [findIdx?_eq_none_iff]
    intro c hc
    exact beq_false_of_ne fun heq => newline_notMem_decode h (heq ▸ hc)
  obtain ⟨hentries, hcount⟩ := outcomes_decode (R := R) bytes
  rw [parseSessionContent, splitTitleSlot, hindex]
  simp [parseJsonlLenient_eq, applyTitleSlot_none, hentries, hcount]

theorem parseSessionContent_line {line rest : List UInt8} (h : (0x0a : UInt8) ∉ line) :
    parseSessionContent R (R.decode (line ++ 0x0a :: rest)) =
      match slotOf R line with
      | some slot =>
        ⟨(Outcome.entries (R.byteFormat.outcomes rest)).modifyHead (applyTitleSlot (some slot)),
          some slot, Outcome.malformedCount (countsLine R) (R.byteFormat.outcomes rest)⟩
      | none =>
        ⟨Outcome.entries (R.byteFormat.outcomes (line ++ 0x0a :: rest)), none,
          Outcome.malformedCount (countsLine R) (R.byteFormat.outcomes (line ++ 0x0a :: rest))⟩ := by
  have hindex : (R.decode (line ++ 0x0a :: rest)).findIdx? (· == '\n') =
      some (R.decode line).length := by
    have hline : (R.decode line).findIdx? (· == '\n') = none := by
      rw [findIdx?_eq_none_iff]
      intro c hc
      exact beq_false_of_ne fun heq => newline_notMem_decode h (heq ▸ hc)
    rw [decode_line, findIdx?_append, hline, findIdx?_cons]
    simp
  have htake : (R.decode (line ++ 0x0a :: rest)).take (R.decode line).length = R.decode line := by
    rw [decode_line, take_left]
  have hdrop : (R.decode (line ++ 0x0a :: rest)).drop ((R.decode line).length + 1) =
      R.decode rest := by
    rw [decode_line, drop_length_add_append]
    rfl
  obtain ⟨hentries, hcount⟩ := outcomes_decode (R := R) rest
  obtain ⟨hentries', hcount'⟩ := outcomes_decode (R := R) (line ++ 0x0a :: rest)
  rw [parseSessionContent, splitTitleSlot, hindex]
  simp only [htake, hdrop, slotOf]
  cases parseTitleSlotLine R (R.decode line) with
  | some => simp [parseJsonlLenient_eq, hentries, hcount]
  | none => simp [parseJsonlLenient_eq, applyTitleSlot_none, hentries', hcount']

end Text

/-! ### The comparison -/

section Compare

variable {R : JsonlRuntime} (visited : Visited)

theorem Visited.consumeAll_result (os : List (Outcome UInt8 JsValue)) :
    (visited.consumeAll os).titleSlot = visited.titleSlot ∧
      (visited.consumeAll os).sawFirstEntry =
        (visited.sawFirstEntry || !(Outcome.entries os).isEmpty) ∧
      (visited.consumeAll os).malformedRecords =
        visited.malformedRecords + Outcome.malformedCount (fun _ => true) os ∧
      (visited.consumeAll os).entries = visited.entries ++
        if visited.sawFirstEntry then Outcome.entries os
        else (Outcome.entries os).modifyHead (applyTitleSlot visited.titleSlot) := by
  induction os generalizing visited with
  | nil => simp [Visited.consumeAll]
  | cons outcome os ih =>
    obtain ⟨hslot, hsaw, hcount, hentries⟩ := ih (visited.consume outcome)
    have hstep : visited.consumeAll (outcome :: os) = (visited.consume outcome).consumeAll os := rfl
    rw [hstep, hslot, hsaw, hcount, hentries]
    cases outcome with
    | entry => cases h : visited.sawFirstEntry <;> simp [Visited.consume, Visited.visit, h]
    | malformed =>
      cases h : visited.sawFirstEntry <;>
        simp [Visited.consume, Visited.onMalformedRecord, h, Nat.add_assoc]

variable {line : List (Option UInt8)}

/-- Where no chunk ends behind a record, the stream holds the whole line at its end. -/
theorem scanTokens_of_noEarly {part : List UInt8} (hline : some 0x0a ∉ line)
    (h : ∀ before after, line = before ++ none :: after →
      R.byteFormat.value (part ++ bytesOf before) = none) :
    scanTokens R part line = ([], part ++ bytesOf line) := by
  induction line, hline using line_induction generalizing part with
  | nil => rw [bytesOf_nil, append_nil]; rfl
  | early line hline ih =>
    have hvalue : R.byteFormat.value part = none := by
      have hnil := h [] line rfl
      rwa [bytesOf_nil, append_nil] at hnil
    obtain ⟨hearly, hpending⟩ := early_of_none hvalue
    rw [scanTokens, hearly, hpending, bytesOf_cons_none, ih fun before after heq =>
      h (none :: before) after (by rw [heq, cons_append])]
    rfl
  | byte b line hb hline ih =>
    rw [scanTokens, if_neg hb, append_bytesOf_some]
    refine ih fun before after heq => ?_
    rw [← append_bytesOf_some]
    exact h (some b :: before) after (by rw [heq, cons_append])

/-- Where a chunk ends behind a record, the record is found before the line ends. -/
theorem entries_scanTokens_pos {line : List (Option UInt8)} {part : List UInt8}
    (hline : some 0x0a ∉ line) {before after : List (Option UInt8)}
    (heq : line = before ++ none :: after)
    (hsome : (R.byteFormat.value (part ++ bytesOf before)).isSome = true) :
    0 < (Outcome.entries (scanTokens R part line).1).length := by
  induction line, hline using line_induction generalizing part before with
  | nil => simp at heq
  | early line hline ih =>
    rw [scanTokens]
    cases hvalue : R.byteFormat.value part with
    | some => simp [early_of_value hvalue]
    | none =>
      obtain ⟨hearly, hpending⟩ := early_of_none hvalue
      rw [hearly, hpending, nil_append]
      cases before with
      | nil => simp [hvalue] at hsome
      | cons =>
        obtain ⟨rfl, htail⟩ := List.cons.inj heq
        exact ih htail hsome
  | byte b line hb hline ih =>
    rw [scanTokens, if_neg hb]
    cases before with
    | nil => exact nomatch (List.cons.inj heq).1
    | cons =>
      obtain ⟨rfl, htail⟩ := List.cons.inj heq
      rw [bytesOf_cons_some, ← singleton_append, ← append_assoc] at hsome
      exact ih htail hsome

/-- A slot is found with and without the white space around it. -/
theorem firstLineSlot_of_value {line : List UInt8} {value : JsValue}
    (h : R.byteFormat.value line = some value) : firstLineSlot R line = slotOf R line := by
  have hparse : R.parse (R.decode line) = some value := h
  have htrim := R.parse_trim _ _ hparse
  have hne : trimChars (R.decode line) ≠ [] := by
    intro hnil
    rw [hnil, R.parse_nil] at htrim
    cases htrim
  rw [firstLineSlot, slotOf, if_neg hne, parseTitleSlotLine, parseTitleSlotLine, htrim, hparse]

theorem firstLineSlot_of_space {space : List UInt8}
    (h : ∀ b ∈ space, R.byteFormat.isSpace b = true) : firstLineSlot R space = none := by
  have htrim := trimChars_decode_append h []
  rw [append_nil, R.decode_nil] at htrim
  rw [firstLineSlot, htrim]
  rfl

/-- Behind a record that was found early only white space is left. -/
theorem space_of_early {part : List UInt8} (hline : some 0x0a ∉ line)
    (h : ∀ before after, line = before ++ none :: after →
      (R.byteFormat.value (part ++ bytesOf before)).isSome = true →
        ∀ b ∈ bytesOf after, R.byteFormat.isSpace b = true)
    {before after : List (Option UInt8)} (heq : line = before ++ none :: after)
    (hsome : (R.byteFormat.value (part ++ bytesOf before)).isSome = true) :
    ∀ b ∈ (scanTokens R part line).2, R.byteFormat.isSpace b = true := by
  induction line, hline using line_induction generalizing part before with
  | nil => simp at heq
  | early line hline ih =>
    rw [scanTokens]
    cases hvalue : R.byteFormat.value part with
    | some =>
      have hspace : ∀ b ∈ bytesOf line, R.byteFormat.isSpace b = true :=
        h [] line rfl (by rw [bytesOf_nil, append_nil, hvalue]; rfl)
      rw [(early_of_value hvalue).2]
      exact (@scanTokens_of_space R line [] hline hspace).2
    | none =>
      rw [(early_of_none hvalue).2]
      cases before with
      | nil => simp [hvalue] at hsome
      | cons first before =>
        obtain ⟨rfl, htail⟩ := List.cons.inj heq
        refine ih (fun before after heq hsome => h (none :: before) after ?_ hsome)
          htail hsome
        rw [heq, cons_append]
  | byte b line hb hline ih =>
    rw [scanTokens, if_neg hb]
    cases before with
    | nil => exact nomatch (List.cons.inj heq).1
    | cons first before =>
      obtain ⟨rfl, htail⟩ := List.cons.inj heq
      rw [append_bytesOf_some] at hsome
      refine ih (fun before after heq hsome => h (some b :: before) after ?_ ?_)
        htail hsome
      · rw [heq, cons_append]
      · rwa [append_bytesOf_some]

/-- Either no chunk ends behind a record of the line, or the whole line is one. -/
theorem RecordsWhole.cases (h : RecordsWhole R line) (hline : some 0x0a ∉ line) :
    scanTokens R [] line = ([], bytesOf line) ∨
      (R.byteFormat.value (bytesOf line)).isSome = true ∧
        firstLineSlot R (scanTokens R [] line).2 = none := by
  by_cases hearly : ∃ before after, line = before ++ none :: after ∧
      (R.byteFormat.value (bytesOf before)).isSome = true
  · obtain ⟨before, after, heq, hsome⟩ := hearly
    refine .inr ⟨?_, firstLineSlot_of_space (space_of_early hline h heq hsome)⟩
    have hspace := h before after heq hsome
    rwa [heq, bytesOf_append, bytesOf_cons_none, value_append_space _ hspace]
  refine .inl (scanTokens_of_noEarly hline fun before after heq => ?_)
  by_contra hvalue
  exact hearly ⟨before, after, heq, Option.isSome_iff_ne_none.mpr hvalue⟩

theorem result_streamed (slot : Option SessionTitleUpdate) (os : List (Outcome UInt8 JsValue)) :
    (Visited.consumeAll ⟨slot, false, [], 0⟩ os).result =
      ⟨(Outcome.entries os).modifyHead (applyTitleSlot slot), slot,
        Outcome.malformedCount (fun _ => true) os⟩ := by
  obtain ⟨hslot, -, hcount, hentries⟩ := Visited.consumeAll_result ⟨slot, false, [], 0⟩ os
  rw [Visited.result, hslot, hcount, hentries]
  simp

theorem result_slot (slot : SessionTitleUpdate) (os : List (Outcome UInt8 JsValue)) :
    (Visited.consumeAll { visited with titleSlot := some slot } os).result =
      ⟨visited.entries ++ (if visited.sawFirstEntry then Outcome.entries os
          else (Outcome.entries os).modifyHead (applyTitleSlot (some slot))), some slot,
        visited.malformedRecords + Outcome.malformedCount (fun _ => true) os⟩ := by
  obtain ⟨hslot, -, hcount, hentries⟩ :=
    Visited.consumeAll_result { visited with titleSlot := some slot } os
  rw [Visited.result, hslot, hcount, hentries]

variable {chunks : List (List UInt8)}

theorem loadEntriesFromFileStream_of_notMem (h : some 0x0a ∉ tokens chunks) :
    loadEntriesFromFileStream R chunks =
      ⟨Outcome.entries (streamed R [] (tokens chunks)), none,
        Outcome.malformedCount (fun _ => true) (streamed R [] (tokens chunks))⟩ := by
  rw [loadEntriesFromFileStream, (follows_tokens chunks Follows.initial).finish, foldl_token_line h]
  simp only [← Visited.consumeAll_append]
  rw [result_streamed, applyTitleSlot_none]
  rfl

variable {rest : List (Option UInt8)}

theorem loadEntriesFromFileStream_line (heq : tokens chunks = line ++ some 0x0a :: rest)
    (h : some 0x0a ∉ line) : loadEntriesFromFileStream R chunks =
      match firstLineSlot R (scanTokens R [] line).2 with
      | some slot =>
        ⟨Outcome.entries (scanTokens R [] line).1 ++
            (if Outcome.entries (scanTokens R [] line).1 = [] then
              (Outcome.entries (streamed R [] rest)).modifyHead (applyTitleSlot (some slot))
            else Outcome.entries (streamed R [] rest)), some slot,
          Outcome.malformedCount (fun _ => true) (scanTokens R [] line).1 +
            Outcome.malformedCount (fun _ => true) (streamed R [] rest)⟩
      | none =>
        ⟨Outcome.entries (streamed R [] (tokens chunks)), none,
          Outcome.malformedCount (fun _ => true) (streamed R [] (tokens chunks))⟩ := by
  rw [loadEntriesFromFileStream, (follows_tokens chunks Follows.initial).finish, heq,
    List.foldl_append, foldl_token_line h, foldl_cons, LineState.token_newline,
    LineState.newline]
  simp only [Bool.false_eq_true, if_false]
  cases firstLineSlot R (scanTokens R [] line).2 with
  | none =>
    rw [foldl_token, streamed_line h]
    simp only [← Visited.consumeAll_append]
    rw [result_streamed, applyTitleSlot_none, streamed, streamed, append_assoc, append_assoc]
  | some slot =>
    obtain ⟨-, hsaw, hcount, hentries⟩ :=
      Visited.consumeAll_result ⟨none, false, [], 0⟩ (scanTokens R [] line).1
    rw [foldl_token]
    simp only [← Visited.consumeAll_append]
    refine (result_slot _ slot (streamed R [] rest)).trans ?_
    rw [hsaw, hcount, hentries]
    cases Outcome.entries (scanTokens R [] line).1 <;> simp [applyTitleSlot]

theorem splitOn_line (h : some 0x0a ∉ line) (rest : List (Option UInt8)) :
    (line ++ some 0x0a :: rest).splitOn (some 0x0a) = line :: rest.splitOn (some 0x0a) := by
  rw [splitOn_append_cons_of_beq _ _ BEq.rfl, splitOn_eq_singleton h]
  rfl

theorem eq_first_line {line' rest' : List (Option UInt8)} (h : some 0x0a ∉ line)
    (h' : some 0x0a ∉ line') (heq : line ++ some 0x0a :: rest = line' ++ some 0x0a :: rest') :
    line' = line := by
  have hlines := congrArg (List.splitOn (some 0x0a)) heq
  rw [splitOn_line h, splitOn_line h'] at hlines
  exact (List.cons.inj hlines).1.symm

theorem eq_iff_of_notMem (h : some 0x0a ∉ tokens chunks) :
    loadEntriesFromFileStream R chunks = parseSessionContent R (R.decode chunks.flatten) ↔
      LoadsAlike R chunks := by
  have hbytes : (0x0a : UInt8) ∉ chunks.flatten := by
    rw [← bytesOf_tokens]
    exact fun hmem => h (mem_bytesOf.mp hmem)
  have hno : ∀ line rest, tokens chunks ≠ line ++ some 0x0a :: rest := by
    rintro line rest heq
    exact h (by simp [heq])
  rw [loadEntriesFromFileStream_of_notMem h, parseSessionContent_of_notMem hbytes, ← bytesOf_tokens]
  rcases agrees_or_exceeds (R := R) (tokens chunks) with ⟨hlines, hagrees⟩ | ⟨hnot, hexceeds⟩
  · refine iff_of_true ?_ ⟨hlines, fun line rest heq => absurd heq (hno line rest),
      fun line rest heq => absurd heq (hno line rest)⟩
    rw [hagrees.1, hagrees.2]
  refine iff_of_false (fun heq => ?_) fun halike => hnot halike.lines
  obtain ⟨hentries, -, hcount⟩ := SessionLoadResult.mk.inj heq
  exact hexceeds.not_agrees ⟨hentries, hcount⟩

theorem eq_iff_of_slot {slot : SessionTitleUpdate} (heq : tokens chunks = line ++ some 0x0a :: rest)
    (h : some 0x0a ∉ line) (hslot : slotOf R (bytesOf line) = some slot) :
    loadEntriesFromFileStream R chunks = parseSessionContent R (R.decode chunks.flatten) ↔
      LoadsAlike R chunks := by
  have hbytes : (0x0a : UInt8) ∉ bytesOf line := fun hmem => h (mem_bytesOf.mp hmem)
  have hflatten : chunks.flatten = bytesOf line ++ 0x0a :: bytesOf rest := by
    rw [← bytesOf_tokens, heq, bytesOf_append, bytesOf_cons_some]
  obtain ⟨value, hvalue⟩ : ∃ value, R.byteFormat.value (bytesOf line) = some value := by
    obtain ⟨entry, hentry, -⟩ := Option.map_eq_some_iff.mp hslot
    obtain ⟨value, hvalue, -⟩ := Option.bind_eq_some_iff.mp hentry
    exact ⟨value, hvalue⟩
  have hfirst : firstLineSlot R (bytesOf line) = some slot := by
    rw [firstLineSlot_of_value hvalue, hslot]
  rw [loadEntriesFromFileStream_line heq h, hflatten, parseSessionContent_line hbytes, hslot]
  refine ⟨fun hsame => ?_, fun halike => ?_⟩
  · cases hfound : firstLineSlot R (scanTokens R [] line).2 with
    | none =>
      rw [hfound] at hsame
      exact nomatch (SessionLoadResult.mk.inj hsame).2.1
    | some found =>
      rw [hfound] at hsame
      obtain ⟨hentries, -, hcount⟩ := SessionLoadResult.mk.inj hsame
      have hlength := congrArg List.length hentries
      rw [length_append, length_modifyHead] at hlength
      have hrest : ((if Outcome.entries (scanTokens R [] line).1 = [] then
          (Outcome.entries (streamed R [] rest)).modifyHead (applyTitleSlot (some found))
          else Outcome.entries (streamed R [] rest))).length =
          (Outcome.entries (streamed R [] rest)).length := by
        split
        · rw [length_modifyHead]
        · rfl
      rw [hrest] at hlength
      -- a record found on the slot line would be one too many, whatever the other lines give
      have hagrees : Outcome.entries (scanTokens R [] line).1 = [] ∧
          ∀ l ∈ rest.splitOn (some 0x0a), RecordsWhole R l ∧ NotTrimmedAway R (bytesOf l) := by
        rcases agrees_or_exceeds (R := R) rest with ⟨hlines, hagrees⟩ | ⟨-, hexceeds⟩
        · have hsame := congrArg List.length hagrees.1
          exact ⟨eq_nil_of_length_eq_zero (by omega), hlines⟩
        unfold Exceeds at hexceeds
        omega
      have hnoEarly : ∀ before after, line = before ++ none :: after →
          R.byteFormat.value (bytesOf before) = none := by
        intro before after hsplit
        by_contra hne
        have hpos := @entries_scanTokens_pos R line [] h before after hsplit
          (Option.isSome_iff_ne_none.mpr hne)
        rw [hagrees.1] at hpos
        exact Nat.lt_irrefl 0 hpos
      refine ⟨?_, fun line' rest' heq' h' => ?_, fun line' rest' heq' h' _ => ?_⟩
      · rw [heq, splitOn_line h, forall_mem_cons]
        refine ⟨⟨fun before after hsplit hsome => ?_, fun hnone => ?_⟩, hagrees.2⟩
        · rw [hnoEarly before after hsplit] at hsome
          cases hsome
        rw [hvalue] at hnone
        cases hnone
      · obtain rfl := eq_first_line h h' (heq ▸ heq')
        rw [hfirst, hslot]
      obtain rfl := eq_first_line h h' (heq ▸ heq')
      exact hnoEarly
  have hscan : scanTokens R [] line = ([], bytesOf line) :=
    scanTokens_of_noEarly h (halike.slotWhole line rest heq h (by rw [hslot]; rfl))
  have hlines : ∀ l ∈ rest.splitOn (some 0x0a),
      RecordsWhole R l ∧ NotTrimmedAway R (bytesOf l) := fun l hl =>
    halike.lines l (by rw [heq, splitOn_line h]; exact mem_cons_of_mem _ hl)
  rw [hscan, hfirst]
  rcases agrees_or_exceeds (R := R) rest with ⟨-, hagrees⟩ | ⟨hnot, -⟩
  · simp [hagrees.1, hagrees.2]
  · exact absurd hlines hnot

/-- A file whose first line ends and is not a slot. -/
theorem eq_iff_of_no_slot (heq : tokens chunks = line ++ some 0x0a :: rest) (h : some 0x0a ∉ line)
    (hslot : slotOf R (bytesOf line) = none) :
    loadEntriesFromFileStream R chunks = parseSessionContent R (R.decode chunks.flatten) ↔
      LoadsAlike R chunks := by
  have hbytes : (0x0a : UInt8) ∉ bytesOf line := fun hmem => h (mem_bytesOf.mp hmem)
  have hflatten : chunks.flatten = bytesOf line ++ 0x0a :: bytesOf rest := by
    rw [← bytesOf_tokens, heq, bytesOf_append, bytesOf_cons_some]
  rw [loadEntriesFromFileStream_line heq h, hflatten, parseSessionContent_line hbytes, hslot,
    ← hflatten, ← bytesOf_tokens]
  refine ⟨fun hsame => ?_, fun halike => ?_⟩
  · cases hfirst : firstLineSlot R (scanTokens R [] line).2 with
    | some =>
      rw [hfirst] at hsame
      exact nomatch (SessionLoadResult.mk.inj hsame).2.1
    | none =>
      rw [hfirst] at hsame
      obtain ⟨hentries, -, hcount⟩ := SessionLoadResult.mk.inj hsame
      rcases agrees_or_exceeds (R := R) (tokens chunks) with ⟨hlines, -⟩ | ⟨-, hexceeds⟩
      · have hwhole : RecordsWhole R line := (hlines line (by rw [heq, splitOn_line h]; simp)).1
        have hnone : firstLineSlot R (bytesOf line) = none := by
          rcases hwhole.cases h with hscan | ⟨hsome, -⟩
          · rwa [hscan] at hfirst
          obtain ⟨value, hvalue⟩ := Option.isSome_iff_exists.mp hsome
          rw [firstLineSlot_of_value hvalue, hslot]
        refine ⟨hlines, fun line' rest' heq' h' => ?_, fun line' rest' heq' h' hsome => ?_⟩
        · obtain rfl := eq_first_line h h' (heq ▸ heq')
          rw [hnone, hslot]
        obtain rfl := eq_first_line h h' (heq ▸ heq')
        rw [hslot] at hsome
        cases hsome
      · exact absurd ⟨hentries, hcount⟩ hexceeds.not_agrees
  have hwhole : RecordsWhole R line := (halike.lines line (by rw [heq, splitOn_line h]; simp)).1
  have hfirst : firstLineSlot R (scanTokens R [] line).2 = none := by
    rcases hwhole.cases h with hscan | ⟨-, hnone⟩
    · rw [hscan, halike.slot line rest heq h, hslot]
    · exact hnone
  rw [hfirst]
  rcases agrees_or_exceeds (R := R) (tokens chunks) with ⟨-, hagrees⟩ | ⟨hnot, -⟩
  · simp [hagrees.1, hagrees.2]
  · exact absurd halike.lines hnot

/-- Streamed loading gives the result of `parseSessionContent` on the decoded text exactly when
`LoadsAlike` holds, for every content and every division into chunks. -/
theorem loadEntriesFromFileStream_eq_iff (R : JsonlRuntime) (chunks : List (List UInt8)) :
    loadEntriesFromFileStream R chunks = parseSessionContent R (R.decode chunks.flatten) ↔
      LoadsAlike R chunks := by
  by_cases hmem : some 0x0a ∈ tokens chunks
  · obtain ⟨line, rest, heq, hline⟩ := eq_append_cons_of_mem hmem
    cases hslot : slotOf R (bytesOf line) with
    | some => exact eq_iff_of_slot heq hline hslot
    | none => exact eq_iff_of_no_slot heq hline hslot
  · exact eq_iff_of_notMem hmem

end Compare

/-! ### A slot that arrives before its newline -/

section Example

/-- A reader of records that does what `parseChunk` is documented to do. It leaves no white space
unread but that of a line that has not ended. -/
def readRecords {σ : Type} [DecidableEq σ] (fmt : LineFormat σ JsValue) (done : ℕ) (part : List σ)
    (values : List JsValue) : List σ → ParseChunkResult
  | [] =>
    match fmt.value part with
    | some value => ⟨values ++ [value], false, done + part.length, true⟩
    | none => ⟨values, false, done, part.all fmt.isBlank⟩
  | a :: input =>
    if a = fmt.newline then
      match fmt.value part with
      | some value => readRecords fmt (done + part.length + 1) [] (values ++ [value]) input
      | none =>
        if part.all fmt.isSpace then readRecords fmt (done + part.length + 1) [] values input
        else ⟨values, true, done, false⟩
    else readRecords fmt done (part ++ [a]) values input

theorem readRecords_spec {σ : Type} [DecidableEq σ] {fmt : LineFormat σ JsValue}
    (before part input : List σ) (values : List JsValue)
    (hbefore : fmt.scan [] before = (values.map .entry, [])) (hpart : fmt.newline ∉ part) :
    ParsesChunk fmt (before ++ (part ++ input))
      (readRecords fmt before.length part values input) := by
  induction input generalizing before part values with
  | nil =>
    have hscan : fmt.scan [] (before ++ (part ++ [])) = (values.map .entry, part) := by
      rw [append_nil, LineFormat.scan_append, hbefore, LineFormat.scan_of_notMem hpart,
        append_nil, nil_append]
    rw [readRecords]
    cases hvalue : fmt.value part with
    | some =>
      refine .complete values part [] hscan rfl (by rw [hvalue]; rfl) (fun _ h => nomatch h) ?_
        fun _ => ?_
      · simp [hvalue]
      · simp
    | none =>
      refine .complete values part [] hscan rfl (by rw [hvalue, Option.toList_none, append_nil])
        (fun _ h => nomatch h) ?_ fun hdone => ?_
      · simp [hvalue]
      · simpa using hdone
  | cons a input ih =>
    have hmove : before ++ (part ++ a :: input) = before ++ (part ++ [a]) ++ ([] ++ input) := by
      simp
    rw [readRecords]
    by_cases ha : a = fmt.newline
    · subst ha
      have hscan : fmt.scan [] (before ++ (part ++ [fmt.newline])) =
          (values.map .entry ++ fmt.outcome part, []) := by
        rw [LineFormat.scan_append, hbefore, LineFormat.scan_line hpart, LineFormat.scan,
          append_nil]
      have hlength : before.length + part.length + 1 =
          (before ++ (part ++ [fmt.newline])).length := by
        simp only [length_append, length_singleton]
        omega
      rw [if_pos rfl]
      cases hvalue : fmt.value part with
      | some =>
        rw [hmove]
        simp only [hlength]
        refine ih _ [] _ ?_ not_mem_nil
        rw [hscan, LineFormat.outcome, hvalue, map_append]
        rfl
      | none =>
        by_cases hspace : part.all fmt.isSpace = true
        · rw [if_pos hspace, hmove, hlength]
          refine ih _ [] _ ?_ not_mem_nil
          rw [hscan, LineFormat.outcome_of_space (all_eq_true.mp hspace), append_nil]
        rw [if_neg hspace]
        refine .malformed before part input values rfl hbefore hpart ⟨hvalue, ?_⟩ rfl rfl rfl
        simpa using hspace
    rw [if_neg ha]
    have hcons : before ++ (part ++ a :: input) = before ++ (part ++ [a] ++ input) := by simp
    rw [hcons]
    exact ih before _ values hbefore (by simp [hpart, Ne.symm ha])

/-- The text of a title slot. -/
def slotText : List Char :=
  "\x7b\"type\":\"title\",\"v\":1,\"title\":\"t\",\"updatedAt\":\"u\",\"pad\":\"\"\x7d".toList

def slotValue : JsValue :=
  .object [("type", .string "title"), ("v", .number (.integer 1)), ("title", .string "t"),
    ("updatedAt", .string "u"), ("pad", .string "")]

/-- `JSON.parse`, on the parts of the slot. -/
def parseSlotText (text : List Char) : Option JsValue :=
  if text.filter (!isJsonSpace ·) = slotText then some slotValue else none

variable {text : List Char}

theorem isJsonSpace_of_slotText
    (h : text.filter (!isJsonSpace ·) = slotText) {c : Char} (hc : c ∈ text)
    (hwhite : isJsWhitespace c = true) : isJsonSpace c = true := by
  by_contra hspace
  have hmem : c ∈ slotText := by
    rw [← h]
    exact mem_filter.mpr ⟨hc, by simp [hspace]⟩
  have hnone : slotText.all (!isJsWhitespace ·) = true := by decide
  have hc' := all_eq_true.mp hnone c hmem
  rw [hwhite] at hc'
  cases hc'

theorem filter_dropWhile (h : ∀ c ∈ text, isJsWhitespace c = true → isJsonSpace c = true) :
    (text.dropWhile isJsWhitespace).filter (!isJsonSpace ·) = text.filter (!isJsonSpace ·) := by
  induction text with
  | nil => rfl
  | cons c text ih =>
    rw [dropWhile_cons]
    split
    · next hc =>
      have hspace := h c mem_cons_self hc
      rw [ih fun d hd => h d (mem_cons_of_mem _ hd), filter_cons, hspace, Bool.not_true,
        if_neg Bool.false_ne_true]
    · rfl

theorem parseSlotText_trim (text : List Char) (value : JsValue)
    (h : parseSlotText text = some value) : parseSlotText (trimChars text) = some value := by
  rw [parseSlotText] at h ⊢
  split at h
  · next hslot =>
    have hspace : ∀ c ∈ text, isJsWhitespace c = true → isJsonSpace c = true :=
      fun c hc => isJsonSpace_of_slotText hslot hc
    have hfilter : (trimChars text).filter (!isJsonSpace ·) = slotText := by
      rw [trimChars, filter_reverse, filter_dropWhile, filter_reverse,
        reverse_reverse, filter_dropWhile hspace, hslot]
      intro c hc
      exact hspace c ((dropWhile_sublist _).subset (mem_reverse.mp hc))
    rw [if_pos hfilter, h]
  · cases h

/-- The bytes of an ASCII text. -/
def asciiBytes (text : List Char) : List UInt8 := text.map fun c => UInt8.ofNat c.toNat

/-- The decoder and the JSON parser, as far as files go that are ASCII and hold the slot. -/
def slotJson : JsonRuntime where
  decode bytes := bytes.map fun b => Char.ofNat b.toNat
  decode_nil := rfl
  decode_ascii before b after _ := by rw [map_append, map_cons]
  decode_mem bytes c hc hascii := by
    obtain ⟨b, hb, rfl⟩ := mem_map.mp hc
    have hvalid : b.toNat.isValidChar := .inl (by
      have hlt := b.toNat_lt
      omega)
    have hto : (Char.ofNat b.toNat).toNat = b.toNat := by
      rw [Char.ofNat, dif_pos hvalid]
      rfl
    rw [hto] at hascii
    exact ⟨b, hb, hascii, rfl⟩
  parse := parseSlotText
  parse_nil := by decide
  parse_cons_space c text h := by
    rw [parseSlotText, parseSlotText, filter_cons, h, Bool.not_true, if_neg Bool.false_ne_true]
  parse_append_space c text h := by
    rw [parseSlotText, parseSlotText, filter_append, filter_singleton, h, Bool.not_true]
    simp
  parse_trim := parseSlotText_trim

def slotRuntime : JsonlRuntime where
  toJsonRuntime := slotJson
  parseText input := readRecords slotJson.textFormat 0 [] [] input
  parseBytes input := readRecords slotJson.byteFormat 0 [] [] input
  parsesText input := readRecords_spec [] [] input [] rfl not_mem_nil
  parsesBytes input := readRecords_spec [] [] input [] rfl not_mem_nil

/-- A file that holds only a slot, with the chunks cut before its newline: the stream takes the slot
for an entry and finds no slot. -/
theorem loadEntriesFromFileStream_slot_cut :
    (loadEntriesFromFileStream slotRuntime [asciiBytes slotText, [0x0a]]).entries.length = 1 ∧
      (loadEntriesFromFileStream slotRuntime [asciiBytes slotText, [0x0a]]).titleSlot = none ∧
      (parseSessionContent slotRuntime (slotText ++ ['\n'])).entries.length = 0 ∧
      (parseSessionContent slotRuntime (slotText ++ ['\n'])).titleSlot =
        some ⟨"t", none, "u"⟩ ∧
      loadEntriesFromFileStream slotRuntime [asciiBytes slotText, [0x0a]] ≠
        parseSessionContent slotRuntime
          (slotRuntime.decode [asciiBytes slotText, [0x0a]].flatten) := by
  have hentries : (loadEntriesFromFileStream slotRuntime
      [asciiBytes slotText, [0x0a]]).entries.length = 1 := by decide
  have hnone : (parseSessionContent slotRuntime (slotText ++ ['\n'])).entries.length = 0 := by
    decide
  have hdecode : slotRuntime.decode [asciiBytes slotText, [0x0a]].flatten = slotText ++ ['\n'] := by
    decide
  refine ⟨hentries, by decide, hnone, by decide, fun heq => ?_⟩
  rw [hdecode] at heq
  rw [heq, hnone] at hentries
  cases hentries

end Example

end Loader

end BreadboardTui
