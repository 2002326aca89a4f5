import BreadboardTui.Edit.DiffBrackets

/-!
# The rows of a diff

A script of parts is a line edit, part by part. The diff shows all lines of a part that changed, and
of an unchanged part the lines at its ends: so the rows are those of the line edit.
-/

namespace BreadboardTui.NumberedDiff

open List Bool

open Hashline (Units)

/-! ### Lines -/

theorem getLast?_splitOn_cons {code : ℕ} (hcode : code ≠ 10) (text : Units) :
    ∃ first rest, text.splitOn 10 = first :: rest ∧
      (code :: text).splitOn 10 = (code :: first) :: rest := by
  obtain ⟨first, rest, heq⟩ := exists_cons_of_ne_nil (splitOn_ne_nil 10 text)
  refine ⟨first, rest, heq, ?_⟩
  rw [splitOn_cons_eq_if_modifyHead, if_neg (by simpa using hcode), heq, modifyHead_cons]

theorem fileLines_cons {line : Units} {lines : List Units} (h : lines ≠ []) :
    fileLines (line :: lines) = line :: fileLines lines := by
  obtain ⟨second, rest, rfl⟩ := exists_cons_of_ne_nil h
  rw [fileLines, fileLines, getLast?_cons_cons]
  split
  · rfl
  · rfl

theorem textLines_eq (text : Units) :
    textLines text = (lineTokens text).map fun token => token.takeWhile (· ≠ 10) := by
  induction text with
  | nil => rfl
  | cons code text ih =>
    rw [textLines] at ih ⊢
    by_cases hcode : code = 10
    · subst hcode
      have hsplit : (10 :: text).splitOn 10 = [] :: text.splitOn 10 := by
        rw [splitOn_cons_eq_if_modifyHead]
        rfl
      rw [hsplit, fileLines_cons (splitOn_ne_nil 10 text), ih, lineTokens, if_pos rfl]
      rfl
    obtain ⟨first, rest, htext, hcons⟩ := getLast?_splitOn_cons hcode text
    rw [htext] at ih
    rw [hcons, lineTokens, if_neg hcode]
    have hkeep : ∀ token : Units, (code :: token).takeWhile (· ≠ 10) =
        code :: token.takeWhile (· ≠ 10) := by
      intro token
      rw [takeWhile_cons, if_pos (by simpa using hcode)]
    cases rest with
    | nil =>
      have hlast : fileLines [code :: first] = [code :: first] := rfl
      rw [hlast]
      cases first with
      | nil =>
        have hempty : fileLines [([] : Units)] = [] := rfl
        rw [hempty] at ih
        have htokens : lineTokens text = [] := map_eq_nil_iff.mp ih.symm
        rw [htokens]
        exact congrArg (fun line => [line]) (hkeep []).symm
      | cons second first =>
        have hfull : fileLines [second :: first] = [second :: first] := rfl
        rw [hfull] at ih
        obtain ⟨token, htokens, htoken⟩ := map_eq_singleton_iff.mp ih.symm
        rw [htokens]
        rw [map_singleton, hkeep, htoken]
    | cons =>
      rw [fileLines_cons (cons_ne_nil _ _)] at ih ⊢
      obtain ⟨token, tokens, htokens, htoken, hrest⟩ := map_eq_cons_iff.mp ih.symm
      rw [htokens]
      rw [map_cons, hkeep, htoken, hrest]

theorem textLines_ne_nil {text : Units} (h : text ≠ []) : textLines text ≠ [] := by
  rw [textLines_eq]
  cases text with
  | nil => exact absurd rfl h
  | cons =>
    rw [lineTokens]
    split
    · exact cons_ne_nil _ _
    split
    · exact cons_ne_nil _ _
    · exact cons_ne_nil _ _

theorem notMem_of_mem_textLines {text line : Units} (h : line ∈ textLines text) : 10 ∉ line := by
  rw [textLines, fileLines] at h
  split at h
  · exact notMem_of_mem_splitOn (mem_of_mem_dropLast h)
  · exact notMem_of_mem_splitOn h

/-! ### The line edit of a diff -/

def DiffPart.op (part : DiffPart) : Units → LineOp :=
  if part.added then .add else if part.removed then .remove else .keep

def DiffPart.ops (part : DiffPart) : List LineOp := (textLines part.value).map part.op

def scriptOps (parts : List DiffPart) : List LineOp := parts.flatMap DiffPart.ops

theorem oldLines_ops (part : DiffPart) :
    oldLines part.ops = if part.added then [] else textLines part.value := by
  rw [oldLines, DiffPart.ops, DiffPart.op, filterMap_map]
  split
  · exact filterMap_eq_nil_iff.mpr fun _ _ => rfl
  split
  · exact filterMap_some
  · exact filterMap_some

theorem newLines_ops {part : DiffPart} (hboth : part.added = true → part.removed = false) :
    newLines part.ops = if part.removed then [] else textLines part.value := by
  rw [newLines, DiffPart.ops, DiffPart.op, filterMap_map]
  split
  · next hadded =>
    rw [hboth hadded]
    exact filterMap_some
  split
  · exact filterMap_eq_nil_iff.mpr fun _ _ => rfl
  · exact filterMap_some

theorem flatMap_textLines (left : DiffPart → Bool) (parts : List DiffPart) :
    (parts.flatMap fun part => if left part then [] else textLines part.value) =
      ((parts.filter fun part => !left part).flatMap fun part => lineTokens part.value).map
        fun token => token.takeWhile (· ≠ 10) := by
  induction parts with
  | nil => rfl
  | cons part parts ih =>
    rw [flatMap_cons, ih, filter_cons]
    cases left part with
    | true => rfl
    | false =>
      simp only [Bool.not_false, if_true, false_eq_true, if_false]
      rw [flatMap_cons, map_append, textLines_eq]

variable {parts : List DiffPart}

theorem ValidScript.lines {old new : Units} (h : ValidScript parts old new) :
    textLines old = oldLines (scriptOps parts) ∧ textLines new = newLines (scriptOps parts) := by
  have hold : oldLines (scriptOps parts) =
      parts.flatMap fun part => if part.added then [] else textLines part.value := by
    rw [oldLines, scriptOps, filterMap_flatMap]
    exact flatMap_congr fun part _ => oldLines_ops part
  have hnew : newLines (scriptOps parts) =
      parts.flatMap fun part => if part.removed then [] else textLines part.value := by
    rw [newLines, scriptOps, filterMap_flatMap]
    exact flatMap_congr fun part hpart => newLines_ops (h.not_both part hpart)
  rw [hold, hnew, flatMap_textLines, flatMap_textLines, h.old, h.new]
  exact ⟨textLines_eq old, textLines_eq new⟩

/-! ### The rows of the diff -/

def rowsFrom (kind : RowKind) (line : ℕ) : List Units → List (Option DiffRow)
  | [] => []
  | content :: contents => some ⟨kind, line, content⟩ :: rowsFrom kind (line + 1) contents

theorem numberedRows_eq (kind : RowKind) (line : ℕ) (contents : List Units) :
    numberedRows kind line contents = (rowsFrom kind line contents).map rowText := by
  induction contents generalizing line with
  | nil => rfl
  | cons content contents ih => rw [numberedRows, rowsFrom, map_cons, ih]; rfl

section

variable {changed : Bool} {o n : ℕ} {ops : List LineOp} {rows : List (Option DiffRow)}

variable {contents : List Units}

theorem Shown.adds (h : Shown true o (n + contents.length) ops rows)
    (hne : contents ≠ [] ∨ changed = true) :
    Shown changed o n (contents.map .add ++ ops) (rowsFrom .added n contents ++ rows) := by
  induction contents generalizing n changed with
  | nil =>
    obtain rfl := hne.resolve_left fun hne => hne rfl
    exact h
  | cons content contents ih =>
    rw [length_cons, ← add_assoc, add_right_comm] at h
    exact .add (ih h (.inr rfl))

theorem Shown.removes (h : Shown true (o + contents.length) n ops rows)
    (hne : contents ≠ [] ∨ changed = true) :
    Shown changed o n (contents.map .remove ++ ops) (rowsFrom .removed o contents ++ rows) := by
  induction contents generalizing o changed with
  | nil =>
    obtain rfl := hne.resolve_left fun hne => hne rfl
    exact h
  | cons content contents ih =>
    rw [length_cons, ← add_assoc, add_right_comm] at h
    exact .remove (ih h (.inr rfl))

theorem Shown.keeps (h : Shown false (o + contents.length) (n + contents.length) ops rows)
    (hne : contents = [] → changed = false) :
    Shown changed o n (contents.map .keep ++ ops) (rowsFrom .context o contents ++ rows) := by
  induction contents generalizing o n changed with
  | nil =>
    obtain rfl := hne rfl
    exact h
  | cons content contents ih =>
    rw [length_cons, ← add_assoc, ← add_assoc, add_right_comm, add_right_comm n] at h
    exact .keep (ih h fun _ => rfl)

theorem Shown.hides (h : Shown false (o + contents.length) (n + contents.length) ops rows)
    (hsettled : contents ≠ [] → Settled ops) :
    Shown false o n (contents.map .keep ++ ops) rows := by
  induction contents generalizing o n with
  | nil => exact h
  | cons content contents ih =>
    rw [length_cons, ← add_assoc, ← add_assoc, add_right_comm, add_right_comm n] at h
    refine .hide ?_ (ih h fun _ => hsettled (cons_ne_nil _ _))
    cases contents with
    | nil => exact hsettled (cons_ne_nil _ _)
    | cons => trivial

/-- An unchanged part of which the lines in the middle are left out. -/
theorem Shown.window {first hidden second : List Units}
    (h : Shown false (o + (first.length + hidden.length + second.length))
      (n + (first.length + hidden.length + second.length)) ops rows)
    (hfirst : first = [] → changed = false) (hsecond : second = [] → hidden ≠ [] → Settled ops) :
    Shown changed o n ((first ++ hidden ++ second).map .keep ++ ops)
      (rowsFrom .context o first ++
        (rowsFrom .context (o + first.length + hidden.length) second ++ rows)) := by
  rw [map_append, map_append, append_assoc, append_assoc]
  refine Shown.keeps (Shown.hides (Shown.keeps ?_ fun _ => rfl) fun hhidden => ?_) hfirst
  · rwa [← add_assoc, ← add_assoc, ← add_assoc, ← add_assoc] at h
  cases second with
  | nil => exact hsecond rfl hhidden
  | cons => trivial

end

theorem windowRows_whole (contextLimit line leadingSkip trailingSkip : ℕ) (lines : List Units) :
    DiffState.windowRows contextLimit line ⟨leadingSkip, 0, trailingSkip, lines⟩ =
      numberedRows .context (line + leadingSkip) lines := by
  rw [DiffState.windowRows]
  rw [if_neg (lt_irrefl 0), if_neg (lt_irrefl 0), take_length, append_nil]

variable {contextLimit : ℕ} (line : ℕ)

theorem windowRows_split {middleSkip : ℕ} {first : List Units}
    (second : List Units) (hskip : 0 < middleSkip) (hfirst : first.length = contextLimit) :
    DiffState.windowRows contextLimit line ⟨0, middleSkip, 0, first ++ second⟩ =
      numberedRows .context line first ++
        numberedRows .context (line + contextLimit + middleSkip) second := by
  rw [DiffState.windowRows]
  rw [if_pos hskip, if_pos hskip, take_left' hfirst, drop_left' hfirst, hfirst, add_zero]

/-- A window leaves out lines between two runs that it shows; what it leaves out stands beside no
change. -/
structure Windowed (contextLimit line : ℕ) (lastWasChange nextPartIsChange : Bool)
    (raw first hidden second : List Units) : Prop where
  raw_eq : raw = first ++ hidden ++ second
  rows : DiffState.windowRows contextLimit line
      (contextWindow contextLimit lastWasChange nextPartIsChange raw) =
    numberedRows .context line first ++
      numberedRows .context (line + first.length + hidden.length) second
  first_eq_nil : first = [] → lastWasChange = false
  second_eq_nil : second = [] → hidden ≠ [] → nextPartIsChange = false
  advance : ∀ window, window = contextWindow contextLimit lastWasChange nextPartIsChange raw →
    window.leadingSkip + window.linesToShow.length + window.middleSkip + window.trailingSkip =
      raw.length

theorem exists_windowed (lastWasChange nextPartIsChange : Bool)
    {raw : List Units} (hlimit : 1 ≤ contextLimit) (hraw : raw ≠ []) : ∃ first hidden second,
      Windowed contextLimit line lastWasChange nextPartIsChange raw first hidden second := by
  have hpos := length_pos_iff.mpr hraw
  by_cases hboth : (lastWasChange && nextPartIsChange) = true
  · by_cases hlong : contextLimit * 2 < raw.length
    · -- the first lines and the last ones
      obtain ⟨first, rest, rfl, hfirst⟩ : ∃ first rest, raw = first ++ rest ∧
          first.length = contextLimit :=
        ⟨_, _, (take_append_drop contextLimit raw).symm, by rw [length_take]; omega⟩
      obtain ⟨hidden, second, rfl, hsecond⟩ : ∃ hidden second, rest = hidden ++ second ∧
          second.length = contextLimit := by
        refine ⟨_, _, (take_append_drop (rest.length - contextLimit) rest).symm, ?_⟩
        rw [length_append] at hlong
        rw [length_drop]
        omega
      simp only [length_append] at hlong hpos
      have hwindow : contextWindow contextLimit lastWasChange nextPartIsChange
          (first ++ (hidden ++ second)) = ⟨0, hidden.length, 0, first ++ second⟩ := by
        have hlast : (first ++ (hidden ++ second)).drop
            (first.length + (hidden.length + second.length) - contextLimit) = second := by
          rw [← append_assoc]
          refine drop_left' ?_
          rw [length_append]
          omega
        rw [contextWindow, if_pos hboth, length_append, length_append, if_pos hlong]
        dsimp only
        rw [hlast, take_left' hfirst, hfirst, hsecond]
        congr 1
        omega
      refine ⟨first, hidden, second, (append_assoc ..).symm, ?_, fun hnil => ?_,
        fun hnil => ?_, fun window hwin => ?_⟩
      · rw [hwindow, windowRows_split line second (by omega) hfirst, hfirst]
      · rw [hnil, length_nil] at hfirst
        omega
      · rw [hnil, length_nil] at hsecond
        omega
      rw [hwin, hwindow]
      simp only [length_append]
      omega
    · have hwindow : contextWindow contextLimit lastWasChange nextPartIsChange raw =
          ⟨0, 0, 0, raw⟩ := by rw [contextWindow, if_pos hboth, if_neg hlong]
      refine ⟨raw, [], [], by simp, ?_, fun hnil => absurd hnil hraw, fun _ hnil => absurd rfl hnil,
        fun window hwin => ?_⟩
      · rw [hwindow, windowRows_whole]
        exact (append_nil _).symm
      rw [hwin, hwindow]
      simp
  by_cases hnext : nextPartIsChange = true
  · -- the last lines
    have hwindow : contextWindow contextLimit lastWasChange nextPartIsChange raw =
        ⟨raw.length - contextLimit, 0, 0, raw.drop (raw.length - contextLimit)⟩ := by
      rw [contextWindow, if_neg hboth, if_pos hnext]
    refine ⟨[], raw.take (raw.length - contextLimit), raw.drop (raw.length - contextLimit),
      (take_append_drop _ _).symm, ?_, fun _ => ?_, fun hnil => ?_, fun window hwin => ?_⟩
    · rw [hwindow, windowRows_whole, length_take, Nat.min_eq_left (Nat.sub_le _ _)]
      rfl
    · rw [hnext, Bool.and_true, not_eq_true] at hboth
      exact hboth
    · have := congrArg List.length hnil
      rw [length_drop, length_nil] at this
      omega
    rw [hwin, hwindow]
    simp only [length_drop]
    omega
  · -- the first lines
    have hwindow : contextWindow contextLimit lastWasChange nextPartIsChange raw =
        ⟨0, 0, raw.length - contextLimit, raw.take contextLimit⟩ := by
      rw [contextWindow, if_neg hboth, if_neg hnext]
    refine ⟨raw.take contextLimit, raw.drop contextLimit, [],
      by rw [append_nil, take_append_drop], ?_, fun hnil => ?_,
      fun _ _ => eq_false_of_not_eq_true hnext, fun window hwin => ?_⟩
    · rw [hwindow, windowRows_whole]
      exact (append_nil _).symm
    · have := congrArg List.length hnil
      rw [length_take, length_nil] at this
      omega
    rw [hwin, hwindow]
    simp only [length_take]
    omega

theorem settled_scriptOps (hvalue : ∀ part ∈ parts, part.value ≠ [])
    (h : parts.head?.any DiffPart.isChange = false) : Settled (scriptOps parts) := by
  cases parts with
  | nil => trivial
  | cons part =>
    have hchange : part.isChange = false := h
    rw [DiffPart.isChange, or_eq_false_iff] at hchange
    obtain ⟨line, lines, hlines⟩ :=
      exists_cons_of_ne_nil (textLines_ne_nil (hvalue part mem_cons_self))
    rw [scriptOps, flatMap_cons, DiffPart.ops, DiffPart.op, hchange.1, hchange.2, hlines]
    trivial

theorem shown_run (hlimit : 1 ≤ contextLimit)
    (hvalue : ∀ part ∈ parts, part.value ≠ []) (st : DiffState) (changed : Bool)
    (hchanged : changed = true → st.lastWasChange = true) : ∃ rows : List (Option DiffRow),
      (DiffState.run contextLimit st parts).output = st.output ++ rows.map rowText ∧
        Shown changed st.oldLineNum st.newLineNum (scriptOps parts) rows := by
  induction parts generalizing st changed with
  | nil => exact ⟨[], (append_nil _).symm, .nil⟩
  | cons part parts ih =>
    have hraw := textLines_ne_nil (hvalue part mem_cons_self)
    have hrest := fun other hother => hvalue other (mem_cons_of_mem _ hother)
    rw [DiffState.run, scriptOps, flatMap_cons, DiffPart.ops, DiffPart.op]
    cases hadded : part.added with
    | true =>
      rw [DiffPart.isChange, hadded, Bool.true_or, if_pos rfl, DiffState.changePart,
        if_pos hadded, if_pos rfl]
      obtain ⟨rows, hrun, hshown⟩ := ih hrest { st with
        output := st.output ++ numberedRows .added st.newLineNum (textLines part.value)
        newLineNum := st.newLineNum + (textLines part.value).length
        lastWasChange := true
        firstChangedLine := some (st.firstChangedLine.getD st.newLineNum) } true (fun _ => rfl)
      refine ⟨rowsFrom .added st.newLineNum (textLines part.value) ++ rows, ?_,
        Shown.adds hshown (.inl hraw)⟩
      rw [hrun, map_append, ← numberedRows_eq, append_assoc]
    | false =>
      cases hremoved : part.removed with
      | true =>
        rw [DiffPart.isChange, hadded, hremoved, Bool.or_true, if_pos rfl, DiffState.changePart,
          hadded, if_neg Bool.false_ne_true, if_neg Bool.false_ne_true, if_pos rfl]
        obtain ⟨rows, hrun, hshown⟩ := ih hrest { st with
          output := st.output ++ numberedRows .removed st.oldLineNum (textLines part.value)
          oldLineNum := st.oldLineNum + (textLines part.value).length
          lastWasChange := true
          firstChangedLine := some (st.firstChangedLine.getD st.newLineNum) } true (fun _ => rfl)
        refine ⟨rowsFrom .removed st.oldLineNum (textLines part.value) ++ rows, ?_,
          Shown.removes hshown (.inl hraw)⟩
        rw [hrun, map_append, ← numberedRows_eq, append_assoc]
      | false =>
        rw [DiffPart.isChange, hadded, hremoved, Bool.or_false, if_neg Bool.false_ne_true,
          if_neg Bool.false_ne_true, if_neg Bool.false_ne_true]
        have hsettled := settled_scriptOps hrest
        rw [DiffState.contextPart]
        split
        · next hshow =>
          obtain ⟨first, hidden, second, hwindow⟩ := exists_windowed st.oldLineNum
            st.lastWasChange (parts.head?.any DiffPart.isChange) hlimit hraw
          have hlength := congrArg List.length hwindow.raw_eq
          rw [length_append, length_append] at hlength
          dsimp only
          rw [hwindow.advance _ rfl, hlength, hwindow.rows]
          obtain ⟨rows, hrun, hshown⟩ := ih hrest { st with
            output := st.output ++ (numberedRows .context st.oldLineNum first ++
              numberedRows .context (st.oldLineNum + first.length + hidden.length) second)
            oldLineNum := st.oldLineNum + (first.length + hidden.length + second.length)
            newLineNum := st.newLineNum + (first.length + hidden.length + second.length)
            lastWasChange := false } false (fun h => by cases h)
          refine ⟨_, ?_, hwindow.raw_eq ▸ Shown.window hshown (fun hnil => ?_) fun hnil hhidden =>
            hsettled (hwindow.second_eq_nil hnil hhidden)⟩
          · rw [hrun, numberedRows_eq, numberedRows_eq, map_append, map_append]
            simp
          have hlast := hwindow.first_eq_nil hnil
          cases changed with
          | false => rfl
          | true => rw [hchanged rfl] at hlast; cases hlast
        next hshow =>
        rw [not_eq_true, or_eq_false_iff] at hshow
        obtain ⟨rows, hrun, hshown⟩ := ih hrest { st with
          oldLineNum := st.oldLineNum + (textLines part.value).length
          newLineNum := st.newLineNum + (textLines part.value).length
          lastWasChange := false } false (fun h => by cases h)
        have hnotChanged : changed = false := by
          cases changed with
          | false => rfl
          | true => rw [hchanged rfl] at hshow; cases hshow.1
        rw [hnotChanged]
        exact ⟨rows, hrun, Shown.hides hshown fun _ => hsettled hshow.2⟩

end BreadboardTui.NumberedDiff
