import BreadboardTui.Edit.DiffWalk

/-!
# Bracket rows along a line edit

What a finder gives for the old text, and for the new text in the numbers of the old one, are kept
lines that were left out. They are put in one at a time, and the rows stay those of the line edit.
-/

namespace BreadboardTui.NumberedDiff

open List Option

open Hashline (Units units)

/-! ### Putting rows in -/

theorem findInsertPlace_cut (rows : List (Option DiffRow)) (k index : ℕ) (previous : Option ℕ) :
    ∃ front back, rows = front ++ back ∧ Cut k front back ∧
      (findInsertPlace k index previous (rows.map rowText)).insertIndex = index + front.length := by
  induction rows generalizing index previous with
  | nil => exact ⟨[], [], rfl, ⟨by simp, by simp⟩, rfl⟩
  | cons row rows ih =>
    have hpass : ∀ previous, (∀ line, sourceLine row = some line → line < k) →
        ∃ front back, row :: rows = front ++ back ∧ Cut k front back ∧
          (findInsertPlace k (index + 1) previous (rows.map rowText)).insertIndex =
            index + front.length := by
      intro previous hrow
      obtain ⟨front, back, hrows, hcut, hindex⟩ := ih (index + 1) previous
      refine ⟨row :: front, back, by rw [hrows, cons_append], ⟨?_, hcut.back⟩, ?_⟩
      · intro other hother
        rcases mem_cons.mp hother with rfl | hother
        · exact hrow
        · exact hcut.front other hother
      rw [hindex, length_cons]
      omega
    rw [map_cons, findInsertPlace, parse_rowText]
    cases row with
    | none => exact hpass _ (fun line hline => by cases hline)
    | some row =>
      dsimp only
      split
      · next hadded =>
        refine hpass _ fun line hline => ?_
        rw [sourceLine, if_pos hadded] at hline
        cases hline
      next hadded =>
      have hsource : sourceLine (some row) = some row.lineNumber := if_neg hadded
      split
      · next hlt =>
        refine hpass _ fun line hline => ?_
        rw [hsource] at hline
        cases hline
        exact Int.ofNat_lt.mp hlt
      next hge =>
      refine ⟨[], some row :: rows, rfl, ⟨by simp, fun other hother => ?_⟩, rfl⟩
      cases hother
      exact ⟨row.lineNumber, hsource, by omega⟩

theorem takeWhile_change {front : List (Option DiffRow)}
    (h : ∀ last, front.getLast? = some (some last) → last.kind = .context) :
    (front.map rowText).reverse.takeWhile isDiffChangeRow = [] := by
  rw [← map_reverse]
  cases hreverse : front.reverse with
  | nil => rfl
  | cons last =>
    have hlast : front.getLast? = some last := by
      rw [← head?_reverse, hreverse]
      rfl
    have hkind : isDiffChangeRow (rowText last) = false :=
      isDiffChangeRow_rowText fun r hr => h r (hr ▸ hlast)
    rw [map_cons, takeWhile_cons, hkind]
    rfl

/-- The texts are rows of a line edit, all of which have been seen. -/
def ShownTexts (ops : List LineOp) (texts seen : List Units) : Prop :=
  ∃ rows, texts = rows.map rowText ∧ Shown false 1 1 ops rows ∧
    ∀ row, some row ∈ rows → rowText (some row) ∈ seen

/-- The entry is a kept line, with its number in the old text. -/
def IsKept (ops : List LineOp) (entry : ℤ × Units) : Prop :=
  ∃ row ∈ numbered 1 1 ops, row.kind = .context ∧ entry = ((row.lineNumber : ℤ), row.content)

variable {ops : List LineOp}

theorem shown_insertBracketContextRow {texts seen : List Units} {entry : ℤ × Units}
    (h : ShownTexts ops texts seen) (hentry : IsKept ops entry) :
    ShownTexts ops (insertBracketContextRow texts seen entry).1
      (insertBracketContextRow texts seen entry).2 := by
  obtain ⟨rows, rfl, hshown, hseen⟩ := h
  obtain ⟨row, hrow, hkind, rfl⟩ := hentry
  have htext : formatNumberedDiffLine .context row.lineNumber row.content = rowText (some row) := by
    rw [rowText, hkind]
  rw [insertBracketContextRow]
  dsimp only
  rw [htext]
  split
  · exact ⟨rows, rfl, hshown, hseen⟩
  next hnew =>
  have hnotMem : some row ∉ rows := fun hin => hnew (contains_iff_mem.mpr (hseen row hin))
  obtain ⟨front, back, rfl, hcut, hindex⟩ := findInsertPlace_cut rows row.lineNumber 0 none
  have hins := hshown.insert hkind hcut hrow hnotMem
  have htake : ((front ++ back).map rowText).take front.length = front.map rowText := by
    rw [map_append, take_left' (length_map _)]
  have hdrop : ((front ++ back).map rowText).drop front.length = back.map rowText := by
    rw [map_append, drop_left' (length_map _)]
  rw [hindex, zero_add, adjustedContextInsertIndex, htake, takeWhile_change hins.getLast]
  dsimp only [length_nil]
  rw [if_neg (by omega), htake, hdrop]
  have hgap : ∀ b : Bool, ∃ count, (if b then [[]] else ([] : List Units)) =
      (List.replicate count (none : Option DiffRow)).map rowText := by
    intro b
    cases b
    · exact ⟨0, rfl⟩
    · exact ⟨1, rfl⟩
  obtain ⟨before, hbefore⟩ := hgap ((findInsertPlace row.lineNumber 0 none
    ((front ++ back).map rowText)).previousSourceLine.any fun line => (line : ℤ) + 1 < row.lineNumber)
  obtain ⟨after, hafter⟩ := hgap ((findInsertPlace row.lineNumber 0 none
    ((front ++ back).map rowText)).nextSourceLine.any fun line =>
      (row.lineNumber : ℤ) + 1 < (line : ℤ))
  rw [hbefore, hafter]
  refine ⟨_, ?_, hins.shown before after, fun other hother => ?_⟩
  · simp
  rw [append_assoc, mem_append] at hother
  rcases hother with hother | hother
  · exact mem_cons_of_mem _ (hseen other (mem_append_left _ hother))
  rcases mem_append.mp hother with hother | hother
  · rcases mem_append.mp hother with hother | hother
    · cases eq_of_mem_replicate hother
    · rcases mem_cons.mp hother with hother | hother
      · rw [hother]
        exact mem_cons_self
      · cases eq_of_mem_replicate hother
  · exact mem_cons_of_mem _ (hseen other (mem_append_right _ hother))

/-- The run. -/
theorem shown_insertBracketContextRows {texts seen : List Units} {contextLines : JsMap ℤ Units}
    (h : ShownTexts ops texts seen) (hcontext : ∀ entry ∈ contextLines, IsKept ops entry) :
    ∃ seen', ShownTexts ops (insertBracketContextRows texts contextLines seen) seen' := by
  have hsorted : ∀ entry ∈ contextLines.insertionSort fun a b => a.1 ≤ b.1, IsKept ops entry :=
    fun entry hentry => hcontext entry ((mem_insertionSort _).mp hentry)
  rw [insertBracketContextRows]
  generalize contextLines.insertionSort (fun a b => a.1 ≤ b.1) = entries at hsorted ⊢
  induction entries generalizing texts seen with
  | nil => exact ⟨seen, h⟩
  | cons entry entries ih =>
    rw [foldl_cons]
    exact ih (shown_insertBracketContextRow h (hsorted entry mem_cons_self))
      fun other hother => hsorted other (mem_cons_of_mem _ hother)

/-! ### What is visible -/

variable {changed : Bool} {o n : ℕ} {rows : List (Option DiffRow)}

theorem step_some (v : Visible) (row : DiffRow) : v.step (rowText (some row)) = match row.kind with
    | .removed => { v with
        old := v.old ++ [(row.lineNumber : ℤ)]
        changes := v.changes ++ [⟨row.lineNumber + v.offset, -1⟩]
        offset := v.offset - 1 }
    | .added => { v with
        new := v.new ++ [(row.lineNumber : ℤ)]
        changes := v.changes ++ [⟨row.lineNumber, 1⟩]
        offset := v.offset + 1 }
    | .context => { v with
        old := v.old ++ [(row.lineNumber : ℤ)]
        new := v.new ++ [row.lineNumber + v.offset] } := by
  cases hkind : row.kind <;> simp only [Visible.step, parse_rowText, hkind]

theorem visible_mono (rows : List (Option DiffRow)) (v : Visible) :
    v.old ⊆ ((rows.map rowText).foldl Visible.step v).old ∧
      v.new ⊆ ((rows.map rowText).foldl Visible.step v).new := by
  induction rows generalizing v with
  | nil => exact ⟨List.Subset.refl _, List.Subset.refl _⟩
  | cons row rows ih =>
    have hstep : v.old ⊆ (v.step (rowText row)).old ∧ v.new ⊆ (v.step (rowText row)).new := by
      cases row with
      | none => exact ⟨List.Subset.refl _, List.Subset.refl _⟩
      | some row =>
        rw [step_some]
        cases row.kind with
        | added => exact ⟨List.Subset.refl _, subset_append_left _ _⟩
        | removed => exact ⟨subset_append_left _ _, List.Subset.refl _⟩
        | context => exact ⟨subset_append_left _ _, subset_append_left _ _⟩
    rw [map_cons, foldl_cons]
    exact ⟨List.Subset.trans hstep.1 (ih _).1, List.Subset.trans hstep.2 (ih _).2⟩

variable {v : Visible}

theorem Shown.changes_eq (h : Shown changed o n ops rows) (hoffset : v.offset = (n : ℤ) - o) :
    ∃ later, ((rows.map rowText).foldl Visible.step v).changes = v.changes ++ later ∧
      ∀ change ∈ later, (n : ℤ) ≤ change.newPos := by
  induction h generalizing v with
  | nil => exact ⟨[], (append_nil _).symm, fun _ hin => absurd hin not_mem_nil⟩
  | gap h ih => exact ih hoffset
  | @keep changed o n c ops rows h ih =>
    rw [map_cons, foldl_cons, step_some]
    obtain ⟨later, heq, hlater⟩ := ih (v := { v with
      old := v.old ++ [(o : ℤ)], new := v.new ++ [o + v.offset] }) (by push_cast; omega)
    exact ⟨later, heq, fun change hin => by have := hlater change hin; push_cast at this; omega⟩
  | hide hnext h ih =>
    obtain ⟨later, heq, hlater⟩ := ih (v := v) (by push_cast; omega)
    exact ⟨later, heq, fun change hin => by have := hlater change hin; push_cast at this; omega⟩
  | @remove changed o n c ops rows h ih =>
    rw [map_cons, foldl_cons, step_some]
    obtain ⟨later, heq, hlater⟩ := ih (v := { v with
      old := v.old ++ [(o : ℤ)], changes := v.changes ++ [⟨o + v.offset, -1⟩]
      offset := v.offset - 1 }) (by push_cast; omega)
    refine ⟨⟨o + v.offset, -1⟩ :: later, heq.trans (append_assoc ..), fun change hin => ?_⟩
    rcases mem_cons.mp hin with rfl | hin
    · dsimp only
      omega
    · exact hlater change hin
  | @add changed o n c ops rows h ih =>
    rw [map_cons, foldl_cons, step_some]
    obtain ⟨later, heq, hlater⟩ := ih (v := { v with
      new := v.new ++ [(n : ℤ)], changes := v.changes ++ [⟨n, 1⟩]
      offset := v.offset + 1 }) (by push_cast; omega)
    refine ⟨⟨n, 1⟩ :: later, heq.trans (append_assoc ..), fun change hin => ?_⟩
    rcases mem_cons.mp hin with rfl | hin
    · exact le_rfl
    have := hlater change hin
    omega

def oldLines (ops : List LineOp) : List Units := ops.filterMap LineOp.inOld

def newLines (ops : List LineOp) : List Units := ops.filterMap LineOp.inNew

variable {index : ℕ}

theorem Shown.old_cases (h : Shown changed o n ops rows) (v : Visible) {c : Units}
    (hline : (oldLines ops)[index]? = some c) :
    ((o + index : ℕ) : ℤ) ∈ ((rows.map rowText).foldl Visible.step v).old ∨
      ⟨.context, o + index, c⟩ ∈ numbered o n ops := by
  induction h generalizing v index with
  | nil => cases hline
  | gap h ih => exact ih v hline
  | @keep changed o n c' ops rows h ih =>
    cases index with
    | zero =>
      cases hline
      exact .inr mem_cons_self
    | succ =>
      rw [← add_assoc, add_right_comm, map_cons, foldl_cons]
      exact (ih _ hline).imp_right (mem_cons_of_mem _)
  | @hide o n c' ops rows hnext h ih =>
    cases index with
    | zero =>
      cases hline
      exact .inr mem_cons_self
    | succ =>
      rw [← add_assoc, add_right_comm]
      exact (ih _ hline).imp_right (mem_cons_of_mem _)
  | @remove changed o n c' ops rows h ih =>
    cases index with
    | zero =>
      left
      rw [map_cons, foldl_cons]
      refine (visible_mono rows _).1 ?_
      rw [step_some]
      exact mem_append_right _ mem_cons_self
    | succ =>
      rw [← add_assoc, add_right_comm, map_cons, foldl_cons]
      exact (ih _ hline).imp_right (mem_cons_of_mem _)
  | add h ih => exact (ih _ hline).imp_right (mem_cons_of_mem _)

/-- A line of the new text is visible, or it is kept and its number in the old text is found from
the changes in front of it. -/
theorem Shown.new_cases (h : Shown changed o n ops rows)
    (hoffset : v.offset = (n : ℤ) - o) (hbefore : ∀ change ∈ v.changes, change.newPos ≤ n)
    (hsum : (v.changes.map Change.delta).sum = (n : ℤ) - o) {c : Units}
    (hline : (newLines ops)[index]? = some c) :
    ((n + index : ℕ) : ℤ) ∈ ((rows.map rowText).foldl Visible.step v).new ∨
      ∃ k : ℕ, ⟨.context, k, c⟩ ∈ numbered o n ops ∧
        toOldLineNumber ((rows.map rowText).foldl Visible.step v).changes (n + index : ℕ) = k := by
  induction h generalizing v index with
  | nil => cases hline
  | gap h ih => exact ih hoffset hbefore hsum hline
  | @keep changed o n c' ops rows h ih =>
    rw [map_cons, foldl_cons, step_some]
    cases index with
    | zero =>
      left
      refine (visible_mono rows _).2 (mem_append_right _ (mem_singleton.mpr ?_))
      push_cast
      omega
    | succ =>
      have hrest := ih (v := { v with
        old := v.old ++ [(o : ℤ)], new := v.new ++ [o + v.offset] }) (by push_cast; omega)
        (fun change hin => by have := hbefore change hin; push_cast; omega)
        (by push_cast; omega) hline
      rw [← add_assoc, add_right_comm]
      exact hrest.imp_right fun ⟨k, hk, hold⟩ => ⟨k, mem_cons_of_mem _ hk, hold⟩
  | @hide o n c' ops rows hnext h ih =>
    cases index with
    | zero =>
      right
      cases hline
      refine ⟨o, mem_cons_self, ?_⟩
      obtain ⟨later, heq, hlater⟩ := h.changes_eq (v := v) (by push_cast; omega)
      have hall : v.changes.filter (fun change => change.newPos ≤ ((n + 0 : ℕ) : ℤ)) = v.changes :=
        filter_eq_self.mpr fun change hin => decide_eq_true (hbefore change hin)
      have hnone : later.filter (fun change => change.newPos ≤ ((n + 0 : ℕ) : ℤ)) = [] := by
        refine filter_eq_nil_iff.mpr fun change hin => ?_
        have := hlater change hin
        rw [decide_eq_true_eq]
        omega
      rw [toOldLineNumber, heq, filter_append, hall, hnone, append_nil, hsum]
      omega
    | succ =>
      have hrest := ih (v := v) (by push_cast; omega)
        (fun change hin => by have := hbefore change hin; push_cast; omega)
        (by push_cast; omega) hline
      rw [← add_assoc, add_right_comm]
      exact hrest.imp_right fun ⟨k, hk, hold⟩ => ⟨k, mem_cons_of_mem _ hk, hold⟩
  | @remove changed o n c' ops rows h ih =>
    rw [map_cons, foldl_cons, step_some]
    have hrest := ih (v := { v with
      old := v.old ++ [(o : ℤ)], changes := v.changes ++ [⟨o + v.offset, -1⟩]
      offset := v.offset - 1 }) (by push_cast; omega) (fun change hin => ?_)
      (by simp only [map_append, sum_append, hsum]; simp; omega) hline
    · exact hrest.imp_right fun ⟨k, hk, hold⟩ => ⟨k, mem_cons_of_mem _ hk, hold⟩
    rcases mem_append.mp hin with hin | hin
    · exact hbefore change hin
    rw [mem_singleton.mp hin]
    dsimp only
    omega
  | @add changed o n c' ops rows h ih =>
    rw [map_cons, foldl_cons, step_some]
    cases index with
    | zero =>
      left
      exact (visible_mono rows _).2 (mem_append_right _ (mem_singleton.mpr rfl))
    | succ =>
      have hrest := ih (v := { v with
        new := v.new ++ [(n : ℤ)], changes := v.changes ++ [⟨n, 1⟩]
        offset := v.offset + 1 }) (by push_cast; omega) (fun change hin => ?_)
        (by simp only [map_append, sum_append, hsum]; simp; omega) hline
      · rw [← add_assoc, add_right_comm]
        exact hrest.imp_right fun ⟨k, hk, hold⟩ => ⟨k, mem_cons_of_mem _ hk, hold⟩
      rcases mem_append.mp hin with hin | hin
      · have := hbefore change hin
        omega
      rw [mem_singleton.mp hin]
      push_cast
      omega

variable {finder : BlockContextFinder} {oldRaw newRaw : List Units}

theorem isKept_bracketContextRows (hfinder : IsBlockContext finder)
    (hold : fileLines oldRaw = oldLines ops)
    (hnew : fileLines newRaw = newLines ops) (h : Shown false 1 1 ops rows) :
    ∀ entry ∈ bracketContextRows finder ((rows.map rowText).foldl Visible.step {}) oldRaw newRaw,
      IsKept ops entry := by
  have hfromOld : ∀ entry ∈ finder oldRaw ((rows.map rowText).foldl Visible.step {}).old,
      IsKept ops entry := by
    rintro ⟨line, text⟩ hentry
    obtain ⟨hhidden, index, rfl, htext⟩ := hfinder _ _ _ _ hentry
    rw [hold] at htext
    rcases h.old_cases {} htext with hvisible | hkept
    · refine absurd ?_ hhidden
      rwa [Nat.add_comm, Nat.cast_add] at hvisible
    refine ⟨_, hkept, rfl, ?_⟩
    push_cast
    rw [Int.add_comm]
  rw [bracketContextRows]
  generalize finder oldRaw ((rows.map rowText).foldl Visible.step {}).old = contextRows at hfromOld ⊢
  have hfromNew : ∀ entry ∈ finder newRaw ((rows.map rowText).foldl Visible.step {}).new,
      IsKept ops (toOldLineNumber ((rows.map rowText).foldl Visible.step {}).changes entry.1,
        entry.2) := by
    rintro ⟨line, text⟩ hentry
    obtain ⟨hhidden, index, rfl, htext⟩ := hfinder _ _ _ _ hentry
    rw [hnew] at htext
    rcases h.new_cases (v := {}) rfl (fun _ hin => absurd hin not_mem_nil) rfl htext with
      hvisible | ⟨k, hkept, hnumber⟩
    · refine absurd ?_ hhidden
      rwa [Nat.add_comm, Nat.cast_add] at hvisible
    rw [Nat.add_comm, Nat.cast_add] at hnumber
    exact ⟨_, hkept, rfl, by rw [← hnumber]; rfl⟩
  generalize finder newRaw ((rows.map rowText).foldl Visible.step {}).new = found at hfromNew ⊢
  induction found generalizing contextRows with
  | nil => exact hfromOld
  | cons entry found ih =>
    rw [foldl_cons]
    refine ih _ ?_ fun other hother => hfromNew other (mem_cons_of_mem _ hother)
    dsimp only
    split
    · exact hfromOld
    intro other hother
    rcases JsMap.mem_set hother with rfl | hother
    · exact hfromNew entry mem_cons_self
    · exact hfromOld other hother

/-- With the rows of the brackets the rows are those of the line edit as well. -/
theorem shown_addMatchingBracketContextRows (hfinder : IsBlockContext finder)
    (hold : fileLines oldRaw = oldLines ops) (hnew : fileLines newRaw = newLines ops)
    (h : Shown false 1 1 ops rows) :
    ∃ rows', addMatchingBracketContextRows finder (rows.map rowText) oldRaw newRaw =
      rows'.map rowText ∧ Shown false 1 1 ops rows' := by
  have htexts : ShownTexts ops (rows.map rowText) (rows.map rowText) :=
    ⟨rows, rfl, h, fun row hrow => mem_map_of_mem hrow⟩
  obtain ⟨-, rows₁, heq, hshown, -⟩ :=
    shown_insertBracketContextRows htexts (isKept_bracketContextRows hfinder hold hnew h)
  obtain ⟨rows', hnormalize, hrows'⟩ := normalize_eq rows₁ []
  refine ⟨rows', ?_, hrows' _ _ _ _ hshown⟩
  rw [addMatchingBracketContextRows, heq, hnormalize, nil_append]

end BreadboardTui.NumberedDiff
