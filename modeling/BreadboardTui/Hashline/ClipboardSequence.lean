import BreadboardTui.Hashline.Clipboard

/-!
# Validating the clipboard edits of a section

Before a file is read, `validateClipboardSequence` walks the edits on a copy of the registers, with
empty lines for what a cut captures. The two walks agree on which registers have lines and on which
cuts are pending, so that every paste that can be read in one can be read in the other.
-/

namespace BreadboardTui.Hashline

open List BlockEdits

/-- One edit of the walk. -/
def validateEdit (fork : Clipboard) : Edit → Except String Clipboard
  | .cut _ _ (some name) _ =>
    .ok { fork with named := some (JsMap.set name [] (fork.named.getD [])) }
  | .cut start stop none _ =>
    .ok { fork with
      lines := some [],
      pendingAnonCuts := some (fork.pendingAnonCuts.getD [] ++ [describeCutEdit start stop none]) }
  | .paste target register lineNum _ =>
    (readRegister register (isSpan target) fork lineNum false).map RegisterRead.clipboard
  | _ => .ok fork

/-- The outcome, and the registers that were given: the walk writes to a copy. -/
def validateClipboardSequence (edits : List Edit) (clipboard : Clipboard) :
    Except String Unit × Clipboard :=
  let fork := forkClipboard (some clipboard)
  ((edits.foldlM validateEdit fork).map fun _ => (), clipboard)

/-- The error of a range that ends beyond the file. -/
def IsOutOfRange (fileLines : List String) (message : String) : Prop :=
  ∃ lineNum op, message = atLine lineNum (outOfRangeMessage op fileLines)

/-- A resolution fails because a range ends beyond the file, or where the validation has failed. -/
def Predicts {α β : Type} (fileLines : List String) (validation : Except String α)
    (resolution : Except String β) : Prop :=
  (∃ message, resolution = .error message ∧ IsOutOfRange fileLines message) ∨
    validation.isOk = resolution.isOk

/-- The same registers have lines, and the same cuts are pending. -/
structure SameRegisters (fork clipboard : Clipboard) : Prop where
  named : ∀ r, (fork.register r).isSome = (clipboard.register r).isSome
  lines : fork.lines.isSome = clipboard.lines.isSome
  pending : fork.pendingAnonCuts = clipboard.pendingAnonCuts

variable {fileLines : List String} {fork clipboard : Clipboard} {edits : List Edit}

theorem SameRegisters.read (h : SameRegisters fork clipboard) (register : Option String)
    (overSpan : Bool) (lineNum : ℕ) :
    (∃ e e', readRegister register overSpan fork lineNum false = .error e ∧
      readRegister register overSpan clipboard lineNum false = .error e') ∨
    ∃ read read', readRegister register overSpan fork lineNum false = .ok read ∧
      readRegister register overSpan clipboard lineNum false = .ok read' ∧
        SameRegisters read.clipboard read'.clipboard := by
  cases register with
  | some name =>
    have hname := h.named name
    simp only [readRegister]
    cases hfork : fork.register name <;> cases hclipboard : clipboard.register name <;>
      rw [hfork, hclipboard] at hname
    · cases overSpan with
      | false => exact .inr ⟨_, _, rfl, rfl, h⟩
      | true => exact .inl ⟨_, _, rfl, rfl⟩
    · cases hname
    · cases hname
    · exact .inr ⟨_, _, rfl, rfl, h⟩
  | none =>
    have hlines := h.lines
    simp only [readRegister, h.pending]
    split
    · exact .inl ⟨_, _, rfl, rfl⟩
    cases hfork : fork.lines <;> cases hclipboard : clipboard.lines <;>
      rw [hfork, hclipboard] at hlines
    · exact .inl ⟨_, _, rfl, rfl⟩
    · cases hlines
    · cases hlines
    · exact .inr ⟨_, _, rfl, rfl, h.named, rfl, rfl⟩

theorem SameRegisters.write (h : SameRegisters fork clipboard) (start stop : ℕ)
    (register : Option String) (lineNum : ℕ) :
    (∃ message, writeRegister start stop register lineNum fileLines clipboard = .error message ∧
      IsOutOfRange fileLines message) ∨
    ∃ walked written, validateEdit fork (.cut start stop register lineNum) = .ok walked ∧
      writeRegister start stop register lineNum fileLines clipboard = .ok written ∧
        SameRegisters walked written := by
  simp only [writeRegister]
  split
  · exact .inl ⟨_, rfl, _, _, rfl⟩
  refine .inr ?_
  cases register with
  | none => exact ⟨_, _, rfl, rfl, h.named, rfl, by rw [h.pending]⟩
  | some name =>
    refine ⟨_, _, rfl, rfl, fun r => ?_, h.lines, h.pending⟩
    by_cases hr : r = name
    · rw [hr]
      simp [Clipboard.register, JsMap.get_set_self]
    · simp only [Clipboard.register, Option.getD_some, JsMap.get_set_of_ne hr]
      exact h.named r

theorem pasteRead_cases (target : PasteTarget) (register : Option String) (lineNum : ℕ)
    (blockStart : Option ℕ) (lines : Option (List String)) :
    (∃ message, pasteRead target register lineNum blockStart lines fileLines = .error message ∧
      IsOutOfRange fileLines message) ∨
    ∃ here, pasteRead target register lineNum blockStart lines fileLines = .ok here := by
  cases lines with
  | none => exact .inr ⟨_, rfl⟩
  | some =>
    cases target with
    | gap => exact .inr ⟨_, rfl⟩
    | span =>
      rw [pasteRead, pasteEdits]
      split
      · exact .inl ⟨_, rfl, _, _, rfl⟩
      · exact .inr ⟨_, rfl⟩

theorem Predicts.bind_ok {α β γ : Type} {validation : Except String α}
    {resolution : Except String β} (h : Predicts fileLines validation resolution) (f : β → γ) :
    Predicts fileLines validation (resolution >>= fun b => .ok (f b)) := by
  rcases h with ⟨message, rfl, hrange⟩ | hok
  · exact .inl ⟨message, rfl, hrange⟩
  · exact .inr (by cases resolution <;> exact hok)

theorem SameRegisters.walk (h : SameRegisters fork clipboard) :
    Predicts fileLines (edits.foldlM validateEdit fork)
      (resolveLoop fileLines false clipboard edits) := by
  induction edits generalizing fork clipboard with
  | nil => exact .inr rfl
  | cons edit edits ih =>
    rw [foldlM_cons]
    cases edit with
    | cut start stop register lineNum =>
      rw [resolveLoop]
      rcases h.write start stop register lineNum with
        ⟨_, hwrite, hrange⟩ | ⟨_, _, hwalk, hwrite, hsame⟩
      · rw [hwrite]
        exact .inl ⟨_, rfl, hrange⟩
      · rw [hwrite, hwalk]
        exact ih hsame
    | paste target register lineNum blockStart =>
      rw [resolveLoop, validateEdit]
      rcases h.read register (isSpan target) lineNum with
        ⟨_, _, hfork, hread⟩ | ⟨_, read, hfork, hread, hsame⟩
      · rw [hfork, hread]
        exact .inr rfl
      rw [hfork, hread]
      change Predicts _ _ (pasteRead target register lineNum blockStart read.lines fileLines >>= _)
      rcases pasteRead_cases target register lineNum blockStart read.lines with
        ⟨_, hpaste, hrange⟩ | ⟨here, hpaste⟩
      · rw [hpaste]
        exact .inl ⟨_, rfl, hrange⟩
      · rw [hpaste]
        exact (ih hsame).bind_ok _
    | insert => exact (ih h).bind_ok _
    | delete => exact (ih h).bind_ok _
    | block => exact (ih h).bind_ok _

theorem validateEdit_of_not_hasClipboardEdit (h : hasClipboardEdit edits = false) :
    edits.foldlM validateEdit fork = .ok fork := by
  induction edits with
  | nil => rfl
  | cons edit edits ih =>
    rw [hasClipboardEdit, any_cons, Bool.or_eq_false_iff] at h
    cases edit with
    | cut => cases h.1
    | paste => cases h.1
    | insert => exact ih h.2
    | delete => exact ih h.2
    | block => exact ih h.2

/-- Where the validation succeeds, the resolution fails only because a range ends beyond the file;
where it fails, the resolution does. It leaves the registers as they are. -/
theorem validateClipboardSequence_predicts (edits : List Edit) (fileLines : List String)
    (clipboard : Clipboard) :
    let validation := validateClipboardSequence edits clipboard
    let resolution := resolveClipboardEdits edits fileLines clipboard false
    (validation.1.isOk → ∀ message, resolution = .error message → IsOutOfRange fileLines message) ∧
      (¬ validation.1.isOk → ¬ resolution.isOk) ∧ validation.2 = clipboard := by
  have hwalk : Predicts fileLines (edits.foldlM validateEdit clipboard)
      (resolveClipboardEdits edits fileLines clipboard false) := by
    rw [resolveClipboardEdits]
    split
    · exact SameRegisters.walk ⟨fun _ => rfl, rfl, rfl⟩
    next hnone =>
    rw [validateEdit_of_not_hasClipboardEdit (by simpa using hnone)]
    exact .inr rfl
  have hok : (validateClipboardSequence edits clipboard).1.isOk =
      (edits.foldlM validateEdit clipboard).isOk := by
    rw [validateClipboardSequence, forkClipboard, Option.getD_some]
    cases edits.foldlM validateEdit clipboard <;> rfl
  dsimp only
  rw [hok]
  rcases hwalk with ⟨_, heq, hrange⟩ | heq
  · rw [heq]
    exact ⟨fun _ _ h => Except.error.inj h ▸ hrange, (fun _ h => by cases h), rfl⟩
  · rw [heq]
    refine ⟨fun hresolved message h => ?_, id, rfl⟩
    rw [h] at hresolved
    cases hresolved

end BreadboardTui.Hashline
