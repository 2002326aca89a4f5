import Mathlib.Data.List.TakeWhile
import Mathlib.Data.Nat.Notation

/-!
# The text shape of a file

A file has a byte order mark or not, and each of its lines ends in LF, CRLF or a lone CR. The
patcher edits text that has neither: `stripBom` takes the mark off, `normalizeToLF` turns every
terminator into LF. On the way back `restoreLineEndings` writes one terminator for all lines,
the one that `detectLineEnding` has found first.

`rawLines` reads a file as lines with their own terminators. The detected ending is the first CRLF
or LF among the terminators (`detectLineEnding_eq`), and what is written back is the edited lines,
each with that ending (`restoreLineEndings_eq`).
-/

namespace BreadboardTui

namespace Hashline

/-- The line endings that can be restored. -/
inductive LineEnding where
  | crlf
  | lf
  deriving DecidableEq, Repr

def LineEnding.chars : LineEnding → List Char
  | .crlf => ['\r', '\n']
  | .lf => ['\n']

/-- `content.indexOf(pattern)`, for a pattern that is not empty. -/
def indexOf (pattern : List Char) : List Char → Option ℕ
  | [] => none
  | c :: cs => if pattern.isPrefixOf (c :: cs) then some 0 else (indexOf pattern cs).map (· + 1)

/-- The first line ending style in the content, LF when there is none. -/
def detectLineEnding (content : List Char) : LineEnding :=
  let crlfIdx := indexOf ['\r', '\n'] content
  let lfIdx := indexOf ['\n'] content
  match lfIdx with
  | none => .lf
  | some lfAt =>
    match crlfIdx with
    | none => .lf
    | some crlfAt => if crlfAt < lfAt then .crlf else .lf

/-- Every line ending becomes LF. -/
def normalizeToLF : List Char → List Char
  | [] => []
  | '\r' :: '\n' :: cs => '\n' :: normalizeToLF cs
  | '\r' :: cs => '\n' :: normalizeToLF cs
  | c :: cs => c :: normalizeToLF cs

/-- The LF text with the given line ending. -/
def restoreLineEndings (text : List Char) : LineEnding → List Char
  | .crlf => text.flatMap fun c => if c = '\n' then ['\r', '\n'] else [c]
  | .lf => text

/-- The byte order mark, as a character of the text. -/
def bomChar : Char := Char.ofNat 0xfeff

/-- The mark in front of the content, if there is one, and the text after it. -/
def stripBom (content : List Char) : List Char × List Char :=
  match content with
  | [] => ([], [])
  | c :: text => if c = bomChar then ([bomChar], text) else ([], content)

/-! ### Lines with their terminators -/

/-- How a line of a file ends. Only the last line ends in nothing. -/
inductive Terminator where
  | lf
  | crlf
  | cr
  | eof
  deriving DecidableEq, Repr

def Terminator.chars : Terminator → List Char
  | .lf => ['\n']
  | .crlf => ['\r', '\n']
  | .cr => ['\r']
  | .eof => []

structure RawLine where
  text : List Char
  terminator : Terminator
  deriving DecidableEq, Repr

/-- What the line takes up in the file. -/
def RawLine.bytes (line : RawLine) : List Char := line.text ++ line.terminator.chars

/-- A character in front of the first line. -/
def prependTo (c : Char) (lines : List RawLine) : List RawLine :=
  lines.modifyHead fun line => { line with text := c :: line.text }

/-- The lines of a file. -/
def rawLines : List Char → List RawLine
  | [] => [⟨[], .eof⟩]
  | '\r' :: '\n' :: cs => ⟨[], .crlf⟩ :: rawLines cs
  | '\r' :: cs => ⟨[], .cr⟩ :: rawLines cs
  | '\n' :: cs => ⟨[], .lf⟩ :: rawLines cs
  | c :: cs => prependTo c (rawLines cs)

/-! ### The detected ending -/

/-- The terminators that `detectLineEnding` looks for. -/
def Terminator.ending : Terminator → Option LineEnding
  | .crlf => some .crlf
  | .lf => some .lf
  | .cr | .eof => none

/-- The first CRLF or LF of a file. -/
def firstEnding (lines : List RawLine) : LineEnding :=
  ((lines.filterMap (·.terminator.ending)).head?).getD .lf

theorem firstEnding_prependTo (c : Char) (lines : List RawLine) :
    firstEnding (prependTo c lines) = firstEnding lines := by
  cases lines <;> rfl

/-- A character that begins no terminator does not matter for the ending. -/
theorem detectLineEnding_cons {c : Char} {cs : List Char} (hlf : c ≠ '\n')
    (hcrlf : c = '\r' → cs.head? ≠ some '\n') :
    detectLineEnding (c :: cs) = detectLineEnding cs := by
  have hlfIdx : indexOf ['\n'] (c :: cs) = (indexOf ['\n'] cs).map (· + 1) := by
    simp [indexOf, Ne.symm hlf]
  have hcrlfIdx : indexOf ['\r', '\n'] (c :: cs) = (indexOf ['\r', '\n'] cs).map (· + 1) := by
    rw [indexOf, if_neg]
    intro h
    cases cs with
    | nil => simp at h
    | cons d =>
      obtain ⟨hc, hd⟩ : '\r' = c ∧ '\n' = d := by simpa using h
      exact hcrlf hc.symm (by rw [hd]; rfl)
  simp only [detectLineEnding, hlfIdx, hcrlfIdx]
  cases indexOf ['\n'] cs with
  | none => rfl
  | some =>
    cases indexOf ['\r', '\n'] cs with
    | none => rfl
    | some => simp

theorem detectLineEnding_eq (cs : List Char) : detectLineEnding cs = firstEnding (rawLines cs) := by
  fun_induction rawLines cs with
  | case1 => rfl
  | case2 cs _ => simp [detectLineEnding, indexOf, firstEnding, Terminator.ending]
  | case3 cs hcrlf ih =>
    rw [detectLineEnding_cons (by decide) ?_, ih]
    · simp [firstEnding, Terminator.ending]
    intro _ h
    obtain ⟨cs', rfl⟩ := List.head?_eq_some_iff.mp h
    exact hcrlf cs' rfl
  | case4 cs _ =>
    have hlfIdx : indexOf ['\n'] ('\n' :: cs) = some 0 := by simp [indexOf]
    simp only [detectLineEnding, hlfIdx]
    cases indexOf ['\r', '\n'] ('\n' :: cs) with
    | none => simp [firstEnding, Terminator.ending]
    | some => simp [firstEnding, Terminator.ending]
  | case5 c cs _ hcr hlf ih =>
    rw [detectLineEnding_cons (fun h => hlf h) (fun h => absurd h (fun h => hcr h)), ih,
      firstEnding_prependTo]

/-! ### Writing back -/

/-- The lines of a text, each with the ending but the last. -/
def encodeLines (ending : LineEnding) : List (List Char) → List (List Char)
  | [] => []
  | [line] => [line]
  | line :: next :: lines => (line ++ ending.chars) :: encodeLines ending (next :: lines)

variable (ending : LineEnding)

theorem getElem?_encodeLines (lines : List (List Char)) (j : ℕ) : (encodeLines ending lines)[j]? =
      lines[j]?.map fun line => if j + 1 < lines.length then line ++ ending.chars else line := by
  fun_induction encodeLines ending lines generalizing j with
  | case1 => rfl
  | case2 line => cases j <;> simp
  | case3 line next lines ih =>
    cases j with
    | zero => simp
    | succ =>
      rw [List.getElem?_cons_succ, ih, List.getElem?_cons_succ]
      simp

theorem encodeLines_prepend (c : Char) (line : List Char) (lines : List (List Char)) :
    (encodeLines ending ((c :: line) :: lines)).flatten =
      c :: (encodeLines ending (line :: lines)).flatten := by
  cases lines <;> simp [encodeLines]

theorem restoreLineEndings_cons (c : Char) (text : List Char) (ending : LineEnding) :
    restoreLineEndings (c :: text) ending =
      (if c = '\n' then ending.chars else [c]) ++ restoreLineEndings text ending := by
  cases ending with
  | crlf => by_cases h : c = '\n' <;> simp [restoreLineEndings, LineEnding.chars, h]
  | lf => by_cases h : c = '\n' <;> simp [restoreLineEndings, LineEnding.chars, h]

theorem restoreLineEndings_eq (text : List Char) (ending : LineEnding) :
    restoreLineEndings text ending = (encodeLines ending (text.splitOn '\n')).flatten := by
  induction text with
  | nil => cases ending <;> rfl
  | cons c text ih =>
    rw [restoreLineEndings_cons, ih, List.splitOn_cons_eq_if_modifyHead]
    obtain ⟨line, lines, hlines⟩ := List.exists_cons_of_ne_nil (List.splitOn_ne_nil '\n' text)
    by_cases h : c = '\n'
    · simp [h, hlines, encodeLines]
    · simp [h, hlines, encodeLines_prepend]

/-! ### Surviving lines -/

/-- A line that has kept its text is written with the ending of the file, whatever it ended in. -/
theorem getElem?_restored {ending : LineEnding} {after : List Char} {j : ℕ} {line : RawLine}
    (hkept : (after.splitOn '\n')[j]? = some line.text) :
    (encodeLines ending (after.splitOn '\n'))[j]? =
      some (if j + 1 < (after.splitOn '\n').length then line.text ++ ending.chars
        else line.text) := by
  rw [getElem?_encodeLines, hkept, Option.map_some]

theorem RawLine.bytes_eq_iff (line : RawLine) (ending : LineEnding) :
    line.text ++ ending.chars = line.bytes ↔ line.terminator.ending = some ending := by
  rw [RawLine.bytes, List.append_cancel_left_eq]
  cases line.terminator <;> cases ending <;> decide

end Hashline

end BreadboardTui
