import BreadboardTui.Hashline.Normalize

/-!
# Preparing and committing a section

`Patcher.prepare` reads the target, takes off its byte order mark, normalizes its line endings and
applies the edits; `Patcher.commit` restores the shape and hands the text to the filesystem. The
applied text is an arbitrary one here, so that what is shown holds for every edit list.

A file is written back with one line ending. `surviving_lines` says what that makes of a line
that no edit has touched: its text stays, its terminator becomes the first CRLF or LF of the
file, so that its bytes stay exactly if that is what it ended in.
-/

namespace BreadboardTui

namespace Hashline

/-- File-level operation of a section. -/
inductive FileOp where
  | rem
  | move (dest : String)
  deriving DecidableEq, Repr

/-- Result of applying a parsed set of edits to a text body. -/
structure ApplyResult where
  text : List Char
  firstChangedLine : Option ℕ
  warnings : List String
  deriving DecidableEq, Repr

/-- What a section's body has been parsed to. `ε` are the edits. -/
structure ParsedSection (ε : Type) where
  edits : List ε
  fileOp : Option FileOp
  warnings : List String

/-- What the filesystem has for the target of a section. -/
structure Target where
  path : String
  canonicalPath : String
  /-- The answer of `readText`, `none` when there is no such file. -/
  rawContent : Option (List Char)
  /-- `readBinary` is there and shows a byte order mark in front. -/
  binaryBom : Bool

namespace Target

/-- The mark of the file. Where the text does not show it, a decoder may have hidden it, and
only the bytes have it. -/
def bom (target : Target) (rawContent : List Char) : List Char :=
  if (stripBom rawContent).1 = [] then (if target.binaryBom then [bomChar] else [])
  else (stripBom rawContent).1

/-- The file as its byte order mark and the text after it. -/
def file (target : Target) : Option (List Char × List Char) :=
  target.rawContent.map fun rawContent => (target.bom rawContent, (stripBom rawContent).2)

end Target

/-- The in-memory result of a section, which `commit` writes. -/
structure PreparedSection where
  path : String
  canonicalPath : String
  rawContent : List Char
  bom : List Char
  lineEnding : LineEnding
  normalized : List Char
  applyResult : ApplyResult
  parseWarnings : List String
  fileOp : Option FileOp

/-- The parts of a patcher that a section is prepared and committed with. -/
structure Patcher (ε : Type) where
  /-- `#applyWithRecovery`: tag validation, block resolution and the applier, which may reject. -/
  applyWithRecovery : Target → List Char → List ε → Except String ApplyResult
  canonicalPath : String → String
  computeFileHash : List Char → String
  /-- What `writeText` reports as the text that was persisted. -/
  written : String → List Char → List Char

namespace Patcher

variable {ε : Type} (patcher : Patcher ε)

/-- The section moves its file onto itself. -/
def movesOntoItself (fileOp : Option FileOp) (target : Target) : Bool :=
  match fileOp with
  | some (.move dest) => patcher.canonicalPath dest == target.canonicalPath
  | some .rem | none => false

/-- `prepare`, from the (possibly recovered) target on. -/
def prepare (parsed : ParsedSection ε) (target : Target) : Except String PreparedSection :=
  match target.rawContent with
  | none =>
    .error ("File not found: " ++ target.path ++ ". Use the write tool to create new files.")
  | some rawContent =>
    if patcher.movesOntoItself parsed.fileOp target then
      .error ("MV destination is the same as " ++ target.path ++ ".")
    else
      let text := (stripBom rawContent).2
      let normalized := normalizeToLF text
      let edits := if parsed.fileOp = some .rem then [] else parsed.edits
      match patcher.applyWithRecovery target normalized edits with
      | .error message => .error message
      | .ok applyResult => .ok
          { path := target.path, canonicalPath := target.canonicalPath, rawContent := rawContent,
            bom := target.bom rawContent, lineEnding := detectLineEnding text, normalized := normalized,
            applyResult := applyResult, parseWarnings := parsed.warnings,
            fileOp := parsed.fileOp }

/-- A call on the filesystem or the snapshot store. -/
inductive Call where
  | delete (path : String)
  | move (path dest : String) (content : List Char)
  | writeText (path : String) (content : List Char)
  | record (canonicalPath : String) (text : List Char)
  | relocate (canonicalPath dest : String)
  | invalidate (canonicalPath : String)
  deriving DecidableEq, Repr

/-- The content that a call hands to the filesystem. -/
def Call.content : Call → Option (List Char)
  | .move _ _ content | .writeText _ content => some content
  | .delete _ | .record _ _ | .relocate _ _ | .invalidate _ => none

inductive SectionOp where
  | create
  | update
  | delete
  | noop
  deriving DecidableEq, Repr

structure PatchSectionResult where
  path : String
  canonicalPath : String
  op : SectionOp
  before : List Char
  after : List Char
  persisted : List Char
  written : List Char
  fileHash : String
  header : String
  firstChangedLine : Option ℕ
  moveDest : Option String
  warnings : List String

def formatHashlineHeader (path fileHash : String) : String := "[" ++ path ++ "#" ++ fileHash ++ "]"

def writeDriftWarning (path : String) : String :=
  path ++ ": the file on disk after this write differs from what was sent — the client " ++
  "(editor/IDE) likely reformatted it on save (e.g. format-on-save, tab/space settings). " ++
  "The returned snapshot reflects the actual file; re-read before further edits if the " ++
  "extra changes were unexpected."

/-- The text that `commit` restores the shape of. -/
def persistedText (prepared : PreparedSection) : List Char :=
  prepared.bom ++ restoreLineEndings prepared.applyResult.text prepared.lineEnding

/-- `commit`: the calls it makes, in order, and its result when none of them fails. A prepared
section is one of a file that exists. -/
def commit (prepared : PreparedSection) : List Call × PatchSectionResult :=
  let path := prepared.path
  let canonicalPath := prepared.canonicalPath
  let normalized := prepared.normalized
  let after := prepared.applyResult.text
  let warnings := prepared.parseWarnings ++ prepared.applyResult.warnings
  let unchanged (op : SectionOp) : PatchSectionResult :=
    let fileHash := patcher.computeFileHash normalized
    { path := path, canonicalPath := canonicalPath, op := op, before := normalized,
      after := normalized, persisted := prepared.rawContent, written := prepared.rawContent,
      fileHash := fileHash, header := formatHashlineHeader path fileHash,
      firstChangedLine := none, moveDest := none, warnings := warnings }
  match prepared.fileOp with
  | some .rem => ([.delete path, .invalidate canonicalPath], unchanged .delete)
  | some (.move dest) =>
    let persisted := persistedText prepared
    let destCanonical := patcher.canonicalPath dest
    let fileHash := patcher.computeFileHash after
    ([.relocate canonicalPath destCanonical, .move path dest persisted,
        .record destCanonical after],
      { path := dest, canonicalPath := destCanonical, op := .update, before := normalized,
        after := after, persisted := persisted, written := persisted, fileHash := fileHash,
        header := formatHashlineHeader dest fileHash,
        firstChangedLine := prepared.applyResult.firstChangedLine, moveDest := some dest,
        warnings := warnings })
  | none =>
    if after = normalized then ([.record canonicalPath normalized], unchanged .noop)
    else
      let persisted := persistedText prepared
      let written := patcher.written path persisted
      let recorded := normalizeToLF (stripBom written).2
      let fileHash := patcher.computeFileHash recorded
      ([.writeText path persisted, .record canonicalPath recorded],
        { path := path, canonicalPath := canonicalPath, op := .update, before := normalized,
          after := after, persisted := persisted, written := written, fileHash := fileHash,
          header := formatHashlineHeader path fileHash,
          firstChangedLine := prepared.applyResult.firstChangedLine, moveDest := none,
          warnings := if recorded = after then warnings
            else warnings ++ [writeDriftWarning path] })

/-! ### What reaches the filesystem -/

variable {patcher} {parsed : ParsedSection ε} {target : Target} {prepared : PreparedSection}

/-- A prepared section has the shape of its file. -/
theorem prepare_ok (h : patcher.prepare parsed target = .ok prepared) :
    ∃ text, target.file = some (prepared.bom, text) ∧
      prepared.lineEnding = firstEnding (rawLines text) ∧
        prepared.normalized = normalizeToLF text := by
  rw [prepare] at h
  cases hraw : target.rawContent with
  | none => simp [hraw] at h
  | some rawContent =>
    refine ⟨(stripBom rawContent).2, ?_⟩
    simp only [hraw] at h
    by_cases hsame : patcher.movesOntoItself parsed.fileOp target = true
    · rw [if_pos hsame] at h
      cases h
    rw [if_neg hsame] at h
    cases happly : patcher.applyWithRecovery target (normalizeToLF (stripBom rawContent).2)
        (if parsed.fileOp = some .rem then [] else parsed.edits) with
    | error message => simp [happly] at h
    | ok applyResult =>
      rw [happly] at h
      cases h
      refine ⟨?_, detectLineEnding_eq _, rfl⟩
      simp [Target.file, hraw]

/-- Only the restored text is ever handed over. -/
theorem content_of_mem_commit {call : Call} {content : List Char}
    (hcall : call ∈ (patcher.commit prepared).1) (hcontent : call.content = some content) :
    content = persistedText prepared := by
  rw [commit] at hcall
  cases hop : prepared.fileOp with
  | none =>
    simp only [hop] at hcall
    split at hcall
    · obtain rfl := List.mem_singleton.mp hcall
      cases hcontent
    obtain rfl | rfl : call = _ ∨ call = _ := by simpa using hcall
    · exact (Option.some.inj hcontent).symm
    · cases hcontent
  | some op =>
    cases op with
    | rem =>
      simp only [hop] at hcall
      obtain rfl | rfl : call = _ ∨ call = _ := by simpa using hcall
      · cases hcontent
      · cases hcontent
    | move =>
      simp only [hop] at hcall
      obtain rfl | rfl | rfl : call = _ ∨ call = _ ∨ call = _ := by simpa using hcall
      · cases hcontent
      · exact (Option.some.inj hcontent).symm
      · cases hcontent

/-- The lines of the applied text as they are written. -/
def writtenLines (prepared : PreparedSection) : List (List Char) :=
  encodeLines prepared.lineEnding (prepared.applyResult.text.splitOn '\n')

theorem persistedText_eq (prepared : PreparedSection) :
    persistedText prepared = prepared.bom ++ (writtenLines prepared).flatten := by
  rw [persistedText, writtenLines, restoreLineEndings_eq]

/-- The applied text has the text of line `i` of the file as its line `j`. -/
def Survives (text : List Char) (prepared : PreparedSection) (i j : ℕ) (line : RawLine) : Prop :=
  (rawLines text)[i]? = some line ∧
    (prepared.applyResult.text.splitOn '\n')[j]? = some line.text

/-- Neither in the file nor in the applied text is the line the last one. -/
def InnerLine (text : List Char) (prepared : PreparedSection) (i j : ℕ) : Prop :=
  i + 1 < (rawLines text).length ∧ j + 1 < (prepared.applyResult.text.splitOn '\n').length

/-- The content has the mark of the file in front, and every surviving line has its bytes. -/
def KeepsSurvivors (bom text : List Char) (prepared : PreparedSection) (content : List Char) :
    Prop :=
  content = bom ++ (writtenLines prepared).flatten ∧
    ∀ i j line, Survives text prepared i j line → InnerLine text prepared i j →
      (writtenLines prepared)[j]? = some line.bytes

/-- What is written is the mark of the file and the lines of the applied text. A surviving line
keeps its text and gets the first ending of the file; it keeps its bytes exactly if that is its
own ending. -/
theorem surviving_lines {bom text : List Char} {call : Call} {content : List Char}
    (h : patcher.prepare parsed target = .ok prepared) (hfile : target.file = some (bom, text))
    (hcall : call ∈ (patcher.commit prepared).1) (hcontent : call.content = some content) :
    content = bom ++ (writtenLines prepared).flatten ∧
      ∀ i j line, Survives text prepared i j line →
        (∃ terminator, (writtenLines prepared)[j]? = some (line.text ++ terminator)) ∧
        (InnerLine text prepared i j →
          (writtenLines prepared)[j]? =
            some (line.text ++ (firstEnding (rawLines text)).chars) ∧
          ((writtenLines prepared)[j]? = some line.bytes ↔
            line.terminator.ending = some (firstEnding (rawLines text)))) := by
  obtain ⟨text', hfile', hending, -⟩ := prepare_ok h
  obtain ⟨rfl, rfl⟩ : prepared.bom = bom ∧ text' = text := by
    simpa using hfile'.symm.trans hfile
  constructor
  · rw [content_of_mem_commit hcall hcontent, persistedText_eq]
  intro i j line hline
  have hwritten : (writtenLines prepared)[j]? = _ := getElem?_restored hline.2
  constructor
  · by_cases hj : j + 1 < (prepared.applyResult.text.splitOn '\n').length
    · exact ⟨prepared.lineEnding.chars, by rw [hwritten, if_pos hj]⟩
    · exact ⟨[], by rw [hwritten, if_neg hj, List.append_nil]⟩
  intro hinner
  rw [if_pos hinner.2, hending] at hwritten
  rw [hwritten]
  exact ⟨rfl, by rw [Option.some.injEq, RawLine.bytes_eq_iff]⟩

section Examples

/-- The applier on an empty edit list, and a hash. -/
def movingPatcher : Patcher Unit where
  applyWithRecovery _ normalized edits :=
    if edits = [] then .ok ⟨normalized, none, []⟩ else .error "rejected"
  canonicalPath path := path
  computeFileHash _ := "0000"
  written _ content := content

/-- A file of which only the first line ends in CRLF, moved without an edit. -/
def mixedTarget : Target :=
  ⟨"old.txt", "old.txt", some ("a\r\nb\nc".toList), false⟩

def moveOnly : ParsedSection Unit := ⟨[], some (.move "new.txt"), []⟩

/-- What the move is prepared to. -/
def movedSection : PreparedSection where
  path := "old.txt"
  canonicalPath := "old.txt"
  rawContent := "a\r\nb\nc".toList
  bom := []
  lineEnding := .crlf
  normalized := "a\nb\nc".toList
  applyResult := ⟨"a\nb\nc".toList, none, []⟩
  parseWarnings := []
  fileOp := some (.move "new.txt")

theorem prepare_moveOnly : movingPatcher.prepare moveOnly mixedTarget = .ok movedSection := by
  rfl

/-- The first line of the file keeps its bytes, the second one does not. -/
theorem surviving_lines_moveOnly : (writtenLines movedSection)[0]? = some "a\r\n".toList ∧
      (writtenLines movedSection)[1]? = some "b\r\n".toList := by
  have hmove : Call.move "old.txt" "new.txt" "a\r\nb\r\nc".toList ∈
      (movingPatcher.commit movedSection).1 := by decide
  have hfile : mixedTarget.file = some ([], "a\r\nb\nc".toList) := rfl
  obtain ⟨-, hlines⟩ := surviving_lines prepare_moveOnly hfile hmove rfl
  have hfirst := (hlines 0 0 ⟨['a'], .crlf⟩ ⟨by decide, by decide⟩).2 ⟨by decide, by decide⟩
  have hsecond := (hlines 1 1 ⟨['b'], .lf⟩ ⟨by decide, by decide⟩).2 ⟨by decide, by decide⟩
  exact ⟨hfirst.1, hsecond.1⟩

theorem not_keepsSurvivors_moveOnly :
    ¬ ∀ (ε : Type) (patcher : Patcher ε) (parsed : ParsedSection ε) (target : Target)
      (prepared : PreparedSection) (bom text : List Char) (call : Call) (content : List Char),
      patcher.prepare parsed target = .ok prepared → target.file = some (bom, text) →
        call ∈ (patcher.commit prepared).1 → call.content = some content →
          KeepsSurvivors bom text prepared content := by
  intro hall
  have hkeeps := (hall Unit movingPatcher moveOnly mixedTarget movedSection []
    "a\r\nb\nc".toList (.move "old.txt" "new.txt" "a\r\nb\r\nc".toList)
    "a\r\nb\r\nc".toList prepare_moveOnly rfl (by decide) rfl).2
  exact absurd (hkeeps 1 1 ⟨['b'], .lf⟩ ⟨by decide, by decide⟩ ⟨by decide, by decide⟩)
    (by decide)

end Examples

end Patcher

end Hashline

end BreadboardTui
