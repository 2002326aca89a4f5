import BreadboardTui.Hashline.HunkText
import BreadboardTui.Js.Collections

/-!
# Patches as text

A patch is a text of sections. Each begins with the header of a file, `[PATH#TAG]`, and goes on
with the ops and rows for it. `Patch.parse` splits the text into its sections, brings the sections
of one path together, and leaves the body of each for `PatchSection.parse`. Both are modelled for a
text that is given without options: there is no working directory, and no path for a patch
without a header.

* `splitRawSections`, `mergeSamePathSections`, `Patch.parse`: from a text to sections.
-/

namespace BreadboardTui.Hashline

open List

/-! ### Paths -/

def dropStars : ℕ → Units → Units
  | n + 1, 42 :: text => dropStars n text
  | _, text => text

def isAlphanumeric (code : ℕ) : Bool :=
  isDigitCode code || decide (65 ≤ code ∧ code ≤ 90) || decide (97 ≤ code ∧ code ≤ 122)

def lowerCode (code : ℕ) : ℕ := if 65 ≤ code ∧ code ≤ 90 then code + 32 else code

/-- The text behind a keyword, in any case. -/
def dropKeyword (keyword text : Units) : Option Units :=
  if (text.take keyword.length).map lowerCode = keyword then some (text.drop keyword.length)
  else none

/-- `[^A-Za-z0-9]*:`, which goes to the last colon in front of a letter or a digit. -/
def dropThroughColon (text : Units) : Option Units :=
  let run := (text.takeWhile fun code => !isAlphanumeric code).rdropWhile fun code => code ≠ 58
  if run = [] then none else some (text.drop run.length)

/-- `(?:file|to)?[^A-Za-z0-9]*:`, behind a keyword and what separates it. -/
def dropNoiseTail (text : Units) : Option Units :=
  let next := text.dropWhile fun code => !isAlphanumeric code
  (((dropKeyword (units "file") next).or (dropKeyword (units "to") next)).bind
    dropThroughColon).or (dropThroughColon text)

/-- The keyword block of `APPLY_PATCH_PATH_NOISE_RE`. -/
def dropNoiseKeyword (text : Units) : Option Units :=
  ([units "update", units "add", units "delete", units "move"].findSome? fun keyword =>
    dropKeyword keyword text).bind dropNoiseTail

def stripApplyPatchPathNoise (pathText : Units) : Units :=
  let text := (dropStars 3 pathText).dropWhile isTrimmedCode
  let rest := ((dropNoiseKeyword text).getD text).dropWhile isTrimmedCode
  (dropStars 3 rest).dropWhile isTrimmedCode

/-- `normalizeHashlinePath`, without a working directory. `unquoteHashlinePath` is
`unquotePath`. -/
def normalizeHashlinePath (rawPath : Units) : Units :=
  stripApplyPatchPathNoise (unquotePath (trim rawPath))

/-! ### Headers -/

/-- A path and its tag. -/
abbrev SectionHeader : Type := Units × Option Units

/-- `String.prototype.trimEnd`. -/
def trimEndText (text : Units) : Units := text.rdropWhile isTrimmedCode

/-- A header line that is no header to the tokenizer. -/
def tryParseRecoveryHeader (line : Units) : Option SectionHeader :=
  if line.head? ≠ some 91 ∨ line.getLast? ≠ some 93 then none
  else
    let body := stripApplyPatchPathNoise (trim (line.drop 1).dropLast)
    if body = [] then none
    else
      let (pathText, fileHash) := splitTag (trimEndText body)
      if pathText.contains 35 then none
      else if normalizeHashlinePath pathText = [] then none
      else some (normalizeHashlinePath pathText, fileHash)

def parseHashlineHeaderLine (line : Units) : Except ParseError (Option SectionHeader) :=
  let trimmed := trimEndText line
  if trimmed.head? ≠ some 91 then .ok none
  else
    match classifyLine trimmed with
    | .header path fileHash =>
      if normalizeHashlinePath path = [] then .error .emptyPath
      else .ok (some (normalizeHashlinePath path, fileHash))
    | _ =>
      match tryParseRecoveryHeader trimmed with
      | some recovered => .ok (some recovered)
      | none => .error (.invalidHeader trimmed)

/-! ### Splitting a text into sections -/

/-- The section as it was split off. -/
structure PatchSection where
  path : Units
  fileHash : Option Units
  diff : Units
  interleaved : Bool := false
  deriving DecidableEq, Repr

/-- `split(/\r?\n/)`: the line that the text ends in keeps its carriage return. -/
def splitLines (text : Units) : List Units :=
  let lines := text.splitOn 10
  lines.dropLast.map stripCarriageReturn ++ [lines.getLastD []]

def stripBom16 : Units → Units
  | 0xfeff :: text => text
  | text => text

/-- The line may stand in front of the first header. -/
def isLeadingLine (line : Units) : Bool :=
  (trim (stripCarriageReturn line)).isEmpty ||
    classifyLine (stripCarriageReturn line) = .envelopeBegin

def stripLeadingBlankLines (input : Units) : Units :=
  [10].intercalate (((stripBom16 input).splitOn 10).dropWhile isLeadingLine)

/-- Whether a line is a header. Lines are tested up to the first one that is. -/
def hasExplicitHeader : List Units → Except ParseError Bool
  | [] => .ok false
  | line :: lines => do
    if (← parseHashlineHeaderLine line).isSome then .ok true else hasExplicitHeader lines

/-- `normalizeFallbackInput`, without a path to fall back to. -/
def normalizeFallbackInput (input : Units) : Except ParseError Units := do
  let _ ← hasExplicitHeader (splitLines (stripBom16 input))
  .ok input

/-- Ends the current section, which is dropped if it has no ops. -/
def flushSection (sections : List PatchSection) (current : Option SectionHeader)
    (currentLines : List Units) : List PatchSection :=
  match current with
  | none => sections
  | some (path, fileHash) =>
    if currentLines.any fun line => !(trim line).isEmpty then
      sections ++ [⟨path, fileHash, [10].intercalate currentLines, false⟩]
    else sections

/-- The loop of `splitRawSections`. -/
def splitSectionLines (sections : List PatchSection) (current : Option SectionHeader)
    (currentLines : List Units) : List Units → Except ParseError (List PatchSection)
  | [] => .ok (flushSection sections current currentLines)
  | line :: lines =>
    match classifyLine line with
    | .envelopeEnd | .abort => .ok (flushSection sections current currentLines)
    | .envelopeBegin => splitSectionLines sections current currentLines lines
    | _ =>
      if (trimEndText line).head? = some 91 then do
        match ← parseHashlineHeaderLine line with
        | some header =>
          splitSectionLines (flushSection sections current currentLines) (some header) [] lines
        | none => splitSectionLines sections current (currentLines ++ [line]) lines
      else splitSectionLines sections current (currentLines ++ [line]) lines

def splitRawSections (input : Units) : Except ParseError (List PatchSection) := do
  let lines := splitLines (stripLeadingBlankLines (← normalizeFallbackInput input))
  match ← parseHashlineHeaderLine (lines.headD []) with
  | none => .error (.missingHeader (lines.headD []))
  | some _ => splitSectionLines [] none [] lines

/-! ### Sections of one path -/

structure MergedSection where
  fileHash : Option Units
  diffs : List Units
  interleaved : Bool
  deriving DecidableEq, Repr

/-- The step of `mergeSamePathSections`, with the path of the section before. -/
def mergeSection (merged : JsMap Units MergedSection × Option Units) (part : PatchSection) :
    Except ParseError (JsMap Units MergedSection × Option Units) :=
  match JsMap.get merged.1 part.path with
  | some existing =>
    if existing.fileHash.isSome ∧ part.fileHash.isSome ∧ existing.fileHash ≠ part.fileHash then
      .error (.conflictingTags part.path)
    else
      .ok (JsMap.set part.path
        { fileHash := existing.fileHash.or part.fileHash
          diffs := existing.diffs ++ [part.diff]
          interleaved := existing.interleaved || merged.2 != some part.path } merged.1,
        some part.path)
  | none =>
    .ok (JsMap.set part.path ⟨part.fileHash, [part.diff], false⟩ merged.1, some part.path)

def mergeSamePathSections (sections : List PatchSection) :
    Except ParseError (List PatchSection) := do
  let merged ← sections.foldlM mergeSection ([], none)
  .ok (merged.1.map fun entry =>
    ⟨entry.1, entry.2.fileHash, [10].intercalate entry.2.diffs, entry.2.interleaved⟩)

namespace Patch

def parse (input : Units) : Except ParseError (List PatchSection) := do
  mergeSamePathSections (← splitRawSections input)

end Patch

/-- `hasClipboardEdit`, for one edit. -/
def RowEdit.isClipboardEdit : RowEdit → Bool
  | .cut _ _ _ _ | .paste _ _ _ => true
  | .block _ _ op register _ => op = .cut || op = .pasteAfter || register.isSome
  | _ => false

/-- What the body of a section is parsed to. -/
structure ParsedPatch where
  edits : List RowEdit
  fileOp : Option PatchFileOp
  warnings : List ParseWarning
  deriving DecidableEq, Repr

def PatchFileOp.normalize : PatchFileOp → PatchFileOp
  | .rem => .rem
  | .move dest => .move (normalizeHashlinePath dest)

namespace PatchSection

def parse (shapes : RowShapes) (s : PatchSection) : Except ParseError ParsedPatch := do
  let parsed ← parsePatch shapes s.diff
  if s.interleaved && parsed.edits.any RowEdit.isClipboardEdit then .error .interleavedClipboard
  else .ok ⟨parsed.edits, parsed.fileOp.map PatchFileOp.normalize, parsed.warnings⟩

end PatchSection

/-! ### Writing a patch -/

/-- A section that is written. -/
structure SectionText where
  path : Units
  tag : Units
  hunks : List PatchHunk
  deriving DecidableEq, Repr

namespace SectionText

def headerLine (s : SectionText) : Units := 91 :: (s.path ++ 35 :: s.tag ++ [93])

def lines (s : SectionText) : List Units := s.headerLine :: s.hunks.flatMap PatchHunk.lines

/-- The section that is to be read. The tag of a header is taken in upper case. -/
def read (s : SectionText) : PatchSection where
  path := s.path
  fileHash := some (s.tag.map upperHex)
  diff := hunksText s.hunks

end SectionText

def patchText (sections : List SectionText) : Units :=
  [10].intercalate (sections.flatMap SectionText.lines)

/-- A path that a header shows as it is. -/
structure PathOk (path : Units) : Prop where
  ne_nil : path ≠ []
  noHash : 35 ∉ path
  noFeed : 10 ∉ path
  noQuotes : 34 ∉ path ∧ 39 ∉ path
  trimmed : trim path = path
  noNoise : stripApplyPatchPathNoise path = path

structure SectionText.WellFormed (s : SectionText) : Prop where
  path : PathOk s.path
  tag : s.tag.length = fileHashLength ∧ s.tag.all isHexDigitCode
  hunks_ne_nil : s.hunks ≠ []
  hunks : ∀ h ∈ s.hunks, h.WellFormed
  nonOverlapping : NonOverlapping s.hunks

/-! ### Reading the lines -/

variable {code : ℕ}

theorem trimEndText_concat (h : isTrimmedCode code = false) (line : Units) :
    trimEndText (line ++ [code]) = line ++ [code] := by
  rw [trimEndText, rdropWhile_concat_neg]
  rw [h]
  exact Bool.false_ne_true

/-- `trimEnd` does not change what a line starts with. -/
theorem head?_of_trimEndText {line : Units} (h : (trimEndText line).head? = some code) :
    line.head? = some code := by
  obtain ⟨rest, hrest⟩ : trimEndText line <+: line := rdropWhile_prefix _ _
  rw [← hrest, head?_append, h]
  rfl

theorem trim_ne_nil (h : isTrimmedCode code = false) (line : Units) : trim (code :: line) ≠ [] := by
  rw [trim, dropWhile_cons_of_neg (by rw [h]; exact Bool.false_ne_true)]
  intro hnil
  have hcode := rdropWhile_eq_nil_iff.mp hnil code mem_cons_self
  rw [h] at hcode
  exact Bool.false_ne_true hcode

section Header

variable {s : SectionText}

theorem splitTag_header {path tag : Units} (hlength : tag.length = fileHashLength)
    (hhex : tag.all isHexDigitCode) :
    splitTag (path ++ 35 :: tag) = (path, some (tag.map upperHex)) := by
  have hbody : path ++ 35 :: tag = (path ++ [35]) ++ tag := by rw [append_assoc]; rfl
  have hsub : ((path ++ [35]) ++ tag).length - fileHashLength = (path ++ [35]).length := by
    rw [length_append, hlength, Nat.add_sub_cancel]
  have hlt : fileHashLength < ((path ++ [35]) ++ tag).length := by
    simp only [length_append, length_singleton, hlength]
    omega
  rw [hbody]
  simp only [splitTag, hsub, take_left, drop_left]
  rw [if_pos ⟨hlt, getLast?_concat, hhex⟩, dropLast_concat]

theorem classifyLine_header (hwf : s.WellFormed) :
    classifyLine s.headerLine = .header s.path (some (s.tag.map upperHex)) := by
  obtain ⟨hbegin, hend, habort⟩ := not_marker (by omega : 91 ≠ 42) (s.path ++ 35 :: s.tag ++ [93])
  have htrail : NoTrail s.headerLine := by
    intro code hcode
    rw [SectionText.headerLine, ← cons_append, getLast?_concat] at hcode
    cases hcode
    rfl
  have hparse : tryParseHeader s.headerLine = some (s.path, some (s.tag.map upperHex)) := by
    have hcontains : s.path.contains 35 = false := by simpa using hwf.path.noHash
    rw [tryParseHeader, trimEnd_of_noTrail htrail]
    simp only [SectionText.headerLine, getLast?_concat, dropLast_concat,
      splitTag_header hwf.tag.1 hwf.tag.2, hcontains]
    rw [if_pos ⟨trivial, trivial, append_ne_nil_of_left_ne_nil hwf.path.ne_nil _⟩, if_neg]
    intro hbad
    exact hbad.elim Bool.false_ne_true hwf.path.ne_nil
  rw [SectionText.headerLine] at hparse ⊢
  rw [classifyLine, if_neg (cons_ne_nil _ _), hbegin, hend, habort]
  simp only [Bool.false_eq_true, if_false, head?_cons, if_true, hparse]

theorem normalizeHashlinePath_of_ok {path : Units} (h : PathOk path) :
    normalizeHashlinePath path = path := by
  have hunquote : unquotePath path = path := by
    match path, h with
    | [], _ => rfl
    | [_], _ => rfl
    | first :: second :: rest, h =>
      refine if_neg fun hquote => ?_
      rcases hquote.1 with rfl | rfl
      · exact h.noQuotes.1 mem_cons_self
      · exact h.noQuotes.2 mem_cons_self
  rw [normalizeHashlinePath, h.trimmed, hunquote, h.noNoise]

theorem parseHashlineHeaderLine_header (hwf : s.WellFormed) :
    trimEndText s.headerLine = s.headerLine ∧
      parseHashlineHeaderLine s.headerLine = .ok (some (s.path, some (s.tag.map upperHex))) := by
  have htrim : trimEndText s.headerLine = s.headerLine := by
    rw [SectionText.headerLine, ← cons_append, trimEndText_concat rfl]
  have hhead : s.headerLine.head? = some 91 := rfl
  refine ⟨htrim, ?_⟩
  simp [parseHashlineHeaderLine, htrim, hhead, classifyLine_header hwf, normalizeHashlinePath_of_ok hwf.path, hwf.path.ne_nil]

theorem headerLine_ok (hwf : s.WellFormed) : LineOk s.headerLine := by
  refine ⟨cons_ne_nil _ _, fun hfeed => ?_, fun hlast => ?_⟩
  · have htag : ∀ code ∈ s.tag, code ≠ 10 := by
      rintro code hcode rfl
      exact absurd (all_eq_true.mp hwf.tag.2 10 hcode) (by decide)
    simp only [SectionText.headerLine, mem_cons, mem_append, not_mem_nil, or_false] at hfeed
    rcases hfeed with hfeed | (hfeed | hfeed | hfeed) | hfeed
    · omega
    · exact hwf.path.noFeed hfeed
    · omega
    · exact htag 10 hfeed rfl
    · omega
  rw [SectionText.headerLine, ← cons_append, getLast?_concat] at hlast
  exact absurd (Option.some.inj hlast) (by decide)

end Header

/-- A line in the body of a section: an op or a row. -/
def BodyLine (line : Units) : Prop :=
  (trimEndText line).head? ≠ some 91 ∧
    ((∃ target hadColon, classifyLine line = .opBlock target hadColon) ∨
      ∃ row, classifyLine line = .payloadLiteral row)

theorem bodyLine_hunks {hs : List PatchHunk} (hwf : ∀ h ∈ hs, h.WellFormed) :
    ∀ line ∈ hs.flatMap PatchHunk.lines, BodyLine line := by
  intro line hline
  obtain ⟨h, hh, hmem⟩ := mem_flatMap.mp hline
  rcases mem_cons.mp hmem with rfl | hmem
  · obtain ⟨hop, -, hhead⟩ := PatchHunk.opLine_spec (hwf h hh)
    refine ⟨fun hbracket => ?_, .inl ⟨_, _, hop⟩⟩
    rw [head?_of_trimEndText hbracket] at hhead
    exact absurd hhead (by decide)
  obtain ⟨row, -, rfl⟩ := mem_map.mp hmem
  refine ⟨fun hbracket => ?_, .inr ⟨row, classifyLine_row row⟩⟩
  exact absurd (Option.some.inj (head?_of_trimEndText hbracket)) (by decide)

theorem splitSectionLines_body {body : List Units} (h : ∀ line ∈ body, BodyLine line)
    (sections : List PatchSection) (current : Option SectionHeader)
    (currentLines rest : List Units) :
    splitSectionLines sections current currentLines (body ++ rest) =
      splitSectionLines sections current (currentLines ++ body) rest := by
  induction body generalizing currentLines with
  | nil => rw [nil_append, append_nil]
  | cons line body ih =>
    obtain ⟨hbracket, hkind⟩ := h line mem_cons_self
    have hrest := ih (fun l hl => h l (mem_cons_of_mem _ hl)) (currentLines ++ [line])
    rw [append_assoc, singleton_append] at hrest
    rw [cons_append, splitSectionLines]
    -- neither an op nor a row begins with a bracket, so that no line ends the section
    rcases hkind with ⟨target, hadColon, hkind⟩ | ⟨row, hkind⟩
    · simp [hkind, hbracket, hrest]
    · simp [hkind, hbracket, hrest]

theorem flushSection_hunks {s : SectionText} (hwf : s.WellFormed) (sections : List PatchSection) :
    flushSection sections (some (s.path, some (s.tag.map upperHex)))
      (s.hunks.flatMap PatchHunk.lines) = sections ++ [s.read] := by
  have hany : (s.hunks.flatMap PatchHunk.lines).any (fun line => !(trim line).isEmpty) = true := by
    obtain ⟨h, hs, hcons⟩ := exists_cons_of_ne_nil hwf.hunks_ne_nil
    have hmem : h ∈ s.hunks := hcons ▸ mem_cons_self
    obtain ⟨-, -, hhead⟩ := PatchHunk.opLine_spec (hwf.hunks h hmem)
    refine any_eq_true.mpr
      ⟨h.opLine, mem_flatMap.mpr ⟨h, hmem, mem_cons_self⟩, ?_⟩
    -- the keyword of the op is not blank
    have hne : trim h.opLine ≠ [] := by
      rcases hhead with hhead | hhead
      · obtain ⟨line, hline⟩ := head?_eq_some_iff.mp hhead
        exact hline ▸ trim_ne_nil rfl line
      obtain ⟨line, hline⟩ := head?_eq_some_iff.mp hhead
      exact hline ▸ trim_ne_nil rfl line
    simpa using hne
  simp only [flushSection, hany, if_true]
  rfl

theorem splitSectionLines_sections {sections : List SectionText}
    (hwf : ∀ s ∈ sections, s.WellFormed) (split : List PatchSection)
    (current : Option SectionHeader) (currentLines : List Units) :
    splitSectionLines split current currentLines (sections.flatMap SectionText.lines) =
      .ok (flushSection split current currentLines ++ sections.map SectionText.read) := by
  induction sections generalizing split current currentLines with
  | nil => rw [flatMap_nil, splitSectionLines, map_nil, append_nil]
  | cons s sections ih =>
    have hs := hwf s mem_cons_self
    -- the header flushes the section in front of it and starts its own
    have hrest := ih (fun s' hs' => hwf s' (mem_cons_of_mem _ hs'))
      (flushSection split current currentLines) (some (s.path, some (s.tag.map upperHex)))
      (s.hunks.flatMap PatchHunk.lines)
    have hbody := splitSectionLines_body (bodyLine_hunks hs.hunks)
      (flushSection split current currentLines) (some (s.path, some (s.tag.map upperHex))) []
      (sections.flatMap SectionText.lines)
    obtain ⟨htrim, hheader⟩ := parseHashlineHeaderLine_header hs
    have hhead : (trimEndText s.headerLine).head? = some 91 := by
      rw [htrim]
      rfl
    rw [flatMap_cons, SectionText.lines, cons_append, splitSectionLines]
    simp only [classifyLine_header hs, hhead, if_true, hheader, bind, Except.bind]
    rw [hbody, nil_append, hrest, flushSection_hunks hs, map_cons, append_assoc]
    rfl

/-! ### Reading a patch -/

theorem stripCarriageReturn_of_ok {line : Units} (h : LineOk line) :
    stripCarriageReturn line = line := if_neg h.noReturn

theorem splitLines_intercalate {lines : List Units} (hne : lines ≠ [])
    (h : ∀ line ∈ lines, LineOk line) : splitLines ([10].intercalate lines) = lines := by
  have hsplit : ([10].intercalate lines).splitOn 10 = lines :=
    splitOn_intercalate 10 (fun line hline => (h line hline).noFeed) hne
  obtain ⟨front, last, rfl⟩ := (eq_nil_or_concat' lines).resolve_left hne
  have hmap : front.map stripCarriageReturn = front := by
    conv_rhs => rw [← map_id front]
    exact map_congr_left fun line hline =>
      stripCarriageReturn_of_ok (h line (mem_append_left _ hline))
  simp only [splitLines, hsplit, dropLast_concat, hmap]
  congr 1
  rw [getLastD_eq_getLast?, getLast?_concat]
  rfl

section Reading

variable {sections : List SectionText}

theorem sectionLines_ok (hwf : ∀ s ∈ sections, s.WellFormed) :
    ∀ line ∈ sections.flatMap SectionText.lines, LineOk line := by
  intro line hline
  obtain ⟨s, hs, hmem⟩ := mem_flatMap.mp hline
  rcases mem_cons.mp hmem with rfl | hmem
  · exact headerLine_ok (hwf s hs)
  · exact hunkLines_ok (hwf s hs).hunks line hmem

/-- A patch that starts with a header is read as it stands. -/
theorem splitRawSections_patchText (hne : sections ≠ []) (hwf : ∀ s ∈ sections, s.WellFormed) :
    splitRawSections (patchText sections) = .ok (sections.map SectionText.read) := by
  obtain ⟨s, rest, rfl⟩ := exists_cons_of_ne_nil hne
  have hs := hwf s mem_cons_self
  have hlines : (s :: rest).flatMap SectionText.lines =
      s.headerLine :: (s.hunks.flatMap PatchHunk.lines ++ rest.flatMap SectionText.lines) := by
    rw [flatMap_cons, SectionText.lines, cons_append]
  have hok := sectionLines_ok hwf
  have hnil : (s :: rest).flatMap SectionText.lines ≠ [] := by
    rw [hlines]
    exact cons_ne_nil _ _
  obtain ⟨htrim, hheader⟩ := parseHashlineHeaderLine_header hs
  have hbom : stripBom16 (patchText (s :: rest)) = patchText (s :: rest) := by
    rw [patchText, hlines, SectionText.headerLine, intercalate_cons_cons_left]
    rfl
  have hsplit : splitLines (patchText (s :: rest)) = (s :: rest).flatMap SectionText.lines :=
    splitLines_intercalate hnil hok
  have hfallback : normalizeFallbackInput (patchText (s :: rest)) =
      .ok (patchText (s :: rest)) := by
    rw [normalizeFallbackInput, hbom, hsplit, hlines, hasExplicitHeader, hheader]
    rfl
  have hleading : stripLeadingBlankLines (patchText (s :: rest)) = patchText (s :: rest) := by
    have hfirst : isLeadingLine s.headerLine = false := by
      have htext : trim s.headerLine ≠ [] := trim_ne_nil rfl _
      rw [isLeadingLine, stripCarriageReturn_of_ok (headerLine_ok hs), classifyLine_header hs]
      simpa using htext
    have hpieces : (patchText (s :: rest)).splitOn 10 = (s :: rest).flatMap SectionText.lines :=
      splitOn_intercalate 10 (fun line hline => (hok line hline).noFeed) hnil
    rw [stripLeadingBlankLines, hbom, hpieces, hlines, dropWhile_cons_of_neg
      (by rw [hfirst]; exact Bool.false_ne_true), ← hlines, patchText]
  have hhead : ((s :: rest).flatMap SectionText.lines).headD [] = s.headerLine := by
    rw [hlines]
    rfl
  rw [splitRawSections, hfallback]
  simp only [bind, Except.bind, hleading, hsplit, hhead, hheader]
  exact splitSectionLines_sections hwf [] none []

/-- Sections of distinct paths stay what they are. -/
theorem foldlM_mergeSection {parts : List PatchSection}
    (hparts : (parts.map PatchSection.path).Nodup)
    {merged : JsMap Units MergedSection} {previous : Option Units}
    (hfresh : ∀ part ∈ parts, part.path ∉ merged.map Prod.fst) :
    ∃ last, parts.foldlM mergeSection (merged, previous) =
      .ok (merged ++ parts.map fun part => (part.path, ⟨part.fileHash, [part.diff], false⟩),
        last) := by
  induction parts generalizing merged previous with
  | nil =>
    rw [map_nil, append_nil]
    exact ⟨previous, rfl⟩
  | cons part parts ih =>
    obtain ⟨hpath, hrest⟩ := nodup_cons.mp hparts
    have hnew : part.path ∉ merged.map Prod.fst := hfresh part mem_cons_self
    have hget : JsMap.get merged part.path = none :=
      JsMap.get_eq_none_of_forall_ne fun entry hentry heq =>
        hnew (mem_map.mpr ⟨entry, hentry, heq⟩)
    have hstep : mergeSection (merged, previous) part =
        .ok (merged ++ [(part.path, ⟨part.fileHash, [part.diff], false⟩)], some part.path) := by
      simp [mergeSection, hget, JsMap.set_of_notMem hnew]
    obtain ⟨last, hlast⟩ := @ih hrest
      (merged ++ [(part.path, ⟨part.fileHash, [part.diff], false⟩)]) (some part.path) (by
        intro other hother hmem
        rw [map_append, mem_append] at hmem
        rcases hmem with hmem | hmem
        · exact hfresh other (mem_cons_of_mem _ hother) hmem
        refine hpath (mem_map.mpr ⟨other, hother, ?_⟩)
        exact mem_singleton.mp hmem)
    refine ⟨last, ?_⟩
    rw [foldlM_cons, hstep]
    change parts.foldlM mergeSection _ = _
    rw [hlast, append_assoc]
    rfl

theorem mergeSamePathSections_read (hpaths : (sections.map SectionText.path).Nodup) :
    mergeSamePathSections (sections.map SectionText.read) =
      .ok (sections.map SectionText.read) := by
  have hnodup : ((sections.map SectionText.read).map PatchSection.path).Nodup := by
    rw [map_map]
    exact hpaths
  obtain ⟨last, hmerge⟩ := @foldlM_mergeSection _ hnodup [] none fun part _ hmem => nomatch hmem
  rw [mergeSamePathSections, hmerge]
  simp only [bind, Except.bind, nil_append, map_map]
  congr 1
  refine map_congr_left fun s _ => ?_
  simp only [Function.comp_apply, intercalate_singleton]
  rfl

end Reading

/-- Reading the text of a patch gives back its sections, in their order. Each body has the tokens
of its ops and of its rows, and is parsed to the edits that its hunks stand for. -/
theorem parse_patchText (shapes : RowShapes) (sections : List SectionText) (hne : sections ≠ [])
    (hwf : ∀ s ∈ sections, s.WellFormed) (hpaths : (sections.map SectionText.path).Nodup) :
    Patch.parse (patchText sections) = .ok (sections.map SectionText.read) ∧
      ∀ s ∈ sections, textTokens 1 [] s.read.diff = hunkTokens 1 s.hunks ∧
        ∃ warnings, s.read.parse shapes = .ok ⟨loweredFrom 1 s.hunks, none, warnings⟩ := by
  refine ⟨?_, fun s hs => ⟨textTokens_hunksText (hwf s hs).hunks, ?_⟩⟩
  · rw [Patch.parse, splitRawSections_patchText hne hwf]
    exact mergeSamePathSections_read hpaths
  obtain ⟨ex, hparse, hedits, hop⟩ :=
    @parsePatch_hunks shapes s.hunks (hwf s hs).hunks (hwf s hs).nonOverlapping
  refine ⟨ex.warnings, ?_⟩
  have hdiff : s.read.diff = hunksText s.hunks := rfl
  have hinterleaved : s.read.interleaved = false := rfl
  rw [PatchSection.parse, hdiff, hparse, hinterleaved]
  simp only [bind, Except.bind, hedits, hop, Bool.false_and, Bool.false_eq_true, if_false]
  rfl

/-- Rows that look like no construct that the executor guesses. -/
def plainShapes : RowShapes where
  isReadMetadataLine _ := false
  detectApplyPatchContamination _ := false
  parseTopLevelBareRangeHeader _ := none
  parseTopLevelSnapshotRow _ := none
  mdBulletRow _ := false
  bareLiteralValue _ := false
  stripOneLeadingHashlinePrefix text := text

/-- A patch with rows that look like an op and like a header. -/
def twoHunks : SectionText where
  path := units "src/a.ts"
  tag := units "1a2B"
  hunks := [.put 2 3 [units "CUT 1.=2", units "[b.ts#0000]"], .cut 5 5 (some (units "r"))]

theorem twoHunks_wellFormed : twoHunks.WellFormed where
  path := ⟨by decide +kernel, by decide +kernel, by decide +kernel, by decide +kernel,
    by decide +kernel, by decide +kernel⟩
  tag := by decide +kernel
  hunks_ne_nil := by decide +kernel
  hunks := by
    intro h hh
    simp only [twoHunks, mem_cons, not_mem_nil, or_false] at hh
    rcases hh with rfl | rfl
    · refine ⟨⟨by decide, by decide, by decide, by decide⟩, cons_ne_nil _ _, ?_⟩
      intro row hrow
      simp only [mem_cons, not_mem_nil, or_false] at hrow
      rcases hrow with rfl | rfl
      · exact ⟨by decide +kernel, by decide +kernel⟩
      · exact ⟨by decide +kernel, by decide +kernel⟩
    refine ⟨⟨by decide, by decide, by decide, by decide⟩, ?_⟩
    intro name hname
    cases hname
    exact ⟨by decide +kernel, by decide +kernel, by decide +kernel⟩
  nonOverlapping := by
    refine pairwise_cons.mpr ⟨fun h hh => ?_, pairwise_singleton _ _⟩
    obtain rfl := mem_singleton.mp hh
    decide

theorem parse_patchText_twoHunks : Patch.parse (patchText [twoHunks]) = .ok [twoHunks.read] ∧
      ∀ s ∈ [twoHunks], textTokens 1 [] s.read.diff = hunkTokens 1 s.hunks ∧
        ∃ warnings, s.read.parse plainShapes = .ok ⟨loweredFrom 1 s.hunks, none, warnings⟩ :=
  parse_patchText plainShapes [twoHunks] (cons_ne_nil _ _)
    (fun _ hs => mem_singleton.mp hs ▸ twoHunks_wellFormed) (nodup_singleton _)

/-- A path loses the stars in front of it, a tag in lower case is read in upper case, a section
without hunks is dropped, a patch without sections is rejected, and so is a line number that is
not a safe integer. -/
theorem patchText_not_identity :
    Patch.parse (patchText [⟨units "*.ts", units "1A2B", [.cut 1 1 none]⟩]) =
        .ok [⟨units ".ts", some (units "1A2B"), units "CUT 1.=1", false⟩] ∧
      Patch.parse (patchText [⟨units "a.ts", units "1a2b", [.cut 1 1 none]⟩]) =
        .ok [⟨units "a.ts", some (units "1A2B"), units "CUT 1.=1", false⟩] ∧
      Patch.parse (patchText [⟨units "a.ts", units "1A2B", []⟩]) = .ok [] ∧
      Patch.parse (patchText []) = .error (.missingHeader []) ∧
      (parsePatch plainShapes (hunksText [.cut (2 ^ 53) (2 ^ 53) none])).isOk = false := by
  refine ⟨?_, ?_, ?_, ?_, ?_⟩ <;> decide +kernel

end BreadboardTui.Hashline
