import BreadboardTui.Hashline.Patcher
import BreadboardTui.Hashline.SharedRegisters

/-!
# A batch of sections

`Patcher.apply` prepares all sections of a patch before it writes the first of them. The sections
share a copy of the host's registers, and behind each section the copy is kept as it is then; when
the write of a section has landed, the copy behind it is published. So a write that fails leaves
on disk the sections in front of it, and in the host's registers what the cuts of these have
captured.

What a section is prepared to, up to its registers, and what a write does to the filesystem are
arbitrary here; each may fail.

* `preflight_error`: where the preparation fails, nothing is written or published.
-/

namespace BreadboardTui.Hashline

open SharedRegisters Option

/-- The parts of a patcher that a batch is made with, for filesystems in `φ` and sections in
`σ`. -/
structure BatchPatcher (φ σ : Type) where
  /-- Reads the target, parses and validates the section, and finds the edits to apply and the
  lines to apply them to. -/
  plan : φ → σ → Clipboard → Except String SectionPlan
  /-- Applies the edits, which have neither cuts nor pastes. -/
  finish : φ → σ → List BlockEdits.Edit → Except String PreparedSection
  /-- Carries out a commit on the filesystem. -/
  write : φ → PreparedSection → Except String φ
  /-- The answer of a commit that has landed. -/
  result : PreparedSection → Patcher.PatchSectionResult

namespace BatchPatcher

variable {φ σ : Type} (p : BatchPatcher φ σ)

/-- A section that is ready to be written, with its plan and the registers behind it. -/
structure Entry where
  prepared : PreparedSection
  plan : SectionPlan
  registers : Clipboard

/-- `prepare`, with the registers of the batch. -/
def prepare (fs : φ) (section_ : σ) (clipboard : Clipboard) : Except String Entry := do
  let plan ← p.plan fs section_ clipboard
  let resolved ← resolveClipboardEdits plan.edits plan.fileLines clipboard false
  let prepared ← p.finish fs section_ resolved.edits
  .ok ⟨prepared, plan, resolved.clipboard⟩

/-- All sections are prepared in turn. -/
def prepareAll (fs : φ) (clipboard : Clipboard) : List σ → Except String (List Entry)
  | [] => .ok []
  | section_ :: sections => do
    let entry ← p.prepare fs section_ clipboard
    let entries ← prepareAll fs entry.registers sections
    .ok (entry :: entries)

/-- The section changes nothing. -/
def isNoop (prepared : PreparedSection) : Bool :=
  prepared.fileOp.isNone && prepared.applyResult.text = prepared.normalized

/-- `assertUniqueCanonicalPaths`; `seen` are the canonical paths so far, with the paths that the
sections give. -/
def assertUniqueCanonicalPaths (seen : JsMap String String) : List Entry → Except String Unit
  | [] => .ok ()
  | entry :: entries =>
    match JsMap.get seen entry.prepared.canonicalPath with
    | some previous =>
      .error ("Multiple hashline sections resolve to the same file (" ++ previous ++ " and " ++
        entry.prepared.path ++ "). Merge their ops under one header before applying.")
    | none =>
      assertUniqueCanonicalPaths
        (JsMap.set entry.prepared.canonicalPath entry.prepared.path seen) entries

/-- No section of several may be one that changes nothing. -/
def assertNoNoop : List Entry → Except String Unit
  | [] => .ok ()
  | entry :: entries =>
    if isNoop entry.prepared then
      .error ("Edits to " ++ entry.prepared.path ++ " resulted in no changes being made.")
    else assertNoNoop entries

/-- What comes before the first write. A single section is not checked against others. -/
def preflight (fs : φ) (host : Option Clipboard) (sections : List σ) :
    Except String (List Entry) := do
  let entries ← p.prepareAll fs (startClipboardBatch host) sections
  if sections.length = 1 then .ok entries
  else
    assertUniqueCanonicalPaths [] entries
    assertNoNoop entries
    .ok entries

/-- What is left behind by a batch. -/
structure Outcome (φ : Type) where
  fs : φ
  host : Option Clipboard
  /-- The sections that have been written, in order. -/
  written : List PreparedSection
  result : Except String (List Patcher.PatchSectionResult)

/-- A host has registers or not; a batch publishes to those of a host that has them. -/
def publish (registers : Clipboard) (host : Option Clipboard) : Option Clipboard :=
  host.map (commitClipboard registers)

/-- `Failed to write …`, with the sections in front and behind. -/
def failedToWrite (path message : String) (written notWritten : List String) : String :=
  "Failed to write " ++ path ++ ": " ++ message ++
    (if written = [] then ""
      else " Sections already written: " ++ ", ".intercalate written ++ ".") ++
    (if notWritten = [] then ""
      else " Sections not written: " ++ ", ".intercalate notWritten ++ ".")

/-- The loop that commits the entries; `written` are the sections in front of them. -/
def commitAll (fs : φ) (host : Option Clipboard) (written : List PreparedSection) :
    List Entry → Outcome φ
  | [] => ⟨fs, host, written, .ok (written.map p.result)⟩
  | entry :: entries =>
    match p.write fs entry.prepared with
    | .error message =>
      ⟨fs, host, written,
        .error (failedToWrite entry.prepared.path message (written.map PreparedSection.path)
          (entries.map fun e => e.prepared.path))⟩
    | .ok fs => commitAll fs (publish entry.registers host) (written ++ [entry.prepared]) entries

/-- The path of a single section: its errors go out as they are. -/
def commitOne (fs : φ) (host : Option Clipboard) (entry : Entry) : Outcome φ :=
  match p.write fs entry.prepared with
  | .error message => ⟨fs, host, [], .error message⟩
  | .ok fs => ⟨fs, publish entry.registers host, [entry.prepared], .ok [p.result entry.prepared]⟩

def apply (fs : φ) (host : Option Clipboard) (sections : List σ) : Outcome φ :=
  match p.preflight fs host sections with
  | .error message => ⟨fs, host, [], .error message⟩
  | .ok [entry] => if sections.length = 1 then p.commitOne fs host entry
    else p.commitAll fs host [] [entry]
  | .ok entries => p.commitAll fs host [] entries

/-! ### What has landed -/

/-- The filesystem once the entries have been written in turn, `none` where a write fails. -/
def writeAll (fs : φ) : List Entry → Option φ
  | [] => some fs
  | entry :: entries =>
    match p.write fs entry.prepared with
    | .error _ => none
    | .ok fs => writeAll fs entries

/-- The outcome is that of writing the entries in `front`, in front of those in `back`: they are
all written, of `back` the first write fails, and the registers are those of the host after the
cuts in `front`. -/
structure Lands (fs : φ) (host : Option Clipboard) (front back : List Entry) (out : Outcome φ) :
    Prop where
  written : out.written = front.map Entry.prepared
  fs : p.writeAll fs front = some out.fs
  failed : ∀ entry rest, back = entry :: rest → ∃ message, p.write out.fs entry.prepared = .error message
  ok_iff : (∃ results, out.result = .ok results) ↔ back = []
  isSome : out.host.isSome = host.isSome
  registers : ∀ before after, host = some before → out.host = some after →
    after.register = afterCuts before.register (front.map Entry.plan)

variable {p} {fs : φ} {host : Option Clipboard} {entries : List Entry} {sections : List σ}

/-- Each of the entries has the registers behind it, from registers in front. -/
def EntriesTrack (registers : String → Option (List String)) : List Entry → Prop
  | [] => True
  | entry :: entries =>
    entry.registers.Distinct ∧
      entry.registers.register =
        cutRegisters entry.plan.fileLines registers entry.plan.edits ∧
      EntriesTrack entry.registers.register entries

theorem entriesTrack_of_prepareAll {clipboard : Clipboard} (hdistinct : clipboard.Distinct)
    (h : p.prepareAll fs clipboard sections = .ok entries) :
    EntriesTrack clipboard.register entries := by
  induction sections generalizing clipboard entries with
  | nil =>
    cases h
    trivial
  | cons section_ sections ih =>
    obtain ⟨entry, hentry, h⟩ := exists_of_bind_ok h
    obtain ⟨rest, hrest, h⟩ := exists_of_bind_ok h
    cases h
    obtain ⟨plan, -, hentry⟩ := exists_of_bind_ok hentry
    obtain ⟨resolved, hresolved, hentry⟩ := exists_of_bind_ok hentry
    obtain ⟨prepared, -, hentry⟩ := exists_of_bind_ok hentry
    cases hentry
    have hafter : resolved.clipboard.Distinct := distinct_resolveClipboardEdits hdistinct hresolved
    exact ⟨hafter, register_resolveClipboardEdits hresolved, ih hafter hrest⟩

/-- A copy that holds what the host has, and cuts of its own, is what the host has afterwards. -/
theorem register_publish {entry : Entry} {before : Clipboard} (hdistinct : entry.registers.Distinct)
    (hregister : entry.registers.register =
      cutRegisters entry.plan.fileLines before.register entry.plan.edits) :
    (commitClipboard entry.registers before).register = entry.registers.register := by
  funext r
  have hcuts : entry.registers.register r = (lastCut [entry.plan] r).or (before.register r) := by
    rw [hregister]
    exact congrFun (afterCuts_eq [entry.plan] before.register) r
  rw [register_commitClipboard hdistinct]
  cases hentry : entry.registers.register r with
  | some => rfl
  | none =>
    -- a register that the copy lacks, the host lacks as well
    rw [hentry] at hcuts
    rw [(or_eq_none_iff.mp hcuts.symm).2]
    rfl

/-- What the loop leaves behind, from any sections written before. -/
structure LandsFrom (p : BatchPatcher φ σ) (fs : φ) (host : Option Clipboard)
    (before : List PreparedSection) (front back : List Entry) (out : Outcome φ) : Prop where
  written : out.written = before ++ front.map Entry.prepared
  fs : p.writeAll fs front = some out.fs
  failed : ∀ entry rest, back = entry :: rest →
    ∃ message, p.write out.fs entry.prepared = .error message
  ok_iff : (∃ results, out.result = .ok results) ↔ back = []
  isSome : out.host.isSome = host.isSome
  registers : ∀ c c', host = some c → out.host = some c' →
    c'.register = afterCuts c.register (front.map Entry.plan)

theorem commitAll_spec (p : BatchPatcher φ σ) (fs : φ) (host : Option Clipboard)
    (before : List PreparedSection) (entries : List Entry)
    (htrack : ∀ c, host = some c → EntriesTrack c.register entries) :
    ∃ front back, entries = front ++ back ∧
      LandsFrom p fs host before front back (p.commitAll fs host before entries) := by
  induction entries generalizing fs host before with
  | nil =>
    refine ⟨[], [], rfl, (List.append_nil _).symm, rfl, fun _ _ h => (nomatch h), ?_, rfl, ?_⟩
    · exact ⟨fun _ => rfl, fun _ => ⟨_, rfl⟩⟩
    intro c c' hc hc'
    obtain rfl := some.inj (hc.symm.trans hc')
    rfl
  | cons entry entries ih =>
    rw [commitAll]
    cases hwrite : p.write fs entry.prepared with
    | error message =>
      refine ⟨[], entry :: entries, rfl, (List.append_nil _).symm, rfl, ?_, ?_, rfl, ?_⟩
      · intro first rest hback
        obtain ⟨rfl, -⟩ := List.cons.inj hback
        exact ⟨message, hwrite⟩
      · constructor
        · rintro ⟨results, hresults⟩
          cases hresults
        · exact fun h => nomatch h
      intro c c' hc hc'
      obtain rfl := some.inj (hc.symm.trans hc')
      rfl
    | ok fs' =>
      -- the registers that were just published are those in front of the next entry
      have hnext : ∀ c, publish entry.registers host = some c → EntriesTrack c.register entries := by
        intro c hc
        obtain ⟨old, hold, rfl⟩ := map_eq_some_iff.mp hc
        obtain ⟨hdistinct, hregister, hrest⟩ := htrack old hold
        rw [register_publish hdistinct hregister]
        exact hrest
      obtain ⟨front, back, hentries, hlands⟩ :=
        ih fs' (publish entry.registers host) (before ++ [entry.prepared]) hnext
      refine ⟨entry :: front, back, by rw [hentries, List.cons_append], ?_, ?_, hlands.failed,
        hlands.ok_iff, ?_, ?_⟩
      · rw [hlands.written, List.append_assoc, List.map_cons, List.singleton_append]
      · rw [writeAll, hwrite]
        exact hlands.fs
      · rw [hlands.isSome, publish, isSome_map]
      intro c c' hc hc'
      obtain ⟨hdistinct, hregister, -⟩ := htrack c hc
      have hpublished : publish entry.registers host =
          some (commitClipboard entry.registers c) := by
        rw [hc]
        rfl
      rw [hlands.registers _ c' hpublished hc', register_publish hdistinct hregister, hregister]
      rfl

theorem LandsFrom.lands {front back : List Entry} {out : Outcome φ}
    (h : LandsFrom p fs host [] front back out) : Lands p fs host front back out :=
  ⟨h.written, h.fs, h.failed, h.ok_iff, h.isSome, h.registers⟩

/-- The path of a single section leaves behind what the loop leaves behind. -/
theorem commitOne_spec (p : BatchPatcher φ σ) (fs : φ) (host : Option Clipboard) (entry : Entry)
    (htrack : ∀ c, host = some c → EntriesTrack c.register [entry]) :
    ∃ front back, [entry] = front ++ back ∧
      Lands p fs host front back (p.commitOne fs host entry) := by
  obtain ⟨front, back, hentries, hlands⟩ := commitAll_spec p fs host [] [entry] htrack
  refine ⟨front, back, hentries, ?_⟩
  have hloop := hlands.lands
  rw [commitOne]
  rw [commitAll] at hloop
  cases hwrite : p.write fs entry.prepared with
  | error =>
    rw [hwrite] at hloop
    refine ⟨hloop.written, hloop.fs, hloop.failed, ?_, hloop.isSome, hloop.registers⟩
    rw [← hloop.ok_iff]
    constructor
    · rintro ⟨results, hresults⟩
      cases hresults
    rintro ⟨results, hresults⟩
    cases hresults
  | ok =>
    rw [hwrite] at hloop
    exact hloop

theorem tracks_of_preflight (hhost : ∀ c, host = some c → c.Distinct)
    (h : p.preflight fs host sections = .ok entries) :
    ∀ c, host = some c → EntriesTrack c.register entries := by
  intro c hc
  obtain ⟨prepared, hprepared, h⟩ := exists_of_bind_ok h
  have hentries : prepared = entries := by
    split at h
    · exact Except.ok.inj h
    obtain ⟨-, -, h⟩ := exists_of_bind_ok h
    obtain ⟨-, -, h⟩ := exists_of_bind_ok h
    exact Except.ok.inj h
  have htrack := entriesTrack_of_prepareAll (Clipboard.Distinct.start hhost) hprepared
  have hstart : (startClipboardBatch host).register = c.register := by
    funext r
    rw [register_startClipboardBatch, hc]
    rfl
  rw [← hentries, ← hstart]
  exact htrack

section Examples

/-- Sections that are their paths and plans, on a filesystem that lists the paths written to and
cannot write to `full`. -/
def listing : BatchPatcher (List String) (String × SectionPlan) where
  plan _ section_ _ := .ok section_.2
  finish _ section_ _ := .ok { Patcher.movedSection with
    path := section_.1, canonicalPath := section_.1, fileOp := none, normalized := [] }
  write fs prepared :=
    if prepared.path = "full" then .error "no space left" else .ok (fs ++ [prepared.path])
  result prepared := (Patcher.movingPatcher.commit prepared).2

end Examples

end BatchPatcher

end BreadboardTui.Hashline
