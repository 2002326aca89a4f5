import Mathlib.Tactic

/-!
# Block ops and their concrete forms

A header such as `PUT N*:` or `CUT N*` names a block by its first line. The parser leaves it as
one deferred edit, `resolveBlockEdits` expands it when the text is known, and only then it is
what the concrete header `PUT s.=e:` or `CUT s.=e` is from the start. Two steps in between look
at the edits before they are expanded: the parser's check for overlapping ranges, and the guard
that asks whether the reader was shown the lines an edit is anchored on.

What comes after the expansion (the clipboard, the applier, the recovery of a drifted file) is
arbitrary here: it is a function of the expanded edits.
-/

namespace BreadboardTui.Hashline.BlockEdits

open List

/-! ### Edits and hunks -/

/-- Where an insert lands. -/
inductive Cursor where
  | bof
  | eof
  | beforeAnchor (line : ℕ)
  | afterAnchor (line : ℕ)
  deriving DecidableEq, Repr

/-- Where a paste lands: a gap, or a span it replaces. -/
inductive PasteTarget where
  | gap (cursor : Cursor)
  | span (start stop : ℕ)
  deriving DecidableEq, Repr

/-- What a deferred block edit will be. -/
inductive BlockOp where
  | replace
  | insertAfter
  | cut
  | pasteAfter
  deriving DecidableEq, Repr

/-- A low-level edit; `lineNum` is its header's line in the patch. Its place in the list stands
for its `index`. -/
inductive Edit where
  | insert (cursor : Cursor) (text : String) (lineNum : ℕ) (replacement : Bool)
      (blockStart : Option ℕ)
  | delete (line lineNum : ℕ)
  | cut (start stop : ℕ) (register : Option String) (lineNum : ℕ)
  | paste (target : PasteTarget) (register : Option String) (lineNum : ℕ)
      (blockStart : Option ℕ)
  | block (line : ℕ) (payloads : List String) (op : BlockOp) (register : Option String)
      (lineNum : ℕ)
  deriving DecidableEq, Repr

/-- What a header addresses. -/
inductive HunkTarget where
  | gap (cursor : Cursor)
  | replace (start stop : ℕ)
  | cut (start stop : ℕ)
  | block (line : ℕ)
  | cutBlock (line : ℕ)
  | insertAfterBlock (line : ℕ)
  deriving DecidableEq, Repr

/-- A header with its body. -/
structure Hunk where
  lineNum : ℕ
  target : HunkTarget
  register : Option String := none
  hadColon : Bool := true
  payloads : List String := []
  deriving DecidableEq, Repr

def spanLines (start stop : ℕ) : List ℕ :=
  List.range' start (stop + 1 - start)

/-- `#pushDeleteRange`. -/
def deleteRange (start stop lineNum : ℕ) : List Edit :=
  (spanLines start stop).map fun line => .delete line lineNum

/-- `#emitPayloadRows`. -/
def payloadRows (cursor : Cursor) (payloads : List String) (lineNum : ℕ) (replacement : Bool)
    (blockStart : Option ℕ) : List Edit :=
  payloads.map fun text => .insert cursor text lineNum replacement blockStart

/-- `#flushPending`: the edits of a hunk, `none` where the parser throws. -/
def Hunk.flush (h : Hunk) : Option (List Edit) :=
  match h.target with
  | .cut start stop =>
    some (.cut start stop h.register h.lineNum :: deleteRange start stop h.lineNum)
  | .cutBlock line => some [.block line [] .cut h.register h.lineNum]
  | .replace start stop =>
    if h.register.isSome then some [.paste (.span start stop) h.register h.lineNum none]
    else if h.payloads = [] ∧ h.hadColon = false then none
    else
      some (payloadRows (.beforeAnchor start) h.payloads h.lineNum true none ++
        deleteRange start stop h.lineNum)
  | .block line =>
    if h.register.isSome then some [.block line [] .replace h.register h.lineNum]
    else if h.payloads = [] ∧ h.hadColon = false then none
    else some [.block line h.payloads .replace none h.lineNum]
  | .insertAfterBlock line =>
    if h.register.isSome ∨ (h.hadColon = false ∧ h.payloads = []) then
      some [.block line [] .pasteAfter h.register h.lineNum]
    else if h.payloads = [] then none
    else some [.block line h.payloads .insertAfter none h.lineNum]
  | .gap cursor =>
    if h.register.isSome ∨ (h.hadColon = false ∧ h.payloads = []) then
      some [.paste (.gap cursor) h.register h.lineNum none]
    else if h.payloads = [] then none
    else some (payloadRows cursor h.payloads h.lineNum false none)

/-- The header's concrete form, where the block at a line ends at `stop` of it. -/
def Hunk.concrete (stop : ℕ → ℕ) (h : Hunk) : Hunk :=
  match h.target with
  | .block line => { h with target := .replace line (stop line) }
  | .cutBlock line => { h with target := .cut line (stop line) }
  | _ => h

/-- The header replaces or cuts a block. -/
def Hunk.blockLine (h : Hunk) : Option ℕ :=
  match h.target with
  | .block line => some line
  | .cutBlock line => some line
  | _ => none

/-! ### The check for overlapping ranges -/

/-- The lines an edit deletes or pastes over. -/
def Edit.sourceLines : Edit → List ℕ
  | .delete line _ => [line]
  | .paste (.span start stop) _ _ _ => spanLines start stop
  | _ => []

/-- The edit is a cut, or a paste over a span. -/
def Edit.clipboardDependent : Edit → Bool
  | .cut _ _ _ _ => true
  | .paste (.span _ _) _ _ _ => true
  | _ => false

/-- What the check knows of a hunk. -/
structure ConcreteHunk where
  lineNum : ℕ
  sourceLines : List ℕ
  clipboardDependent : Bool
  deriving DecidableEq, Repr

/-- The edits of one header. -/
structure Group where
  lineNum : ℕ
  edits : List Edit
  deriving DecidableEq, Repr

/-- The hunk of a header's edits. -/
def Group.hunk (g : Group) : ConcreteHunk where
  lineNum := g.lineNum
  sourceLines := g.edits.flatMap Edit.sourceLines
  clipboardDependent := g.edits.any Edit.clipboardDependent

/-- Two hunks share a line. -/
def ConcreteHunk.meets (a b : ConcreteHunk) : Bool :=
  a.sourceLines.any fun line => b.sourceLines.contains line

/-- Two hunks have the same lines; no hunk has a line twice. -/
def ConcreteHunk.sameLines (a b : ConcreteHunk) : Bool :=
  a.sourceLines.length = b.sourceLines.length &&
    b.sourceLines.all fun line => a.sourceLines.contains line

/-- The loop of `#normalizeOverlappingRanges`: `owners` are the hunks that own their lines, and
the answer the headers that are dropped, `none` where the parser throws. -/
def normalize (owners : List ConcreteHunk) (dropped : List ℕ) :
    List ConcreteHunk → Option (List ℕ)
  | [] => some dropped
  | h :: hs =>
    if h.sourceLines = [] then normalize owners dropped hs
    else
      match owners.filter fun o => o.meets h with
      | [] => normalize (owners ++ [h]) dropped hs
      | [previous] =>
        if previous.sameLines h ∧ previous.clipboardDependent = false then
          normalize ((owners.filter fun o => !o.meets h) ++ [h]) (dropped ++ [previous.lineNum]) hs
        else none
      | _ => none

/-- The hunks' edits, header by header. -/
def groups : List Hunk → Option (List Group)
  | [] => some []
  | h :: hs => do
    let edits ← h.flush
    let rest ← groups hs
    some (⟨h.lineNum, edits⟩ :: rest)

/-- The edits that are left when the headers `dropped` are gone. -/
def keptEdits (dropped : List ℕ) (gs : List Group) : List Edit :=
  (gs.filter fun g => !dropped.contains g.lineNum).flatMap Group.edits

/-- The section's edits. -/
def parse (hunks : List Hunk) : Option (List Edit) := do
  let gs ← groups hunks
  let dropped ← normalize [] [] (gs.map Group.hunk)
  some (keptEdits dropped gs)

/-! ### Expanding block edits -/

/-- One edit of `resolveBlockEdits`; `none` where it throws. -/
def Edit.resolve (resolver : ℕ → Option (ℕ × ℕ)) : Edit → Option (List Edit)
  | .block line payloads op register lineNum =>
    match resolver line with
    | none =>
      match op with
      | .pasteAfter => some [.paste (.gap (.afterAnchor line)) register lineNum none]
      | .insertAfter => some (payloadRows (.afterAnchor line) payloads lineNum false none)
      | _ => none
    | some (start, stop) =>
      if start = stop then none
      else
        match op with
        | .pasteAfter => some [.paste (.gap (.afterAnchor stop)) register lineNum (some start)]
        | .cut => some (.cut start stop register lineNum :: deleteRange start stop lineNum)
        | .insertAfter =>
          some (payloadRows (.afterAnchor stop) payloads lineNum false (some start))
        | .replace =>
          if register.isSome then some [.paste (.span start stop) register lineNum none]
          else
            some (payloadRows (.beforeAnchor start) payloads lineNum true none ++
              deleteRange start stop lineNum)
  | e => some [e]

def resolveBlockEdits (resolver : ℕ → Option (ℕ × ℕ)) : List Edit → Option (List Edit)
  | [] => some []
  | e :: es => do
    let here ← e.resolve resolver
    let rest ← resolveBlockEdits resolver es
    some (here ++ rest)

/-! ### Preparing a section -/

/-- The edit is a deferred block edit. -/
def Edit.isBlock : Edit → Bool
  | .block _ _ _ _ _ => true
  | _ => false

/-- The lines an edit is anchored on. -/
def Edit.anchorLines : Edit → List ℕ
  | .delete line _ => [line]
  | .block line _ _ _ _ => [line]
  | .cut start stop _ _ => spanLines start stop
  | .paste (.span start stop) _ _ _ => spanLines start stop
  | .paste (.gap (.beforeAnchor line)) _ _ _ => [line]
  | .paste (.gap (.afterAnchor line)) _ _ _ => [line]
  | .insert (.beforeAnchor line) _ _ _ _ => [line]
  | .insert (.afterAnchor line) _ _ _ _ => [line]
  | _ => []

/-- `hasAnchorScopedEdit`, for one edit. -/
def Edit.isAnchorScoped : Edit → Bool
  | .delete _ _ => true
  | .block _ _ _ _ _ => true
  | .cut _ _ _ _ => true
  | .paste (.span _ _) _ _ _ => true
  | .paste (.gap (.beforeAnchor _)) _ _ _ => true
  | .paste (.gap (.afterAnchor _)) _ _ _ => true
  | .insert (.beforeAnchor _) _ _ _ _ => true
  | .insert (.afterAnchor _) _ _ _ _ => true
  | _ => false

/-- What the patcher has for a section, with outcomes in `κ`: the resolver on the text the tag
names, whether there is a tag, whether it names the live text or a stored snapshot, the lines the
reader was shown (where the guard is on), and the steps that read the expanded edits only. -/
structure Env (κ : Type) where
  resolver : ℕ → Option (ℕ × ℕ)
  tagged : Bool
  liveMatches : Bool
  snapshot : Bool
  seenLines : List ℕ
  /-- The checks of `prepare` in front, of which the edits decide one thing only. -/
  preflight : Bool → Bool
  validateClipboardSequence : List Edit → Bool
  applyEdits : List Edit → Option κ
  tryRecover : List Edit → Option κ

/-- `#assertSeenLines` throws: an anchor was not shown. Without lines to compare it does not. -/
def unseen (seenLines : List ℕ) (edits : List Edit) : Bool :=
  !seenLines.isEmpty && edits.any fun e => e.anchorLines.any fun line => !seenLines.contains line

/-- `#applyWithRecovery`; `none` is a rejection. -/
def applyWithRecovery {κ : Type} (env : Env κ) (edits : List Edit) : Option κ :=
  if edits.any Edit.isBlock && env.tagged && !env.liveMatches && !env.snapshot then none
  else do
    let resolved ← resolveBlockEdits env.resolver edits
    if env.validateClipboardSequence resolved = false then none
    else if !env.tagged || env.liveMatches then
      if env.tagged && unseen env.seenLines edits then none else env.applyEdits resolved
    else if resolved.any Edit.isAnchorScoped = false then env.applyEdits resolved
    else env.tryRecover resolved

/-- Preparing a section: its outcome, or a rejection. -/
def prepare {κ : Type} (env : Env κ) (hunks : List Hunk) : Option κ := do
  let edits ← parse hunks
  if env.preflight (edits.any Edit.isAnchorScoped) then applyWithRecovery env edits else none

/-! ### One hunk and its concrete form -/

/-- The lines a concrete header replaces or cuts. -/
def Hunk.lines (h : Hunk) : List ℕ :=
  match h.target with
  | .replace start stop => spanLines start stop
  | .cut start stop => spanLines start stop
  | _ => []

/-- The group of a hunk, empty where the parser throws on it. -/
def Hunk.group (h : Hunk) : Group :=
  ⟨h.lineNum, h.flush.getD []⟩

/-- The resolver finds the block of the header: it starts at the header's line and goes on. -/
def Hunk.Resolves (resolver : ℕ → Option (ℕ × ℕ)) (stop : ℕ → ℕ) (h : Hunk) : Prop :=
  ∀ n, h.blockLine = some n → resolver n = some (n, stop n) ∧ n < stop n

variable {h : Hunk} {stop : ℕ → ℕ} {resolver : ℕ → Option (ℕ × ℕ)}

theorem Hunk.concrete_of_plain (hplain : h.blockLine = none) : h.concrete stop = h := by
  rw [Hunk.concrete]
  rw [Hunk.blockLine] at hplain
  split
  case h_1 line htarget =>
    rw [htarget] at hplain
    cases hplain
  case h_2 line htarget =>
    rw [htarget] at hplain
    cases hplain
  case h_3 => rfl

@[simp] theorem Hunk.concrete_lineNum (stop : ℕ → ℕ) (h : Hunk) :
    (h.concrete stop).lineNum = h.lineNum := by
  rw [Hunk.concrete]
  split <;> rfl

theorem resolve_of_not_block {e : Edit} (he : e.isBlock = false) :
    e.resolve resolver = some [e] := by
  cases e with
  | block => cases he
  | insert _ _ _ _ _ | delete _ _ | cut _ _ _ _ | paste _ _ _ _ => rfl

variable {es : List Edit}

theorem resolveBlockEdits_of_not_block (hes : es.any Edit.isBlock = false) :
    resolveBlockEdits resolver es = some es := by
  induction es with
  | nil => rfl
  | cons e es ih =>
    rw [any_cons, Bool.or_eq_false_iff] at hes
    rw [resolveBlockEdits, resolve_of_not_block hes.1, ih hes.2]
    rfl

theorem resolveBlockEdits_append (as bs : List Edit) : resolveBlockEdits resolver (as ++ bs) =
      (resolveBlockEdits resolver as).bind fun xs =>
        (resolveBlockEdits resolver bs).map fun ys => xs ++ ys := by
  induction as with
  | nil =>
    rw [nil_append]
    cases resolveBlockEdits resolver bs <;> rfl
  | cons a as ih =>
    rw [cons_append, resolveBlockEdits, resolveBlockEdits, ih]
    cases a.resolve resolver <;> cases resolveBlockEdits resolver as <;>
      cases resolveBlockEdits resolver bs <;> simp

/-- What the two forms of a header that replaces or cuts a block have in common. -/
structure Twins (resolver : ℕ → Option (ℕ × ℕ)) (line : ℕ) (span : List ℕ)
    (deferred concrete : List Edit) : Prop where
  resolves : resolveBlockEdits resolver deferred = some concrete
  isBlock : deferred.any Edit.isBlock = true
  notBlock : concrete.any Edit.isBlock = false
  sourceLines : deferred.flatMap Edit.sourceLines = []
  anchored : deferred.any Edit.isAnchorScoped = true
  concreteAnchored : concrete.any Edit.isAnchorScoped = true
  anchors : ∀ e ∈ deferred, ∀ l ∈ e.anchorLines, l = line
  concreteAnchors : ∀ e ∈ concrete, ∀ l ∈ e.anchorLines, l ∈ span

theorem mem_spanLines {start stop l : ℕ} : l ∈ spanLines start stop ↔ start ≤ l ∧ l ≤ stop := by
  rw [spanLines, mem_range'_1]
  omega

theorem mem_deleteRange {start stop lineNum : ℕ} {e : Edit} : e ∈ deleteRange start stop lineNum ↔
      ∃ l, (start ≤ l ∧ l ≤ stop) ∧ e = .delete l lineNum := by
  rw [deleteRange, mem_map]
  constructor
  · rintro ⟨l, hl, rfl⟩
    exact ⟨l, mem_spanLines.mp hl, rfl⟩
  rintro ⟨l, hl, rfl⟩
  exact ⟨l, mem_spanLines.mpr hl, rfl⟩

variable {payloads : List String}

theorem mem_payloadRows {cursor : Cursor} {lineNum : ℕ}
    {replacement : Bool} {blockStart : Option ℕ} {e : Edit}
    (he : e ∈ payloadRows cursor payloads lineNum replacement blockStart) :
    ∃ text, e = .insert cursor text lineNum replacement blockStart := by
  obtain ⟨text, -, htext⟩ := mem_map.mp he
  exact ⟨text, htext.symm⟩

theorem twins_replace {line lineNum : ℕ} {stop : ℕ}
    (hresolver : resolver line = some (line, stop)) (hlt : line < stop) :
    Twins resolver line (spanLines line stop) [.block line payloads .replace none lineNum]
      (payloadRows (.beforeAnchor line) payloads lineNum true none ++
        deleteRange line stop lineNum) := by
  have hmem : ∀ e ∈ payloadRows (.beforeAnchor line) payloads lineNum true none ++
      deleteRange line stop lineNum, e.isBlock = false ∧
        ∀ l ∈ e.anchorLines, l ∈ spanLines line stop := by
    intro e he
    rcases mem_append.mp he with hrow | hdelete
    · obtain ⟨text, rfl⟩ := mem_payloadRows hrow
      refine ⟨rfl, fun l hl => ?_⟩
      rw [mem_singleton.mp hl]
      exact mem_spanLines.mpr ⟨le_refl _, hlt.le⟩
    obtain ⟨l', hl', rfl⟩ := mem_deleteRange.mp hdelete
    refine ⟨rfl, fun l hl => ?_⟩
    rw [mem_singleton.mp hl]
    exact mem_spanLines.mpr hl'
  refine ⟨?_, rfl, ?_, rfl, rfl, ?_, ?_, fun e he => (hmem e he).2⟩
  · simp only [resolveBlockEdits, Edit.resolve, hresolver, if_neg hlt.ne, Option.isSome_none,
      Bool.false_eq_true, if_false]
    simp
  · rw [any_eq_false]
    intro e he
    rw [(hmem e he).1]
    exact Bool.false_ne_true
  · rw [any_eq_true]
    refine ⟨.delete line lineNum, mem_append_right _ ?_, rfl⟩
    exact mem_deleteRange.mpr ⟨line, ⟨le_refl _, hlt.le⟩, rfl⟩
  intro e he l hl
  rw [mem_singleton.mp he] at hl
  exact mem_singleton.mp hl

theorem twins_replacePaste {line lineNum : ℕ} {register : Option String} {stop : ℕ}
    (hregister : register.isSome = true) (hresolver : resolver line = some (line, stop))
    (hlt : line < stop) :
    Twins resolver line (spanLines line stop) [.block line [] .replace register lineNum]
      [.paste (.span line stop) register lineNum none] := by
  refine ⟨?_, rfl, rfl, rfl, rfl, rfl, ?_, ?_⟩
  · simp only [resolveBlockEdits, Edit.resolve, hresolver, if_neg hlt.ne, hregister, if_true]
    rfl
  · intro e he l hl
    rw [mem_singleton.mp he] at hl
    exact mem_singleton.mp hl
  intro e he l hl
  rw [mem_singleton.mp he] at hl
  exact hl

theorem twins_cut {line lineNum : ℕ} {register : Option String} {stop : ℕ}
    (hresolver : resolver line = some (line, stop)) (hlt : line < stop) :
    Twins resolver line (spanLines line stop) [.block line [] .cut register lineNum]
      (.cut line stop register lineNum :: deleteRange line stop lineNum) := by
  have hmem : ∀ e ∈ Edit.cut line stop register lineNum :: deleteRange line stop lineNum,
      e.isBlock = false ∧ ∀ l ∈ e.anchorLines, l ∈ spanLines line stop := by
    intro e he
    rcases mem_cons.mp he with rfl | hdelete
    · exact ⟨rfl, fun l hl => hl⟩
    obtain ⟨l', hl', rfl⟩ := mem_deleteRange.mp hdelete
    refine ⟨rfl, fun l hl => ?_⟩
    rw [mem_singleton.mp hl]
    exact mem_spanLines.mpr hl'
  refine ⟨?_, rfl, ?_, rfl, rfl, rfl, ?_, fun e he => (hmem e he).2⟩
  · simp only [resolveBlockEdits, Edit.resolve, hresolver, if_neg hlt.ne]
    simp
  · rw [any_eq_false]
    intro e he
    rw [(hmem e he).1]
    exact Bool.false_ne_true
  intro e he l hl
  rw [mem_singleton.mp he] at hl
  exact mem_singleton.mp hl

/-- A header that replaces or cuts a block and its concrete form: the parser throws on both, or
their edits are twins. -/
theorem Hunk.twins {n : ℕ} (hblock : h.blockLine = some n) (hres : h.Resolves resolver stop) :
    (h.flush = none ∧ (h.concrete stop).flush = none) ∨
      ∃ es cs, h.flush = some es ∧ (h.concrete stop).flush = some cs ∧
        Twins resolver n (spanLines n (stop n)) es cs := by
  obtain ⟨hresolver, hlt⟩ := hres n hblock
  rw [Hunk.blockLine] at hblock
  rw [Hunk.flush, Hunk.flush, Hunk.concrete]
  cases htarget : h.target with
  | block =>
    rw [htarget, Option.some.injEq] at hblock
    subst hblock
    dsimp only
    by_cases hregister : h.register.isSome = true
    · rw [if_pos hregister, if_pos hregister]
      exact Or.inr ⟨_, _, rfl, rfl, twins_replacePaste hregister hresolver hlt⟩
    rw [if_neg hregister, if_neg hregister]
    by_cases hempty : h.payloads = [] ∧ h.hadColon = false
    · rw [if_pos hempty, if_pos hempty]
      exact Or.inl ⟨rfl, rfl⟩
    rw [if_neg hempty, if_neg hempty]
    exact Or.inr ⟨_, _, rfl, rfl, twins_replace hresolver hlt⟩
  | cutBlock =>
    rw [htarget, Option.some.injEq] at hblock
    subst hblock
    exact Or.inr ⟨_, _, rfl, rfl, twins_cut hresolver hlt⟩
  | gap _ | replace _ _ | cut _ _ | insertAfterBlock _ =>
    rw [htarget] at hblock
    cases hblock

/-- A hunk's edits delete or paste over its header's lines only. -/
theorem Hunk.mem_lines {l : ℕ} (hl : l ∈ h.group.hunk.sourceLines) : l ∈ h.lines := by
  have hrows : ∀ (cursor : Cursor) (ps : List String) (k : ℕ) (r : Bool) (b : Option ℕ),
      l ∉ (payloadRows cursor ps k r b).flatMap Edit.sourceLines := by
    intro cursor ps k r b hmem
    obtain ⟨e, he, hle⟩ := mem_flatMap.mp hmem
    obtain ⟨text, rfl⟩ := mem_payloadRows he
    cases hle
  have hdeletes : ∀ start stop k, l ∈ (deleteRange start stop k).flatMap Edit.sourceLines →
      l ∈ spanLines start stop := by
    intro start stop k hmem
    obtain ⟨e, he, hle⟩ := mem_flatMap.mp hmem
    obtain ⟨l', hl', rfl⟩ := mem_deleteRange.mp he
    rw [mem_singleton.mp hle]
    exact mem_spanLines.mpr hl'
  change l ∈ (h.flush.getD []).flatMap Edit.sourceLines at hl
  rw [Hunk.flush] at hl
  rw [Hunk.lines]
  cases htarget : h.target with
  | cut start stop =>
    rw [htarget] at hl
    exact hdeletes start stop h.lineNum hl
  | replace start stop =>
    rw [htarget] at hl
    dsimp only at hl ⊢
    split at hl
    · simpa only [Option.getD_some, flatMap_cons, flatMap_nil, append_nil,
        Edit.sourceLines] using hl
    split at hl
    · cases hl
    rw [Option.getD_some, flatMap_append] at hl
    rcases mem_append.mp hl with hrow | hdelete
    · exact absurd hrow (hrows _ _ _ _ _)
    · exact hdeletes start stop h.lineNum hdelete
  | block =>
    rw [htarget] at hl
    dsimp only at hl
    split at hl
    · cases hl
    · split at hl <;> cases hl
  | cutBlock =>
    rw [htarget] at hl
    cases hl
  | insertAfterBlock =>
    rw [htarget] at hl
    dsimp only at hl
    split at hl
    · cases hl
    · split at hl <;> cases hl
  | gap =>
    rw [htarget] at hl
    dsimp only at hl
    split at hl
    · cases hl
    split at hl
    · cases hl
    · exact absurd hl (hrows _ _ _ _ _)

/-! ### The check on the two sections -/

/-- Hunks without lines do not take part in the check. -/
theorem normalize_skip {α : Type} (f : α → ConcreteHunk) (p : α → Bool) (xs : List α)
    (hxs : ∀ x ∈ xs, p x = false → (f x).sourceLines = []) :
    ∀ owners dropped, normalize owners dropped (xs.map f) =
      normalize owners dropped ((xs.filter p).map f) := by
  induction xs with
  | nil =>
    intro owners dropped
    rfl
  | cons x xs ih =>
    intro owners dropped
    rw [forall_mem_cons] at hxs
    have htail := ih hxs.2
    rw [map_cons, filter_cons]
    cases hp : p x with
    | false =>
      rw [normalize, if_pos (hxs.1 hp), htail]
      rfl
    | true =>
      rw [if_pos rfl, map_cons, normalize, normalize]
      split
      · exact htail owners dropped
      split
      · exact htail _ _
      · split
        · exact htail _ _
        · rfl
      · rfl

/-- By induction on the hunks: those that meet no other hunk do not change what the check makes
of the rest. The tag says that a hunk is one of the rest. -/
theorem normalize_apart (ts : List (Bool × ConcreteHunk)) :
    ∀ (os : List (Bool × ConcreteHunk)) (dropped : List ℕ),
      (∀ o ∈ os, ∀ t ∈ ts, (o.1 = false ∨ t.1 = false) → o.2.meets t.2 = false) →
      ts.Pairwise (fun a b => (a.1 = false ∨ b.1 = false) → a.2.meets b.2 = false) →
      normalize (os.map Prod.snd) dropped (ts.map Prod.snd) =
        normalize ((os.filter Prod.fst).map Prod.snd) dropped
          ((ts.filter Prod.fst).map Prod.snd) := by
  induction ts with
  | nil =>
    intro os dropped _ _
    rfl
  | cons t ts ih =>
    intro os dropped howners hpairs
    obtain ⟨hhead, htail⟩ := pairwise_cons.mp hpairs
    have hrest : ∀ o ∈ os, ∀ t' ∈ ts, (o.1 = false ∨ t'.1 = false) → o.2.meets t'.2 = false :=
      fun o ho t' ht' => howners o ho t' (mem_cons_of_mem t ht')
    have hjoined : ∀ os' : List (Bool × ConcreteHunk), os' ⊆ os →
        ∀ o ∈ os' ++ [t], ∀ t' ∈ ts, (o.1 = false ∨ t'.1 = false) → o.2.meets t'.2 = false := by
      intro os' hsub o ho t' ht'
      rcases mem_append.mp ho with hold | hnew
      · exact hrest o (hsub hold) t' ht'
      rw [mem_singleton.mp hnew]
      exact hhead t' ht'
    -- the owners that share a line with the hunk are among the rest
    have hmet : (os.map Prod.snd).filter (fun o => o.meets t.2) =
        ((os.filter Prod.fst).map Prod.snd).filter (fun o => o.meets t.2) := by
      rw [filter_map, filter_map, filter_filter]
      congr 1
      apply filter_congr
      intro o ho
      cases hplain : o.1 with
      | true => simp
      | false =>
        have hapart := howners o ho t (mem_cons_self ..) (Or.inl hplain)
        simpa using hapart
    have hleft : ∀ q : ConcreteHunk → Bool,
        ((os.filter fun o => q o.2).filter Prod.fst).map Prod.snd =
          ((os.filter Prod.fst).map Prod.snd).filter q := by
      intro q
      rw [filter_map, filter_filter, filter_filter]
      congr 1
      apply filter_congr
      intro o _
      exact Bool.and_comm ..
    rw [map_cons, filter_cons, normalize]
    cases hplain : t.1 with
    | false =>
      have hnone : (os.map Prod.snd).filter (fun o => o.meets t.2) = [] := by
        rw [filter_eq_nil_iff]
        intro o ho
        obtain ⟨o', ho', rfl⟩ := mem_map.mp ho
        rw [howners o' ho' t (mem_cons_self ..) (Or.inr hplain)]
        exact Bool.false_ne_true
      rw [if_neg Bool.false_ne_true]
      split
      · exact ih os dropped hrest htail
      rw [hnone]
      have hgo := ih (os ++ [t]) dropped (hjoined os (List.Subset.refl os)) htail
      rw [map_append, filter_append, map_append] at hgo
      simpa only [map_cons, map_nil, filter_cons, hplain, Bool.false_eq_true,
        if_false, filter_nil, append_nil] using hgo
    | true =>
      rw [if_pos rfl, map_cons, normalize]
      split
      · exact ih os dropped hrest htail
      rw [← hmet]
      split
      case h_1 =>
        have hgo := ih (os ++ [t]) dropped (hjoined os (List.Subset.refl os)) htail
        rw [map_append, filter_append, map_append] at hgo
        simpa only [map_cons, map_nil, filter_cons, hplain, if_true, filter_nil] using hgo
      case h_2 previous _ =>
        split
        · have hsub : (os.filter fun o => !o.2.meets t.2) ⊆ os := filter_subset_self _
          have hgo := ih ((os.filter fun o => !o.2.meets t.2) ++ [t])
            (dropped ++ [previous.lineNum]) (hjoined _ hsub) htail
          rw [map_append, filter_append, map_append, hleft fun o => !o.meets t.2] at hgo
          rw [filter_map]
          simpa only [Function.comp_def, map_cons, map_nil, filter_cons, hplain,
            if_true, filter_nil] using hgo
        · rfl
      case h_3 => rfl

/-- The parser throws on a hunk. -/
theorem groups_eq (hunks : List Hunk) :
    groups hunks = if hunks.all (fun h => h.flush.isSome) then some (hunks.map Hunk.group)
      else none := by
  induction hunks with
  | nil => rfl
  | cons h hunks ih =>
    rw [groups, ih, all_cons, map_cons, Hunk.group]
    cases h.flush with
    | none => rfl
    | some =>
      cases hunks.all fun h => h.flush.isSome <;> rfl

theorem Hunk.concrete_flush_isSome (hres : h.Resolves resolver stop) :
    (h.concrete stop).flush.isSome = h.flush.isSome := by
  cases hblock : h.blockLine with
  | none => rw [Hunk.concrete_of_plain hblock]
  | some =>
    rcases Hunk.twins hblock hres with ⟨hn, hcn⟩ | ⟨es, cs, hes, hcs, -⟩
    · rw [hn, hcn]
    rw [hes, hcs]
    rfl

/-- No line of a block is also a line of another header. -/
def Apart (stop : ℕ → ℕ) (hunks : List Hunk) : Prop :=
  hunks.Pairwise fun a b => (a.blockLine ≠ none ∨ b.blockLine ≠ none) →
    ∀ l ∈ (a.concrete stop).lines, l ∉ (b.concrete stop).lines

theorem not_meets_of_lines {a b : Hunk} (h : ∀ l ∈ a.lines, l ∉ b.lines) :
    a.group.hunk.meets b.group.hunk = false := by
  rw [ConcreteHunk.meets, any_eq_false]
  intro l hl hcontains
  exact h l (Hunk.mem_lines hl) (Hunk.mem_lines (contains_iff_mem.mp hcontains))

variable {hunks : List Hunk}

/-- The check drops the same headers in both forms, or throws on both. -/
theorem normalize_concrete (hres : ∀ h ∈ hunks, h.Resolves resolver stop)
    (hapart : Apart stop hunks) :
    normalize [] [] (((hunks.map (Hunk.concrete stop)).map Hunk.group).map Group.hunk) =
      normalize [] [] ((hunks.map Hunk.group).map Group.hunk) := by
  -- the deferred headers have no lines yet
  have hdeferred : normalize [] [] (hunks.map fun h => h.group.hunk) =
      normalize [] [] ((hunks.filter fun h => h.blockLine.isNone).map fun h => h.group.hunk) := by
    apply normalize_skip
    intro h hh hblock
    obtain ⟨n, hn⟩ := Option.isSome_iff_exists.mp (Option.isNone_eq_false_iff.mp hblock)
    change (h.flush.getD []).flatMap Edit.sourceLines = []
    rcases Hunk.twins hn (hres h hh) with ⟨hnone, -⟩ | ⟨es, cs, hes, -, htwins⟩
    · rw [hnone]
      rfl
    rw [hes]
    exact htwins.sourceLines
  -- the concrete ones meet no other
  have hconcrete := normalize_apart
    (hunks.map fun h => (h.blockLine.isNone, (h.concrete stop).group.hunk)) [] []
    (fun o ho => by cases ho) ?_
  · rw [map_map, map_map, map_map]
    rw [filter_nil, map_nil, map_map, filter_map, map_map] at hconcrete
    refine Eq.trans hconcrete (Eq.trans ?_ hdeferred.symm)
    congr 1
    apply map_congr_left
    intro h hh
    have hplain : h.blockLine = none := Option.isNone_iff_eq_none.mp (mem_filter.mp hh).2
    change (h.concrete stop).group.hunk = h.group.hunk
    rw [Hunk.concrete_of_plain hplain]
  rw [pairwise_map]
  refine hapart.imp ?_
  intro a b hab htags
  apply not_meets_of_lines
  apply hab
  rcases htags with htag | htag
  · exact Or.inl fun hnone => by rw [hnone] at htag; cases htag
  · exact Or.inr fun hnone => by rw [hnone] at htag; cases htag

/-! ### The edits of the two sections -/

/-- What the two forms of a section have in common. -/
structure SameSection (resolver : ℕ → Option (ℕ × ℕ)) (seenLines : List ℕ)
    (deferred concrete : List Edit) : Prop where
  resolves : resolveBlockEdits resolver deferred = resolveBlockEdits resolver concrete
  anchored : deferred.any Edit.isAnchorScoped = concrete.any Edit.isAnchorScoped
  unseen : unseen seenLines deferred = unseen seenLines concrete
  blocks : concrete.any Edit.isBlock = true → deferred.any Edit.isBlock = true
  replaced : deferred.any Edit.isBlock = true → concrete.any Edit.isBlock = false →
    concrete.any Edit.isAnchorScoped = true

/-- Every line of every block was shown, or there is nothing to compare. -/
def Shown (stop : ℕ → ℕ) (seenLines : List ℕ) (hunks : List Hunk) : Prop :=
  seenLines ≠ [] → ∀ h ∈ hunks, ∀ n, h.blockLine = some n →
    ∀ l ∈ spanLines n (stop n), l ∈ seenLines

theorem unseen_append (seenLines : List ℕ) (as bs : List Edit) :
    unseen seenLines (as ++ bs) = (unseen seenLines as || unseen seenLines bs) := by
  rw [unseen, unseen, unseen, any_append]
  cases seenLines.isEmpty <;> rfl

variable {seenLines : List ℕ}

theorem unseen_eq_false (hes : seenLines ≠ [] → ∀ e ∈ es, ∀ l ∈ e.anchorLines, l ∈ seenLines) :
    unseen seenLines es = false := by
  rw [unseen]
  cases seenLines with
  | nil => rfl
  | cons x xs =>
    rw [isEmpty_cons, Bool.not_false, Bool.true_and, any_eq_false]
    intro e he hany
    obtain ⟨l, hl, hnot⟩ := any_eq_true.mp hany
    have hmem := hes (cons_ne_nil x xs) e he l hl
    rw [contains_iff_mem.mpr hmem] at hnot
    cases hnot

theorem sameSection_refl (seenLines : List ℕ) : SameSection resolver seenLines es es := by
  refine ⟨rfl, rfl, rfl, fun h => h, fun h hnot => ?_⟩
  rw [h] at hnot
  cases hnot

theorem SameSection.append {seenLines : List ℕ} {as as' bs bs' : List Edit}
    (h₁ : SameSection resolver seenLines as as') (h₂ : SameSection resolver seenLines bs bs') :
    SameSection resolver seenLines (as ++ bs) (as' ++ bs') := by
  refine ⟨?_, ?_, ?_, ?_, ?_⟩
  · rw [resolveBlockEdits_append, resolveBlockEdits_append, h₁.resolves, h₂.resolves]
  · rw [any_append, any_append, h₁.anchored, h₂.anchored]
  · rw [unseen_append, unseen_append, h₁.unseen, h₂.unseen]
  · rw [any_append, any_append, Bool.or_eq_true, Bool.or_eq_true]
    exact Or.imp h₁.blocks h₂.blocks
  rw [any_append, any_append, any_append, Bool.or_eq_true, Bool.or_eq_false_iff, Bool.or_eq_true]
  rintro (hblock | hblock) ⟨hn₁, hn₂⟩
  · exact Or.inl (h₁.replaced hblock hn₁)
  · exact Or.inr (h₂.replaced hblock hn₂)

theorem Hunk.sameSection (hres : h.Resolves resolver stop) (hshown : Shown stop seenLines [h]) :
    SameSection resolver seenLines h.group.edits (h.concrete stop).group.edits := by
  cases hblock : h.blockLine with
  | none =>
    rw [Hunk.concrete_of_plain hblock]
    exact sameSection_refl seenLines
  | some n =>
    change SameSection resolver seenLines (h.flush.getD []) ((h.concrete stop).flush.getD [])
    rcases Hunk.twins hblock hres with ⟨hn, hcn⟩ | ⟨es, cs, hes, hcs, htwins⟩
    · rw [hn, hcn]
      exact sameSection_refl seenLines
    rw [hes, hcs, Option.getD_some, Option.getD_some]
    have hspan : seenLines ≠ [] → ∀ l ∈ spanLines n (stop n), l ∈ seenLines := fun hne =>
      hshown hne h (mem_singleton_self h) n hblock
    have hfirst : n ∈ spanLines n (stop n) := mem_spanLines.mpr ⟨le_refl n, (hres n hblock).2.le⟩
    refine ⟨?_, ?_, ?_, ?_, ?_⟩
    · rw [htwins.resolves, resolveBlockEdits_of_not_block htwins.notBlock]
    · rw [htwins.anchored, htwins.concreteAnchored]
    · have hdeferred : unseen seenLines es = false := by
        apply unseen_eq_false
        intro hne e he l hl
        rw [htwins.anchors e he l hl]
        exact hspan hne n hfirst
      have hconcrete : unseen seenLines cs = false := by
        apply unseen_eq_false
        intro hne e he l hl
        exact hspan hne l (htwins.concreteAnchors e he l hl)
      rw [hdeferred, hconcrete]
    · intro _
      exact htwins.isBlock
    intro _ _
    exact htwins.concreteAnchored

theorem sameSection_flatMap
    (hres : ∀ h ∈ hunks, h.Resolves resolver stop) (hshown : Shown stop seenLines hunks) :
    SameSection resolver seenLines (hunks.flatMap fun h => h.group.edits)
      (hunks.flatMap fun h => (h.concrete stop).group.edits) := by
  induction hunks with
  | nil => exact sameSection_refl seenLines
  | cons h hunks ih =>
    rw [forall_mem_cons] at hres
    rw [flatMap_cons, flatMap_cons]
    apply SameSection.append
    · apply Hunk.sameSection hres.1
      intro hne h' hh'
      rw [mem_singleton.mp hh']
      exact hshown hne h (mem_cons_self ..)
    apply ih hres.2
    intro hne h' hh'
    exact hshown hne h' (mem_cons_of_mem h hh')

/-- The headers the check has left are the same ones in both forms. -/
theorem keptEdits_map (f : Hunk → Hunk) (hf : ∀ h, (f h).lineNum = h.lineNum) (dropped : List ℕ)
    (hunks : List Hunk) :
    keptEdits dropped ((hunks.map f).map Hunk.group) =
      (hunks.filter fun h => !dropped.contains h.lineNum).flatMap fun h => (f h).group.edits := by
  rw [keptEdits, map_map, filter_map, flatMap_map]
  have hsame : ((fun g : Group => !dropped.contains g.lineNum) ∘ (Hunk.group ∘ f)) =
      fun h => !dropped.contains h.lineNum := by
    funext h
    change (!dropped.contains (f h).lineNum) = _
    rw [hf]
  rw [hsame]
  rfl

/-- Both sections are rejected by the parser, or their edits have everything in common. -/
theorem parse_concrete (hres : ∀ h ∈ hunks, h.Resolves resolver stop) (hapart : Apart stop hunks)
    (hshown : Shown stop seenLines hunks) :
    (parse hunks = none ∧ parse (hunks.map (Hunk.concrete stop)) = none) ∨
      ∃ es cs, parse hunks = some es ∧ parse (hunks.map (Hunk.concrete stop)) = some cs ∧
        SameSection resolver seenLines es cs := by
  have hflush : (hunks.map (Hunk.concrete stop)).all (fun h => h.flush.isSome) =
      hunks.all fun h => h.flush.isSome := by
    rw [all_map, Bool.eq_iff_iff, all_eq_true, all_eq_true]
    refine forall_congr' fun h => forall_congr' fun hh => ?_
    rw [Function.comp_apply, Hunk.concrete_flush_isSome (hres h hh)]
  have hcheck := normalize_concrete hres hapart
  rw [parse, parse, groups_eq, groups_eq, hflush]
  cases hunks.all fun h => h.flush.isSome with
  | false => exact Or.inl ⟨rfl, rfl⟩
  | true =>
    rw [if_pos rfl, if_pos rfl]
    dsimp only [Option.bind_eq_bind, Option.bind_some]
    rw [hcheck]
    cases normalize [] [] ((hunks.map Hunk.group).map Group.hunk) with
    | none => exact Or.inl ⟨rfl, rfl⟩
    | some dropped =>
      refine Or.inr ⟨_, _, rfl, rfl, ?_⟩
      have hplain := keptEdits_map id (fun _ => rfl) dropped hunks
      rw [map_id] at hplain
      rw [hplain, keptEdits_map (Hunk.concrete stop) (Hunk.concrete_lineNum stop)]
      apply sameSection_flatMap
      · intro h hh
        exact hres h (mem_filter.mp hh).1
      intro hne h hh
      exact hshown hne h (mem_filter.mp hh).1

/-! ### The outcome -/

/-- Sections with everything in common have one outcome. -/
theorem applyWithRecovery_congr {κ : Type} (env : Env κ) {es cs : List Edit}
    (hrecover : env.snapshot = false → ∀ edits, env.tryRecover edits = none)
    (hsame : SameSection env.resolver env.seenLines es cs) :
    applyWithRecovery env es = applyWithRecovery env cs := by
  rw [applyWithRecovery, applyWithRecovery, hsame.resolves, hsame.unseen]
  by_cases hstale : (env.tagged && !env.liveMatches && !env.snapshot) = true
  · -- the file has drifted and the snapshot is gone
    simp only [Bool.and_eq_true, Bool.not_eq_true'] at hstale
    obtain ⟨⟨htagged, hlive⟩, hsnapshot⟩ := hstale
    simp only [htagged, hlive, hsnapshot, Bool.not_false, Bool.and_true, Bool.not_true,
      Bool.or_false, Bool.false_eq_true, if_false]
    cases hdeferred : es.any Edit.isBlock with
    | false =>
      have hconcrete : cs.any Edit.isBlock = false := by
        rw [← Bool.not_eq_true]
        intro hblock
        rw [hsame.blocks hblock] at hdeferred
        cases hdeferred
      rw [hconcrete]
    | true =>
      cases hconcrete : cs.any Edit.isBlock with
      | true => rfl
      | false =>
        have hanchored := hsame.replaced hdeferred hconcrete
        rw [resolveBlockEdits_of_not_block hconcrete]
        simp only [Option.bind_eq_bind, Option.bind_some, hanchored, hrecover hsnapshot,
          Bool.true_eq_false, Bool.false_eq_true, if_false, ite_self]
  rw [Bool.not_eq_true] at hstale
  have hguard : ∀ es : List Edit,
      (es.any Edit.isBlock && env.tagged && !env.liveMatches && !env.snapshot) = false := by
    intro es
    rw [Bool.and_assoc, Bool.and_assoc, ← Bool.and_assoc env.tagged, hstale, Bool.and_false]
  rw [hguard, hguard]

/-- The inserts of a list that `p` takes, as their texts. -/
def insertTexts (p : Cursor → Bool → Bool) (edits : List Edit) : List String :=
  edits.filterMap fun
    | .insert cursor text _ replacement _ => if p cursor replacement then some text else none
    | _ => none

/-- `materializeEdits` on inserts at lines and deletes: what stands in front of a line, what
replaces it, the line unless it is deleted, and what stands behind it. -/
def materializeEdits (lines : List String) (edits : List Edit) : List String :=
  (lines.zipIdx 1).flatMap fun (text, line) =>
    insertTexts (fun cursor replacement => cursor = .beforeAnchor line && !replacement) edits ++
      insertTexts (fun cursor replacement => cursor = .beforeAnchor line && replacement) edits ++
      (if edits.any fun | .delete l _ => l == line | _ => false then [] else [text]) ++
      insertTexts (fun cursor replacement => cursor = .afterAnchor line && !replacement) edits

/-- A file of five lines whose second one opens a block of three. The tag names the live text,
and the reader was shown the lines `seenLines`. -/
def fiveLines (seenLines : List ℕ) : Env (List String) where
  resolver := fun line => if line = 2 then some (2, 4) else none
  tagged := true
  liveMatches := true
  snapshot := true
  seenLines := seenLines
  preflight := fun _ => true
  validateClipboardSequence := fun _ => true
  applyEdits := fun edits => some (materializeEdits ["a", "b", "c", "d", "e"] edits)
  tryRecover := fun _ => none

/-- `PUT 2*:` with the body `X`. -/
def putBlock : Hunk :=
  { lineNum := 1, target := .block 2, payloads := ["X"] }

/-- `PUT 3.=3:` with the body `Y`. -/
def putInside : Hunk :=
  { lineNum := 3, target := .replace 3 3, payloads := ["Y"] }

/-- `PUT 5.=5:` with the body `Y`. -/
def putBehind : Hunk :=
  { lineNum := 3, target := .replace 5 5, payloads := ["Y"] }

end BreadboardTui.Hashline.BlockEdits
