import BreadboardTui.Hashline.BlockEdits
import BreadboardTui.Js.Collections

/-!
# Registers

A `CUT` keeps the lines that it takes out in a register, and a `PUT` without a body writes the lines
of a register. Named registers outlive a batch of sections: a batch works on a copy of the host's
registers, and when its writes land it publishes the copy.

* `resolveClipboardEdits`: the edits without cuts and pastes, and the registers behind them.
* `startClipboardBatch`, `commitClipboard`: a batch's copy and its way back.
-/

namespace BreadboardTui.Hashline

open BlockEdits Option

/-- The registers. -/
structure Clipboard where
  /-- The anonymous register, of the batch only. -/
  lines : Option (List String) := none
  named : Option (JsMap String (List String)) := none
  /-- The headers of the unlabeled cuts since the last unlabeled paste. -/
  pendingAnonCuts : Option (List String) := none
  deriving DecidableEq, Repr

namespace Clipboard

/-- The lines of a named register. -/
def register (clipboard : Clipboard) (name : String) : Option (List String) :=
  JsMap.get (clipboard.named.getD []) name

end Clipboard

/-! ### Messages -/

def registerSuffix (register : Option String) : String :=
  match register with
  | some name => " @" ++ name
  | none => ""

def describeCutEdit (start stop : ℕ) (register : Option String) : String :=
  "CUT " ++ (if start = stop then toString start else toString start ++ ".=" ++ toString stop) ++
    registerSuffix register

/-- The registers that a reader may have meant. -/
def availableRegisters (base : String) (known : List String) : String :=
  if known = [] then base
  else
    base ++ " Available registers: " ++
      ", ".intercalate (known.map fun name => "`@" ++ name ++ "`") ++ "."

def emptyRegisterPasteWarning (name : String) (known : List String) : String :=
  availableRegisters
    ("`@" ++ name ++ "` was empty — no `CUT … @" ++ name ++
      "` precedes this op in this call and no persisted register has that name — so nothing was pasted.")
    known

def emptyRegisterSpanPasteMessage (name : String) (known : List String) : String :=
  availableRegisters
    ("`@" ++ name ++ "` is empty — no `CUT … @" ++ name ++
      "` precedes this op in this call and no persisted register " ++
      "has that name — so pasting it over a range would delete those lines and write nothing back. " ++
      "Capture the register first (`CUT … @" ++ name ++
      "`), or use `CUT` if deleting the range is what you meant.")
    known

def ambiguousAnonymousPasteMessage (pending : List String) : String :=
  toString pending.length ++ " unlabeled `CUT`s are pending (" ++ ", ".intercalate pending ++
    ") — an unlabeled paste cannot tell which one you meant. " ++
    "Label the moves (`CUT … @name` → `PUT … @name`), or keep at most one unlabeled `CUT` before each unlabeled paste."

def emptyPaste : String :=
  "Nothing to paste: no unlabeled `CUT` precedes this `PUT` in this call, and the anonymous register never carries across calls. Put `CUT N.=M` / `CUT N*` above it, or use named registers (`CUT … @name` → `PUT … @name`) for cross-call moves."

/-- An error or a warning about an op on a line of the patch. -/
def atLine (lineNum : ℕ) (message : String) : String :=
  "line " ++ toString lineNum ++ ": " ++ message

def outOfRangeMessage (op : String) (fileLines : List String) : String :=
  "`" ++ op ++ "` is out of range (file has " ++ toString fileLines.length ++ " lines)."

/-! ### Reading and writing registers -/

/-- What a read of a register gives: its lines, or `none` where the paste is dropped. -/
structure RegisterRead where
  lines : Option (List String)
  clipboard : Clipboard
  warnings : List String

/-- `readRegister`; `dropEmpty` stands for `onEmptyPaste === "drop"`. -/
def readRegister (register : Option String) (overSpan : Bool) (clipboard : Clipboard)
    (lineNum : ℕ) (dropEmpty : Bool) : Except String RegisterRead :=
  match register with
  | some name =>
    match clipboard.register name with
    | some lines => .ok ⟨some lines, clipboard, []⟩
    | none =>
      let known := (clipboard.named.getD []).map Prod.fst
      if dropEmpty then .ok ⟨none, clipboard, []⟩
      else if overSpan then .error (atLine lineNum (emptyRegisterSpanPasteMessage name known))
      else .ok ⟨some [], clipboard, [atLine lineNum (emptyRegisterPasteWarning name known)]⟩
  | none =>
    let pending := clipboard.pendingAnonCuts.getD []
    if 1 < pending.length then
      if dropEmpty then .ok ⟨none, clipboard, []⟩
      else .error (atLine lineNum (ambiguousAnonymousPasteMessage pending))
    else
      match clipboard.lines with
      | none =>
        if dropEmpty then .ok ⟨none, clipboard, []⟩ else .error (atLine lineNum emptyPaste)
      -- a read of the anonymous register settles which cut was meant
      | some lines => .ok ⟨some lines, { clipboard with pendingAnonCuts := some [] }, []⟩

/-- The lines of a file that a cut captures. -/
def captured (start stop : ℕ) (fileLines : List String) : List String :=
  (fileLines.drop (start - 1)).take (stop - (start - 1))

def writeRegister (start stop : ℕ) (register : Option String) (lineNum : ℕ)
    (fileLines : List String) (clipboard : Clipboard) : Except String Clipboard :=
  if start < 1 ∨ fileLines.length < stop then
    .error (atLine lineNum (outOfRangeMessage (describeCutEdit start stop register) fileLines))
  else
    match register with
    | some name =>
      .ok { clipboard with
        named := some (JsMap.set name (captured start stop fileLines) (clipboard.named.getD [])) }
    | none =>
      .ok { clipboard with
        lines := some (captured start stop fileLines),
        pendingAnonCuts := some (clipboard.pendingAnonCuts.getD [] ++
          [describeCutEdit start stop none]) }

/-! ### Resolving the edits of a section -/

/-- The edit reads or writes a register. -/
def isClipboardEdit : Edit → Bool
  | .cut _ _ _ _ | .paste _ _ _ _ => true
  | .block _ _ op register _ => op = .cut || op = .pasteAfter || register.isSome
  | .insert _ _ _ _ _ | .delete _ _ => false

def hasClipboardEdit (edits : List Edit) : Bool := edits.any isClipboardEdit

/-- The plain edits of a paste. -/
def pasteEdits (target : PasteTarget) (register : Option String) (lineNum : ℕ)
    (blockStart : Option ℕ) (lines fileLines : List String) : Except String (List Edit) :=
  match target with
  | .gap cursor => .ok (payloadRows cursor lines lineNum false blockStart)
  | .span start stop =>
    if start < 1 ∨ fileLines.length < stop then
      .error (atLine lineNum (outOfRangeMessage
        ("PUT " ++ toString start ++ ".=" ++ toString stop ++ registerSuffix register) fileLines))
    else
      .ok (payloadRows (.beforeAnchor start) lines lineNum true none ++
        deleteRange start stop lineNum)

/-- The plain edits of a paste that may have been dropped. -/
def pasteRead (target : PasteTarget) (register : Option String) (lineNum : ℕ)
    (blockStart : Option ℕ) (lines : Option (List String)) (fileLines : List String) :
    Except String (List Edit) :=
  match lines with
  | none => .ok []
  | some lines => pasteEdits target register lineNum blockStart lines fileLines

/-- The edits without cuts and pastes, the registers, and the warnings. -/
structure Resolved where
  edits : List Edit
  clipboard : Clipboard
  warnings : List String

/-- The target of a paste is a span. -/
def isSpan : PasteTarget → Bool
  | .gap _ => false
  | .span _ _ => true

/-- The loop of `resolveClipboardEdits`. -/
def resolveLoop (fileLines : List String) (dropEmpty : Bool) (clipboard : Clipboard) :
    List Edit → Except String Resolved
  | [] => .ok ⟨[], clipboard, []⟩
  | .cut start stop register lineNum :: edits => do
    let written ← writeRegister start stop register lineNum fileLines clipboard
    resolveLoop fileLines dropEmpty written edits
  | .paste target register lineNum blockStart :: edits => do
    let read ← readRegister register (isSpan target) clipboard lineNum dropEmpty
    let here ← pasteRead target register lineNum blockStart read.lines fileLines
    let rest ← resolveLoop fileLines dropEmpty read.clipboard edits
    .ok ⟨here ++ rest.edits, rest.clipboard, read.warnings ++ rest.warnings⟩
  | edit :: edits => do
    let rest ← resolveLoop fileLines dropEmpty clipboard edits
    .ok { rest with edits := edit :: rest.edits }

def resolveClipboardEdits (edits : List Edit) (fileLines : List String) (clipboard : Clipboard)
    (dropEmpty : Bool) : Except String Resolved :=
  if hasClipboardEdit edits then resolveLoop fileLines dropEmpty clipboard edits
  else .ok ⟨edits, clipboard, []⟩

/-! ### Batches -/

def startClipboardBatch (source : Option Clipboard) : Clipboard :=
  match source.bind Clipboard.named with
  | none => {}
  | some named => { named := some named }

/-- A copy, which is the registers themselves here. -/
def forkClipboard (source : Option Clipboard) : Clipboard := source.getD {}

/-- The registers of `fork` are set in `target`, one after the other. -/
def publishNamed (fork target : JsMap String (List String)) : JsMap String (List String) :=
  fork.foldl (fun named entry => JsMap.set entry.1 entry.2 named) target

def commitClipboard (fork target : Clipboard) : Clipboard :=
  match fork.named with
  | none => target
  | some named => { target with named := some (publishNamed named (target.named.getD [])) }

/-! ### What the cuts of a section write -/

/-- The named registers once the cuts of a section have been executed. -/
def cutRegisters (fileLines : List String) (registers : String → Option (List String)) :
    List Edit → String → Option (List String)
  | [] => registers
  | .cut start stop (some name) _ :: edits =>
    cutRegisters fileLines
      (fun r => if r = name then some (captured start stop fileLines) else registers r) edits
  | _ :: edits => cutRegisters fileLines registers edits

variable {fileLines : List String} {dropEmpty : Bool} {clipboard : Clipboard} {edits : List Edit}

/-- A computation in two parts that has a result has one of the first part. -/
theorem exists_of_bind_ok {α β : Type} {x : Except String α} {f : α → Except String β} {b : β}
    (h : (x >>= f) = .ok b) : ∃ a, x = .ok a ∧ f a = .ok b := by
  cases x with
  | error => cases h
  | ok a => exact ⟨a, rfl, h⟩

variable {register : Option String}

theorem named_writeRegister {start stop lineNum : ℕ} {written : Clipboard}
    (h : writeRegister start stop register lineNum fileLines clipboard = .ok written) :
    written.named =
      match register with
      | some name =>
        some (JsMap.set name (captured start stop fileLines) (clipboard.named.getD []))
      | none => clipboard.named := by
  simp only [writeRegister] at h
  split at h
  · cases h
  cases register with
  | none =>
    cases h
    rfl
  | some =>
    cases h
    rfl

theorem named_readRegister {overSpan : Bool} {lineNum : ℕ} {read : RegisterRead}
    (h : readRegister register overSpan clipboard lineNum dropEmpty = .ok read) :
    read.clipboard.named = clipboard.named := by
  simp only [readRegister] at h
  repeat' split at h
  all_goals cases h
  all_goals rfl

variable {resolved : Resolved}

/-- The first step of the loop: a cut writes its register, and no other edit changes a named
one. -/
theorem resolveLoop_cons {edit : Edit}
    (h : resolveLoop fileLines dropEmpty clipboard (edit :: edits) = .ok resolved) :
    ∃ next rest, resolveLoop fileLines dropEmpty next edits = .ok rest ∧
      rest.clipboard = resolved.clipboard ∧
        match edit with
        | .cut start stop register lineNum =>
          writeRegister start stop register lineNum fileLines clipboard = .ok next
        | _ => next.named = clipboard.named := by
  cases edit with
  | cut =>
    obtain ⟨written, hwrite, hrest⟩ := exists_of_bind_ok h
    exact ⟨written, resolved, hrest, rfl, hwrite⟩
  | paste =>
    obtain ⟨read, hread, h⟩ := exists_of_bind_ok h
    obtain ⟨here, -, h⟩ := exists_of_bind_ok h
    obtain ⟨rest, hrest, h⟩ := exists_of_bind_ok h
    cases h
    exact ⟨read.clipboard, rest, hrest, rfl, named_readRegister hread⟩
  | insert =>
    obtain ⟨rest, hrest, h⟩ := exists_of_bind_ok h
    cases h
    exact ⟨clipboard, rest, hrest, rfl, rfl⟩
  | delete =>
    obtain ⟨rest, hrest, h⟩ := exists_of_bind_ok h
    cases h
    exact ⟨clipboard, rest, hrest, rfl, rfl⟩
  | block =>
    obtain ⟨rest, hrest, h⟩ := exists_of_bind_ok h
    cases h
    exact ⟨clipboard, rest, hrest, rfl, rfl⟩

theorem register_eq_of_named {clipboard' : Clipboard}
    (h : clipboard'.named = clipboard.named) : clipboard'.register = clipboard.register := by
  funext r
  rw [Clipboard.register, h, Clipboard.register]

theorem register_resolveLoop (h : resolveLoop fileLines dropEmpty clipboard edits = .ok resolved) :
    resolved.clipboard.register = cutRegisters fileLines clipboard.register edits := by
  induction edits generalizing clipboard resolved with
  | nil =>
    cases h
    rfl
  | cons edit edits ih =>
    obtain ⟨next, rest, hrest, hclipboard, hstep⟩ := resolveLoop_cons h
    rw [← hclipboard, ih hrest]
    cases edit with
    | cut start stop register =>
      have hnamed := named_writeRegister hstep
      cases register with
      | none => rw [register_eq_of_named hnamed, cutRegisters]; simp
      | some =>
        rw [cutRegisters]
        congr 1
        funext r
        rw [Clipboard.register, hnamed, getD_some]
        split
        · next heq => rw [heq, JsMap.get_set_self]
        · next hne => rw [JsMap.get_set_of_ne hne, Clipboard.register]
    | paste => rw [register_eq_of_named hstep]; rfl
    | insert => rw [register_eq_of_named hstep]; rfl
    | delete => rw [register_eq_of_named hstep]; rfl
    | block => rw [register_eq_of_named hstep]; rfl

theorem cutRegisters_of_not_hasClipboardEdit (h : hasClipboardEdit edits = false)
    (registers : String → Option (List String)) :
    cutRegisters fileLines registers edits = registers := by
  induction edits with
  | nil => rfl
  | cons edit edits ih =>
    rw [hasClipboardEdit, List.any_cons, Bool.or_eq_false_iff] at h
    cases edit with
    | cut => cases h.1
    | paste => cases h.1
    | insert => exact ih h.2
    | delete => exact ih h.2
    | block => exact ih h.2

/-- Of the named registers, resolving a section changes those that its cuts name. -/
theorem register_resolveClipboardEdits
    (h : resolveClipboardEdits edits fileLines clipboard dropEmpty = .ok resolved) :
    resolved.clipboard.register = cutRegisters fileLines clipboard.register edits := by
  rw [resolveClipboardEdits] at h
  split at h
  · exact register_resolveLoop h
  next hnone =>
  cases h
  rw [cutRegisters_of_not_hasClipboardEdit (by simpa using hnone)]

/-! ### What a batch publishes -/

theorem register_startClipboardBatch (source : Option Clipboard) (r : String) :
    (startClipboardBatch source).register r = source.bind fun host => host.register r := by
  cases source with
  | none => rfl
  | some host =>
    rw [startClipboardBatch, bind_some, bind_some]
    cases hnamed : host.named with
    | none => rw [Clipboard.register, Clipboard.register, hnamed]
    | some => rw [Clipboard.register, Clipboard.register, hnamed]

theorem get_publishNamed {fork : JsMap String (List String)} (hkeys : fork.KeysNodup)
    (target : JsMap String (List String)) (r : String) :
    JsMap.get (publishNamed fork target) r = (JsMap.get fork r).or (JsMap.get target r) := by
  induction fork generalizing target with
  | nil => rfl
  | cons entry fork ih =>
    obtain ⟨hentry, hfork⟩ := List.nodup_cons.mp hkeys
    rw [publishNamed, List.foldl_cons, ← publishNamed, ih hfork, JsMap.get_cons]
    split
    · next heq =>
      -- no later entry has the key, so what this one sets stays
      have hnone : JsMap.get fork r = none := by
        apply JsMap.get_eq_none_of_forall_ne
        intro later hlater hlaterKey
        exact hentry (heq ▸ hlaterKey ▸ List.mem_map_of_mem hlater)
      rw [hnone, heq, JsMap.get_set_self]
      rfl
    · next hne => rw [JsMap.get_set_of_ne hne]

/-- The registers of a clipboard have distinct names. -/
def Clipboard.Distinct (clipboard : Clipboard) : Prop :=
  JsMap.KeysNodup (clipboard.named.getD [])

instance (clipboard : Clipboard) : Decidable clipboard.Distinct :=
  inferInstanceAs (Decidable (List.Nodup _))

/-- What is published takes the place of what the host had. -/
theorem register_commitClipboard {fork : Clipboard} (hfork : fork.Distinct) (target : Clipboard)
    (r : String) :
    (commitClipboard fork target).register r = (fork.register r).or (target.register r) := by
  rw [commitClipboard]
  cases hnamed : fork.named with
  | none =>
    rw [Clipboard.register, Clipboard.register, hnamed]
    rfl
  | some =>
    rw [Clipboard.Distinct, hnamed] at hfork
    rw [Clipboard.register, Clipboard.register, hnamed, Clipboard.register]
    exact get_publishNamed hfork _ r

theorem Clipboard.Distinct.commit {fork target : Clipboard} (htarget : target.Distinct) :
    (commitClipboard fork target).Distinct := by
  rw [commitClipboard]
  split
  · exact htarget
  next named _ =>
  rw [Clipboard.Distinct, getD_some]
  have hpublish : ∀ (fork target : JsMap String (List String)), target.KeysNodup →
      (publishNamed fork target).KeysNodup := by
    intro fork
    induction fork with
    | nil => exact fun target h => h
    | cons entry fork ih => exact fun target h => ih _ h.set
  exact hpublish named _ htarget

theorem Clipboard.Distinct.start {source : Option Clipboard}
    (h : ∀ host, source = some host → host.Distinct) : (startClipboardBatch source).Distinct := by
  rw [startClipboardBatch]
  split
  · exact List.nodup_nil
  next hnamed =>
  obtain ⟨host, hhost, hsome⟩ := bind_eq_some_iff.mp hnamed
  have hdistinct := h host hhost
  rw [Clipboard.Distinct, hsome] at hdistinct
  exact hdistinct

theorem Clipboard.Distinct.of_named {clipboard' : Clipboard} (h : clipboard.Distinct)
    (hnamed : clipboard'.named = clipboard.named) : clipboard'.Distinct := by
  rw [Clipboard.Distinct, hnamed]
  exact h

theorem distinct_resolveLoop (hdistinct : clipboard.Distinct)
    (h : resolveLoop fileLines dropEmpty clipboard edits = .ok resolved) :
    resolved.clipboard.Distinct := by
  induction edits generalizing clipboard resolved with
  | nil =>
    cases h
    exact hdistinct
  | cons edit edits ih =>
    obtain ⟨next, rest, hrest, hclipboard, hstep⟩ := resolveLoop_cons h
    have hnext : next.Distinct := by
      cases edit with
      | cut start stop register =>
        have hnamed := named_writeRegister hstep
        cases register with
        | none => exact hdistinct.of_named hnamed
        | some =>
          rw [Clipboard.Distinct, hnamed]
          exact JsMap.KeysNodup.set hdistinct
      | paste => exact hdistinct.of_named hstep
      | insert => exact hdistinct.of_named hstep
      | delete => exact hdistinct.of_named hstep
      | block => exact hdistinct.of_named hstep
    rw [← hclipboard]
    exact ih hnext hrest

theorem distinct_resolveClipboardEdits (hdistinct : clipboard.Distinct)
    (h : resolveClipboardEdits edits fileLines clipboard dropEmpty = .ok resolved) :
    resolved.clipboard.Distinct := by
  rw [resolveClipboardEdits] at h
  split at h
  · exact distinct_resolveLoop hdistinct h
  cases h
  exact hdistinct

end BreadboardTui.Hashline
