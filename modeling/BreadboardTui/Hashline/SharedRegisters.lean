import BreadboardTui.Hashline.Clipboard

/-!
# Batches that share their registers

Several batches may work on the registers of one host at the same time. Each starts with a copy of
the named registers, prepares its sections in order, and when the write of a section has landed it
publishes its copy as it was behind that section: all registers of it, not only those that its own
cuts have written. So a batch may set a register of the host back to what it held when the batch
started.

* `System`, `step`, `run`: the host and the batches, in any interleaving.
-/

namespace BreadboardTui.Hashline

namespace SharedRegisters

/-- What is known of a section once it is validated: the edits to apply and the lines of the file
that they are applied to. -/
structure SectionPlan where
  edits : List BlockEdits.Edit
  fileLines : List String

/-- A batch that has started. -/
structure Batch where
  /-- The copy that the batch has started with. -/
  origin : Clipboard
  clipboard : Clipboard
  /-- The prepared sections that have not landed, each with the registers behind it. -/
  prepared : List (SectionPlan × Clipboard) := []
  landed : List SectionPlan := []

/-- The host's registers and the batches. -/
structure System (β : Type) where
  host : Clipboard
  batches : β → Option Batch

/-- What a batch does next. -/
inductive Label (β : Type) where
  | start (batch : β)
  | prepare (batch : β) (plan : SectionPlan)
  /-- The write of the batch's next section lands, and the registers are published. -/
  | publish (batch : β)

variable {β : Type} [DecidableEq β]

/-- Sets the state of a batch. -/
def System.setBatch (s : System β) (batch : β) (state : Batch) : System β :=
  { s with batches := fun b => if b = batch then some state else s.batches b }

/-- One step; a label that is not possible changes nothing. All sections of a batch are prepared
before the first of them is written. -/
def step (s : System β) : Label β → System β
  | .start batch =>
    match s.batches batch with
    | none =>
      s.setBatch batch
        { origin := startClipboardBatch s.host, clipboard := startClipboardBatch s.host }
    | some _ => s
  | .prepare batch plan =>
    match s.batches batch with
    | none => s
    | some state =>
      if state.landed = [] then
        match resolveClipboardEdits plan.edits plan.fileLines state.clipboard false with
        | .error _ => s
        | .ok resolved =>
          s.setBatch batch { state with
            clipboard := resolved.clipboard,
            prepared := state.prepared ++ [(plan, forkClipboard resolved.clipboard)] }
      else s
  | .publish batch =>
    match s.batches batch with
    | none => s
    | some state =>
      match state.prepared with
      | [] => s
      | (plan, registers) :: prepared =>
        { s.setBatch batch { state with prepared := prepared, landed := state.landed ++ [plan] } with
          host := commitClipboard registers s.host }

def run (s : System β) : List (Label β) → System β
  | [] => s
  | label :: labels => run (step s label) labels

/-- The host alone. -/
def initial (host : Clipboard) : System β := ⟨host, fun _ => none⟩

/-! ### What has landed -/

/-- The registers after the cuts of some sections. -/
def afterCuts (registers : String → Option (List String)) :
    List SectionPlan → String → Option (List String)
  | [] => registers
  | plan :: plans => afterCuts (cutRegisters plan.fileLines registers plan.edits) plans

/-- The lines that the last cut of a register among the sections has captured. -/
def lastCut (plans : List SectionPlan) (r : String) : Option (List String) :=
  afterCuts (fun _ => none) plans r

/-- The sections of a batch that have landed. -/
def System.landed (s : System β) (batch : β) : List SectionPlan :=
  match s.batches batch with
  | none => []
  | some state => state.landed

/-- What the next publication of a batch sets without a cut of its own is what the host has. -/
def NextUndisturbed (host : Clipboard) (state : Batch) : Prop :=
  match state.prepared with
  | [] => True
  | (plan, _) :: _ =>
    ∀ entry ∈ state.origin.named.getD [], lastCut (state.landed ++ [plan]) entry.1 = none →
      host.register entry.1 = state.origin.register entry.1

instance (host : Clipboard) (state : Batch) : Decidable (NextUndisturbed host state) :=
  match h : state.prepared with
  | [] => isTrue (by rw [NextUndisturbed, h]; trivial)
  | (plan, _) :: _ =>
    decidable_of_iff (∀ entry ∈ state.origin.named.getD [],
      lastCut (state.landed ++ [plan]) entry.1 = none →
        host.register entry.1 = state.origin.register entry.1) (by rw [NextUndisturbed, h])

/-- The step publishes nothing but cuts of its batch and what the host has already. -/
def Undisturbed (s : System β) : Label β → Prop
  | .publish batch => ∀ state ∈ s.batches batch, NextUndisturbed s.host state
  | .start _ | .prepare _ _ => True

instance (s : System β) (label : Label β) : Decidable (Undisturbed s label) :=
  match label with
  | .publish batch =>
    match h : s.batches batch with
    | none => isTrue fun _ hstate => nomatch h ▸ hstate
    | some state =>
      decidable_of_iff (NextUndisturbed s.host state) (by simp [Undisturbed, h])
  | .start _ | .prepare _ _ => isTrue trivial

/-- Every step of the run is undisturbed. -/
def RunUndisturbed (s : System β) : List (Label β) → Prop
  | [] => True
  | label :: labels => Undisturbed s label ∧ RunUndisturbed (step s label) labels

/-- The step changes only registers that its batch has cut. -/
def ChangesOwn (s : System β) : Label β → Prop
  | .publish batch => ∀ r, lastCut ((step s (.publish batch)).landed batch) r = none →
      (step s (.publish batch)).host.register r = s.host.register r
  | .start batch => (step s (.start batch)).host = s.host
  | .prepare batch plan => (step s (.prepare batch plan)).host = s.host

/-- No step of the run sets a register that its batch has not cut. -/
def RunChangesOwn (s : System β) : List (Label β) → Prop
  | [] => True
  | label :: labels => ChangesOwn s label ∧ RunChangesOwn (step s label) labels

/-- No cut is lost: a register that only one batch has cut holds what that batch captured last, and
a register that no batch has cut holds what it held in the beginning. -/
def KeepsCuts (host : Clipboard) (s : System β) : Prop :=
  (∀ batch r lines, lastCut (s.landed batch) r = some lines →
    (∀ other, other ≠ batch → lastCut (s.landed other) r = none) →
      s.host.register r = some lines) ∧
  ∀ r, (∀ batch, lastCut (s.landed batch) r = none) → s.host.register r = host.register r

/-! ### Cuts of sections -/

theorem cutRegisters_or (fileLines : List String) (edits : List BlockEdits.Edit)
    (registers registers' : String → Option (List String)) :
    (cutRegisters fileLines (fun r => (registers' r).or (registers r)) edits) =
      fun r => (cutRegisters fileLines registers' edits r).or (registers r) := by
  induction edits generalizing registers' with
  | nil => rfl
  | cons edit edits ih =>
    cases edit with
    | cut start stop register =>
      cases register with
      | none => exact ih registers'
      | some =>
        rw [cutRegisters, cutRegisters, ← ih]
        congr 1
        funext r
        split
        · rfl
        · rfl
    | insert => exact ih registers'
    | delete => exact ih registers'
    | paste => exact ih registers'
    | block => exact ih registers'

variable (plans : List SectionPlan)

theorem afterCuts_or (registers registers' : String → Option (List String)) :
    afterCuts (fun r => (registers' r).or (registers r)) plans =
      fun r => (afterCuts registers' plans r).or (registers r) := by
  induction plans generalizing registers' with
  | nil => rfl
  | cons plan plans ih => rw [afterCuts, cutRegisters_or, ih, afterCuts]

theorem afterCuts_eq (registers : String → Option (List String)) :
    afterCuts registers plans = fun r => (lastCut plans r).or (registers r) :=
  afterCuts_or plans registers fun _ => none

theorem afterCuts_append (plans plans' : List SectionPlan)
    (registers : String → Option (List String)) :
    afterCuts registers (plans ++ plans') = afterCuts (afterCuts registers plans) plans' := by
  induction plans generalizing registers with
  | nil => rfl
  | cons plan plans ih => exact ih _

/-! ### The copies of a batch -/

/-- Each of the prepared sections has the registers behind it, from registers in front. -/
def Tracks (registers : String → Option (List String)) : List (SectionPlan × Clipboard) → Prop
  | [] => True
  | (plan, behind) :: prepared =>
    behind.Distinct ∧ behind.register = cutRegisters plan.fileLines registers plan.edits ∧
      Tracks behind.register prepared

variable {plan : SectionPlan} {prepared : List (SectionPlan × Clipboard)}

theorem tracks_append {registers : String → Option (List String)} {behind : Clipboard}
    (h : Tracks registers prepared) (hdistinct : behind.Distinct) (hbehind : behind.register =
      cutRegisters plan.fileLines (afterCuts registers (prepared.map Prod.fst)) plan.edits) :
    Tracks registers (prepared ++ [(plan, behind)]) := by
  induction prepared generalizing registers with
  | nil => exact ⟨hdistinct, hbehind, trivial⟩
  | cons first prepared ih =>
    obtain ⟨hfirst, hregister, hrest⟩ := h
    refine ⟨hfirst, hregister, ih hrest ?_⟩
    rw [hbehind, List.map_cons, afterCuts, hregister]

/-- What holds of a batch: its copies are the registers that it started with after its cuts. -/
structure BatchInv (state : Batch) : Prop where
  distinct : state.clipboard.Distinct
  clipboard : state.clipboard.register =
    afterCuts state.origin.register (state.landed ++ state.prepared.map Prod.fst)
  tracks : Tracks (afterCuts state.origin.register state.landed) state.prepared

/-- What holds of all batches and the host. -/
structure Inv (host : Clipboard) (s : System β) : Prop where
  distinct : s.host.Distinct
  batches : ∀ batch state, s.batches batch = some state → BatchInv state
  keeps : KeepsCuts host s

variable {host : Clipboard} {s : System β}

theorem landed_setBatch (s : System β) (batch : β) (state : Batch)
    (h : state.landed = s.landed batch) (b : β) :
    (s.setBatch batch state).landed b = s.landed b := by
  simp only [System.landed, System.setBatch]
  by_cases hb : b = batch
  · rw [if_pos hb, hb]
    exact h
  · rw [if_neg hb]

variable {state : Batch} {batch : β}

theorem inv_setBatch (h : Inv host s) (hstate : BatchInv state)
    (hlanded : state.landed = s.landed batch) : Inv host (s.setBatch batch state) where
  distinct := h.distinct
  batches := by
    intro b state' hb
    simp only [System.setBatch] at hb
    split at hb
    · cases hb
      exact hstate
    · exact h.batches b state' hb
  keeps := by
    have hsame := landed_setBatch s batch state hlanded
    constructor
    · intro b r lines hcut hothers
      rw [hsame] at hcut
      refine h.keeps.1 b r lines hcut fun other hne => ?_
      rw [← hsame]
      exact hothers other hne
    intro r hnone
    refine h.keeps.2 r fun b => ?_
    rw [← hsame]
    exact hnone b

theorem inv_start (h : Inv host s) (batch : β) : Inv host (step s (.start batch)) := by
  rw [step]
  split
  · next hnone =>
    refine inv_setBatch h ⟨?_, rfl, trivial⟩ ?_
    · refine Clipboard.Distinct.start fun source hsource => ?_
      cases hsource
      exact h.distinct
    · rw [System.landed, hnone]
  · exact h

theorem inv_prepare (h : Inv host s) (batch : β) (plan : SectionPlan) :
    Inv host (step s (.prepare batch plan)) := by
  rw [step]
  split
  · exact h
  next state hstate =>
  split
  · next hlanded =>
    split
    · exact h
    next resolved hresolved =>
    have hbatch := h.batches batch state hstate
    have hdistinct := distinct_resolveClipboardEdits hbatch.distinct hresolved
    have hregister : resolved.clipboard.register = cutRegisters plan.fileLines
        (afterCuts (afterCuts state.origin.register state.landed)
          (state.prepared.map Prod.fst)) plan.edits := by
      rw [register_resolveClipboardEdits hresolved, hbatch.clipboard, afterCuts_append]
    refine inv_setBatch h ⟨hdistinct, ?_, ?_⟩ ?_
    · rw [hregister, List.map_append, ← List.append_assoc, afterCuts_append, afterCuts_append]
      rfl
    · exact tracks_append hbatch.tracks hdistinct hregister
    · rw [System.landed, hstate]
  · exact h

variable {registers : Clipboard}

theorem step_publish (hstate : s.batches batch = some state)
    (hprepared : state.prepared = (plan, registers) :: prepared) : step s (.publish batch) =
      { s.setBatch batch
          { state with prepared := prepared, landed := state.landed ++ [plan] } with
        host := commitClipboard registers s.host } := by
  rw [step, hstate]
  simp [hprepared]

theorem mem_of_register {clipboard : Clipboard} {r : String} {lines : List String}
    (h : clipboard.register r = some lines) :
    ∃ entry ∈ clipboard.named.getD [], entry.1 = r := by
  obtain ⟨entry, hentry, hr⟩ := List.mem_map.mp (JsMap.mem_keys_of_get h)
  exact ⟨entry, hentry, hr⟩

omit [DecidableEq β] in
/-- After an undisturbed publication the host has the last cuts of the batch, and beside them what
it had. -/
theorem host_publish (h : Inv host s)
    (hundisturbed : Undisturbed s (.publish batch)) (hstate : s.batches batch = some state)
    (hprepared : state.prepared = (plan, registers) :: prepared) (r : String) :
    (commitClipboard registers s.host).register r =
      (lastCut (state.landed ++ [plan]) r).or (s.host.register r) := by
  have htracks := (h.batches batch state hstate).tracks
  rw [hprepared] at htracks
  obtain ⟨hdistinct, hregister, -⟩ := htracks
  have hpublished : registers.register r =
      (lastCut (state.landed ++ [plan]) r).or (state.origin.register r) := by
    have hcuts := congrFun (afterCuts_eq (state.landed ++ [plan]) state.origin.register) r
    rw [← hcuts, hregister, afterCuts_append]
    rfl
  rw [register_commitClipboard hdistinct, hpublished]
  cases hcut : lastCut (state.landed ++ [plan]) r with
  | some => rfl
  | none =>
    rw [Option.none_or, Option.none_or]
    -- what the batch has not cut, the host has already, if it was there at the start
    cases horigin : state.origin.register r with
    | none => rfl
    | some =>
      have hnext := hundisturbed state hstate
      rw [NextUndisturbed, hprepared] at hnext
      obtain ⟨entry, hentry, rfl⟩ := mem_of_register horigin
      rw [hnext entry hentry hcut, horigin]
      rfl

theorem landed_publish (hstate : s.batches batch = some state)
    (hprepared : state.prepared = (plan, registers) :: prepared) (b : β) :
    (step s (.publish batch)).landed b =
      if b = batch then state.landed ++ [plan] else s.landed b := by
  rw [step_publish hstate hprepared]
  simp only [System.landed, System.setBatch]
  by_cases hb : b = batch
  · rw [if_pos hb, if_pos hb]
  · rw [if_neg hb, if_neg hb]

theorem changesOwn_of_undisturbed (h : Inv host s) (label : Label β)
    (hundisturbed : Undisturbed s label) : ChangesOwn s label := by
  cases label with
  | start =>
    rw [ChangesOwn, step]
    split
    · rfl
    · rfl
  | prepare =>
    rw [ChangesOwn, step]
    repeat' split
    all_goals rfl
  | publish batch =>
    intro r hcut
    cases hstate : s.batches batch with
    | none => rw [step, hstate]
    | some state =>
      cases hprepared : state.prepared with
      | nil =>
        rw [step, hstate]
        simp [hprepared]
      | cons =>
        rw [landed_publish hstate hprepared, if_pos rfl] at hcut
        have hhost := host_publish h hundisturbed hstate hprepared r
        rw [hcut, Option.none_or] at hhost
        rw [step_publish hstate hprepared]
        exact hhost

/-- A publication that is undisturbed changes the registers only by cuts of its batch. -/
theorem inv_publish (h : Inv host s) (batch : β) (hundisturbed : Undisturbed s (.publish batch)) :
    Inv host (step s (.publish batch)) := by
  cases hstate : s.batches batch with
  | none =>
    rw [step, hstate]
    exact h
  | some state =>
    cases hprepared : state.prepared with
    | nil =>
      rw [step, hstate]
      simp only [hprepared]
      exact h
    | cons first =>
      obtain ⟨plan, registers⟩ := first
      have hbatch := h.batches batch state hstate
      have htracks := hbatch.tracks
      rw [hprepared] at htracks
      obtain ⟨-, hregister, hrest⟩ := htracks
      have hhost := host_publish h hundisturbed hstate hprepared
      have hlanded := landed_publish hstate hprepared
      have hbefore : s.landed batch = state.landed := by rw [System.landed, hstate]
      -- a register that the batch has not cut now, it has not cut before
      have hearlier : ∀ r, lastCut (state.landed ++ [plan]) r = none →
          lastCut (s.landed batch) r = none := by
        intro r hnone
        rw [lastCut, afterCuts_append, afterCuts_eq [plan], Option.or_eq_none_iff] at hnone
        rw [hbefore]
        exact hnone.2
      have hstep := step_publish hstate hprepared
      have hafter : (step s (.publish batch)).host = commitClipboard registers s.host := by
        rw [hstep]
      refine ⟨?_, ?_, ?_, ?_⟩
      · rw [hstep]
        exact h.distinct.commit
      · intro b state' hb
        rw [hstep] at hb
        simp only [System.setBatch] at hb
        split at hb
        · cases hb
          refine ⟨hbatch.distinct, ?_, ?_⟩
          · rw [hbatch.clipboard, hprepared, List.map_cons, List.append_assoc]
            rfl
          rw [afterCuts_append, afterCuts, ← hregister]
          exact hrest
        · exact h.batches b state' hb
      · intro b r lines hcut hothers
        rw [hlanded] at hcut
        have hregisters := hhost r
        rw [← hafter] at hregisters
        rw [hregisters]
        by_cases hb : b = batch
        · rw [if_pos hb] at hcut
          rw [hcut]
          rfl
        rw [if_neg hb] at hcut
        -- the batch that publishes has not cut the register, now or before
        have hnone := hothers batch (Ne.symm hb)
        rw [hlanded, if_pos rfl] at hnone
        rw [hnone, Option.none_or]
        refine h.keeps.1 b r lines hcut fun other hother => ?_
        by_cases hbatchEq : other = batch
        · rw [hbatchEq]
          exact hearlier r hnone
        have hother' := hothers other hother
        rwa [hlanded, if_neg hbatchEq] at hother'
      intro r hnone
      have hself := hnone batch
      rw [hlanded, if_pos rfl] at hself
      have hregisters := hhost r
      rw [← hafter] at hregisters
      rw [hregisters, hself, Option.none_or]
      refine h.keeps.2 r fun b => ?_
      by_cases hb : b = batch
      · rw [hb]
        exact hearlier r hself
      have hother := hnone b
      rwa [hlanded, if_neg hb] at hother

theorem inv_step (h : Inv host s) (label : Label β) (hundisturbed : Undisturbed s label) :
    Inv host (step s label) := by
  cases label with
  | start batch => exact inv_start h batch
  | prepare batch plan => exact inv_prepare h batch plan
  | publish batch => exact inv_publish h batch hundisturbed

theorem inv_run (h : Inv host s) (labels : List (Label β)) (hrun : RunUndisturbed s labels) :
    Inv host (run s labels) ∧ RunChangesOwn s labels := by
  induction labels generalizing s with
  | nil => exact ⟨h, trivial⟩
  | cons label labels ih =>
    obtain ⟨hinv, howns⟩ := ih (inv_step h label hrun.1) hrun.2
    exact ⟨hinv, changesOwn_of_undisturbed h label hrun.1, howns⟩

omit [DecidableEq β] in
theorem inv_initial (host : Clipboard) (hhost : host.Distinct) :
    Inv host (initial host : System β) where
  distinct := hhost
  batches := fun _ _ h => nomatch h
  keeps := ⟨fun _ _ _ h _ => (nomatch h), fun _ _ => rfl⟩

/-- In a run whose publications are all undisturbed, no cut is lost, and no step sets a register
that its batch has not cut. -/
theorem registers_of_run (host : Clipboard) (hhost : host.Distinct)
    (labels : List (Label β)) (hrun : RunUndisturbed (initial host) labels) :
    KeepsCuts host (run (initial host) labels) ∧ RunChangesOwn (initial host) labels := by
  obtain ⟨hinv, howns⟩ := inv_run (inv_initial host hhost) labels hrun
  exact ⟨hinv.keeps, howns⟩

section Examples

/-- A section that cuts the first line of a file into the register `r`. -/
def cutFirst (line : String) : SectionPlan := ⟨[.cut 1 1 (some "r") 2, .delete 1 2], [line]⟩

/-- A section that only takes a line out. -/
def deleteFirst : SectionPlan := ⟨[.delete 1 2], ["gone"]⟩

/-- The host, with one register. -/
def oneRegister : Clipboard := { named := some [("r", ["old"])] }

/-- Two batches that overlap, the second of which starts behind the publication of the first. -/
def goodRun : List (Label Bool) :=
  [.start true, .prepare true (cutFirst "new"), .publish true, .start false,
    .prepare false deleteFirst, .publish false]

/-- Two batches that overlap: the second one publishes what it has copied before. -/
def lostUpdate : List (Label Bool) :=
  [.start true, .start false, .prepare true (cutFirst "new"), .publish true,
    .prepare false deleteFirst, .publish false]

theorem registers_of_goodRun : KeepsCuts oneRegister (run (initial oneRegister) goodRun) ∧
      RunChangesOwn (initial oneRegister) goodRun :=
  registers_of_run oneRegister (by decide) goodRun
    ⟨trivial, trivial, by decide +kernel, trivial, trivial, by decide +kernel, trivial⟩

theorem not_registers_of_lostUpdate : ¬ ∀ (host : Clipboard) (labels : List (Label Bool)),
      KeepsCuts host (run (initial host) labels) := by
  intro hall
  have hkeeps := (hall oneRegister lostUpdate).1 true "r" ["new"] (by decide +kernel)
    (by
      intro other hother
      obtain rfl : other = false := by simpa using hother
      decide +kernel)
  exact absurd hkeeps (by decide +kernel)

end Examples

end SharedRegisters

end BreadboardTui.Hashline
