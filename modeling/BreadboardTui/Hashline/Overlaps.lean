import BreadboardTui.Hashline.ExecutorSteps
import BreadboardTui.Hashline.PatchText

/-!
# Hunks that overlap

At the end of a section the hunks are told apart by the lines of their headers, and no line of the
file is left to two of them. A hunk gives way to a later one that has exactly its lines, unless it
cuts or pastes over them.
-/

namespace BreadboardTui.Hashline

open List

open BlockEdits (Cursor PasteTarget BlockOp spanLines ConcreteHunk)

/-! ### Lines and their owners -/

theorem meets_iff (a b : ConcreteHunk) :
    a.meets b = true ↔ ∃ line ∈ a.sourceLines, line ∈ b.sourceLines := by
  rw [ConcreteHunk.meets, any_eq_true]
  simp

/-- Of two lists without repetition, one with all of the other and no longer has the same. -/
theorem mem_iff_of_sameLines {a b : ConcreteHunk} (hb : b.sourceLines.Nodup)
    (h : a.sameLines b = true) (line : ℕ) :
    line ∈ a.sourceLines ↔ line ∈ b.sourceLines := by
  rw [ConcreteHunk.sameLines, Bool.and_eq_true, decide_eq_true_eq, all_eq_true] at h
  have hsub : b.sourceLines ⊆ a.sourceLines := fun l hl => contains_iff_mem.mp (h.2 l hl)
  have hperm := (subperm_of_subset hb hsub).perm_of_length_le h.1.le
  exact hperm.mem_iff.symm

/-- The hunks that have been looked at, and what has become of them: the others own their lines,
each its own, and what has been dropped has given way to a later hunk with the same lines. -/
structure Settled (seen owners : List ConcreteHunk) (dropped : List ℕ) : Prop where
  owners_eq : owners = seen.filter fun h => h.sourceLines ≠ [] ∧ h.lineNum ∉ dropped
  apart : owners.Pairwise fun a b => a.meets b = false
  gaveWay : ∀ n ∈ dropped, ∃ old new, [old, new].Sublist seen ∧ old.lineNum = n ∧ new ∈ owners ∧
    old.clipboardDependent = false ∧ ∀ line, line ∈ old.sourceLines ↔ line ∈ new.sourceLines

theorem Settled.skip {seen owners : List ConcreteHunk} {dropped : List ℕ}
    (h : Settled seen owners dropped) {hunk : ConcreteHunk} (hnil : hunk.sourceLines = []) :
    Settled (seen ++ [hunk]) owners dropped where
  owners_eq := by
    rw [filter_append, ← h.owners_eq, filter_cons, if_neg (by simp [hnil])]
    exact (append_nil _).symm
  apart := h.apart
  gaveWay n hn := by
    obtain ⟨old, new, hsub, hrest⟩ := h.gaveWay n hn
    exact ⟨old, new, hsub.trans (sublist_append_left _ _), hrest⟩

theorem Settled.add {seen owners : List ConcreteHunk} {dropped : List ℕ}
    (h : Settled seen owners dropped) {hunk : ConcreteHunk} (hlines : hunk.sourceLines ≠ [])
    (hnew : ∀ n ∈ dropped, n ≠ hunk.lineNum)
    (hfree : owners.filter (fun owner => owner.meets hunk) = []) :
    Settled (seen ++ [hunk]) (owners ++ [hunk]) dropped where
  owners_eq := by
    have hmem : hunk.lineNum ∉ dropped := fun hmem => hnew _ hmem rfl
    rw [filter_append, ← h.owners_eq, filter_cons, if_pos (by simp [hlines, hmem])]
    rfl
  apart := by
    rw [pairwise_append]
    refine ⟨h.apart, pairwise_singleton _ _, fun owner howner other hother => ?_⟩
    obtain rfl := mem_singleton.mp hother
    have hnone := filter_eq_nil_iff.mp hfree owner howner
    simpa using hnone
  gaveWay n hn := by
    obtain ⟨old, new, hsub, hline, howner, hrest⟩ := h.gaveWay n hn
    exact ⟨old, new, hsub.trans (sublist_append_left _ _), hline, mem_append_left _ howner, hrest⟩

variable {owners seen : List ConcreteHunk} {hunk : ConcreteHunk} {previous : ConcreteHunk}

/-- Of hunks with different headers, the only one that shares a line with another one. -/
theorem filter_not_meets
    (hsub : owners.Sublist seen) (hnodup : (seen.map ConcreteHunk.lineNum).Nodup)
    (hone : owners.filter (fun owner => owner.meets hunk) = [previous]) :
    owners.filter (fun owner => !owner.meets hunk) =
        owners.filter (fun owner => owner.lineNum ≠ previous.lineNum) ∧
      previous ∈ owners ∧ previous.meets hunk = true := by
  have hmem : previous ∈ owners.filter (fun owner => owner.meets hunk) := by
    rw [hone]
    exact mem_cons_self
  obtain ⟨howner, hmeets⟩ := mem_filter.mp hmem
  refine ⟨filter_congr fun owner hmemOwner => ?_, howner, hmeets⟩
  rw [Bool.eq_iff_iff, Bool.not_eq_true', decide_eq_true_eq]
  constructor
  · intro hapart heq
    have hsame : owner = previous := inj_on_of_nodup_map hnodup (hsub.subset hmemOwner)
      (hsub.subset howner) heq
    rw [hsame, hmeets] at hapart
    exact Bool.noConfusion hapart
  intro hne
  rw [Bool.eq_false_iff]
  intro hother
  have hfound : owner ∈ owners.filter (fun owner => owner.meets hunk) :=
    mem_filter.mpr ⟨hmemOwner, hother⟩
  rw [hone, mem_singleton] at hfound
  exact hne (congrArg ConcreteHunk.lineNum hfound)

theorem Settled.replace {dropped : List ℕ} (h : Settled seen owners dropped)
    (hnodup : ((seen ++ [hunk]).map ConcreteHunk.lineNum).Nodup)
    (hlines : hunk.sourceLines ≠ []) (hunique : hunk.sourceLines.Nodup)
    (hone : owners.filter (fun owner => owner.meets hunk) = [previous])
    (hsame : previous.sameLines hunk = true) (hclipboard : previous.clipboardDependent = false)
    (hdropped : ∀ n ∈ dropped, n ≠ hunk.lineNum) :
    Settled (seen ++ [hunk]) ((owners.filter fun owner => !owner.meets hunk) ++ [hunk])
      (dropped ++ [previous.lineNum]) := by
  rw [map_append, nodup_append] at hnodup
  obtain ⟨hseen, -, hfresh⟩ := hnodup
  have hsub : owners.Sublist seen := by
    rw [h.owners_eq]
    exact filter_sublist
  obtain ⟨hfilter, howner, -⟩ := filter_not_meets hsub hseen hone
  have hne : previous.lineNum ≠ hunk.lineNum :=
    hfresh _ (mem_map_of_mem (hsub.subset howner)) _ mem_cons_self
  refine ⟨?_, ?_, ?_⟩
  · have hkept : hunk.lineNum ∉ dropped ++ [previous.lineNum] := by
      rw [mem_append, mem_singleton, not_or]
      exact ⟨fun hmem => hdropped _ hmem rfl, fun heq => hne heq.symm⟩
    rw [hfilter, filter_append, filter_cons, if_pos (by simp [hlines, hkept]),
      h.owners_eq, filter_filter]
    refine congrArg (· ++ _) (filter_congr fun other _ => ?_)
    rw [Bool.eq_iff_iff]
    simp only [mem_append, mem_singleton, not_or, Bool.and_eq_true, decide_eq_true_eq]
    tauto
  · rw [pairwise_append]
    refine ⟨h.apart.filter _, pairwise_singleton _ _, fun owner hmem other hother => ?_⟩
    obtain rfl := mem_singleton.mp hother
    simpa using (mem_filter.mp hmem).2
  have hlater : ∀ old, old ∈ seen → [old, hunk].Sublist (seen ++ [hunk]) := by
    intro old hold
    exact (singleton_sublist.mpr hold).append (List.Sublist.refl [hunk])
  have hprevious := mem_iff_of_sameLines hunique hsame
  intro n hn
  rcases mem_append.mp hn with hn | hn
  · obtain ⟨old, new, hpair, hline, hnew, hfree, hsameLines⟩ := h.gaveWay n hn
    by_cases hcase : new = previous
    · subst hcase
      have hold : old ∈ seen := hpair.subset mem_cons_self
      exact ⟨old, hunk, hlater old hold, hline, mem_append_right _ mem_cons_self, hfree,
        fun line => (hsameLines line).trans (hprevious line)⟩
    refine ⟨old, new, hpair.trans (sublist_append_left _ _), hline,
      mem_append_left _ ?_, hfree, hsameLines⟩
    rw [hfilter, mem_filter, decide_eq_true_eq]
    refine ⟨hnew, fun heq => hcase ?_⟩
    exact inj_on_of_nodup_map hseen (hsub.subset hnew) (hsub.subset howner) heq
  obtain rfl := mem_singleton.mp hn
  exact ⟨previous, hunk, hlater previous (hsub.subset howner), rfl,
    mem_append_right _ mem_cons_self, hclipboard, hprevious⟩

/-- What holds when all hunks have been looked at. -/
theorem settled_normalize {hunks : List ConcreteHunk} {dropped result : List ℕ}
    (h : Settled seen owners dropped) (hnodup : ((seen ++ hunks).map ConcreteHunk.lineNum).Nodup)
    (hunique : ∀ hunk ∈ hunks, hunk.sourceLines.Nodup)
    (hresult : BlockEdits.normalize owners dropped hunks = some result) :
    ∃ owners', Settled (seen ++ hunks) owners' result := by
  induction hunks generalizing seen owners dropped with
  | nil =>
    cases hresult
    rw [append_nil]
    exact ⟨owners, h⟩
  | cons hunk hunks ih =>
    obtain ⟨hfirst, hrest⟩ := forall_mem_cons.mp hunique
    rw [append_cons] at hnodup ⊢
    have hseen : ((seen ++ [hunk]).map ConcreteHunk.lineNum).Nodup := by
      rw [map_append] at hnodup
      exact (nodup_append.mp hnodup).1
    have hdropped : ∀ n ∈ dropped, n ≠ hunk.lineNum := by
      intro n hn
      obtain ⟨old, new, hpair, rfl, -⟩ := h.gaveWay n hn
      rw [map_append, nodup_append] at hseen
      exact hseen.2.2 _ (mem_map_of_mem (hpair.subset mem_cons_self)) _ mem_cons_self
    rw [BlockEdits.normalize] at hresult
    split at hresult
    · next hnil => exact ih (h.skip hnil) hnodup hrest hresult
    next hlines =>
    split at hresult
    · next hfree => exact ih (h.add hlines hdropped hfree) hnodup hrest hresult
    · next hone =>
      split at hresult
      · next hexact =>
        exact ih (h.replace hseen hlines hfirst hone hexact.1 hexact.2 hdropped) hnodup hrest
          hresult
      · cases hresult
    · cases hresult

theorem settled_nil : Settled [] [] [] :=
  ⟨rfl, List.Pairwise.nil, fun _ h => absurd h not_mem_nil⟩

/-! ### Edits that are pushed together -/

/-- The edits of a hunk, or of a row of an older text. -/
inductive Lowered (lineNum : ℕ) : List RowEdit → Prop where
  | hunk (target : BlockTarget) (hadColon : Bool) (payloads : List Units) {es : List RowEdit}
      (h : emit target hadColon lineNum payloads = .ok es) : Lowered lineNum es
  | row (line : ℕ) (text : Units) : Lowered lineNum
      (insertRows (.beforeAnchor line) [text] lineNum true ++ deleteRows line line lineNum)

/-- The edit reads a register or writes one. -/
def RowEdit.usesRegister : RowEdit → Bool
  | .insert _ _ _ _ | .delete _ _ => false
  | .cut _ _ _ _ | .paste _ _ _ => true
  | .block _ _ op register _ => op = .cut || op = .pasteAfter || register.isSome

/-- The edits of a hunk are of its header; a cut comes with the deletes of its lines; and a hunk
that deletes lines and has no cut uses no register. -/
structure Uniform (lineNum : ℕ) (es : List RowEdit) : Prop where
  lineNum_eq : ∀ e ∈ es, e.lineNum = lineNum
  cut : ∀ start stop register n, RowEdit.cut start stop register n ∈ es →
    ∀ line ∈ spanLines start stop, RowEdit.delete line lineNum ∈ es
  plain : (∃ line n, RowEdit.delete line n ∈ es) →
    es.all (fun e => !e.clipboardDependent) = true → ∀ e ∈ es, e.usesRegister = false

variable {e : RowEdit}

theorem mem_deleteRows {start stop lineNum : ℕ} (h : e ∈ deleteRows start stop lineNum) :
    ∃ line ∈ spanLines start stop, e = .delete line lineNum := by
  obtain ⟨line, hline, rfl⟩ := mem_map.mp h
  exact ⟨line, hline, rfl⟩

variable {payloads : List Units} {cursor : Cursor}

theorem mem_insertRows {lineNum : ℕ}
    {replacement : Bool} (h : e ∈ insertRows cursor payloads lineNum replacement) :
    ∃ text, e = .insert cursor text lineNum replacement := by
  obtain ⟨text, -, rfl⟩ := mem_map.mp h
  exact ⟨text, rfl⟩

theorem uniform_rows (cursor : Cursor) (payloads : List Units) (start stop lineNum : ℕ)
    (replacement : Bool) :
    Uniform lineNum (insertRows cursor payloads lineNum replacement ++
      deleteRows start stop lineNum) := by
  have hedit : ∀ e ∈ insertRows cursor payloads lineNum replacement ++
      deleteRows start stop lineNum,
      (∃ text, e = .insert cursor text lineNum replacement) ∨ ∃ line, e = .delete line lineNum := by
    intro e he
    rcases mem_append.mp he with he | he
    · exact .inl (mem_insertRows he)
    obtain ⟨line, -, heq⟩ := mem_deleteRows he
    exact .inr ⟨line, heq⟩
  refine ⟨?_, ?_, fun _ _ => ?_⟩
  · intro e he
    rcases hedit e he with ⟨text, rfl⟩ | ⟨line, rfl⟩ <;> rfl
  · intro from_ stop' register n hcut
    rcases hedit _ hcut with ⟨text, heq⟩ | ⟨line, heq⟩ <;> cases heq
  intro e he
  rcases hedit e he with ⟨text, rfl⟩ | ⟨line, rfl⟩ <;> rfl

/-- A single edit that neither deletes nor cuts. -/
theorem uniform_singleton {lineNum : ℕ} (hline : e.lineNum = lineNum)
    (hdelete : ∀ line n, e ≠ .delete line n) (hcut : ∀ start stop register n,
      e ≠ .cut start stop register n) : Uniform lineNum [e] := by
  refine ⟨?_, ?_, ?_⟩
  · intro other hother
    rwa [mem_singleton.mp hother]
  · intro start stop register n hmem
    exact absurd (mem_singleton.mp hmem).symm (hcut start stop register n)
  rintro ⟨line, n, hmem⟩
  exact absurd (mem_singleton.mp hmem).symm (hdelete line n)

theorem uniform_nil (lineNum : ℕ) : Uniform lineNum [] :=
  ⟨fun _ h => absurd h not_mem_nil, fun _ _ _ _ h => absurd h not_mem_nil,
    fun ⟨_, _, h⟩ => absurd h not_mem_nil⟩

theorem uniform_inserts (cursor : Cursor) (payloads : List Units) (lineNum : ℕ)
    (replacement : Bool) : Uniform lineNum (insertRows cursor payloads lineNum replacement) := by
  refine ⟨?_, ?_, ?_⟩
  · intro e he
    obtain ⟨text, rfl⟩ := mem_insertRows he
    rfl
  · intro start stop register n hcut
    obtain ⟨text, heq⟩ := mem_insertRows hcut
    cases heq
  rintro ⟨line, n, hdelete⟩
  obtain ⟨text, heq⟩ := mem_insertRows hdelete
  cases heq

theorem uniform_cut (start stop : ℕ) (register : Option Units) (lineNum : ℕ) :
    Uniform lineNum (.cut start stop register lineNum :: deleteRows start stop lineNum) := by
  refine ⟨?_, ?_, ?_⟩
  · intro e he
    rcases mem_cons.mp he with rfl | he
    · rfl
    obtain ⟨line, -, rfl⟩ := mem_deleteRows he
    rfl
  · intro start' stop' register' n hcut line hline
    rcases mem_cons.mp hcut with heq | hcut
    · obtain ⟨rfl, rfl, rfl, rfl⟩ := RowEdit.cut.inj heq
      exact mem_cons_of_mem _ (mem_map.mpr ⟨line, hline, rfl⟩)
    obtain ⟨line, -, heq⟩ := mem_deleteRows hcut
    cases heq
  intro _ hplain
  rw [all_cons] at hplain
  cases hplain

variable {es : List RowEdit}

theorem uniform_emitGap {register : Option Units} {hadColon : Bool} {lineNum : ℕ}
    (h : emitGap cursor register hadColon lineNum payloads = .ok es) : Uniform lineNum es := by
  rw [emitGap] at h
  split at h
  · cases h
    exact uniform_singleton rfl (fun _ _ => RowEdit.noConfusion) fun _ _ _ _ => RowEdit.noConfusion
  split at h
  · cases h
  cases h
  exact uniform_inserts cursor payloads lineNum false

theorem Lowered.uniform {lineNum : ℕ} (h : Lowered lineNum es) : Uniform lineNum es := by
  have hsingle (e : RowEdit) (hline : e.lineNum = lineNum) (hdelete : ∀ line n, e ≠ .delete line n)
      (hcut : ∀ start stop register n, e ≠ .cut start stop register n)
      (hok : (Except.ok [e] : Except ParseError (List RowEdit)) = .ok es) : Uniform lineNum es := by
    cases hok
    exact uniform_singleton hline hdelete hcut
  have hpaste (target : PasteTarget) (register : Option Units) :=
    hsingle (.paste target register lineNum) rfl (fun _ _ => RowEdit.noConfusion)
      fun _ _ _ _ => RowEdit.noConfusion
  have hblock (line : ℕ) (payloads : List Units) (op : BlockOp) (register : Option Units) :=
    hsingle (.block line payloads op register lineNum) rfl (fun _ _ => RowEdit.noConfusion)
      fun _ _ _ _ => RowEdit.noConfusion
  cases h with
  | row => exact uniform_rows ..
  | hunk target hadColon payloads h =>
    cases target with
    | rem =>
      cases h
      exact uniform_nil lineNum
    | move =>
      cases h
      exact uniform_nil lineNum
    | cut start stop register =>
      cases h
      exact uniform_cut start stop register lineNum
    | cutBlock => exact hblock _ _ _ _ h
    | replace start stop register =>
      cases register with
      | some => exact hpaste _ _ h
      | none =>
        rw [emit] at h
        split at h
        · cases h
        cases h
        exact uniform_rows ..
    | block line register =>
      cases register with
      | some => exact hblock _ _ _ _ h
      | none =>
        rw [emit] at h
        split at h
        · cases h
        · exact hblock _ _ _ _ h
    | insertAfterBlock =>
      rw [emit] at h
      split at h
      · exact hblock _ _ _ _ h
      split at h
      · cases h
      · exact hblock _ _ _ _ h
    | insertBefore => exact uniform_emitGap h
    | insertAfter => exact uniform_emitGap h
    | bof => exact uniform_emitGap h
    | eof => exact uniform_emitGap h

/-! ### Blocks of edits -/

/-- The edits of the executor, by the headers that they were pushed for. -/
structure Blocks (ex : Executor) (blocks : List (ℕ × List RowEdit)) : Prop where
  edits : ex.edits = blocks.flatMap Prod.snd
  lowered : ∀ block ∈ blocks, Lowered block.1 block.2

/-- The headers of the blocks, and that of the hunk the executor is in. -/
def headers (ex : Executor) (blocks : List (ℕ × List RowEdit)) : List ℕ :=
  blocks.map Prod.fst ++ (ex.hunk.map fun hunk => hunk.2.2).toList

namespace Blocks

open Executor (Keeps RowEffect Flushed)

variable {shapes : RowShapes} {ex ex' : Executor} {blocks : List (ℕ × List RowEdit)} {lineNum : ℕ}

theorem push (h : Blocks ex blocks) (hes : Lowered lineNum es)
    (hedits : ex'.edits = ex.edits ++ es) : Blocks ex' (blocks ++ [(lineNum, es)]) where
  edits := by
    rw [hedits, h.edits, flatMap_append, flatMap_singleton]
  lowered := by
    rw [forall_mem_append, forall_mem_singleton]
    exact ⟨h.lowered, hes⟩

theorem of_edits (h : Blocks ex blocks) (hedits : ex'.edits = ex.edits) : Blocks ex' blocks :=
  ⟨hedits.trans h.edits, h.lowered⟩

theorem row (h : Blocks ex blocks) (heffect : RowEffect ex lineNum ex') :
    ∃ blocks', Blocks ex' blocks' ∧ ∀ rest,
      (headers ex' blocks' ++ rest).Sublist (headers ex blocks ++ lineNum :: rest) := by
  cases heffect with
  | keeps hkeeps =>
    refine ⟨blocks, h.of_edits hkeeps.edits, fun rest => ?_⟩
    rw [headers, hkeeps.hunk, ← headers]
    exact (List.Sublist.refl _).append (sublist_cons_self _ _)
  | opens start stop hpending hunk edits =>
    refine ⟨blocks, h.of_edits edits, fun rest => ?_⟩
    rw [headers, headers, hunk, hpending]
    simp
  | recovers line row hpending hunk edits =>
    refine ⟨_, h.push (.row line row) edits, fun rest => ?_⟩
    rw [headers, headers, hunk, hpending]
    simp

theorem rows (h : Blocks ex blocks) {comments : List (ℕ × Units)} (hread : comments.foldlM
      (fun (ex : Executor) comment => ex.handleRaw shapes comment.2 comment.1) ex = .ok ex') :
    ∃ blocks', Blocks ex' blocks' ∧
      (headers ex' blocks').Sublist (headers ex blocks ++ comments.map Prod.fst) := by
  induction comments generalizing ex blocks with
  | nil =>
    cases hread
    exact ⟨blocks, h, sublist_append_left _ _⟩
  | cons comment comments ih =>
    rw [foldlM_cons] at hread
    cases hfirst : ex.handleRaw shapes comment.2 comment.1 with
    | error =>
      rw [hfirst] at hread
      cases hread
    | ok =>
      rw [hfirst] at hread
      obtain ⟨between, hbetween, hsub⟩ := h.row (Executor.handleRaw_effect hfirst)
      obtain ⟨blocks', hblocks, hsub'⟩ := ih hbetween hread
      exact ⟨blocks', hblocks, hsub'.trans (hsub _)⟩

/-- The comments that are held back are read. -/
theorem consume (h : Blocks ex blocks)
    (hconsume : ex.consumePendingSkippableComments shapes = .ok ex') :
    ∃ blocks', Blocks ex' blocks' ∧ (headers ex' blocks').Sublist
      (headers ex blocks ++ ex.skippableComments.map Prod.fst) := by
  rw [Executor.consumePendingSkippableComments] at hconsume
  cases hread : ex.skippableComments.foldlM
      (fun (ex : Executor) comment => ex.handleRaw shapes comment.2 comment.1) ex with
  | error e =>
    rw [hread] at hconsume
    cases hconsume
  | ok read =>
    rw [hread] at hconsume
    cases hconsume
    obtain ⟨blocks', hblocks, hsub⟩ := h.rows hread
    exact ⟨blocks', hblocks.of_edits rfl, hsub⟩

theorem flush (h : Blocks ex blocks) (hflush : Flushed ex ex') :
    ∃ blocks', Blocks ex' blocks' ∧ headers ex' blocks' = headers ex blocks := by
  rcases hflush.edits with
    ⟨hnone, hedits⟩ | ⟨target, hadColon, n, payloads, es, hhunk, hemit, hedits⟩
  · refine ⟨blocks, h.of_edits hedits, ?_⟩
    rw [headers, headers, hflush.hunk, hnone]
  refine ⟨_, h.push (.hunk target hadColon payloads hemit) hedits, ?_⟩
  rw [headers, headers, hflush.hunk, hhunk]
  simp

theorem keeps (h : Blocks ex blocks) (hkeeps : Keeps ex ex') :
    Blocks ex' blocks ∧ headers ex' blocks = headers ex blocks := by
  refine ⟨h.of_edits hkeeps.edits, ?_⟩
  rw [headers, headers, hkeeps.hunk]

/-- All line numbers that the executor has kept. -/
def numbers (ex : Executor) (blocks : List (ℕ × List RowEdit)) : List ℕ :=
  headers ex blocks ++ ex.skippableComments.map Prod.fst

/-- A token adds its line number behind the others, if it adds one. -/
theorem feed (h : Blocks ex blocks) {token : Token} (hfeed : ex.feed shapes token = .ok ex') :
    ∃ blocks', Blocks ex' blocks' ∧
      (numbers ex' blocks').Sublist (numbers ex blocks ++ [token.lineNum]) := by
  have hsame (hsub : Blocks ex' blocks ∧ headers ex' blocks = headers ex blocks)
      (hcomments : ex'.skippableComments = ex.skippableComments) :
      ∃ blocks', Blocks ex' blocks' ∧
        (numbers ex' blocks').Sublist (numbers ex blocks ++ [token.lineNum]) := by
    refine ⟨blocks, hsub.1, ?_⟩
    rw [numbers, numbers, hsub.2, hcomments]
    exact sublist_append_left _ _
  -- the comments are read first, and then the token
  have hread {step : Executor → Except ParseError Executor}
      (hstep : ∀ read between, Blocks read between → step read = .ok ex' →
        ex'.skippableComments = read.skippableComments ∧ ∃ blocks', Blocks ex' blocks' ∧
          (headers ex' blocks').Sublist (headers read between ++ [token.lineNum]))
      (hbind : (ex.consumePendingSkippableComments shapes).bind step = .ok ex') :
      ∃ blocks', Blocks ex' blocks' ∧
        (numbers ex' blocks').Sublist (numbers ex blocks ++ [token.lineNum]) := by
    cases hconsume : ex.consumePendingSkippableComments shapes with
    | error =>
      rw [hconsume] at hbind
      cases hbind
    | ok read =>
      rw [hconsume] at hbind
      obtain ⟨between, hbetween, hsub⟩ := h.consume hconsume
      obtain ⟨hcomments, blocks', hblocks, hsub'⟩ := hstep read between hbetween hbind
      refine ⟨blocks', hblocks, ?_⟩
      rw [numbers, hcomments, Executor.comments_consume hconsume, map_nil, append_nil]
      exact hsub'.trans (hsub.append (List.Sublist.refl _))
  have hkeeps {read : Executor} {between : List (ℕ × List RowEdit)} (hbetween : Blocks read between)
      (hkeeps : Keeps read ex') : ex'.skippableComments = read.skippableComments ∧
        ∃ blocks', Blocks ex' blocks' ∧
          (headers ex' blocks').Sublist (headers read between ++ [token.lineNum]) := by
    obtain ⟨hblocks, hheaders⟩ := hbetween.keeps hkeeps
    refine ⟨hkeeps.comments, between, hblocks, ?_⟩
    rw [hheaders]
    exact sublist_append_left _ _
  rw [Executor.feed] at hfeed
  split at hfeed
  · cases hfeed
    exact hsame ⟨h, rfl⟩ rfl
  cases hkind : token.kind with
  | envelopeBegin =>
    rw [hkind] at hfeed
    obtain ⟨blocks', hblocks, hsub⟩ := h.consume hfeed
    refine ⟨blocks', hblocks, ?_⟩
    rw [numbers, Executor.comments_consume hfeed, map_nil, append_nil]
    exact hsub.trans (sublist_append_left _ _)
  | envelopeEnd =>
    rw [hkind] at hfeed
    refine hread (fun read between hbetween hok => ?_) hfeed
    cases hok
    exact hkeeps hbetween ⟨rfl, rfl, rfl⟩
  | abort =>
    rw [hkind] at hfeed
    cases hfeed
    exact hsame ⟨h.of_edits rfl, rfl⟩ rfl
  | header _ _ =>
    rw [hkind] at hfeed
    refine hread (fun read between hbetween hok => ?_) hfeed
    have hflushed := Executor.flushPending_flushed hok
    obtain ⟨blocks', hblocks, hheaders⟩ := hbetween.flush hflushed
    refine ⟨hflushed.comments, blocks', hblocks, ?_⟩
    rw [hheaders]
    exact sublist_append_left _ _
  | blank =>
    rw [hkind] at hfeed
    refine hread (fun read between hbetween hok => ?_) hfeed
    cases hok
    exact hkeeps hbetween (Executor.handleBlank_keeps read [] token.lineNum)
  | payloadLiteral =>
    rw [hkind] at hfeed
    refine hread (fun read between hbetween hok => ?_) hfeed
    exact hkeeps hbetween (Executor.handleLiteralPayload_keeps hok)
  | raw =>
    rw [hkind] at hfeed
    dsimp only at hfeed
    split at hfeed
    · cases hfeed
      refine ⟨blocks, h.of_edits rfl, ?_⟩
      rw [numbers, numbers, map_append, append_assoc]
      exact List.Sublist.refl _
    refine hread (fun read between hbetween hok => ?_) hfeed
    have heffect := Executor.handleRaw_effect hok
    obtain ⟨blocks', hblocks, hsub⟩ := hbetween.row heffect
    refine ⟨heffect.comments, blocks', hblocks, ?_⟩
    have hrow := hsub []
    rwa [append_nil] at hrow
  | opBlock =>
    rw [hkind] at hfeed
    obtain ⟨flushed, hflushed, hedits, hcomments, hhunk⟩ := Executor.feedOp_effect hfeed
    obtain ⟨blocks', hblocks, hheaders⟩ := (h.of_edits rfl : Blocks
      { ex with skippableComments := [] } blocks).flush hflushed
    refine ⟨blocks', hblocks.of_edits hedits, ?_⟩
    have hnil : ex'.skippableComments = [] := hcomments.trans hflushed.comments
    rw [numbers, hnil, map_nil, append_nil]
    have hflushedHeaders : headers flushed blocks' = blocks'.map Prod.fst := by
      rw [headers, hflushed.hunk]
      exact append_nil _
    have hbefore : blocks'.map Prod.fst = headers ex blocks := hflushedHeaders.symm.trans hheaders
    have hsub : (headers ex blocks).Sublist (numbers ex blocks) := sublist_append_left _ _
    rcases hhunk with hhunk | hhunk
    · rw [headers, hhunk, hbefore]
      exact (append_nil _).symm ▸ hsub.trans (sublist_append_left _ _)
    rw [headers, hhunk, hbefore]
    exact hsub.append (List.Sublist.refl _)

theorem feedAll (h : Blocks ex blocks) {tokens : List Token}
    (hfeed : ex.feedAll shapes tokens = .ok ex') :
    ∃ blocks', Blocks ex' blocks' ∧
      (numbers ex' blocks').Sublist (numbers ex blocks ++ tokens.map Token.lineNum) := by
  induction tokens generalizing ex blocks with
  | nil =>
    cases hfeed
    exact ⟨blocks, h, sublist_append_left _ _⟩
  | cons token tokens ih =>
    rw [Executor.feedAll_cons] at hfeed
    cases hfirst : ex.feed shapes token with
    | error =>
      rw [hfirst] at hfeed
      cases hfeed
    | ok =>
      rw [hfirst] at hfeed
      obtain ⟨between, hbetween, hsub⟩ := h.feed hfirst
      obtain ⟨blocks', hblocks, hsub'⟩ := ih hbetween hfeed
      refine ⟨blocks', hblocks, hsub'.trans ?_⟩
      rw [map_cons, append_cons]
      exact hsub.append (List.Sublist.refl _)

/-- At the end each header has at most one block. -/
theorem flushed (h : Blocks ex blocks) {streaming : Bool}
    (hflushed : ex.flushed shapes streaming = .ok ex') :
    ∃ blocks', Blocks ex' blocks' ∧ (blocks'.map Prod.fst).Sublist (numbers ex blocks) := by
  rw [Executor.flushed] at hflushed
  cases hconsume : ex.consumePendingSkippableComments shapes with
  | error =>
    rw [hconsume] at hflushed
    cases hflushed
  | ok read =>
    rw [hconsume] at hflushed
    obtain ⟨between, hbetween, hsub⟩ := h.consume hconsume
    have hflush : Flushed read ex' ∨ ex'.hunk = none ∧ ex'.edits = read.edits ∧
        ex'.skippableComments = read.skippableComments := by
      cases streaming with
      | true => exact Executor.flushComplete_flushed hflushed
      | false => exact .inl (Executor.flushPending_flushed hflushed)
    rcases hflush with hflush | ⟨-, hedits, -⟩
    · obtain ⟨blocks', hblocks, hheaders⟩ := hbetween.flush hflush
      have hpart : (blocks'.map Prod.fst).Sublist (headers ex' blocks') := sublist_append_left _ _
      rw [hheaders] at hpart
      exact ⟨blocks', hblocks, hpart.trans hsub⟩
    have hpart : (between.map Prod.fst).Sublist (headers read between) := sublist_append_left _ _
    exact ⟨between, hbetween.of_edits hedits, hpart.trans hsub⟩

end Blocks

/-! ### What is left -/

/-- The lines that an edit deletes, cuts or pastes over. -/
def RowEdit.targets : RowEdit → List ℕ
  | .delete line _ => [line]
  | .cut start stop _ _ => spanLines start stop
  | .paste (.span start stop) _ _ => spanLines start stop
  | _ => []

/-- The hunk of a header targets the line. -/
def Targets (edits : List RowEdit) (lineNum line : ℕ) : Prop :=
  ∃ e ∈ edits, e.lineNum = lineNum ∧ line ∈ e.targets

/-- No line is left to two hunks. The edits of some hunks are gone, each of which had the lines of a
later hunk that is left, and neither cut nor pasted over them; the other edits stay in their order.
Where the headers are in order, what is gone uses no register at all. -/
structure Coalesced (inOrder : Prop) (before after : List RowEdit) : Prop where
  apart : ∀ e ∈ after, ∀ e' ∈ after, e.lineNum ≠ e'.lineNum → ∀ line ∈ e.targets, line ∉ e'.targets
  dropped : ∃ dropped : List ℕ, after = before.filter (fun e => e.lineNum ∉ dropped) ∧
    ∀ n ∈ dropped, (∃ m, m ∉ dropped ∧ [n, m].Sublist ((hunksOf before).map ConcreteHunk.lineNum) ∧
        ∀ line, Targets before n line ↔ Targets before m line) ∧
      (∀ e ∈ before, e.lineNum = n → e.clipboardDependent = false) ∧
      (inOrder → ∀ e ∈ before, e.lineNum = n → e.usesRegister = false)

section Coalescing

variable {ex : Executor} {blocks : List (ℕ × List RowEdit)} {edits : List RowEdit} {n : ℕ}

theorem map_hunksOf (edits : List RowEdit) : (hunksOf edits).map ConcreteHunk.lineNum =
    ((edits.filter RowEdit.isConcrete).map RowEdit.lineNum).reverse.dedup.reverse := by
  rw [hunksOf, map_map]
  exact map_id _

theorem nodup_hunksOf (edits : List RowEdit) :
    ((hunksOf edits).map ConcreteHunk.lineNum).Nodup := by
  rw [map_hunksOf]
  exact nodup_reverse.mpr (nodup_dedup _)

theorem mem_hunksOf (h : hunk ∈ hunksOf edits) : hunk = hunkFor edits hunk.lineNum := by
  obtain ⟨n, -, rfl⟩ := mem_map.mp h
  rfl

variable {e : RowEdit}

theorem hunkFor_mem (he : e ∈ edits) (hconcrete : e.isConcrete = true) :
    hunkFor edits e.lineNum ∈ hunksOf edits := by
  refine mem_map.mpr ⟨e.lineNum, ?_, rfl⟩
  rw [mem_reverse, mem_dedup, mem_reverse]
  exact mem_map_of_mem (mem_filter.mpr ⟨he, hconcrete⟩)

variable {line : ℕ}

theorem mem_sourceLines : line ∈ (hunkFor edits n).sourceLines ↔
    ∃ e ∈ edits, e.lineNum = n ∧ line ∈ e.sourceLines := by
  rw [hunkFor, mem_dedup, mem_flatMap]
  constructor
  · rintro ⟨e, he, hline⟩
    obtain ⟨hmem, hkey⟩ := mem_filter.mp he
    exact ⟨e, hmem, of_decide_eq_true hkey, hline⟩
  rintro ⟨e, he, hkey, hline⟩
  exact ⟨e, mem_filter.mpr ⟨he, decide_eq_true hkey⟩, hline⟩

theorem Blocks.mem (h : Blocks ex blocks) (he : e ∈ ex.edits) :
    ∃ block ∈ blocks, e ∈ block.2 ∧ block.1 = e.lineNum ∧ Uniform block.1 block.2 := by
  rw [h.edits] at he
  obtain ⟨block, hblock, hmem⟩ := mem_flatMap.mp he
  have huniform := (h.lowered block hblock).uniform
  exact ⟨block, hblock, hmem, (huniform.lineNum_eq e hmem).symm, huniform⟩

/-- A cut comes with the deletes of its lines, so that its hunk has them. -/
theorem Blocks.targets_iff (h : Blocks ex blocks) (n line : ℕ) :
    Targets ex.edits n line ↔ line ∈ (hunkFor ex.edits n).sourceLines := by
  rw [mem_sourceLines]
  constructor
  · rintro ⟨e, he, rfl, hline⟩
    cases e with
    | delete _ _ => exact ⟨_, he, rfl, hline⟩
    | cut =>
      obtain ⟨block, hblock, hmem, hkey, huniform⟩ := h.mem he
      have hdelete := huniform.cut _ _ _ _ hmem line hline
      refine ⟨.delete line block.1, ?_, hkey, mem_singleton_self line⟩
      rw [h.edits]
      exact mem_flatMap.mpr ⟨block, hblock, hdelete⟩
    | paste target =>
      cases target with
      | span => exact ⟨_, he, rfl, hline⟩
      | gap => exact absurd hline not_mem_nil
    | insert => exact absurd hline not_mem_nil
    | block => exact absurd hline not_mem_nil
  rintro ⟨e, he, rfl, hline⟩
  refine ⟨e, he, rfl, ?_⟩
  cases e with
  | delete => exact hline
  | paste target =>
    cases target with
    | span => exact hline
    | gap => exact absurd hline not_mem_nil
  | cut => exact absurd hline not_mem_nil
  | insert => exact absurd hline not_mem_nil
  | block => exact absurd hline not_mem_nil

theorem isConcrete_of_targets (h : line ∈ e.targets) : e.isConcrete = true := by
  cases e with
  | delete => rfl
  | cut => rfl
  | paste target _ _ =>
    cases target with
    | span => rfl
    | gap => exact absurd h not_mem_nil
  | insert => exact absurd h not_mem_nil
  | block => exact absurd h not_mem_nil

variable {dropped : List ℕ}

theorem mem_owners (h : Settled seen owners dropped) :
    hunk ∈ owners ↔ hunk ∈ seen ∧ hunk.sourceLines ≠ [] ∧ hunk.lineNum ∉ dropped := by
  rw [h.owners_eq, mem_filter, decide_eq_true_eq]

/-- Two owners share no line. -/
theorem Settled.not_both
    (h : Settled seen owners dropped) {a b : ConcreteHunk} (ha : a ∈ owners) (hb : b ∈ owners)
    (hne : a ≠ b) (hline : line ∈ a.sourceLines) : line ∉ b.sourceLines := by
  have hapart : owners.Pairwise fun a b => ∀ line ∈ a.sourceLines, line ∉ b.sourceLines := by
    refine h.apart.imp fun {a b} hapart line hline hline' => ?_
    have hmeets := (meets_iff a b).mpr ⟨line, hline, hline'⟩
    rw [hapart] at hmeets
    exact Bool.noConfusion hmeets
  have hsymm : Std.Symm fun a b : ConcreteHunk => ∀ line ∈ a.sourceLines, line ∉ b.sourceLines :=
    ⟨fun _ _ hab line hb ha => hab line ha hb⟩
  exact hapart.forall ha hb hne line hline

theorem coalesced_of_normalize (h : Blocks ex blocks)
    (hresult : BlockEdits.normalize [] [] (hunksOf ex.edits) = some dropped) :
    Coalesced ((blocks.map Prod.fst).Nodup) ex.edits
      (ex.edits.filter fun e => e.lineNum ∉ dropped) := by
  have hunique : ∀ hunk ∈ hunksOf ex.edits, hunk.sourceLines.Nodup := by
    intro hunk hhunk
    rw [mem_hunksOf hhunk]
    exact nodup_dedup _
  obtain ⟨owners, hsettled⟩ := settled_normalize settled_nil
    (by rw [nil_append]; exact nodup_hunksOf ex.edits) hunique hresult
  rw [nil_append] at hsettled
  refine ⟨?_, dropped, rfl, ?_⟩
  · intro e he e' he' hne line hline hline'
    obtain ⟨hmem, hkept⟩ := mem_filter.mp he
    obtain ⟨hmem', hkept'⟩ := mem_filter.mp he'
    rw [decide_eq_true_eq] at hkept hkept'
    have hsource := (h.targets_iff e.lineNum line).mp ⟨e, hmem, rfl, hline⟩
    have hsource' := (h.targets_iff e'.lineNum line).mp ⟨e', hmem', rfl, hline'⟩
    have howner := (mem_owners hsettled).mpr
      ⟨hunkFor_mem hmem (isConcrete_of_targets hline), ne_nil_of_mem hsource, hkept⟩
    have howner' := (mem_owners hsettled).mpr
      ⟨hunkFor_mem hmem' (isConcrete_of_targets hline'), ne_nil_of_mem hsource', hkept'⟩
    refine hsettled.not_both howner howner' ?_ hsource hsource'
    exact fun heq => hne (congrArg ConcreteHunk.lineNum heq)
  intro n hn
  obtain ⟨old, new, hpair, rfl, hnew, hfree, hlines⟩ := hsettled.gaveWay n hn
  obtain ⟨hnewMem, hnonempty, hkept⟩ := (mem_owners hsettled).mp hnew
  have hold := mem_hunksOf (hpair.subset mem_cons_self)
  have hnewHunk := mem_hunksOf hnewMem
  have hclipboard : ∀ e ∈ ex.edits, e.lineNum = old.lineNum → e.clipboardDependent = false := by
    intro e he hkey
    rw [hold, hunkFor] at hfree
    have hnot := any_eq_false.mp hfree e
      (mem_filter.mpr ⟨he, decide_eq_true hkey⟩)
    simpa using hnot
  refine ⟨⟨new.lineNum, hkept, ?_, ?_⟩, hclipboard, ?_⟩
  · exact hpair.map ConcreteHunk.lineNum
  · intro line
    rw [h.targets_iff, h.targets_iff, ← hold, ← hnewHunk]
    exact hlines line
  intro hnodup e he hkey
  -- the hunk deletes a line, and all of its edits are of one block
  obtain ⟨line, hline⟩ := exists_mem_of_ne_nil _ hnonempty
  rw [← hlines line, hold, mem_sourceLines] at hline
  obtain ⟨d, hd, hdKey, hdLine⟩ := hline
  obtain ⟨block, hblock, hmem, hblockKey, huniform⟩ := h.mem he
  obtain ⟨block', hblock', hmem', hblockKey', -⟩ := h.mem hd
  have hsame : block' = block := inj_on_of_nodup_map hnodup hblock' hblock
    (by rw [hblockKey, hblockKey', hkey, hdKey])
  subst hsame
  have hdelete : ∃ line n, RowEdit.delete line n ∈ block'.2 := by
    have hplain := hclipboard d hd hdKey
    cases d with
    | delete line n => exact ⟨line, n, hmem'⟩
    | paste target =>
      cases target with
      | span => exact Bool.noConfusion hplain
      | gap => exact absurd hdLine not_mem_nil
    | cut => exact absurd hdLine not_mem_nil
    | insert => exact absurd hdLine not_mem_nil
    | block => exact absurd hdLine not_mem_nil
  refine huniform.plain hdelete ?_ e hmem
  rw [all_eq_true]
  intro other hother
  have hotherMem : other ∈ ex.edits := by
    rw [h.edits]
    exact mem_flatMap.mpr ⟨block', hblock, hother⟩
  rw [hclipboard other hotherMem
    ((huniform.lineNum_eq other hother).trans (hblockKey.trans hkey))]
  rfl

end Coalescing

namespace Executor

/-- `end` or `endStreaming`. -/
def ends (shapes : RowShapes) (streaming : Bool) (ex : Executor) : Except ParseError Executor :=
  if streaming then ex.finishStreaming shapes else ex.finish shapes

variable {shapes : RowShapes} {ex ex' : Executor} {streaming : Bool}

theorem ends_eq (ex : Executor) : ex.ends shapes streaming =
    (ex.flushed shapes streaming).bind fun before =>
      before.validateFileOp.bind fun _ => before.normalizeOverlappingRanges := by
  cases streaming with
  | false =>
    rw [ends, if_neg Bool.false_ne_true, finish, flushed]
    simp only [bind]
    cases ex.consumePendingSkippableComments shapes with
    | error => rfl
    | ok => rfl
  | true =>
    rw [ends, if_pos rfl, finishStreaming, flushed]
    simp only [bind]
    cases ex.consumePendingSkippableComments shapes with
    | error => rfl
    | ok => rfl

/-- What has been accepted was normalized. -/
theorem ends_ok (h : ex.ends shapes streaming = .ok ex') :
    ∃ before dropped, ex.flushed shapes streaming = .ok before ∧
      BlockEdits.normalize [] [] (hunksOf before.edits) = some dropped ∧
      ex'.edits = before.edits.filter fun e => e.lineNum ∉ dropped := by
  rw [ends_eq] at h
  cases hflushed : ex.flushed shapes streaming with
  | error =>
    rw [hflushed] at h
    cases h
  | ok before =>
    rw [hflushed] at h
    change (before.validateFileOp.bind fun _ => before.normalizeOverlappingRanges) = _ at h
    cases hvalid : before.validateFileOp with
    | error =>
      rw [hvalid] at h
      cases h
    | ok _ =>
      rw [hvalid] at h
      rw [normalizeOverlappingRanges] at h
      split at h
      · cases h
      · next hnone =>
        cases h
        refine ⟨_, [], rfl, hnone, ?_⟩
        simp
      next n rest hsome =>
      cases h
      refine ⟨before, n :: rest, rfl, hsome, ?_⟩
      refine filter_congr fun e _ => ?_
      rw [Bool.eq_iff_iff, Bool.not_eq_true', decide_eq_true_eq, ← Bool.not_eq_true,
        contains_iff_mem]

/-- The edits that an executor returns, whatever tokens it has read: no line of the file is left to
two hunks, and what is gone has given way to a later hunk with the same lines. -/
theorem coalesced_of_ends {tokens : List Token} (hfeed : feedAll shapes {} tokens = .ok ex)
    (hends : ex.ends shapes streaming = .ok ex') :
    ∃ before, ex.flushed shapes streaming = .ok before ∧
      Coalesced (tokens.Pairwise fun a b => a.lineNum < b.lineNum) before.edits ex'.edits := by
  obtain ⟨before, dropped, hflushed, hnormalize, hedits⟩ := ends_ok hends
  have hstart : Blocks {} [] := ⟨rfl, fun _ h => absurd h not_mem_nil⟩
  obtain ⟨fed, hfed, hnumbers⟩ := hstart.feedAll hfeed
  obtain ⟨blocks, hblocks, hsub⟩ := hfed.flushed hflushed
  obtain ⟨hapart, gone, hgone, hall⟩ := coalesced_of_normalize hblocks hnormalize
  refine ⟨before, hflushed, ?_, gone, ?_, ?_⟩
  · rw [hedits]
    exact hapart
  · rw [hedits]
    exact hgone
  intro n hn
  obtain ⟨hlater, hclipboard, hregister⟩ := hall n hn
  refine ⟨hlater, hclipboard, fun hordered => hregister ?_⟩
  have hnodup : (tokens.map Token.lineNum).Nodup :=
    pairwise_map.mpr (hordered.imp fun hlt => hlt.ne)
  exact hnodup.sublist (hsub.trans hnumbers)

/-- Two replacements of the same lines. -/
def samePair : List Token :=
  [⟨1, .opBlock (.replace 1 2 none) true⟩, ⟨2, .payloadLiteral (units "a")⟩,
    ⟨3, .opBlock (.replace 1 2 none) true⟩, ⟨4, .payloadLiteral (units "b")⟩]

/-- The first one gives way to the second. -/
theorem coalesced_samePair : ∃ ex ex', feedAll plainShapes {} samePair = .ok ex ∧
    ex.ends plainShapes false = .ok ex' ∧ ex'.edits.length = 3 ∧
      ∃ before, ex.flushed plainShapes false = .ok before ∧
        Coalesced (samePair.Pairwise fun a b => a.lineNum < b.lineNum) before.edits ex'.edits :=
  ⟨_, _, rfl, rfl, rfl, @coalesced_of_ends plainShapes _ _ false samePair rfl rfl⟩

end Executor

end BreadboardTui.Hashline
