import BreadboardTui.Compaction.ShakeRanges

/-!
# Shake

`collectShakeRegions` finds what a shake may drop from a branch, whole tool results and large blocks
of the other messages, and `applyShakeRegions` replaces the regions with placeholders.

A region is applied to the entry that it was found on, and the blocks of one text from the last to
the first, so that an offset is still right when its turn comes. `shake_removes_text` says that this
replaces all regions of a text at once, in whatever order the list has them, and what the original
texts of the regions bring back. A tool result is offloaded as text: `image_not_offloaded` shows two
branches that differ by an image and that a shake makes equal.
-/

namespace BreadboardTui.Shake

open List

open Hashline (Units)

/-! ### The branch -/

structure ToolCall (Data : Type) where
  id : String
  name : String
  arguments : Data

inductive Block (Data : Type) where
  | text (text : Units)
  | toolCall (call : ToolCall Data)
  | other (block : Data)

inductive Content (Data : Type) where
  | string (text : Units)
  | blocks (blocks : List (Block Data))

structure ToolResultMessage (Data : Type) where
  toolCallId : String
  toolName : String
  content : List (Block Data)
  details : Option Data := none
  isError : Bool := false
  useless : Bool := false
  prunedAt : Option ℕ := none

inductive AgentMessage (Data : Type) where
  | assistant (content : List (Block Data))
  | user (content : Content Data)
  | developer (content : Content Data)
  | toolResult (message : ToolResultMessage Data)
  | other (message : Data)

inductive EntryBody (Data : Type) where
  | message (message : AgentMessage Data)
  | customMessage (customType : String) (content : Content Data)
  | other (entry : Data)

structure SessionEntry (Data : Type) where
  id : String
  body : EntryBody Data

/-- A matcher is the name of a tool, or a predicate on a result and its call. -/
inductive ProtectedToolMatcher (Data : Type) where
  | tool (name : String)
  | context (holds : ToolResultMessage Data → Option (ToolCall Data) → Bool)

structure ShakeConfig (Data : Type) where
  protectTokens : ℕ
  minSavings : ℕ
  protectedTools : List (ProtectedToolMatcher Data)
  fenceMinTokens : ℕ
  keepBoundaryId : Option String := none

/-- The counter of tokens, for a message, a text and a list of texts. -/
structure Tokenizer (Data : Type) where
  countMessage : AgentMessage Data → ℕ
  countTokens : Units → ℕ
  countFragments : List Units → ℕ

structure ToolResultShakeRegion where
  entry : ℕ
  tokens : ℕ
  originalText : Units
  label : String

/-- A block of the text at `blockIndex`, which is `none` where the content is a string. -/
structure BlockShakeRegion where
  entry : ℕ
  blockIndex : Option ℕ
  start : ℕ
  stop : ℕ
  tokens : ℕ
  originalText : Units
  label : String

/-- The entry of a region is its index on the branch. -/
inductive ShakeRegion where
  | toolResult (region : ToolResultShakeRegion)
  | block (region : BlockShakeRegion)

namespace ShakeRegion

def entry : ShakeRegion → ℕ
  | toolResult region => region.entry
  | block region => region.entry

def tokens : ShakeRegion → ℕ
  | toolResult region => region.tokens
  | block region => region.tokens

def originalText : ShakeRegion → Units
  | toolResult region => region.originalText
  | block region => region.originalText

end ShakeRegion

section Model

variable {Data : Type}

def Block.text? : Block Data → Option Units
  | .text value => some value
  | _ => none

def getToolResultMessage (entry : SessionEntry Data) : Option (ToolResultMessage Data) :=
  match entry.body with
  | .message (.toolResult message) => some message
  | _ => none

/-- The text blocks, a newline between each two. -/
def toolResultText (message : ToolResultMessage Data) : Units :=
  joinLines (message.content.filterMap Block.text?)

def contentTokens (tokenizer : Tokenizer Data) : Content Data → ℕ
  | .string text => if text.length = 0 then 0 else tokenizer.countTokens text
  | .blocks blocks =>
    let fragments := blocks.filterMap Block.text?
    if fragments.length = 0 then 0 else tokenizer.countFragments fragments

def entryTokens (tokenizer : Tokenizer Data) (entry : SessionEntry Data) : ℕ :=
  match entry.body with
  | .message message => tokenizer.countMessage message
  | .customMessage _ content => contentTokens tokenizer content
  | .other _ => 0

/-- The last call with an id is the one that the map keeps. -/
def collectToolCallsById (entries : List (SessionEntry Data)) (id : String) :
    Option (ToolCall Data) :=
  (entries.flatMap fun entry =>
    match entry.body with
    | .message (.assistant blocks) => blocks.filterMap fun
      | .toolCall call => some call
      | _ => none
    | _ => []).reverse.find? fun call => call.id = id

def isProtectedToolResult (toolResult : ToolResultMessage Data) (toolCall : Option (ToolCall Data))
    (matchers : List (ProtectedToolMatcher Data)) : Bool :=
  matchers.any fun
    | .tool name => toolResult.toolName = name
    | .context holds => holds toolResult toolCall

/-! ### Regions -/

def PLACEHOLDER_TOKEN_ESTIMATE : ℕ := 16

def pushBlockRegions (tokenizer : Tokenizer Data) (config : ShakeConfig Data) (label : String)
    (entry : ℕ) (blockIndex : Option ℕ) (text : Units) : List ShakeRegion :=
  (scanTextForBlockRanges text).filterMap fun range =>
    let part := slice text range.start range.stop
    let tokens := tokenizer.countTokens part
    if part.length = 0 ∨ tokens < config.fenceMinTokens then none
    else some (.block ⟨entry, blockIndex, range.start, range.stop, tokens, part, label⟩)

def scanBlocks (tokenizer : Tokenizer Data) (config : ShakeConfig Data) (label : String)
    (entry : ℕ) (blocks : List (Block Data)) : List ShakeRegion :=
  blocks.zipIdx.flatMap fun (block, i) =>
    match block with
    | .text text => pushBlockRegions tokenizer config label entry (some i) text
    | _ => []

def scanContentBlocks (tokenizer : Tokenizer Data) (config : ShakeConfig Data) (label : String)
    (entry : ℕ) : Content Data → List ShakeRegion
  | .string text => pushBlockRegions tokenizer config label entry none text
  | .blocks blocks => scanBlocks tokenizer config label entry blocks

def collectBlockRegions (tokenizer : Tokenizer Data) (config : ShakeConfig Data) (entry : ℕ) :
    EntryBody Data → List ShakeRegion
  | .message (.assistant blocks) => scanBlocks tokenizer config "assistant" entry blocks
  | .message (.user content) => scanContentBlocks tokenizer config "user" entry content
  | .message (.developer content) => scanContentBlocks tokenizer config "developer" entry content
  | .customMessage customType content =>
    scanContentBlocks tokenizer config customType entry content
  | _ => []

/-- The tokens of the entries behind an index. -/
def accumulatedAfter (tokenizer : Tokenizer Data) (entries : List (SessionEntry Data))
    (i : ℕ) : ℕ :=
  ((entries.drop (i + 1)).map (entryTokens tokenizer)).sum

def boundaryIndex (config : ShakeConfig Data) (entries : List (SessionEntry Data)) : ℕ :=
  match config.keepBoundaryId with
  | none => 0
  | some id => (entries.findIdx? fun entry => entry.id = id).getD 0

/-- The region of a tool result that is unpruned, not protected and has a text. -/
def toolResultRegions (tokenizer : Tokenizer Data) (config : ShakeConfig Data)
    (entries : List (SessionEntry Data)) (i : ℕ) (toolResult : ToolResultMessage Data) :
    List ShakeRegion :=
  if toolResult.prunedAt.isSome then []
  else if isProtectedToolResult toolResult (collectToolCallsById entries toolResult.toolCallId)
      config.protectedTools then []
  else
    let text := toolResultText toolResult
    if text.length = 0 then []
    else [.toolResult ⟨i, tokenizer.countMessage (.toolResult toolResult), text,
      toolResult.toolName⟩]

/-- One round of the loop of `collectShakeRegions`. -/
def entryRegions (tokenizer : Tokenizer Data) (config : ShakeConfig Data)
    (entries : List (SessionEntry Data)) (entry : SessionEntry Data) (i : ℕ) : List ShakeRegion :=
  let uselessResult := (getToolResultMessage entry).any fun m => m.useless && !m.isError
  if i < boundaryIndex config entries then []
  else if !uselessResult && accumulatedAfter tokenizer entries i < config.protectTokens then []
  else
    match getToolResultMessage entry with
    | some toolResult => toolResultRegions tokenizer config entries i toolResult
    | none => collectBlockRegions tokenizer config i entry.body

def collectShakeRegions (tokenizer : Tokenizer Data) (config : ShakeConfig Data)
    (entries : List (SessionEntry Data)) : List ShakeRegion :=
  let regions := entries.zipIdx.flatMap fun (entry, i) =>
    entryRegions tokenizer config entries entry i
  let savings := (regions.map fun region => region.tokens - PLACEHOLDER_TOKEN_ESTIMATE).sum
  if savings < config.minSavings then [] else regions

/-! ### Application -/

def Block.mapText (f : Units → Units) : Block Data → Block Data
  | .text value => .text (f value)
  | block => block

def mapBlocks (f : Option ℕ → Units → Units) (blocks : List (Block Data)) : List (Block Data) :=
  blocks.mapIdx fun i block => block.mapText (f (some i))

def Content.mapTexts (f : Option ℕ → Units → Units) : Content Data → Content Data
  | .string value => .string (f none value)
  | .blocks values => .blocks (mapBlocks f values)

/-- Changes the texts of an entry, each by the function for its place. -/
def EntryBody.mapTexts (f : Option ℕ → Units → Units) : EntryBody Data → EntryBody Data
  | .message (.assistant blocks) => .message (.assistant (mapBlocks f blocks))
  | .message (.user content) => .message (.user (content.mapTexts f))
  | .message (.developer content) => .message (.developer (content.mapTexts f))
  | .message (.toolResult result) =>
    .message (.toolResult { result with content := mapBlocks f result.content })
  | .customMessage customType content => .customMessage customType (content.mapTexts f)
  | body => body

def SessionEntry.mapTexts (f : Option ℕ → Units → Units) (entry : SessionEntry Data) :
    SessionEntry Data :=
  { entry with body := entry.body.mapTexts f }

/-- Writes the text slot at `blockIndex`. There may be none, and then nothing is written. -/
def SessionEntry.writeSlot (entry : SessionEntry Data) (blockIndex : Option ℕ)
    (write : Units → Units) : SessionEntry Data :=
  entry.mapTexts fun slot text => if slot = blockIndex then write text else text

/-- `replacement` over the part from `start` to `stop`. -/
def splice (start stop : ℕ) (replacement text : Units) : Units :=
  text.take start ++ replacement ++ text.drop stop

/-- The content of a tool result becomes the placeholder. -/
def SessionEntry.writeResult (now : ℕ) (replacement : Units) (entry : SessionEntry Data) :
    SessionEntry Data :=
  match entry.body with
  | .message (.toolResult message) =>
    { entry with body := .message (.toolResult
        { message with content := [.text replacement], prunedAt := some now }) }
  | _ => entry

def applyToEntry (now : ℕ) (item : ShakeRegion × Units) (entry : SessionEntry Data) :
    SessionEntry Data :=
  match item with
  | (.toolResult _, replacement) => entry.writeResult now replacement
  | (.block region, replacement) =>
    entry.writeSlot region.blockIndex (splice region.start region.stop replacement)

def applyShakeRegion (now : ℕ) (entries : List (SessionEntry Data)) (item : ShakeRegion × Units) :
    List (SessionEntry Data) :=
  entries.modify item.1.entry (applyToEntry now item)

/-- Where a region stands in the order of application. -/
def ShakeRegion.sortStart : ShakeRegion → ℤ
  | .toolResult _ => -1
  | .block region => region.start

/-- The later the start, the earlier the turn. -/
def ordered (items : List (ShakeRegion × Units)) : List (ShakeRegion × Units) :=
  items.insertionSort fun a b => b.1.sortStart ≤ a.1.sortStart

def applyShakeRegions (now : ℕ) (items : List (ShakeRegion × Units))
    (entries : List (SessionEntry Data)) : List (SessionEntry Data) :=
  (ordered items).foldl (applyShakeRegion now) entries

end Model

/-! ### Simultaneous replacement -/

structure Edit where
  start : ℕ
  stop : ℕ
  text : Units

/-- The edits, in order, of a text that starts at `offset`. -/
def replaceFrom (offset : ℕ) (text : Units) : List Edit → Units
  | [] => text
  | edit :: edits =>
    text.take (edit.start - offset) ++ edit.text ++
      replaceFrom edit.stop (text.drop (edit.stop - offset)) edits

/-- All edits at once. -/
def replaceAll (edits : List Edit) (text : Units) : Units := replaceFrom 0 text edits

def Edit.apply (text : Units) (edit : Edit) : Units := splice edit.start edit.stop edit.text text

/-- Edits that are disjoint, in order and inside the text. -/
structure Fits (edits : List Edit) (text : Units) : Prop where
  disjoint : edits.Pairwise fun a b => a.stop ≤ b.start
  inside : ∀ edit ∈ edits, edit.start ≤ edit.stop ∧ edit.stop ≤ text.length

variable {text : Units} {edits : List Edit}

theorem Fits.tail {edit : Edit} (h : Fits (edit :: edits) text) : Fits edits text :=
  ⟨h.disjoint.of_cons, fun e he => h.inside e (mem_cons_of_mem _ he)⟩

theorem slice_append_drop {start stop : ℕ} (h : start ≤ stop)
    (hstop : stop ≤ text.length) : slice text start stop ++ text.drop stop = text.drop start := by
  have hlen : start ≤ (text.take stop).length := by
    rw [length_take]
    omega
  rw [slice, ← drop_append_of_le_length hlen, take_append_drop]

/-- A splice does not look at what comes behind it. -/
theorem splice_take_append {start stop : ℕ} (h : start ≤ stop)
    (hstop : stop ≤ text.length) (replacement rest : Units) :
    splice start stop replacement (text.take stop ++ rest) =
      text.take start ++ replacement ++ rest := by
  have hlen : (text.take stop).length = stop := by
    rw [length_take]
    omega
  rw [splice, take_append_of_le_length (by omega), take_take, min_eq_left h, drop_left' hlen]

/-- The last splice first is the simultaneous replacement. -/
theorem foldr_splice {edits : List Edit} {text : Units} (h : Fits edits text) {offset : ℕ}
    (hoffset : ∀ edit ∈ edits, offset ≤ edit.start) :
    edits.foldr (fun edit text => edit.apply text) text =
      text.take offset ++ replaceFrom offset (text.drop offset) edits := by
  induction edits generalizing offset with
  | nil => exact (take_append_drop offset text).symm
  | cons edit edits ih =>
    obtain ⟨hstart, hstop⟩ := h.inside edit mem_cons_self
    have hfirst := hoffset edit mem_cons_self
    have htake : text.take edit.start =
        text.take offset ++ (text.drop offset).take (edit.start - offset) := by
      rw [← take_add, Nat.add_sub_cancel' hfirst]
    have hdrop : (text.drop offset).drop (edit.stop - offset) = text.drop edit.stop := by
      rw [drop_drop, Nat.add_sub_cancel' (hfirst.trans hstart)]
    rw [foldr_cons, ih h.tail (pairwise_cons.mp h.disjoint).1, Edit.apply,
      splice_take_append hstart hstop, replaceFrom, htake, hdrop]
    simp

theorem foldr_splice_eq_replaceAll (h : Fits edits text) :
    edits.foldr (fun edit text => edit.apply text) text = replaceAll edits text := by
  have heq := @foldr_splice _ _ h 0 fun _ _ => Nat.zero_le _
  rwa [take_zero, nil_append, drop_zero] at heq

/-- The parts of the text itself in the place of the edits. -/
theorem replaceFrom_slice {edits : List Edit} {text : Units} (h : Fits edits text)
    (hslice : ∀ edit ∈ edits, edit.text = slice text edit.start edit.stop) {offset : ℕ}
    (hoffset : ∀ edit ∈ edits, offset ≤ edit.start) :
    replaceFrom offset (text.drop offset) edits = text.drop offset := by
  induction edits generalizing offset with
  | nil => rfl
  | cons edit edits ih =>
    obtain ⟨hstart, hstop⟩ := h.inside edit mem_cons_self
    have hfirst := hoffset edit mem_cons_self
    rw [replaceFrom, drop_drop, Nat.add_sub_cancel' (hfirst.trans hstart),
      ih h.tail (fun e he => hslice e (mem_cons_of_mem _ he))
        (pairwise_cons.mp h.disjoint).1,
      hslice edit mem_cons_self, append_assoc, slice_append_drop hstart hstop]
    have hrest : text.drop edit.start = (text.drop offset).drop (edit.start - offset) := by
      rw [drop_drop, Nat.add_sub_cancel' hfirst]
    rw [hrest, take_append_drop]

theorem replaceAll_slice (h : Fits edits text)
    (hslice : ∀ edit ∈ edits, edit.text = slice text edit.start edit.stop) :
    replaceAll edits text = text := by
  have heq := @replaceFrom_slice _ _ h hslice 0 fun _ _ => Nat.zero_le _
  rwa [drop_zero] at heq

section Proofs

variable {Data : Type}

/-! ### The texts of an entry -/

def blockTextAt (blocks : List (Block Data)) : Option ℕ → Option Units
  | none => none
  | some i => blocks[i]?.bind Block.text?

def Content.textAt : Content Data → Option ℕ → Option Units
  | .string value, none => some value
  | .string _, some _ => none
  | .blocks values, slot => blockTextAt values slot

/-- The text at a place of an entry. -/
def EntryBody.textAt : EntryBody Data → Option ℕ → Option Units
  | .message (.assistant blocks), slot => blockTextAt blocks slot
  | .message (.user content), slot => content.textAt slot
  | .message (.developer content), slot => content.textAt slot
  | .message (.toolResult result), slot => blockTextAt result.content slot
  | .customMessage _ content, slot => content.textAt slot
  | _, _ => none

variable {f g : Option ℕ → Units → Units} {blocks : List (Block Data)}

theorem mapBlocks_congr
    (h : ∀ slot text, blockTextAt blocks slot = some text → f slot text = g slot text) :
    mapBlocks f blocks = mapBlocks g blocks := by
  refine ext_getElem? fun i => ?_
  rw [mapBlocks, mapBlocks, getElem?_mapIdx, getElem?_mapIdx]
  cases hblock : blocks[i]? with
  | none => rfl
  | some block =>
    cases block with
    | text value =>
      have heq := h (some i) value (by rw [blockTextAt, hblock]; rfl)
      simp [Block.mapText, heq]
    | _ => rfl

variable {content : Content Data}

theorem Content.mapTexts_congr
    (h : ∀ slot text, content.textAt slot = some text → f slot text = g slot text) :
    content.mapTexts f = content.mapTexts g := by
  cases content with
  | string value => rw [Content.mapTexts, Content.mapTexts, h none value rfl]
  | blocks => rw [Content.mapTexts, Content.mapTexts, mapBlocks_congr h]

/-- Only the texts that are there count. -/
theorem SessionEntry.mapTexts_congr {entry : SessionEntry Data}
    (h : ∀ slot text, entry.body.textAt slot = some text → f slot text = g slot text) :
    entry.mapTexts f = entry.mapTexts g := by
  obtain ⟨id, body⟩ := entry
  unfold SessionEntry.mapTexts
  match body, h with
  | .message (.assistant _), h | .message (.toolResult _), h =>
    simp [EntryBody.mapTexts, mapBlocks_congr h]
  | .message (.user _), h | .message (.developer _), h | .customMessage _ _, h =>
    simp [EntryBody.mapTexts, Content.mapTexts_congr h]
  | .message (.other _), _ | .other _, _ => rfl

theorem mapBlocks_mapBlocks (f g : Option ℕ → Units → Units) (blocks : List (Block Data)) :
    mapBlocks g (mapBlocks f blocks) =
      mapBlocks (fun slot text => g slot (f slot text)) blocks := by
  refine ext_getElem? fun i => ?_
  simp only [mapBlocks, getElem?_mapIdx, Option.map_map]
  congr 1
  funext block
  cases block <;> rfl

theorem Content.mapTexts_mapTexts (f g : Option ℕ → Units → Units) (content : Content Data) :
    (content.mapTexts f).mapTexts g = content.mapTexts fun slot text => g slot (f slot text) := by
  cases content with
  | string => rfl
  | blocks => simp [Content.mapTexts, mapBlocks_mapBlocks]

theorem SessionEntry.mapTexts_mapTexts (f g : Option ℕ → Units → Units)
    (entry : SessionEntry Data) :
    (entry.mapTexts f).mapTexts g = entry.mapTexts fun slot text => g slot (f slot text) := by
  obtain ⟨id, body⟩ := entry
  unfold SessionEntry.mapTexts
  match body with
  | .message (.assistant _) | .message (.toolResult _) =>
    simp [EntryBody.mapTexts, mapBlocks_mapBlocks]
  | .message (.user _) | .message (.developer _) | .customMessage _ _ =>
    simp [EntryBody.mapTexts, Content.mapTexts_mapTexts]
  | .message (.other _) | .other _ => rfl

theorem mapBlocks_id (blocks : List (Block Data)) :
    mapBlocks (fun _ text => text) blocks = blocks := by
  refine ext_getElem? fun i => ?_
  rw [mapBlocks, getElem?_mapIdx]
  cases hblock : blocks[i]? with
  | none => rfl
  | some block => cases block <;> rfl

theorem SessionEntry.mapTexts_id (entry : SessionEntry Data) :
    entry.mapTexts (fun _ text => text) = entry := by
  obtain ⟨id, body⟩ := entry
  have hcontent (content : Content Data) : content.mapTexts (fun _ text => text) = content := by
    cases content with
    | string => rfl
    | blocks => rw [Content.mapTexts, mapBlocks_id]
  unfold SessionEntry.mapTexts
  match body with
  | .message (.assistant _) | .message (.toolResult _) =>
    simp [EntryBody.mapTexts, mapBlocks_id]
  | .message (.user _) | .message (.developer _) | .customMessage _ _ =>
    simp [EntryBody.mapTexts, hcontent]
  | .message (.other _) | .other _ => rfl

/-! ### Regions of a branch -/

/-- Two regions in this order do not overlap, and no other region is on the entry of a result. -/
def ShakeRegion.Before : ShakeRegion → ShakeRegion → Prop
  | .block a, .block b => a.entry = b.entry → a.blockIndex = b.blockIndex → a.stop ≤ b.start
  | a, b => a.entry ≠ b.entry

/-- The region is a block of the text, and it has the text of the block. -/
def BlockRegionOf (text : Units) (region : BlockShakeRegion) : Prop :=
  BlockOfText text ⟨region.start, region.stop⟩ ∧ region.start < region.stop ∧
    region.originalText = slice text region.start region.stop

/-- What a region of a branch stands for. -/
def RegionOf (entries : List (SessionEntry Data)) : ShakeRegion → Prop
  | .block region => ∃ entry text, entries[region.entry]? = some entry ∧
      getToolResultMessage entry = none ∧ entry.body.textAt region.blockIndex = some text ∧
      BlockRegionOf text region
  | .toolResult region => ∃ entry message, entries[region.entry]? = some entry ∧
      getToolResultMessage entry = some message ∧ message.prunedAt = none ∧
      region.originalText = toolResultText message ∧ toolResultText message ≠ []

theorem before_of_entry_ne {a b : ShakeRegion} (h : a.entry ≠ b.entry) : a.Before b := by
  match a, b with
  | .block a, .block b => exact fun heq => absurd heq h
  | .toolResult a, .block b => exact h
  | .block a, .toolResult b => exact h
  | .toolResult a, .toolResult b => exact h

theorem pairwise_zipIdx {α : Type} (l : List α) : l.zipIdx.Pairwise fun a b => a.2 ≠ b.2 := by
  have hnodup : (l.zipIdx.map Prod.snd).Nodup := by
    rw [zipIdx_map_snd]
    exact nodup_range'
  exact pairwise_map.mp hnodup

section Collect

variable (tokenizer : Tokenizer Data) (config : ShakeConfig Data) (label : String) (entry : ℕ)

variable {r : ShakeRegion}

theorem mem_pushBlockRegions {blockIndex : Option ℕ}
    (h : r ∈ pushBlockRegions tokenizer config label entry blockIndex text) :
    ∃ region, r = .block region ∧ region.entry = entry ∧ region.blockIndex = blockIndex ∧
      BlockRegionOf text region := by
  obtain ⟨range, hrange, hr⟩ := mem_filterMap.mp h
  dsimp only at hr
  split at hr
  · cases hr
  next hlarge =>
    cases hr
    have hspec := scanTextForBlockRanges_spec hrange
    refine ⟨_, rfl, rfl, rfl, hspec, ?_, rfl⟩
    rw [not_or] at hlarge
    have hlen := hlarge.1
    rw [slice, length_drop, length_take] at hlen
    show range.start < range.stop
    omega

theorem pairwise_pushBlockRegions (blockIndex : Option ℕ) (text : Units) :
    (pushBlockRegions tokenizer config label entry blockIndex text).Pairwise
      ShakeRegion.Before := by
  refine (pairwise_scanTextForBlockRanges text).filterMap _ fun a b hab r hr r' hr' => ?_
  dsimp only at hr hr'
  split at hr
  · cases hr
  split at hr'
  · cases hr'
  cases hr
  cases hr'
  exact fun _ _ => hab

theorem mem_scanBlocks (h : r ∈ scanBlocks tokenizer config label entry blocks) :
    ∃ region text, r = .block region ∧ region.entry = entry ∧
      blockTextAt blocks region.blockIndex = some text ∧ BlockRegionOf text region := by
  obtain ⟨⟨block, i⟩, hblock, hr⟩ := mem_flatMap.mp h
  rw [mk_mem_zipIdx_iff_getElem?] at hblock
  cases block with
  | text value =>
    obtain ⟨region, hregion, hentry, hindex, hof⟩ :=
      mem_pushBlockRegions tokenizer config label entry hr
    refine ⟨region, value, hregion, hentry, ?_, hof⟩
    rw [hindex, blockTextAt, hblock]
    rfl
  | _ => exact absurd hr not_mem_nil

theorem pairwise_scanBlocks (blocks : List (Block Data)) :
    (scanBlocks tokenizer config label entry blocks).Pairwise ShakeRegion.Before := by
  refine pairwise_flatMap.mpr ⟨fun a _ => ?_, ?_⟩
  · obtain ⟨block, i⟩ := a
    cases block with
    | text value => exact pairwise_pushBlockRegions tokenizer config label entry (some i) value
    | _ => exact .nil
  refine (pairwise_zipIdx blocks).imp fun {a b} hab r hr r' hr' => ?_
  obtain ⟨block, i⟩ := a
  obtain ⟨block', j⟩ := b
  cases block with
  | toolCall => exact absurd hr not_mem_nil
  | other => exact absurd hr not_mem_nil
  | text value =>
    cases block' with
    | toolCall => exact absurd hr' not_mem_nil
    | other => exact absurd hr' not_mem_nil
    | text =>
      obtain ⟨region, rfl, -, hindex, -⟩ := mem_pushBlockRegions tokenizer config label entry hr
      obtain ⟨region', rfl, -, hindex', -⟩ := mem_pushBlockRegions tokenizer config label entry hr'
      intro _ heq
      rw [hindex, hindex'] at heq
      exact absurd (Option.some.inj heq) hab

theorem mem_scanContentBlocks (h : r ∈ scanContentBlocks tokenizer config label entry content) :
    ∃ region text, r = .block region ∧ region.entry = entry ∧
      content.textAt region.blockIndex = some text ∧ BlockRegionOf text region := by
  cases content with
  | string value =>
    obtain ⟨region, hregion, hentry, hindex, hof⟩ :=
      mem_pushBlockRegions tokenizer config label entry h
    exact ⟨region, value, hregion, hentry, by rw [hindex]; rfl, hof⟩
  | blocks => exact mem_scanBlocks tokenizer config label entry h

theorem pairwise_scanContentBlocks (content : Content Data) :
    (scanContentBlocks tokenizer config label entry content).Pairwise ShakeRegion.Before := by
  cases content with
  | string value => exact pairwise_pushBlockRegions tokenizer config label entry none value
  | blocks values => exact pairwise_scanBlocks tokenizer config label entry values

theorem mem_collectBlockRegions {body : EntryBody Data}
    (h : r ∈ collectBlockRegions tokenizer config entry body) :
    ∃ region text, r = .block region ∧ region.entry = entry ∧
      body.textAt region.blockIndex = some text ∧ BlockRegionOf text region := by
  match body, h with
  | .message (.assistant blocks), h => exact mem_scanBlocks tokenizer config _ entry h
  | .message (.user _), h | .message (.developer _), h | .customMessage _ _, h =>
    exact mem_scanContentBlocks tokenizer config _ entry h

theorem pairwise_collectBlockRegions (body : EntryBody Data) :
    (collectBlockRegions tokenizer config entry body).Pairwise ShakeRegion.Before := by
  match body with
  | .message (.assistant blocks) => exact pairwise_scanBlocks tokenizer config _ entry blocks
  | .message (.user content) | .message (.developer content) | .customMessage _ content =>
    exact pairwise_scanContentBlocks tokenizer config _ entry content
  | .message (.toolResult _) | .message (.other _) | .other _ => exact .nil

end Collect

section Branch

variable (tokenizer : Tokenizer Data) (config : ShakeConfig Data)
variable (entries : List (SessionEntry Data))

variable {r : ShakeRegion}

theorem mem_toolResultRegions {i : ℕ} {message : ToolResultMessage Data}
    (h : r ∈ toolResultRegions tokenizer config entries i message) :
    ∃ region, r = .toolResult region ∧ region.entry = i ∧ message.prunedAt = none ∧
      region.originalText = toolResultText message ∧ toolResultText message ≠ [] := by
  unfold toolResultRegions at h
  split at h
  · cases h
  next hpruned =>
    split at h
    · cases h
    dsimp only at h
    split at h
    · cases h
    next hlen =>
      rw [mem_singleton.mp h]
      refine ⟨_, rfl, rfl, by simpa using hpruned, rfl, fun hnil => hlen ?_⟩
      rw [hnil]
      rfl

theorem pairwise_toolResultRegions (i : ℕ) (message : ToolResultMessage Data) :
    (toolResultRegions tokenizer config entries i message).Pairwise ShakeRegion.Before := by
  unfold toolResultRegions
  split
  · exact .nil
  split
  · exact .nil
  dsimp only
  split
  · exact .nil
  · exact pairwise_singleton _ _

/-- A region of an entry lies at or after the boundary, and it is of a result or a block. -/
theorem mem_entryRegions {entry : SessionEntry Data} {i : ℕ} (hentry : entries[i]? = some entry)
    (h : r ∈ entryRegions tokenizer config entries entry i) :
    r.entry = i ∧ boundaryIndex config entries ≤ i ∧ RegionOf entries r := by
  unfold entryRegions at h
  dsimp only at h
  split at h
  · cases h
  next hboundary =>
    split at h
    · cases h
    cases hresult : getToolResultMessage entry with
    | none =>
      rw [hresult] at h
      obtain ⟨region, text, rfl, rfl, htext, hof⟩ := mem_collectBlockRegions tokenizer config i h
      exact ⟨rfl, not_lt.mp hboundary, entry, text, hentry, hresult, htext, hof⟩
    | some message =>
      rw [hresult] at h
      obtain ⟨region, rfl, rfl, hpruned, htext, hne⟩ :=
        mem_toolResultRegions tokenizer config entries h
      exact ⟨rfl, not_lt.mp hboundary, entry, message, hentry, hresult, hpruned, htext, hne⟩

theorem pairwise_entryRegions (entry : SessionEntry Data) (i : ℕ) :
    (entryRegions tokenizer config entries entry i).Pairwise ShakeRegion.Before := by
  unfold entryRegions
  dsimp only
  split
  · exact .nil
  split
  · exact .nil
  cases getToolResultMessage entry with
  | none => exact pairwise_collectBlockRegions tokenizer config i entry.body
  | some message => exact pairwise_toolResultRegions tokenizer config entries i message

theorem mem_collectShakeRegions (h : r ∈ collectShakeRegions tokenizer config entries) :
    boundaryIndex config entries ≤ r.entry ∧ RegionOf entries r := by
  unfold collectShakeRegions at h
  dsimp only at h
  split at h
  · cases h
  obtain ⟨⟨entry, i⟩, hentry, hr⟩ := mem_flatMap.mp h
  rw [mk_mem_zipIdx_iff_getElem?] at hentry
  obtain ⟨rfl, hof⟩ := mem_entryRegions tokenizer config entries hentry hr
  exact hof

/-- The regions of one text are disjoint and in order. -/
theorem pairwise_collectShakeRegions :
    (collectShakeRegions tokenizer config entries).Pairwise ShakeRegion.Before := by
  unfold collectShakeRegions
  dsimp only
  split
  · exact .nil
  refine pairwise_flatMap.mpr
    ⟨fun a _ => pairwise_entryRegions tokenizer config entries a.1 a.2, ?_⟩
  refine (pairwise_zipIdx entries).imp_of_mem fun {a b} ha hb hab r hr r' hr' => ?_
  have hr := (mem_entryRegions tokenizer config entries (mem_zipIdx_iff_getElem?.mp ha) hr).1
  have hr' := (mem_entryRegions tokenizer config entries (mem_zipIdx_iff_getElem?.mp hb) hr').1
  exact before_of_entry_ne (by rw [hr, hr']; exact hab)

end Branch

/-! ### Edits of a text -/

/-- The edit that an item makes to the text at a place. -/
def editAt (i : ℕ) (slot : Option ℕ) : ShakeRegion × Units → Option Edit
  | (.block region, replacement) =>
    if region.entry = i ∧ region.blockIndex = slot then
      some ⟨region.start, region.stop, replacement⟩
    else none
  | (.toolResult _, _) => none

/-- The edits of a text in the order of the document. -/
def editsAt (regions : List ShakeRegion) (replacement : ShakeRegion → Units) (i : ℕ)
    (slot : Option ℕ) : List Edit :=
  (regions.map fun region => (region, replacement region)).filterMap (editAt i slot)

variable {slot : Option ℕ} {i : ℕ}

variable {edit : Edit}

theorem eq_block_of_editAt {item : ShakeRegion × Units} (h : editAt i slot item = some edit) :
    ∃ region, item.1 = .block region ∧ region.entry = i ∧ region.blockIndex = slot ∧
      edit = ⟨region.start, region.stop, item.2⟩ := by
  obtain ⟨region | region, replacement⟩ := item
  · cases h
  rw [editAt] at h
  split at h
  next hplace => exact ⟨region, rfl, hplace.1, hplace.2, (Option.some.inj h).symm⟩
  · cases h

variable {entries : List (SessionEntry Data)} {regions : List ShakeRegion}

theorem mem_editsAt {replacement : ShakeRegion → Units}
    (h : edit ∈ editsAt regions replacement i slot) :
    ∃ region, .block region ∈ regions ∧ region.entry = i ∧ region.blockIndex = slot ∧
      edit = ⟨region.start, region.stop, replacement (.block region)⟩ := by
  obtain ⟨item, hitem, hedit⟩ := mem_filterMap.mp h
  obtain ⟨r, hr, rfl⟩ := mem_map.mp hitem
  obtain ⟨region, hregion, hentry, hslot, rfl⟩ := eq_block_of_editAt hedit
  subst hregion
  exact ⟨region, hr, hentry, hslot, rfl⟩

theorem pairwise_editsAt (h : regions.Pairwise ShakeRegion.Before)
    (replacement : ShakeRegion → Units) (i : ℕ) (slot : Option ℕ) :
    (editsAt regions replacement i slot).Pairwise fun a b => a.stop ≤ b.start := by
  refine List.Pairwise.filterMap (R := fun a b => a.1.Before b.1) _ ?_ (pairwise_map.mpr h)
  intro item item' hbefore edit hedit edit' hedit'
  obtain ⟨region, hregion, hentry, hslot, rfl⟩ := eq_block_of_editAt hedit
  obtain ⟨region', hregion', hentry', hslot', rfl⟩ := eq_block_of_editAt hedit'
  rw [hregion, hregion'] at hbefore
  exact hbefore (hentry.trans hentry'.symm) (hslot.trans hslot'.symm)

theorem blockRegionOf_of_mem_editsAt (hof : ∀ r ∈ regions, RegionOf entries r)
    {replacement : ShakeRegion → Units} {entry : SessionEntry Data}
    (hentry : entries[i]? = some entry) (htext : entry.body.textAt slot = some text)
    (h : edit ∈ editsAt regions replacement i slot) :
    ∃ region, edit = ⟨region.start, region.stop, replacement (.block region)⟩ ∧
      BlockRegionOf text region := by
  obtain ⟨region, hregion, rfl, rfl, rfl⟩ := mem_editsAt h
  obtain ⟨entry', text', hentry', -, htext', hblock⟩ := hof _ hregion
  obtain rfl := Option.some.inj (hentry.symm.trans hentry')
  obtain rfl := Option.some.inj (htext.symm.trans htext')
  exact ⟨region, rfl, hblock⟩

theorem fits_editsAt (hof : ∀ r ∈ regions, RegionOf entries r)
    (hbefore : regions.Pairwise ShakeRegion.Before) (replacement : ShakeRegion → Units)
    {entry : SessionEntry Data} (hentry : entries[i]? = some entry)
    (htext : entry.body.textAt slot = some text) :
    Fits (editsAt regions replacement i slot) text := by
  refine ⟨pairwise_editsAt hbefore replacement i slot, fun edit hedit => ?_⟩
  obtain ⟨region, rfl, hblock⟩ := blockRegionOf_of_mem_editsAt hof hentry htext hedit
  exact ⟨hblock.1.1, hblock.1.2.1⟩

/-! ### Assignments -/

/-- A replacement for each region, and an order of the regions. -/
structure Assignment (regions : List ShakeRegion) where
  replacement : ShakeRegion → Units
  order : List ShakeRegion
  perm : order.Perm regions

def Assignment.items (a : Assignment regions) : List (ShakeRegion × Units) :=
  a.order.map fun region => (region, a.replacement region)

variable (items : List (ShakeRegion × Units))

theorem ordered_perm : (ordered items).Perm items :=
  perm_insertionSort _ items

theorem pairwise_ordered : (ordered items).Pairwise fun a b => b.1.sortStart ≤ a.1.sortStart := by
  have htotal : Std.Total fun a b : ShakeRegion × Units => b.1.sortStart ≤ a.1.sortStart :=
    ⟨fun a b => le_total b.1.sortStart a.1.sortStart⟩
  have htrans : IsTrans (ShakeRegion × Units) fun a b => b.1.sortStart ≤ a.1.sortStart :=
    ⟨fun _ _ _ hab hbc => hbc.trans hab⟩
  exact pairwise_insertionSort _ items

variable (a : Assignment regions)

theorem Assignment.perm_items :
    a.items.Perm (regions.map fun region => (region, a.replacement region)) :=
  a.perm.map _

/-- In the order of application the edits of a text come from the last to the first. -/
theorem Assignment.filterMap_ordered
    (hdisjoint : (editsAt regions a.replacement i slot).Pairwise fun a b => a.stop ≤ b.start)
    (hnonempty : ∀ edit ∈ editsAt regions a.replacement i slot, edit.start < edit.stop) :
    (ordered a.items).filterMap (editAt i slot) =
      (editsAt regions a.replacement i slot).reverse := by
  have hperm : ((ordered a.items).filterMap (editAt i slot)).Perm
      (editsAt regions a.replacement i slot) :=
    ((ordered_perm a.items).trans a.perm_items).filterMap _
  have hstrict : (editsAt regions a.replacement i slot).Pairwise fun a b => a.start < b.start :=
    hdisjoint.imp_of_mem fun ha _ hab => (hnonempty _ ha).trans_le hab
  have hinj : ∀ e ∈ editsAt regions a.replacement i slot,
      ∀ e' ∈ editsAt regions a.replacement i slot, e.start = e'.start → e = e' := by
    intro e he e' he' heq
    by_contra hne
    have hsymm : Std.Symm fun a b : Edit => a.start ≠ b.start := ⟨fun _ _ h => h.symm⟩
    have hstarts := hstrict.imp (S := fun a b : Edit => a.start ≠ b.start) fun h => ne_of_lt h
    exact hstarts.forall he he' hne heq
  have hleft : ((ordered a.items).filterMap (editAt i slot)).Pairwise
      fun a b => b.start ≤ a.start := by
    refine (pairwise_ordered a.items).filterMap _ fun item item' hle edit hedit edit' hedit' => ?_
    obtain ⟨region, hregion, -, -, rfl⟩ := eq_block_of_editAt hedit
    obtain ⟨region', hregion', -, -, rfl⟩ := eq_block_of_editAt hedit'
    rw [hregion, hregion'] at hle
    exact Int.ofNat_le.mp hle
  have hright : (editsAt regions a.replacement i slot).reverse.Pairwise
      fun a b => b.start ≤ a.start :=
    pairwise_reverse.mpr (hstrict.imp le_of_lt)
  refine List.Perm.eq_of_pairwise (fun e e' he he' hle hle' => ?_) hleft hright
    (hperm.trans (reverse_perm _).symm)
  exact hinj e (hperm.mem_iff.mp he) e' (mem_reverse.mp he') (le_antisymm hle' hle)

/-! ### An entry after a shake -/

/-- What the items of one entry do to it. -/
def applyItems (now : ℕ) (items : List (ShakeRegion × Units)) (entry : SessionEntry Data) :
    SessionEntry Data :=
  items.foldl (fun entry item => applyToEntry now item entry) entry

variable (now : ℕ)

theorem getElem?_foldl_applyShakeRegion (items : List (ShakeRegion × Units))
    (entries : List (SessionEntry Data)) (i : ℕ) :
    (items.foldl (applyShakeRegion now) entries)[i]? =
      entries[i]?.map (applyItems now (items.filter fun item => item.1.entry = i)) := by
  induction items generalizing entries with
  | nil => exact (congrFun Option.map_id _).symm
  | cons item items ih =>
    rw [foldl_cons, ih, applyShakeRegion, getElem?_modify]
    by_cases hentry : item.1.entry = i
    · rw [filter_cons_of_pos (by simpa using hentry)]
      cases entries[i]? <;> simp [hentry, applyItems]
    rw [filter_cons_of_neg (by simpa using hentry)]
    cases entries[i]? <;> simp [hentry]

/-- Blocks that are applied to one entry change its texts, each by its own edits. -/
theorem applyItems_blocks {items : List (ShakeRegion × Units)}
    (h : ∀ item ∈ items, item.1.entry = i ∧ ∃ region, item.1 = .block region)
    (entry : SessionEntry Data) :
    applyItems now items entry = entry.mapTexts fun slot text =>
      (items.filterMap (editAt i slot)).foldl Edit.apply text := by
  induction items generalizing entry with
  | nil => exact (entry.mapTexts_id).symm
  | cons item items ih =>
    have hrest := ih (fun item' hitem' => h item' (mem_cons_of_mem _ hitem'))
      (applyToEntry now item entry)
    obtain ⟨hentry, region, hregion⟩ := h item mem_cons_self
    obtain ⟨r, replacement⟩ := item
    subst hregion
    rw [applyItems, foldl_cons]
    refine hrest.trans ?_
    rw [applyToEntry, SessionEntry.writeSlot, SessionEntry.mapTexts_mapTexts]
    congr 1
    funext slot text
    by_cases hslot : slot = region.blockIndex
    · have hedit : editAt i slot (.block region, replacement) =
          some ⟨region.start, region.stop, replacement⟩ := if_pos ⟨hentry, hslot.symm⟩
      rw [if_pos hslot, filterMap_cons_some hedit, foldl_cons]
      rfl
    have hedit : editAt i slot (.block region, replacement) = none :=
      if_neg fun hplace => hslot hplace.2.symm
    rw [if_neg hslot, filterMap_cons_none hedit]

variable {region : ToolResultShakeRegion}

theorem filter_entry_of_toolResult (hbefore : regions.Pairwise ShakeRegion.Before)
    (h : .toolResult region ∈ regions) :
    regions.filter (fun r => r.entry = region.entry) = [.toolResult region] := by
  have hmem : ShakeRegion.toolResult region ∈ regions.filter fun r => r.entry = region.entry :=
    mem_filter.mpr ⟨h, by simp [ShakeRegion.entry]⟩
  have hentry : ∀ r ∈ regions.filter (fun r => r.entry = region.entry),
      r.entry = region.entry := fun r hr => by simpa using (mem_filter.mp hr).2
  have hpairwise := hbefore.filter fun r => decide (r.entry = region.entry)
  generalize regions.filter (fun r => r.entry = region.entry) = l at hmem hentry hpairwise
  have hleft : ∀ r ∈ l, ¬ ShakeRegion.Before (.toolResult region) r := by
    intro r hr hb
    cases r with
    | toolResult => exact hb (hentry _ hr).symm
    | block => exact hb (hentry _ hr).symm
  have hright : ∀ r ∈ l, ¬ r.Before (.toolResult region) := by
    intro r hr hb
    cases r with
    | toolResult => exact hb (hentry _ hr)
    | block => exact hb (hentry _ hr)
  match l with
  | [r] => rw [mem_singleton.mp hmem]
  | r :: r' :: rest =>
    have hfirst := (pairwise_cons.mp hpairwise).1
    obtain rfl | hmem := mem_cons.mp hmem
    · exact absurd (hfirst r' mem_cons_self) (hleft r' (by simp))
    · exact absurd (hfirst _ hmem) (hright r mem_cons_self)

/-- Every text of `entry` with all its regions replaced at once, or the result that is replaced. -/
def shaken (now : ℕ) (regions : List ShakeRegion) (replacement : ShakeRegion → Units) (i : ℕ)
    (entry : SessionEntry Data) : SessionEntry Data :=
  match regions.find? fun r => r.entry = i with
  | some (.toolResult region) => entry.writeResult now (replacement (.toolResult region))
  | _ => entry.mapTexts fun slot text => replaceAll (editsAt regions replacement i slot) text

theorem shaken_of_toolResult (hbefore : regions.Pairwise ShakeRegion.Before)
    (replacement : ShakeRegion → Units)
    (h : .toolResult region ∈ regions) (entry : SessionEntry Data) :
    shaken now regions replacement region.entry entry =
      entry.writeResult now (replacement (.toolResult region)) := by
  rw [shaken, ← head?_filter, filter_entry_of_toolResult hbefore h]
  rfl

variable (replacement : ShakeRegion → Units)

theorem shaken_of_blocks
    (h : ∀ region, .toolResult region ∈ regions → region.entry ≠ i) (entry : SessionEntry Data) :
    shaken now regions replacement i entry =
      entry.mapTexts fun slot text => replaceAll (editsAt regions replacement i slot) text := by
  rw [shaken]
  split
  next region hfind =>
    have hentry := find?_some hfind
    exact absurd (of_decide_eq_true hentry) (h region (mem_of_find?_eq_some hfind))
  · rfl

theorem Assignment.applyItems_toolResult (hbefore : regions.Pairwise ShakeRegion.Before) (now : ℕ)
    (h : .toolResult region ∈ regions)
    (entry : SessionEntry Data) :
    applyItems now ((ordered a.items).filter fun item => item.1.entry = region.entry) entry =
      entry.writeResult now (a.replacement (.toolResult region)) := by
  have hperm := ((ordered_perm a.items).trans a.perm_items).filter fun item =>
    decide (item.1.entry = region.entry)
  have hfilter : (regions.map fun r => (r, a.replacement r)).filter
      (fun item => decide (item.1.entry = region.entry)) =
        [(.toolResult region, a.replacement (.toolResult region))] := by
    rw [filter_map]
    show ((regions.filter fun r => decide (r.entry = region.entry)).map _) = _
    rw [filter_entry_of_toolResult hbefore h]
    rfl
  rw [hfilter, perm_singleton] at hperm
  rw [hperm]
  rfl

section Apply

variable (hof : ∀ r ∈ regions, RegionOf entries r) (hbefore : regions.Pairwise ShakeRegion.Before)
include hof hbefore

theorem Assignment.applyItems_blocks (a : Assignment regions) (now : ℕ)
    {entry : SessionEntry Data} (hentry : entries[i]? = some entry)
    (h : ∀ region, .toolResult region ∈ regions → region.entry ≠ i) :
    applyItems now ((ordered a.items).filter fun item => item.1.entry = i) entry =
      entry.mapTexts fun slot text => replaceAll (editsAt regions a.replacement i slot) text := by
  have hblocks : ∀ item ∈ (ordered a.items).filter (fun item => item.1.entry = i),
      item.1.entry = i ∧ ∃ region, item.1 = .block region := by
    intro item hitem
    obtain ⟨hitem, hi⟩ := mem_filter.mp hitem
    have hi : item.1.entry = i := by simpa using hi
    obtain ⟨r, hr, rfl⟩ := mem_map.mp (((ordered_perm a.items).trans a.perm_items).mem_iff.mp
      hitem)
    cases r with
    | toolResult region => exact absurd hi (h region hr)
    | block region => exact ⟨hi, region, rfl⟩
  rw [Shake.applyItems_blocks now hblocks]
  refine SessionEntry.mapTexts_congr fun slot text htext => ?_
  have hfits := fits_editsAt hof hbefore a.replacement hentry htext
  have hnonempty : ∀ edit ∈ editsAt regions a.replacement i slot, edit.start < edit.stop := by
    intro edit hedit
    obtain ⟨region, rfl, hblock⟩ := blockRegionOf_of_mem_editsAt hof hentry htext hedit
    exact hblock.2.1
  have hfilter : ((ordered a.items).filter fun item => item.1.entry = i).filterMap
      (editAt i slot) = (ordered a.items).filterMap (editAt i slot) := by
    rw [filterMap_filter]
    refine filterMap_congr fun item _ => ?_
    split
    · rfl
    next hne =>
      cases hedit : editAt i slot item with
      | none => rfl
      | some =>
        obtain ⟨region, hregion, hi, -, -⟩ := eq_block_of_editAt hedit
        exact absurd (by simp [hregion, ShakeRegion.entry, hi]) hne
  rw [hfilter, a.filterMap_ordered hfits.disjoint hnonempty, foldl_reverse]
  exact foldr_splice_eq_replaceAll hfits

theorem getElem?_applyShakeRegions (a : Assignment regions) (now i : ℕ) :
    (applyShakeRegions now a.items entries)[i]? =
      entries[i]?.map (shaken now regions a.replacement i) := by
  rw [applyShakeRegions, getElem?_foldl_applyShakeRegion]
  cases hentry : entries[i]? with
  | none => rfl
  | some =>
    rw [Option.map_some, Option.map_some]
    by_cases hresult : ∃ region, ShakeRegion.toolResult region ∈ regions ∧ region.entry = i
    · obtain ⟨region, hregion, rfl⟩ := hresult
      rw [a.applyItems_toolResult hbefore now hregion,
        shaken_of_toolResult now hbefore a.replacement hregion]
    have hno : ∀ region, ShakeRegion.toolResult region ∈ regions → region.entry ≠ i :=
      fun region hregion hi => hresult ⟨region, hregion, hi⟩
    rw [a.applyItems_blocks hof hbefore now hentry hno, shaken_of_blocks now a.replacement hno]

theorem shaken_originalText (now : ℕ) {entry : SessionEntry Data}
    (hentry : entries[i]? = some entry)
    (h : ∀ region, .toolResult region ∈ regions → region.entry ≠ i) :
    shaken now regions ShakeRegion.originalText i entry = entry := by
  rw [shaken_of_blocks now _ h]
  refine (SessionEntry.mapTexts_congr fun slot text htext => ?_).trans entry.mapTexts_id
  refine replaceAll_slice (fits_editsAt hof hbefore _ hentry htext) fun edit hedit => ?_
  obtain ⟨region, rfl, hblock⟩ := blockRegionOf_of_mem_editsAt hof hentry htext hedit
  exact hblock.2.2

end Apply

/-- Nothing happens to an entry without regions. -/
theorem shaken_of_forall_ne (h : ∀ r ∈ regions, r.entry ≠ i) (entry : SessionEntry Data) :
    shaken now regions replacement i entry = entry := by
  rw [shaken_of_blocks now replacement fun region hregion => h _ hregion]
  have hedits (slot : Option ℕ) : editsAt regions replacement i slot = [] := by
    refine eq_nil_iff_forall_not_mem.mpr fun edit hedit => ?_
    obtain ⟨region, hregion, hentry, -⟩ := mem_editsAt hedit
    exact h _ hregion hentry
  simp only [hedits]
  exact entry.mapTexts_id

/-! ### Results -/

/-- The text blocks of a result are parts of its text. -/
theorem infix_joinLines {texts : List Units} (h : text ∈ texts) : text <:+: joinLines texts := by
  obtain ⟨before, after, rfl⟩ := append_of_mem h
  obtain ⟨front, back, heq, -⟩ := exists_joinLines_append before (cons_ne_nil text []) after
  refine ⟨front, back, ?_⟩
  rw [append_assoc] at heq
  have hone : joinLines [text] = text := by simp [joinLines]
  rw [hone] at heq
  exact heq.symm

/-- What a region of a result has is its text, and that is the content of one text block only. -/
theorem toolResult_restored_iff (message : ToolResultMessage Data) :
    [Block.text (toolResultText message)] = message.content ↔
      ∃ text, message.content = [Block.text text] := by
  constructor
  · intro h
    exact ⟨_, h.symm⟩
  rintro ⟨text, h⟩
  have htext : toolResultText message = text := by
    rw [toolResultText, h]
    simp [Block.text?, joinLines]
  rw [htext, h]

/-- The regions lie at or after the boundary, are blocks of whole lines or results, and are
disjoint. A shake replaces all of them at once and changes nothing else. The original texts bring
the blocks back; a result comes back as one text block, which is what it was only if it had one. -/
theorem shake_removes_text (tokenizer : Tokenizer Data) (config : ShakeConfig Data)
    (entries : List (SessionEntry Data)) (now : ℕ) :
    let regions := collectShakeRegions tokenizer config entries
    (∀ r ∈ regions, boundaryIndex config entries ≤ r.entry ∧ RegionOf entries r) ∧
    regions.Pairwise ShakeRegion.Before ∧
    (∀ (a : Assignment regions) (i : ℕ), (applyShakeRegions now a.items entries)[i]? =
      entries[i]?.map (shaken now regions a.replacement i)) ∧
    (∀ replacement i (entry : SessionEntry Data), (∀ r ∈ regions, r.entry ≠ i) →
      shaken now regions replacement i entry = entry) ∧
    (∀ i entry, entries[i]? = some entry → getToolResultMessage entry = none →
      shaken now regions ShakeRegion.originalText i entry = entry) ∧
    ∀ region, .toolResult region ∈ regions → ∃ id message,
      entries[region.entry]? = some ⟨id, .message (.toolResult message)⟩ ∧
      (∀ replacement, shaken now regions replacement region.entry
          ⟨id, .message (.toolResult message)⟩ = ⟨id, .message (.toolResult
            { message with content := [.text (replacement (.toolResult region))],
                           prunedAt := some now })⟩) ∧
      (∀ text, .text text ∈ message.content → text <:+: region.originalText) ∧
      ([.text region.originalText] = message.content ↔
        ∃ text, message.content = [.text text]) := by
  intro regions
  have hmem : ∀ r ∈ regions, boundaryIndex config entries ≤ r.entry ∧ RegionOf entries r :=
    fun r hr => mem_collectShakeRegions tokenizer config entries hr
  have hof : ∀ r ∈ regions, RegionOf entries r := fun r hr => (hmem r hr).2
  have hbefore : regions.Pairwise ShakeRegion.Before :=
    pairwise_collectShakeRegions tokenizer config entries
  refine ⟨hmem, hbefore, fun a i => getElem?_applyShakeRegions hof hbefore a now i,
    fun replacement i entry h => shaken_of_forall_ne now replacement h entry, ?_, ?_⟩
  · intro i entry hentry hresult
    refine shaken_originalText hof hbefore now hentry fun region hregion hi => ?_
    obtain ⟨entry', message, hentry', hmessage, -⟩ := hof _ hregion
    rw [hi] at hentry'
    obtain rfl := Option.some.inj (hentry.symm.trans hentry')
    rw [hresult] at hmessage
    cases hmessage
  intro region hregion
  obtain ⟨⟨id, body⟩, message, hentry, hmessage, -, htext, -⟩ := hof _ hregion
  obtain rfl : body = .message (.toolResult message) := by
    unfold getToolResultMessage at hmessage
    split at hmessage
    next hbody =>
      cases hmessage
      exact hbody
    · cases hmessage
  refine ⟨id, message, hentry, fun replacement => ?_, fun text hblock => ?_, ?_⟩
  · rw [shaken_of_toolResult now hbefore replacement hregion]
    rfl
  · rw [htext]
    exact infix_joinLines (mem_filterMap.mpr ⟨_, hblock, rfl⟩)
  rw [htext]
  exact toolResult_restored_iff message

end Proofs

/-! ### A result with an image -/

/-- A branch with one tool result, a line of text and an image. -/
def imageBranch (image : ℕ) : List (SessionEntry ℕ) :=
  [⟨"1", .message (.toolResult
    { toolCallId := "call", toolName := "read", content := [.text [104, 105], .other image] })⟩]

/-- The image is in no region, so that two branches cannot be told apart after a shake. -/
theorem image_not_offloaded : ∃ (tokenizer : Tokenizer ℕ) (config : ShakeConfig ℕ)
    (entries entries' : List (SessionEntry ℕ)) (region : ShakeRegion), entries ≠ entries' ∧
    collectShakeRegions tokenizer config entries = [region] ∧
    collectShakeRegions tokenizer config entries' = [region] ∧
    ∀ now replacement, applyShakeRegions now [(region, replacement)] entries =
      applyShakeRegions now [(region, replacement)] entries' := by
  refine ⟨⟨fun _ => 20, fun _ => 20, fun _ => 20⟩, ⟨0, 0, [], 400, none⟩, imageBranch 1,
    imageBranch 2, .toolResult ⟨0, 20, [104, 105], "read"⟩, ?_, rfl, rfl, fun _ _ => rfl⟩
  intro h
  simp [imageBranch] at h

end BreadboardTui.Shake
