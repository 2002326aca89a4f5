import BreadboardTui.Secrets.Placeholder

/-!
# Scanning a text with its secrets put back

A replacing regular expression sees the secrets behind the placeholders of a text. The scan text is
made of segments: raw parts of the text, and the secrets of the placeholders, each of which stands
for the whole token. A match in the scan text is mapped back to the least part of the text that
holds all of it.
-/

namespace BreadboardTui.Secrets

open List

open Hashline (Units)

/-! ### The scan text -/

structure RegexScanSegment where
  scanStart : ℕ
  scanEnd : ℕ
  textStart : ℕ
  textEnd : ℕ
  generatedPlaceholder : Bool
  recursive : Bool

/-- What a placeholder stands for. -/
structure SecretMapping where
  secret : Units
  recursive : Bool

structure ReplaceRegexScan where
  text : Units := []
  segments : List RegexScanSegment := []

/-- `^\$\$[A-Z0-9]+_([A-Z0-9]{4,}(?::[ULCM])?)\$\$$`, with the group as a token. -/
def placeholderWithoutFriendlyName (placeholder : Units) : Option Units :=
  let body := (placeholder.drop 2).take (placeholder.length - 4)
  if placeholder = token body ∧ validBody body = true then
    (splitName body).map fun parts => token parts.2
  else none

def lookupFriendlyPlaceholderAlias (deobfuscateMap : JsMap Units SecretMapping)
    (placeholder : Units) : Option SecretMapping :=
  match JsMap.get deobfuscateMap placeholder with
  | some direct => some direct
  | none => (placeholderWithoutFriendlyName placeholder).bind (JsMap.get deobfuscateMap)

/-- `text.slice(start, end)`. -/
def sliceOf (text : Units) (start stop : ℕ) : Units := (text.drop start).take (stop - start)

def ReplaceRegexScan.appendSegment (scan : ReplaceRegexScan) (value : Units)
    (textStart textEnd : ℕ) (generatedPlaceholder recursive : Bool) : ReplaceRegexScan :=
  if value = [] then scan
  else
    { text := scan.text ++ value
      segments := scan.segments ++ [⟨scan.text.length, scan.text.length + value.length, textStart,
        textEnd, generatedPlaceholder, recursive⟩] }

/-- The loop over the ranges, and the text behind them. -/
def scanRanges (text : Units) (deobfuscateMap : JsMap Units SecretMapping)
    (scan : ReplaceRegexScan) (cursor : ℕ) : List (ℕ × ℕ) → ReplaceRegexScan
  | [] => scan.appendSegment (sliceOf text cursor text.length) cursor text.length false false
  | (start, stop) :: ranges =>
    let scan := scan.appendSegment (sliceOf text cursor start) cursor start false false
    let placeholder := sliceOf text start stop
    let mapping := lookupFriendlyPlaceholderAlias deobfuscateMap placeholder
    let scan := scan.appendSegment ((mapping.map SecretMapping.secret).getD placeholder) start stop
      true ((mapping.map SecretMapping.recursive).getD false)
    scanRanges text deobfuscateMap scan stop ranges

def buildReplaceRegexScan (text : Units) (ranges : List (ℕ × ℕ))
    (deobfuscateMap : JsMap Units SecretMapping) : ReplaceRegexScan :=
  scanRanges text deobfuscateMap {} 0 ranges

/-! ### Mapping a match back -/

/-- No segment is where the source throws. -/
def findScanSegment (segments : List RegexScanSegment) (scanIndex : ℕ) :
    Option RegexScanSegment :=
  segments.find? fun segment => segment.scanStart ≤ scanIndex ∧ scanIndex < segment.scanEnd

/-- What the loop over the segments collects. -/
structure Overlapped where
  recursive : Bool := false
  preserveGeneratedPlaceholders : Bool := false
  cutResumeIndex : ℕ
  firstPlaceholderScanStart : Option ℕ := none

structure MappedMatch where
  start : ℕ
  stop : ℕ
  partialPlaceholderCut : Bool
  overlapped : Overlapped

abbrev Overlaps (scanStart scanEnd : ℕ) (segment : RegexScanSegment) : Prop :=
  segment.scanStart < scanEnd ∧ scanStart < segment.scanEnd

/-- The body of the loop. -/
def Overlapped.add (scanStart scanEnd : ℕ) (o : Overlapped) (segment : RegexScanSegment) :
    Overlapped :=
  if Overlaps scanStart scanEnd segment then
    let o := { o with
      recursive := o.recursive || segment.recursive
      preserveGeneratedPlaceholders :=
        o.preserveGeneratedPlaceholders || segment.generatedPlaceholder }
    if segment.generatedPlaceholder = true then
      { o with
        firstPlaceholderScanStart := o.firstPlaceholderScanStart.or (some segment.scanStart)
        cutResumeIndex := max o.cutResumeIndex segment.scanEnd }
    else o
  else o

def mapReplaceRegexMatch (segments : List RegexScanSegment) (scanStart scanEnd : ℕ) :
    Option MappedMatch :=
  match findScanSegment segments scanStart, findScanSegment segments (scanEnd - 1) with
  | some startSegment, some endSegment =>
    some {
      start :=
        if startSegment.generatedPlaceholder = true then startSegment.textStart
        else startSegment.textStart + (scanStart - startSegment.scanStart)
      stop :=
        if endSegment.generatedPlaceholder = true then endSegment.textEnd
        else endSegment.textStart + (scanEnd - endSegment.scanStart)
      partialPlaceholderCut :=
        (startSegment.generatedPlaceholder && decide (startSegment.scanStart < scanStart)) ||
          (endSegment.generatedPlaceholder && decide (scanEnd < endSegment.scanEnd))
      overlapped :=
        segments.foldl (Overlapped.add scanStart scanEnd) { cutResumeIndex := scanStart } }
  | _, _ => none

/-! ### Tilings -/

/-- The segments lie one behind the other, from a place of the scan text and one of the text on. -/
def Tiling (scan text : ℕ) : List RegexScanSegment → ℕ → ℕ → Prop
  | [], scanEnd, textEnd => scan = scanEnd ∧ text = textEnd
  | segment :: segments, scanEnd, textEnd =>
    (segment.scanStart = scan ∧ segment.textStart = text ∧ scan < segment.scanEnd ∧
      text ≤ segment.textEnd ∧ (segment.generatedPlaceholder = false →
        segment.scanEnd - scan = segment.textEnd - text)) ∧
      Tiling segment.scanEnd segment.textEnd segments scanEnd textEnd

/-- The part of the text that a place of the scan text comes from. -/
def RegexScanSegment.image (segment : RegexScanSegment) (index : ℕ) : ℕ × ℕ :=
  if segment.generatedPlaceholder = true then (segment.textStart, segment.textEnd)
  else
    (segment.textStart + (index - segment.scanStart),
      segment.textStart + (index + 1 - segment.scanStart))

/-- Ranges from a place on, one behind the other. -/
def Ascending (stop cursor : ℕ) : List (ℕ × ℕ) → Prop
  | [] => cursor ≤ stop
  | range :: ranges => cursor ≤ range.1 ∧ range.1 ≤ range.2 ∧ Ascending stop range.2 ranges

variable {scan text scanEnd textEnd k l : ℕ} {segments : List RegexScanSegment}
  {segment : RegexScanSegment}

theorem Tiling.concat (h : Tiling scan text segments segment.scanStart segment.textStart)
    (hscan : segment.scanStart < segment.scanEnd) (htext : segment.textStart ≤ segment.textEnd)
    (hraw : segment.generatedPlaceholder = false →
      segment.scanEnd - segment.scanStart = segment.textEnd - segment.textStart) :
    Tiling scan text (segments ++ [segment]) segment.scanEnd segment.textEnd := by
  induction segments generalizing scan text with
  | nil =>
    obtain ⟨rfl, rfl⟩ := h
    exact ⟨⟨rfl, rfl, hscan, htext, hraw⟩, rfl, rfl⟩
  | cons head segments ih => exact ⟨h.1, ih h.2⟩

theorem Tiling.le (h : Tiling scan text segments scanEnd textEnd) :
    scan ≤ scanEnd ∧ text ≤ textEnd ∧ ∀ segment ∈ segments, scan ≤ segment.scanStart := by
  induction segments generalizing scan text with
  | nil => exact ⟨h.1.le, h.2.le, nofun⟩
  | cons head segments ih =>
    obtain ⟨⟨hstart, -, hscan, htext, -⟩, h⟩ := h
    obtain ⟨hle, hle', hall⟩ := ih h
    refine ⟨hscan.le.trans hle, htext.trans hle', fun segment hmem => ?_⟩
    rcases mem_cons.mp hmem with rfl | hmem
    · exact hstart.ge
    · exact hscan.le.trans (hall segment hmem)

theorem Tiling.find_eq (h : Tiling scan text segments scanEnd textEnd) (hmem : segment ∈ segments)
    (hk : segment.scanStart ≤ k) (hend : k < segment.scanEnd) :
    findScanSegment segments k = some segment := by
  induction segments generalizing scan text with
  | nil => cases hmem
  | cons head segments ih =>
    rcases mem_cons.mp hmem with rfl | hmem
    · exact find?_cons_of_pos (decide_eq_true ⟨hk, hend⟩)
    · have hle := h.2.le.2.2 segment hmem
      exact (find?_cons_of_neg (by simp; omega)).trans (ih h.2 hmem)

/-- The images of places of the scan text are in the text that is tiled, and in their order. -/
theorem Tiling.image_le (h : Tiling scan text segments scanEnd textEnd) (hk : scan ≤ k)
    (hkl : k ≤ l) (hend : l < scanEnd) : ∃ s t, findScanSegment segments k = some s ∧
      findScanSegment segments l = some t ∧ text ≤ (s.image k).1 ∧
        (s.image k).1 ≤ (t.image l).1 ∧ (s.image k).2 ≤ (t.image l).2 ∧
          (t.image l).2 ≤ textEnd ∧ (s.image k).1 ≤ (s.image k).2 := by
  induction segments generalizing scan text k with
  | nil => exact absurd h.1 (by omega)
  | cons head segments ih =>
    obtain ⟨⟨hstart, htextStart, hscan, htext, hraw⟩, h⟩ := h
    have hle := h.le.2.1
    have hhead {k : ℕ} (hk : scan ≤ k) (hlt : k < head.scanEnd) :
        findScanSegment (head :: segments) k = some head ∧ text ≤ (head.image k).1 ∧
          (head.image k).1 ≤ (head.image k).2 ∧ (head.image k).2 ≤ head.textEnd := by
      refine ⟨find?_cons_of_pos (decide_eq_true ⟨by omega, hlt⟩), ?_⟩
      rw [RegexScanSegment.image]
      cases hgenerated : head.generatedPlaceholder with
      | true => exact ⟨htextStart.ge, htextStart ▸ htext, le_rfl⟩
      | false =>
        have hlength := hraw hgenerated
        simp only [Bool.false_eq_true, if_false]
        omega
    have htail {k : ℕ} (hlt : ¬ k < head.scanEnd) :
        findScanSegment (head :: segments) k = findScanSegment segments k :=
      find?_cons_of_neg (by simp; omega)
    by_cases hlt : k < head.scanEnd
    · obtain ⟨hfind, hlow, hpair, hhigh⟩ := hhead hk hlt
      by_cases hlt' : l < head.scanEnd
      · obtain ⟨hfind', -, -, hhigh'⟩ := hhead (hk.trans hkl) hlt'
        refine ⟨head, head, hfind, hfind', hlow, ?_, ?_, hhigh'.trans hle, hpair⟩
        all_goals
          simp only [RegexScanSegment.image]
          split
          · exact le_rfl
          · dsimp only; omega
      · obtain ⟨t, t', ht, ht', hlow', -, -, hhigh', hpair'⟩ := ih h (not_lt.mp hlt') le_rfl
        cases Option.some.inj (ht.symm.trans ht')
        have hbelow := hhigh.trans hlow'
        exact ⟨head, t, hfind, (htail hlt').trans ht, hlow, hpair.trans hbelow, hbelow.trans hpair',
          hhigh', hpair⟩
    · obtain ⟨s, t, hs, ht, hlow, hrest⟩ := ih h (not_lt.mp hlt) hkl
      refine ⟨s, t, (htail hlt).trans hs, (htail (by omega)).trans ht, ?_, hrest⟩
      exact htext.trans hlow

variable {start stop cursor : ℕ} {content : Units} {deobfuscateMap : JsMap Units SecretMapping}
  {ranges : List (ℕ × ℕ)}

theorem tiling_appendSegment {scan : ReplaceRegexScan} {value : Units} {generated : Bool}
    (recursive : Bool) (h : Tiling 0 0 scan.segments scan.text.length cursor) (hle : cursor ≤ stop)
    (hnil : value = [] → cursor = stop)
    (hraw : generated = false → value.length = stop - cursor) :
    Tiling 0 0 (scan.appendSegment value cursor stop generated recursive).segments
      (scan.appendSegment value cursor stop generated recursive).text.length stop := by
  rw [ReplaceRegexScan.appendSegment]
  split
  · next hvalue => exact hnil hvalue ▸ h
  next hvalue =>
  have hpos := length_pos_of_ne_nil hvalue
  rw [length_append]
  refine @Tiling.concat _ _ _ ⟨_, _, _, _, _, _⟩ h (Nat.lt_add_of_pos_right hpos) hle
    fun hgenerated => ?_
  rw [← hraw hgenerated]
  exact Nat.add_sub_cancel_left ..

theorem length_sliceOf (hstop : stop ≤ content.length) :
    (sliceOf content start stop).length = stop - start := by
  rw [sliceOf, length_take, length_drop]
  omega

theorem Ascending.le (h : Ascending stop cursor ranges) : cursor ≤ stop := by
  induction ranges generalizing cursor with
  | nil => exact h
  | cons range ranges ih => exact h.1.trans (h.2.1.trans (ih h.2.2))

theorem secret_ne_nil (hsecrets : ∀ entry ∈ deobfuscateMap, entry.2.secret ≠ [])
    {placeholder : Units} {mapping : SecretMapping}
    (h : lookupFriendlyPlaceholderAlias deobfuscateMap placeholder = some mapping) :
    mapping.secret ≠ [] := by
  have hget {key : Units} (h : JsMap.get deobfuscateMap key = some mapping) :
      mapping.secret ≠ [] := by
    obtain ⟨entry, hentry, rfl⟩ := mem_map.mp (JsMap.mem_values_of_get h)
    exact hsecrets entry hentry
  rw [lookupFriendlyPlaceholderAlias] at h
  split at h
  · next hdirect => exact hget (hdirect.trans h)
  · obtain ⟨unprefixed, -, h⟩ := Option.bind_eq_some_iff.mp h
    exact hget h

/-- The segments tile both texts. -/
theorem tiling_scanRanges (hsecrets : ∀ entry ∈ deobfuscateMap, entry.2.secret ≠ [])
    {scan : ReplaceRegexScan} (h : Tiling 0 0 scan.segments scan.text.length cursor)
    (hranges : Ascending content.length cursor ranges) :
    let built := scanRanges content deobfuscateMap scan cursor ranges
    Tiling 0 0 built.segments built.text.length content.length := by
  have hslice {start stop : ℕ} (hle : start ≤ stop) (hstop : stop ≤ content.length) :
      sliceOf content start stop = [] → start = stop := by
    intro hnil
    have hlength := @length_sliceOf start stop content hstop
    rw [hnil, length_nil] at hlength
    omega
  induction ranges generalizing scan cursor with
  | nil =>
    exact tiling_appendSegment _ h hranges (hslice hranges le_rfl) fun _ => length_sliceOf le_rfl
  | cons range ranges ih =>
    obtain ⟨hcursor, hrange, hrest⟩ := hranges
    have hstart := hrange.trans hrest.le
    refine ih (tiling_appendSegment _ (tiling_appendSegment _ h hcursor (hslice hcursor hstart)
      fun _ => length_sliceOf hstart) hrange ?_ nofun) hrest
    cases hlookup : lookupFriendlyPlaceholderAlias deobfuscateMap
        (sliceOf content range.1 range.2) with
    | none => exact hslice hrange hrest.le
    | some mapping => exact fun hnil => absurd hnil (secret_ne_nil hsecrets hlookup)

/-- The segment of a placeholder that a part of the scan text overlaps. -/
def IsCut (scanStart scanEnd : ℕ) (segment : RegexScanSegment) : Prop :=
  segment.generatedPlaceholder = true ∧ Overlaps scanStart scanEnd segment

theorem cutResumeIndex_foldl (segments : List RegexScanSegment) (scanStart scanEnd : ℕ)
    (o : Overlapped) :
    let resume := (segments.foldl (Overlapped.add scanStart scanEnd) o).cutResumeIndex
    o.cutResumeIndex ≤ resume ∧
      (∀ segment ∈ segments, IsCut scanStart scanEnd segment → segment.scanEnd ≤ resume) ∧
      (resume = o.cutResumeIndex ∨
        ∃ segment ∈ segments, IsCut scanStart scanEnd segment ∧ resume = segment.scanEnd) := by
  induction segments generalizing o with
  | nil => exact ⟨le_rfl, nofun, .inl rfl⟩
  | cons segment segments ih =>
    obtain ⟨hle, hall, hsome⟩ := ih (o.add scanStart scanEnd segment)
    rw [← foldl_cons] at hle hall hsome
    by_cases hcut : IsCut scanStart scanEnd segment
    · have hadd : (o.add scanStart scanEnd segment).cutResumeIndex =
          max o.cutResumeIndex segment.scanEnd := by
        rw [Overlapped.add, if_pos hcut.2]
        exact congrArg _ (if_pos hcut.1)
      rw [hadd] at hle hsome
      refine ⟨(le_max_left _ _).trans hle, forall_mem_cons.mpr
        ⟨fun _ => (le_max_right _ _).trans hle, hall⟩, ?_⟩
      rcases hsome with heq | ⟨other, hother, hrest⟩
      · rcases max_choice o.cutResumeIndex segment.scanEnd with hmax | hmax
        · exact .inl (heq.trans hmax)
        · exact .inr ⟨segment, mem_cons_self, hcut, heq.trans hmax⟩
      · exact .inr ⟨other, mem_cons_of_mem _ hother, hrest⟩
    · have hadd : (o.add scanStart scanEnd segment).cutResumeIndex = o.cutResumeIndex := by
        rw [Overlapped.add]
        split
        · next hoverlaps =>
          dsimp only
          rw [if_neg fun hgenerated => hcut ⟨hgenerated, hoverlaps⟩]
        · rfl
      rw [hadd] at hle hsome
      refine ⟨hle, forall_mem_cons.mpr ⟨fun h => absurd h hcut, hall⟩, hsome.imp_right ?_⟩
      exact fun ⟨other, hother, hrest⟩ => ⟨other, mem_cons_of_mem _ hother, hrest⟩

/-- A part of the text holds the images of a part of the scan text. -/
def Covers (segments : List RegexScanSegment) (scanStart scanEnd start stop : ℕ) : Prop :=
  ∀ index, scanStart ≤ index → index < scanEnd → ∃ segment,
    findScanSegment segments index = some segment ∧
      start ≤ (segment.image index).1 ∧ (segment.image index).2 ≤ stop

/-- What a match is mapped back to. -/
structure MapsBack (segments : List RegexScanSegment) (scanStart scanEnd : ℕ) (m : MappedMatch) :
    Prop where
  covers : Covers segments scanStart scanEnd m.start m.stop
  least : ∀ start stop, Covers segments scanStart scanEnd start stop →
    start ≤ m.start ∧ m.stop ≤ stop
  cut_iff : m.partialPlaceholderCut = true ↔ ∃ segment ∈ segments,
    segment.generatedPlaceholder = true ∧
      (segment.scanStart < scanStart ∧ scanStart < segment.scanEnd ∨
        segment.scanStart < scanEnd ∧ scanEnd < segment.scanEnd)
  le_resume : ∀ segment ∈ segments, IsCut scanStart scanEnd segment →
    segment.scanEnd ≤ m.overlapped.cutResumeIndex
  resume_eq : (m.overlapped.cutResumeIndex = scanStart ∧
      ∀ segment ∈ segments, ¬ IsCut scanStart scanEnd segment) ∨
    ∃ segment ∈ segments, IsCut scanStart scanEnd segment ∧
      m.overlapped.cutResumeIndex = segment.scanEnd

theorem Tiling.mapsBack (h : Tiling 0 0 segments scanEnd textEnd) (hkl : k < l) (hl : l ≤ scanEnd) :
    ∃ m, mapReplaceRegexMatch segments k l = some m ∧ MapsBack segments k l m := by
  obtain ⟨s, t, hs, ht, -⟩ := h.image_le (Nat.zero_le k) (show k ≤ l - 1 by omega) (by omega)
  have hmem {index : ℕ} {segment : RegexScanSegment}
      (hfind : findScanSegment segments index = some segment) :
      segment ∈ segments ∧ segment.scanStart ≤ index ∧ index < segment.scanEnd :=
    ⟨mem_of_find?_eq_some hfind, by simpa using find?_some hfind⟩
  obtain ⟨hsmem, hsk, hks⟩ := hmem hs
  obtain ⟨htmem, htl, hlt⟩ := hmem ht
  rw [mapReplaceRegexMatch, hs, ht]
  refine ⟨_, rfl, ?_⟩
  have hstart : (if s.generatedPlaceholder = true then s.textStart
      else s.textStart + (k - s.scanStart)) = (s.image k).1 := by
    rw [RegexScanSegment.image]
    split <;> rfl
  have hstop : (if t.generatedPlaceholder = true then t.textEnd
      else t.textStart + (l - t.scanStart)) = (t.image (l - 1)).2 := by
    rw [RegexScanSegment.image, Nat.sub_add_cancel (by omega)]
    split <;> rfl
  obtain ⟨hle, hall, hsome⟩ := cutResumeIndex_foldl segments k l { cutResumeIndex := k }
  rw [hstart, hstop]
  refine ⟨fun index hk hlt => ?_, fun start stop hcovers => ?_, ?_, hall, ?_⟩
  · obtain ⟨s', u, hs', hu, -, hlow, -⟩ := h.image_le (Nat.zero_le k) hk (by omega)
    obtain ⟨u', t', hu', ht', -, -, hhigh, -⟩ :=
      h.image_le (Nat.zero_le index) (show index ≤ l - 1 by omega) (by omega)
    cases Option.some.inj (hs.symm.trans hs')
    cases Option.some.inj (ht.symm.trans ht')
    cases Option.some.inj (hu.symm.trans hu')
    exact ⟨u, hu, hlow, hhigh⟩
  · obtain ⟨s', hs', hlow, -⟩ := hcovers k le_rfl hkl
    obtain ⟨t', ht', -, hhigh⟩ := hcovers (l - 1) (by omega) (by omega)
    cases Option.some.inj (hs.symm.trans hs')
    cases Option.some.inj (ht.symm.trans ht')
    exact ⟨hlow, hhigh⟩
  · rw [Bool.or_eq_true, Bool.and_eq_true, Bool.and_eq_true, decide_eq_true_eq, decide_eq_true_eq]
    constructor
    · rintro (⟨hgenerated, hcut⟩ | ⟨hgenerated, hcut⟩)
      · exact ⟨s, hsmem, hgenerated, .inl ⟨hcut, hks⟩⟩
      · exact ⟨t, htmem, hgenerated, .inr ⟨by omega, hcut⟩⟩
    · rintro ⟨segment, hsegment, hgenerated, ⟨hcut, hcut'⟩ | ⟨hcut, hcut'⟩⟩
      · cases Option.some.inj (hs.symm.trans (h.find_eq hsegment hcut.le hcut'))
        exact .inl ⟨hgenerated, hcut⟩
      · cases Option.some.inj (ht.symm.trans (h.find_eq hsegment (by omega) (by omega)))
        exact .inr ⟨hgenerated, hcut'⟩
  · refine hsome.imp (fun heq => ⟨heq, fun segment hsegment hcut => ?_⟩) id
    have hend := hall segment hsegment hcut
    exact absurd hcut.2.2 (not_lt.mpr (hend.trans heq.le))

/-- The segments tile both texts, and every part of the scan text is mapped back. -/
def ReplaceRegexScan.Exact (scan : ReplaceRegexScan) (content : Units) : Prop :=
  Tiling 0 0 scan.segments scan.text.length content.length ∧
    ∀ scanStart scanEnd, scanStart < scanEnd → scanEnd ≤ scan.text.length →
      ∃ m, mapReplaceRegexMatch scan.segments scanStart scanEnd = some m ∧
        MapsBack scan.segments scanStart scanEnd m

end BreadboardTui.Secrets
