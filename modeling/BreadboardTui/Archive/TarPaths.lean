import BreadboardTui.Archive.Tar
import BreadboardTui.Lib.Blocks
import Mathlib.Data.List.TakeWhile

/-!
# Paths in an archive

A normalized path stays what it is, with or without a separator at its end. A path that is cut for
a header is cut at a separator, and is read back if it has no NUL and neither part starts with a
byte order mark; else the path that is read has fewer characters of one of the two kinds.
-/

namespace BreadboardTui.Tar

open List Option

open Utf8

/-! ### Normalized paths -/

/-- A part that normalizing keeps. -/
structure IsPart (part : Text) : Prop where
  ne_nil : part ≠ []
  ne_dot : part ≠ ['.']
  ne_dotdot : part ≠ ['.', '.']
  slash : '/' ∉ part
  backslash : '\\' ∉ part

def IsNormalized (path : Text) : Prop :=
  ∃ parts, parts ≠ [] ∧ (∀ part ∈ parts, IsPart part) ∧ path = joinPath parts

variable {parts : List Text} {part : Text}

theorem joinPath_cons (h : parts ≠ []) :
    joinPath (part :: parts) = part ++ '/' :: joinPath parts := by
  rw [joinPath, intercalate_cons_of_ne_nil h, joinPath, append_assoc, singleton_append]

theorem joinPath_singleton (part : Text) : joinPath [part] = part := intercalate_singleton

variable {c : Char}

theorem mem_joinPath (hpart : part ∈ parts) (hc : c ∈ part) : c ∈ joinPath parts := by
  induction parts with
  | nil => cases hpart
  | cons first rest ih =>
    by_cases hrest : rest = []
    · rw [hrest] at hpart ⊢
      rwa [joinPath_singleton, ← mem_singleton.mp hpart]
    rw [joinPath_cons hrest]
    rcases mem_cons.mp hpart with rfl | hpart
    · exact mem_append_left _ hc
    · exact mem_append_right _ (mem_cons_of_mem _ (ih hpart))

theorem isPart_of_normalizeParts {raw : List Text}
    (hraw : ∀ part ∈ raw, '/' ∉ part ∧ '\\' ∉ part) (h : normalizeParts raw = some parts) :
    ∀ part ∈ parts, IsPart part := by
  induction raw generalizing parts with
  | nil =>
    rw [← some.inj h]
    intro part hpart
    cases hpart
  | cons part raw ih =>
    have hrest : ∀ p ∈ raw, '/' ∉ p ∧ '\\' ∉ p := fun p hp => hraw p (mem_cons_of_mem _ hp)
    rw [normalizeParts] at h
    split at h
    · exact ih hrest h
    next hempty =>
    split at h
    · cases h
    next hdotdot =>
    obtain ⟨rest, hparts, rfl⟩ := map_eq_some_iff.mp h
    rw [not_or] at hempty
    obtain ⟨hslash, hbackslash⟩ := hraw part mem_cons_self
    intro p hp
    rcases mem_cons.mp hp with rfl | hp
    · exact ⟨hempty.1, hempty.2, hdotdot, hslash, hbackslash⟩
    · exact ih hrest hparts p hp

theorem isNormalized_of_normalize {raw path : Text}
    (h : normalizeArchiveEntryPath raw = some path) : IsNormalized path := by
  rw [normalizeArchiveEntryPath] at h
  have hraw : ∀ part ∈ (raw.map fun c => if c = '\\' then '/' else c).splitOn '/',
      '/' ∉ part ∧ '\\' ∉ part := by
    intro part hpart
    refine ⟨notMem_of_mem_splitOn hpart, fun hmem => ?_⟩
    -- no backslash is left
    have hjoin : joinPath ((raw.map fun c => if c = '\\' then '/' else c).splitOn '/') =
        raw.map fun c => if c = '\\' then '/' else c := intercalate_splitOn '/'
    have hback : '\\' ∈ raw.map fun c => if c = '\\' then '/' else c := by
      rw [← hjoin]
      exact mem_joinPath hpart hmem
    obtain ⟨c, -, hc⟩ := mem_map.mp hback
    split at hc
    · cases hc
    · next hne => exact hne hc
  cases hparts : normalizeParts ((raw.map fun c => if c = '\\' then '/' else c).splitOn '/') with
  | none =>
    rw [hparts] at h
    cases h
  | some parts =>
    rw [hparts] at h
    cases parts with
    | nil => cases h
    | cons part parts =>
      exact ⟨part :: parts, cons_ne_nil _ _, isPart_of_normalizeParts hraw hparts,
        (some.inj h).symm⟩

theorem normalizeParts_append {rest : List Text} (h : ∀ part ∈ parts, IsPart part) :
    normalizeParts (parts ++ rest) = (normalizeParts rest).map (parts ++ ·) := by
  induction parts with
  | nil => simp
  | cons part parts ih =>
    have hpart := h part mem_cons_self
    rw [cons_append, normalizeParts,
      if_neg (not_or.mpr ⟨hpart.ne_nil, hpart.ne_dot⟩), if_neg hpart.ne_dotdot,
      ih fun p hp => h p (mem_cons_of_mem _ hp), Option.map_map]
    rfl

theorem backslash_notMem_joinPath (h : ∀ part ∈ parts, '\\' ∉ part) : '\\' ∉ joinPath parts := by
  induction parts with
  | nil => exact not_mem_nil
  | cons part parts ih =>
    have hrest := ih fun p hp => h p (mem_cons_of_mem _ hp)
    by_cases hnil : parts = []
    · rw [hnil, joinPath_singleton]
      exact h part mem_cons_self
    rw [joinPath_cons hnil, mem_append, mem_cons]
    rintro (hmem | hmem | hmem)
    · exact h part mem_cons_self hmem
    · cases hmem
    · exact hrest hmem

theorem map_backslash {text : Text} (h : '\\' ∉ text) :
    (text.map fun c => if c = '\\' then '/' else c) = text := by
  refine (map_congr_left fun c hc => ?_).trans (map_id text)
  rw [if_neg]
  · rfl
  rintro rfl
  exact h hc

theorem normalize_joinPath (rest : List Text) (hparts : parts ≠ [])
    (h : ∀ part ∈ parts, IsPart part) (hrest : ∀ part ∈ rest, part = []) :
    normalizeArchiveEntryPath (joinPath (parts ++ rest)) = some (joinPath parts) := by
  have hall : ∀ part ∈ parts ++ rest, '/' ∉ part ∧ '\\' ∉ part := by
    intro part hpart
    rcases mem_append.mp hpart with hpart | hpart
    · exact ⟨(h part hpart).slash, (h part hpart).backslash⟩
    rw [hrest part hpart]
    exact ⟨not_mem_nil, not_mem_nil⟩
  have hempty : normalizeParts rest = some [] := by
    clear hall
    induction rest with
    | nil => rfl
    | cons part rest ih =>
      rw [normalizeParts, if_pos (.inl (hrest part mem_cons_self))]
      exact ih fun p hp => hrest p (mem_cons_of_mem _ hp)
  have hsplit : (joinPath (parts ++ rest)).splitOn '/' = parts ++ rest :=
    splitOn_intercalate '/' (fun part hpart => (hall part hpart).1)
      (append_ne_nil_of_left_ne_nil hparts rest)
  rw [normalizeArchiveEntryPath,
    map_backslash (backslash_notMem_joinPath fun part hpart => (hall part hpart).2), hsplit,
    normalizeParts_append h, hempty]
  cases parts with
  | nil => exact absurd rfl hparts
  | cons => simp

variable {path : Text}

theorem normalize_of_isNormalized (h : IsNormalized path) (directory : Bool) :
    normalizeArchiveEntryPath (writtenPath path directory) = some path := by
  obtain ⟨parts, hne, hparts, rfl⟩ := h
  cases directory with
  | false =>
    have hnormal := normalize_joinPath [] hne hparts fun p hp => by cases hp
    rwa [append_nil] at hnormal
  | true =>
    have hnormal := normalize_joinPath [[]] hne hparts fun p hp =>
      mem_singleton.mp hp
    have hjoin : joinPath (parts ++ [[]]) = joinPath parts ++ ['/'] := by
      clear hnormal hparts
      induction parts with
      | nil => exact absurd rfl hne
      | cons part parts ih =>
        by_cases hnil : parts = []
        · rw [hnil, singleton_append, joinPath_cons (cons_ne_nil _ _),
            joinPath_singleton, joinPath_singleton]
        rw [cons_append, joinPath_cons (append_ne_nil_of_left_ne_nil hnil _), ih hnil,
          joinPath_cons hnil, append_assoc, cons_append]
    rwa [hjoin] at hnormal

theorem ne_nil_of_isNormalized (h : IsNormalized path) : path ≠ [] := by
  obtain ⟨parts, hne, hparts, rfl⟩ := h
  cases parts with
  | nil => exact absurd rfl hne
  | cons part parts =>
    have hpart := (hparts part mem_cons_self).ne_nil
    by_cases hnil : parts = []
    · rw [hnil, joinPath_singleton]
      exact hpart
    rw [joinPath_cons hnil]
    exact append_ne_nil_of_left_ne_nil hpart _

theorem getLast_of_isNormalized (h : IsNormalized path) : path.getLast? ≠ some '/' := by
  obtain ⟨parts, hne, hparts, rfl⟩ := h
  induction parts with
  | nil => exact absurd rfl hne
  | cons part parts ih =>
    by_cases hnil : parts = []
    · rw [hnil, joinPath_singleton]
      intro hlast
      exact (hparts part mem_cons_self).slash (mem_of_getLast? hlast)
    have hrest := fun p hp => hparts p (mem_cons_of_mem part hp)
    have hjoin : joinPath parts ≠ [] := ne_nil_of_isNormalized ⟨parts, hnil, hrest, rfl⟩
    obtain ⟨last, hlast⟩ := ne_none_iff_exists'.mp
      (mt getLast?_eq_none_iff.mp hjoin)
    have hkeep := ih hnil hrest
    rw [hlast] at hkeep
    rw [joinPath_cons hnil, getLast?_append, getLast?_cons, hlast]
    exact hkeep

theorem splitOn_of_parts (hne : parts ≠ [])
    (h : ∀ part ∈ parts, IsPart part) : (joinPath parts).splitOn '/' = parts :=
  splitOn_intercalate '/' (fun part hpart => (h part hpart).slash) hne

theorem isNormalized_of_mem_ancestors {parent : Text} (h : IsNormalized path)
    (hparent : parent ∈ ancestors path) : IsNormalized parent := by
  obtain ⟨parts, hne, hparts, rfl⟩ := h
  rw [ancestors, splitOn_of_parts hne hparts] at hparent
  obtain ⟨index, -, rfl⟩ := mem_map.mp hparent
  refine ⟨parts.take (index + 1), ?_, fun part hpart => ?_, rfl⟩
  · cases parts with
    | nil => exact absurd rfl hne
    | cons => exact cons_ne_nil _ _
  · exact hparts part (mem_of_mem_take hpart)

/-! ### What normalizing adds -/

theorem count_joinPath (hc : c ≠ '/') (parts : List Text) :
    (joinPath parts).count c = (parts.map (List.count c)).sum := by
  induction parts with
  | nil => rfl
  | cons part parts ih =>
    by_cases hnil : parts = []
    · rw [hnil, joinPath_singleton]
      simp
    · rw [joinPath_cons hnil, count_append, count_cons_of_ne (Ne.symm hc), ih, map_cons, sum_cons]

theorem count_normalizeParts_le {raw : List Text} (h : normalizeParts raw = some parts) :
    (parts.map (List.count c)).sum ≤ (raw.map (List.count c)).sum := by
  induction raw generalizing parts with
  | nil =>
    rw [← some.inj h]
  | cons part raw ih =>
    rw [normalizeParts] at h
    rw [map_cons, sum_cons]
    split at h
    · exact (ih h).trans (Nat.le_add_left _ _)
    split at h
    · cases h
    obtain ⟨rest, hrest, rfl⟩ := map_eq_some_iff.mp h
    rw [map_cons, sum_cons]
    exact Nat.add_le_add_left (ih hrest) _

theorem count_map_backslash_le (hc : c ≠ '/') (text : Text) :
    (text.map fun d => if d = '\\' then '/' else d).count c ≤ text.count c := by
  induction text with
  | nil => exact le_rfl
  | cons d text ih =>
    rw [map_cons, count_cons, count_cons]
    refine add_le_add ih ?_
    by_cases hd : d = '\\'
    · simp [hd, Ne.symm hc]
    · rw [if_neg hd]

/-- Normalizing adds no character but separators. -/
theorem count_normalize_le (hc : c ≠ '/') {raw : Text}
    (h : normalizeArchiveEntryPath raw = some path) : path.count c ≤ raw.count c := by
  rw [normalizeArchiveEntryPath] at h
  have hraw := count_map_backslash_le hc raw
  have hjoin : joinPath ((raw.map fun c => if c = '\\' then '/' else c).splitOn '/') =
      raw.map fun c => if c = '\\' then '/' else c := intercalate_splitOn '/'
  generalize (raw.map fun c => if c = '\\' then '/' else c) = text at h hraw hjoin
  cases hparts : normalizeParts (text.splitOn '/') with
  | none =>
    rw [hparts] at h
    cases h
  | some parts =>
    rw [hparts] at h
    cases parts with
    | nil => cases h
    | cons =>
      rw [← some.inj h, count_joinPath hc]
      refine (count_normalizeParts_le hparts).trans ?_
      rw [← count_joinPath hc, hjoin]
      exact hraw

/-! ### The parts of a name -/

/-- How a path is cut for a header. -/
inductive Cut (path : Text) : Option (Bytes × Bytes) → Prop where
  | whole : (encode path).length ≤ 100 → Cut path (some (encode path, []))
  | parts (namePrefix name : Text) : path = namePrefix ++ '/' :: name → namePrefix ≠ [] →
      (encode namePrefix).length ≤ 155 → (encode name).length ≤ 100 →
      Cut path (some (encode name, encode namePrefix))
  | none : Cut path none

theorem splitUstarFrom_encode (path : Text) (index : ℕ) :
    Cut path (splitUstarFrom (encode path) index) := by
  induction index with
  | zero => exact .none
  | succ index ih =>
    rw [splitUstarFrom]
    split
    · next h =>
      obtain ⟨hslash, hprefix, -, hname⟩ := h
      have hlt := (List.getElem?_eq_some_iff.mp hslash).1
      -- the byte at the index is a separator of the text
      have hbytes : encode path = (encode path).take (index + 1) ++
          ascii '/' :: (encode path).drop (index + 2) := by
        have hdrop := drop_eq_getElem_cons hlt
        rw [(List.getElem?_eq_some_iff.mp hslash).2] at hdrop
        rw [← hdrop, take_append_drop]
      obtain ⟨before, after, hpath, hbefore, hafter⟩ := encode_eq_append_cons (by decide) hbytes
      rw [hbefore] at hprefix ⊢
      rw [hafter] at hname ⊢
      refine .parts before after hpath ?_ hprefix hname
      rintro rfl
      have hlength := congrArg List.length hbefore
      rw [length_take, encode_nil, length_nil] at hlength
      omega
    · exact ih

theorem splitUstarPath_encode (path : Text) : Cut path (splitUstarPath (encode path)) := by
  rw [splitUstarPath]
  split
  · next h => exact .whole h
  · exact splitUstarFrom_encode path _

/-- What a field is read as. -/
def fieldText (text : Text) : Text := stripMark (text.takeWhile (· ≠ '\x00'))

/-- The name that is read from the two fields. -/
def headerName (name namePrefix : Text) : Text :=
  if fieldText namePrefix ≠ [] then fieldText namePrefix ++ '/' :: fieldText name
  else fieldText name

variable (text : Text)

theorem stripMark_sublist : (stripMark text).Sublist text := by
  cases text with
  | nil => exact List.Sublist.refl _
  | cons c text =>
    rw [stripMark]
    split
    · exact sublist_cons_self c text
    · exact List.Sublist.refl _

theorem stripMark_of_head {text : Text} (h : text.head? ≠ some byteOrderMark) :
    stripMark text = text := by
  cases text with
  | nil => rfl
  | cons => rw [stripMark, if_neg fun hc => h (congrArg some hc)]

theorem count_stripMark_lt {text : Text} (h : text.head? = some byteOrderMark) :
    (stripMark text).count byteOrderMark < text.count byteOrderMark := by
  cases text with
  | nil => cases h
  | cons =>
    rw [head?_cons] at h
    rw [stripMark, if_pos (some.inj h), some.inj h, count_cons_self]
    exact Nat.lt_succ_self _

theorem fieldText_sublist : (fieldText text).Sublist text :=
  (stripMark_sublist _).trans (takeWhile_sublist _)

theorem takeWhile_of_nul {text : Text} (h : '\x00' ∉ text) :
    text.takeWhile (· ≠ '\x00') = text := by
  rw [takeWhile_eq_self_iff]
  intro c hc
  exact decide_eq_true fun heq => h (heq ▸ hc)

theorem nul_notMem_fieldText : '\x00' ∉ fieldText text := by
  intro hmem
  have htake := (stripMark_sublist _).subset hmem
  have hne := mem_takeWhile_imp htake
  exact of_decide_eq_true hne rfl

theorem fieldText_of_keeps {text : Text} (hnul : '\x00' ∉ text)
    (hmark : text.head? ≠ some byteOrderMark) : fieldText text = text := by
  rw [fieldText, takeWhile_of_nul hnul, stripMark_of_head hmark]

theorem nul_notMem_headerName (name namePrefix : Text) : '\x00' ∉ headerName name namePrefix := by
  rw [headerName]
  split
  · rw [mem_append, mem_cons]
    rintro (hmem | hmem | hmem)
    · exact nul_notMem_fieldText _ hmem
    · cases hmem
    · exact nul_notMem_fieldText _ hmem
  · exact nul_notMem_fieldText _

/-! ### Names that are read back -/

/-- A field of a header as a text. -/
def readField (invalid : Bytes → Text) (value : Bytes) : Text :=
  decode invalid (value.takeWhile (· ≠ 0))

variable (invalid : Bytes → Text)

theorem readField_encode (text : Text) : readField invalid (encode text) = fieldText text := by
  have htake := takeWhile_encode text (c := '\x00') (by decide)
  rw [readField, fieldText, ← decode_encode invalid, ← htake]
  rfl

/-- The name that a written path is read as, where the header or the PAX record has it. -/
def readName (invalid : Bytes → Text) (path : Text) : Text :=
  match splitUstarPath (encode path) with
  | some (name, namePrefix) =>
    if readField invalid namePrefix ≠ [] then
      readField invalid namePrefix ++ '/' :: readField invalid name
    else readField invalid name
  | none => decode invalid (encode path)

def startsWithMark (bytes : Bytes) : Bool := (encode [byteOrderMark]).isPrefixOf bytes

/-- A header holds a path without a NUL, neither of whose fields starts with a byte order mark; a
PAX record holds a path that does not start with one, and is no longer than a path may be. -/
def KeepsName (limits : ArchiveLimits) (path : Text) : Prop :=
  match splitUstarPath (encode path) with
  | some (name, namePrefix) =>
    0 ∉ encode path ∧ startsWithMark name = false ∧ startsWithMark namePrefix = false
  | none => startsWithMark (encode path) = false ∧ (encode path).length ≤ limits.maxPathBytes

theorem startsWithMark_encode :
    startsWithMark (encode text) = false ↔ text.head? ≠ some byteOrderMark := by
  rw [← Bool.not_eq_true, startsWithMark, isPrefixOf_encode]

theorem nul_mem_encode : 0 ∈ encode text ↔ '\x00' ∈ text := by
  constructor
  · intro hmem
    by_contra hnot
    exact ascii_notMem_encode text (by decide) hnot hmem
  intro hmem
  obtain ⟨before, after, rfl⟩ := append_of_mem hmem
  rw [encode_append, encode_cons, encodeChar_ascii (by decide)]
  exact mem_append_right _ mem_cons_self

variable {limits : ArchiveLimits}

theorem readName_of_keeps (h : KeepsName limits path) : readName invalid path = path := by
  have hcut := splitUstarPath_encode path
  rw [KeepsName] at h
  rw [readName]
  generalize splitUstarPath (encode path) = split at h hcut ⊢
  cases hcut with
  | whole =>
    obtain ⟨hnul, hmark, -⟩ := h
    dsimp only
    rw [readField_encode, ← encode_nil, readField_encode,
      fieldText_of_keeps (mt (nul_mem_encode path).mpr hnul) ((startsWithMark_encode path).mp hmark)]
    rfl
  | parts namePrefix name hpath hne =>
    obtain ⟨hnul, hmark, hmark'⟩ := h
    have hnul := mt (nul_mem_encode path).mpr hnul
    rw [hpath, mem_append, mem_cons, not_or, not_or] at hnul
    dsimp only
    rw [readField_encode, readField_encode,
      fieldText_of_keeps hnul.1 ((startsWithMark_encode _).mp hmark'),
      fieldText_of_keeps hnul.2.2 ((startsWithMark_encode _).mp hmark), if_pos hne, hpath]
  | none =>
    rw [decode_encode, stripMark_of_head ((startsWithMark_encode path).mp h.1)]

theorem readName_parts (name namePrefix : Text) :
    (if readField invalid (encode namePrefix) ≠ [] then
      readField invalid (encode namePrefix) ++ '/' :: readField invalid (encode name)
    else readField invalid (encode name)) = headerName name namePrefix := by
  rw [readField_encode, readField_encode, headerName]

theorem count_fieldText_lt {text : Text} (hnul : '\x00' ∉ text)
    (h : text.head? = some byteOrderMark) :
    (fieldText text).count byteOrderMark < text.count byteOrderMark := by
  rw [fieldText, takeWhile_of_nul hnul]
  exact count_stripMark_lt h

/-- Where a name is not kept, it has lost a character that is no separator. -/
theorem count_readName_lt (h : ¬ KeepsName limits path)
    (hle : splitUstarPath (encode path) = none → (encode path).length ≤ limits.maxPathBytes) :
    ∃ c ≠ '/', (readName invalid path).count c < path.count c := by
  have hcut := splitUstarPath_encode path
  rw [KeepsName] at h
  rw [readName]
  generalize splitUstarPath (encode path) = split at h hcut hle ⊢
  have hmark : byteOrderMark ≠ '/' := by decide
  cases hcut with
  | whole =>
    have hparts := readName_parts invalid path []
    rw [encode_nil] at hparts
    dsimp only at h ⊢
    rw [hparts]
    have hname : headerName path [] = fieldText path := rfl
    by_cases hnul : '\x00' ∈ path
    · refine ⟨'\x00', by decide, ?_⟩
      rw [count_eq_zero_of_not_mem (nul_notMem_headerName path [])]
      exact count_pos_iff.mpr hnul
    refine ⟨byteOrderMark, hmark, ?_⟩
    rw [hname]
    refine count_fieldText_lt hnul ?_
    by_contra hhead
    exact h ⟨mt (nul_mem_encode path).mp hnul, (startsWithMark_encode path).mpr hhead, rfl⟩
  | parts namePrefix name hpath =>
    dsimp only at h ⊢
    rw [readName_parts invalid name namePrefix]
    by_cases hnul : '\x00' ∈ path
    · refine ⟨'\x00', by decide, ?_⟩
      rw [count_eq_zero_of_not_mem (nul_notMem_headerName name namePrefix)]
      exact count_pos_iff.mpr hnul
    refine ⟨byteOrderMark, hmark, ?_⟩
    have hnul' := mt (nul_mem_encode path).mp hnul
    rw [hpath, mem_append, mem_cons, not_or, not_or] at hnul
    have hnameLe := (fieldText_sublist name).count_le byteOrderMark
    have hprefixLe := (fieldText_sublist namePrefix).count_le byteOrderMark
    have hlost : (fieldText name).count byteOrderMark < name.count byteOrderMark ∨
        (fieldText namePrefix).count byteOrderMark < namePrefix.count byteOrderMark := by
      by_contra hnone
      rw [not_or] at hnone
      refine h ⟨hnul', (startsWithMark_encode _).mpr fun hhead => ?_,
        (startsWithMark_encode _).mpr fun hhead => ?_⟩
      · exact hnone.1 (count_fieldText_lt hnul.2.2 hhead)
      · exact hnone.2 (count_fieldText_lt hnul.1 hhead)
    rw [hpath, headerName, count_append, count_cons_of_ne hmark.symm]
    split
    · rw [count_append, count_cons_of_ne hmark.symm]
      omega
    next hempty =>
    have hzero : (fieldText namePrefix).count byteOrderMark = 0 := by
      rw [not_not.mp hempty, count_nil]
    omega
  | none =>
    refine ⟨byteOrderMark, hmark, ?_⟩
    rw [decode_encode]
    refine count_stripMark_lt ?_
    by_contra hhead
    exact h ⟨(startsWithMark_encode path).mpr hhead, hle rfl⟩

end BreadboardTui.Tar
