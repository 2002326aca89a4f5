import BreadboardTui.Archive.TarHeader

/-!
# PAX records

The length of a record counts its own digits; the loop that finds it ends. The records in front of
an entry are read as the attributes they were made for, but for a byte order mark, and a path that
is too long is refused.
-/

namespace BreadboardTui.Tar

open List

open Utf8

/-! ### Decimal digits -/

variable {c : Char}

theorem isDigit_lt (h : c.isDigit = true) : c.toNat < 128 := by
  rw [Char.isDigit, Bool.and_eq_true, decide_eq_true_eq, decide_eq_true_eq] at h
  have hle : c.toNat ≤ 57 := h.2
  omega

variable {n : ℕ}

theorem isDigit_of_mem (h : c ∈ Nat.toDigits 10 n) : c.isDigit = true :=
  Nat.isDigit_of_mem_toDigits (by decide) (by decide) h

theorem notMem_toDigits (h : c.isDigit = false) : c ∉ Nat.toDigits 10 n := by
  intro hmem
  rw [isDigit_of_mem hmem] at h
  cases h

theorem encode_toDigits (n : ℕ) : encode (Nat.toDigits 10 n) = (Nat.toDigits 10 n).map ascii :=
  encode_ascii fun _ hc => isDigit_lt (isDigit_of_mem hc)

theorem length_toDigits_mono {m : ℕ} (h : m ≤ n) :
    (Nat.toDigits 10 m).length ≤ (Nat.toDigits 10 n).length := by
  rw [Nat.length_toDigits_le_iff (by decide) Nat.length_toDigits_pos]
  exact Nat.lt_of_le_of_lt h
    ((Nat.length_toDigits_le_iff (by decide) Nat.length_toDigits_pos).mp le_rfl)

/-! ### The length of a record -/

theorem paxLengthLoop_spec {bodyLength bound : ℕ}
    (hbound : (Nat.toDigits 10 bound).length + 1 + bodyLength ≤ bound) {rounds length : ℕ}
    (hgrows : length ≤ (Nat.toDigits 10 length).length + 1 + bodyLength) (hle : length ≤ bound)
    (hrounds : bound - length < rounds) :
    ∃ total, paxLengthLoop bodyLength rounds length = some total ∧
      (Nat.toDigits 10 total).length + 1 + bodyLength = total := by
  induction rounds generalizing length with
  | zero => omega
  | succ rounds ih =>
    rw [paxLengthLoop]
    split
    · next heq => exact ⟨length, rfl, heq⟩
    next hne =>
    -- the next length is greater, and still below the bound
    have hdigits := length_toDigits_mono hle
    have hmono := length_toDigits_mono hgrows
    refine ih ?_ ?_ ?_ <;> omega

theorem paxLengthLoop_ends (bodyLength : ℕ) :
    ∃ total, paxLengthLoop bodyLength (bodyLength + 3) (bodyLength + 2) = some total ∧
      (Nat.toDigits 10 total).length + 1 + bodyLength = total := by
  have hpos : 0 < (Nat.toDigits 10 (bodyLength + 2)).length := Nat.length_toDigits_pos
  have hbound : (Nat.toDigits 10 (2 * bodyLength + 4)).length ≤ bodyLength + 3 := by
    rw [Nat.length_toDigits_le_iff (by decide) (by omega)]
    have hlt : bodyLength + 2 < 10 ^ (bodyLength + 2) := Nat.lt_pow_self (by decide)
    have hpow : 10 ^ (bodyLength + 3) = 10 ^ (bodyLength + 2) * 10 := pow_succ _ _
    omega
  have hends : (Nat.toDigits 10 (2 * bodyLength + 4)).length + 1 + bodyLength ≤
      2 * bodyLength + 4 := by omega
  exact paxLengthLoop_spec hends (by omega) (by omega) (by omega)

theorem paxLength_eq (bodyLength : ℕ) :
    (Nat.toDigits 10 (paxLength bodyLength)).length + 1 + bodyLength = paxLength bodyLength := by
  obtain ⟨total, hloop, htotal⟩ := paxLengthLoop_ends bodyLength
  rw [paxLength, hloop]
  exact htotal

/-! ### Reading a record -/

theorem paxLengthOf_append (limit : ℕ) (xs ys : Bytes) (length : ℕ) :
    paxLengthOf limit (xs ++ ys) length =
      paxLengthOf limit xs length >>= paxLengthOf limit ys := by
  induction xs generalizing length with
  | nil => rfl
  | cons byte xs ih =>
    rw [cons_append, paxLengthOf, paxLengthOf]
    split
    · rfl
    dsimp only
    split
    · rfl
    · exact ih _

theorem paxLengthOf_digit {limit d length : ℕ} (hd : d < 10) (h : length * 10 + d ≤ limit) :
    paxLengthOf limit [ascii (Nat.digitChar d)] length = .ok (length * 10 + d) := by
  have hbyte : (ascii (Nat.digitChar d)).toNat - 0x30 = d ∧
      ¬ (ascii (Nat.digitChar d) < 0x30 ∨ 0x39 < ascii (Nat.digitChar d)) := by
    interval_cases d <;> decide
  rw [paxLengthOf, if_neg hbyte.2]
  rw [hbyte.1, if_neg (not_lt.mpr h), paxLengthOf]

theorem paxLengthOf_toDigits {limit : ℕ} (h : n ≤ limit) :
    paxLengthOf limit ((Nat.toDigits 10 n).map ascii) 0 = .ok n := by
  induction n using Nat.strong_induction_on with
  | _ n ih =>
    rw [Nat.toDigits_eq_if (by decide)]
    split
    · next hlt =>
      rw [map_singleton, paxLengthOf_digit hlt (by omega), Nat.zero_mul, Nat.zero_add]
    next hge =>
    have hdiv : n / 10 * 10 + n % 10 = n := Nat.div_add_mod' n 10
    rw [map_append, paxLengthOf_append, ih (n / 10) (by omega) (by omega), map_singleton]
    change paxLengthOf limit _ (n / 10) = _
    rw [paxLengthOf_digit (Nat.mod_lt _ (by decide)) (by omega), hdiv]

theorem length_makePaxRecord (key value : Text) : (makePaxRecord key value).length =
    paxLength (encode (key ++ '=' :: value ++ ['\n'])).length := by
  have hlength := paxLength_eq (encode (key ++ '=' :: value ++ ['\n'])).length
  rw [makePaxRecord]
  rw [encode_append, encode_toDigits, length_append, length_append, length_map]
  exact hlength

variable {key : Text}

/-- A record in front of others is read as its key and value. -/
theorem paxRecord_makePaxRecord {value : Text} (rest : Bytes)
    (h : (makePaxRecord key value).length ≤ maxSafeInteger) :
    paxRecord (makePaxRecord key value ++ rest) =
      .ok ((makePaxRecord key value).length, encode (key ++ '=' :: value)) := by
  have hlength := length_makePaxRecord key value
  have hcount := paxLength_eq (encode (key ++ '=' :: value ++ ['\n'])).length
  generalize htotal : paxLength (encode (key ++ '=' :: value ++ ['\n'])).length = total
    at hlength hcount
  -- the digits, a space, key and value, and a newline
  have hrecord : makePaxRecord key value = encode (Nat.toDigits 10 total) ++ ascii ' ' ::
      (encode (key ++ '=' :: value) ++ [ascii '\n']) := by
    rw [makePaxRecord]
    rw [htotal, encode_append, encode_append, append_assoc]
    rfl
  have hdata : makePaxRecord key value ++ rest = encode (Nat.toDigits 10 total) ++ ascii ' ' ::
      (encode (key ++ '=' :: value) ++ ascii '\n' :: rest) := by
    rw [hrecord]
    simp
  have hdigits : (encode (Nat.toDigits 10 total)).length = (Nat.toDigits 10 total).length := by
    rw [encode_toDigits, length_map]
  have hle : (Nat.toDigits 10 total).length ≤ 16 := by
    rw [Nat.length_toDigits_le_iff (by decide) (by decide)]
    rw [hlength] at h
    exact Nat.lt_of_le_of_lt h (by decide)
  have hpos : 0 < (Nat.toDigits 10 total).length := Nat.length_toDigits_pos
  have hspace := takeWhile_encode_append (c := ' ') (by decide)
    (notMem_toDigits (n := total) (by decide)) (encode (key ++ '=' :: value) ++ ascii '\n' :: rest)
  have htotalLe : total ≤ (makePaxRecord key value ++ rest).length := by
    rw [length_append, hlength]
    exact Nat.le_add_right _ _
  have hbody : (encode (key ++ '=' :: value)).length + (Nat.toDigits 10 total).length + 2 =
      total := by
    rw [encode_append _ ['\n'], length_append] at hcount
    have hnewline : (encode ['\n']).length = 1 := rfl
    omega
  rw [paxRecord, hlength]
  rw [hdata] at htotalLe ⊢
  have hlong : (Nat.toDigits 10 total).length < (encode (Nat.toDigits 10 total) ++ ascii ' ' ::
      (encode (key ++ '=' :: value) ++ ascii '\n' :: rest)).length := by
    rw [length_append, hdigits, length_cons]
    omega
  have htake : (encode (Nat.toDigits 10 total) ++ ascii ' ' ::
      (encode (key ++ '=' :: value) ++ ascii '\n' :: rest)).take
        (Nat.toDigits 10 total).length = (Nat.toDigits 10 total).map ascii := by
    rw [take_left' hdigits, encode_toDigits]
  rw [hspace, hdigits, if_neg (by omega), htake, paxLengthOf_toDigits htotalLe]
  -- the newline is the last byte
  have hfront : encode (Nat.toDigits 10 total) ++ ascii ' ' ::
      (encode (key ++ '=' :: value) ++ ascii '\n' :: rest) =
        (encode (Nat.toDigits 10 total) ++ ascii ' ' :: encode (key ++ '=' :: value)) ++
          ascii '\n' :: rest := by
    simp
  have hfrontLength : (encode (Nat.toDigits 10 total) ++ ascii ' ' ::
      encode (key ++ '=' :: value)).length = total - 1 := by
    rw [length_append, length_cons, hdigits]
    omega
  have hnewline : ((encode (Nat.toDigits 10 total) ++ ascii ' ' ::
      encode (key ++ '=' :: value)) ++ ascii '\n' :: rest)[total - 1]? = some (ascii '\n') := by
    rw [← hfrontLength, getElem?_append_right le_rfl, Nat.sub_self]
    rfl
  have hcontent : ((encode (Nat.toDigits 10 total) ++ ascii ' ' ::
      encode (key ++ '=' :: value)) ++ ascii '\n' :: rest).take (total - 1) =
        (encode (Nat.toDigits 10 total) ++ [ascii ' ']) ++ encode (key ++ '=' :: value) := by
    rw [take_left' hfrontLength]
    simp
  rw [hfront] at htotalLe ⊢
  change (if _ then _ else _) = _
  rw [hcontent, hnewline, if_neg (by
    rintro (hzero | hlt | hne)
    · omega
    · omega
    · exact hne rfl), drop_left']
  rw [length_append, hdigits]
  rfl

/-! ### Reading the attributes -/

theorem takeWhile_key (hkey : '=' ∉ key) (value : Text) :
    (encode (key ++ '=' :: value)).takeWhile (· ≠ ascii '=') = encode key ∧
      (encode (key ++ '=' :: value)).drop ((encode key).length + 1) = encode value ∧
      ascii '=' ∈ encode (key ++ '=' :: value) := by
  have hrecord : encode (key ++ '=' :: value) = encode key ++ ascii '=' :: encode value := by
    rw [encode_append]
    rfl
  rw [hrecord]
  refine ⟨takeWhile_encode_append (by decide) hkey _, ?_, ?_⟩
  · rw [← singleton_append, ← append_assoc, drop_left']
    rw [length_append]
    rfl
  · exact mem_append_right _ mem_cons_self

variable (invalid : Bytes → Text)

theorem applyPaxRecord_path (limits : ArchiveLimits) (attrs : PaxAttrs) (path : Text) :
    applyPaxRecord invalid limits attrs (encode ("path".toList ++ '=' :: path)) =
      (readPaxPath invalid limits "PAX path" (encode path)).map (JsMap.set .path · attrs) := by
  have hnot : '=' ∉ "path".toList := by decide
  obtain ⟨hkey, hvalue, hmem⟩ := takeWhile_key hnot path
  rw [applyPaxRecord, if_pos hmem]
  dsimp only
  rw [hkey, hvalue, if_neg (by decide), if_pos rfl]

theorem applyPaxRecord_size (limits : ArchiveLimits) (attrs : PaxAttrs)
    {size : ℕ} (h : size ≤ maxSafeInteger) :
    applyPaxRecord invalid limits attrs (encode ("size".toList ++ '=' :: Nat.toDigits 10 size)) =
      .ok (attrs.set .size (Nat.toDigits 10 size)) := by
  have hnot : '=' ∉ "size".toList := by decide
  obtain ⟨hkey, hvalue, hmem⟩ := takeWhile_key hnot (Nat.toDigits 10 size)
  have hshort : (encode (Nat.toDigits 10 size)).length ≤ 32 := by
    rw [encode_toDigits, length_map, Nat.length_toDigits_le_iff (by decide) (by decide)]
    exact Nat.lt_of_le_of_lt h (by decide)
  have hhead : (Nat.toDigits 10 size).head? ≠ some byteOrderMark := by
    intro hhead
    have hdigit := isDigit_of_mem (mem_of_head? hhead)
    revert hdigit
    decide
  rw [applyPaxRecord, if_pos hmem]
  dsimp only
  rw [hkey, hvalue, if_neg (by decide), if_neg (by decide), if_neg (by decide), if_pos rfl,
    if_neg (not_lt.mpr hshort), decode_encode, stripMark_of_head hhead]

theorem paxLoop_makePaxRecord (limits : ArchiveLimits) (attrs : PaxAttrs)
    {value : Text} (rest : Bytes) (h : (makePaxRecord key value).length ≤ maxSafeInteger) :
    paxLoop invalid limits attrs (makePaxRecord key value ++ rest) =
      applyPaxRecord invalid limits attrs (encode (key ++ '=' :: value)) >>= fun attrs =>
        paxLoop invalid limits attrs rest := by
  have hcount := paxLength_eq (encode (key ++ '=' :: value ++ ['\n'])).length
  rw [← length_makePaxRecord] at hcount
  have hpos : 0 < (makePaxRecord key value).length := by omega
  have hne : makePaxRecord key value ++ rest ≠ [] := by
    intro hnil
    rw [(append_eq_nil_iff.mp hnil).1] at hpos
    cases hpos
  rw [paxLoop, if_neg hne, paxRecord_makePaxRecord rest h]
  dsimp only
  cases hattrs : applyPaxRecord invalid limits attrs (encode (key ++ '=' :: value)) with
  | error => rfl
  | ok =>
    dsimp only
    rw [if_pos hpos, drop_left' rfl]
    rfl

theorem paxLoop_nil (limits : ArchiveLimits) (attrs : PaxAttrs) :
    paxLoop invalid limits attrs [] = .ok attrs := by
  rw [paxLoop, if_pos rfl]

/-- The attributes of an entry. -/
def paxAttrs (path : Text) (size : ℕ) : PaxAttrs :=
  (if (splitUstarPath (encode path)).isNone then [(.path, stripMark path)] else []) ++
    if maxOctalSize < size then [(.size, Nat.toDigits 10 size)] else []

/-- Whether the path of an entry, where it is in a PAX record, is within the limits. -/
def PaxPathFits (limits : ArchiveLimits) (path : Text) : Prop :=
  splitUstarPath (encode path) = none → (encode path).length ≤ limits.maxPathBytes

theorem paxLoop_size (limits : ArchiveLimits) (attrs : PaxAttrs)
    {size : ℕ} (h : size ≤ maxSafeInteger) (hattrs : .size ∉ attrs.map Prod.fst)
    (hlength : maxOctalSize < size →
      (makePaxRecord "size".toList (Nat.toDigits 10 size)).length ≤ maxSafeInteger) :
    paxLoop invalid limits attrs
        (if maxOctalSize < size then makePaxRecord "size".toList (Nat.toDigits 10 size) else []) =
      .ok (attrs ++ if maxOctalSize < size then [(.size, Nat.toDigits 10 size)] else []) := by
  split
  · next hbig =>
    have hloop := paxLoop_makePaxRecord invalid limits attrs [] (hlength hbig)
    rw [append_nil, applyPaxRecord_size invalid limits attrs h] at hloop
    rw [hloop]
    change paxLoop invalid limits (attrs.set .size (Nat.toDigits 10 size)) [] = _
    rw [paxLoop_nil, JsMap.set_of_notMem hattrs]
  · rw [paxLoop_nil, append_nil]

section Entry

variable {limits : ArchiveLimits} {path : Text} {size : ℕ}

theorem length_sizeRecord_le (h : (paxRecords path size).length ≤ maxSafeInteger)
    (hbig : maxOctalSize < size) :
    (makePaxRecord "size".toList (Nat.toDigits 10 size)).length ≤ maxSafeInteger := by
  rw [paxRecords, if_pos hbig, length_append] at h
  omega

theorem length_pathRecord_le (h : (paxRecords path size).length ≤ maxSafeInteger)
    (hsplit : splitUstarPath (encode path) = none) :
    (makePaxRecord "path".toList path).length ≤ maxSafeInteger := by
  rw [paxRecords, hsplit, Option.isNone_none, if_pos rfl, length_append] at h
  omega

theorem parsePaxRecords_eq (invalid : Bytes → Text)
    (hsafe : (paxRecords path size).length ≤ maxSafeInteger)
    (hindex : (paxRecords path size).length ≤ limits.maxIndexSize) :
    parsePaxRecords invalid limits (paxRecords path size) =
      paxLoop invalid limits [] (paxRecords path size) := by
  rw [parsePaxRecords, assertIndexSize, if_neg (by omega)]
  rfl

/-- The records in front of an entry are read as its attributes. -/
theorem parsePaxRecords_paxRecords (invalid : Bytes → Text) (hsize : size ≤ maxSafeInteger)
    (hsafe : (paxRecords path size).length ≤ maxSafeInteger)
    (hindex : (paxRecords path size).length ≤ limits.maxIndexSize)
    (hfits : PaxPathFits limits path) :
    parsePaxRecords invalid limits (paxRecords path size) = .ok (paxAttrs path size) := by
  rw [parsePaxRecords_eq invalid hsafe hindex]
  have hsizeLength := length_sizeRecord_le hsafe
  cases hsplit : splitUstarPath (encode path) with
  | none =>
    have hpathLength := length_pathRecord_le hsafe hsplit
    have hread : readPaxPath invalid limits "PAX path" (encode path) = .ok (stripMark path) := by
      rw [readPaxPath, if_neg (not_lt.mpr (hfits hsplit)), decode_encode]
    rw [paxRecords, paxAttrs, hsplit, Option.isNone_none, if_pos rfl, if_pos rfl,
      paxLoop_makePaxRecord invalid limits [] _ hpathLength, applyPaxRecord_path, hread]
    exact paxLoop_size invalid limits [(.path, stripMark path)] hsize (by simp) hsizeLength
  | some =>
    rw [paxRecords, paxAttrs, hsplit]
    exact paxLoop_size invalid limits [] hsize not_mem_nil hsizeLength

theorem parsePaxRecords_tooLong (invalid : Bytes → Text)
    (hsafe : (paxRecords path size).length ≤ maxSafeInteger)
    (hindex : (paxRecords path size).length ≤ limits.maxIndexSize)
    (hfits : ¬ PaxPathFits limits path) :
    parsePaxRecords invalid limits (paxRecords path size) = .error (.pathTooLong "PAX path") := by
  rw [parsePaxRecords_eq invalid hsafe hindex]
  rw [PaxPathFits, not_forall] at hfits
  obtain ⟨hsplit, hlong⟩ := hfits
  have hread : readPaxPath invalid limits "PAX path" (encode path) =
      .error (.pathTooLong "PAX path") := by
    rw [readPaxPath, if_pos (Nat.lt_of_not_le hlong)]
  rw [paxRecords, hsplit, Option.isNone_none, if_pos rfl,
    paxLoop_makePaxRecord invalid limits [] _ (length_pathRecord_le hsafe hsplit),
    applyPaxRecord_path, hread]
  rfl

end Entry

end BreadboardTui.Tar
