import Mathlib.Data.List.Basic
import Mathlib.Tactic

/-!
# UTF-8

Texts are lists of characters, that is, of Unicode scalar values. A decoder that takes a byte order
mark off gives an encoded text back, without its mark. An ASCII byte of an encoded text is an ASCII
character, so cutting at one cuts the text.

* `encode`, `decode`: what bytes that are no UTF-8 are read as is a parameter.
-/

namespace BreadboardTui.Utf8

open List Option

abbrev Bytes : Type := List UInt8

abbrev Text : Type := List Char

def encode (text : Text) : Bytes := text.flatMap String.utf8EncodeChar

/-- The byte of an ASCII character. -/
def ascii (c : Char) : UInt8 := UInt8.ofNat c.toNat

def byteOrderMark : Char := Char.ofNat 0xFEFF

/-- A text without the mark in front. -/
def stripMark : Text → Text
  | [] => []
  | c :: text => if c = byteOrderMark then text else c :: text

/-- Reads bytes, after a mark, where `invalid` is the reading of what is no UTF-8. -/
def decode (invalid : Bytes → Text) (bytes : Bytes) : Text :=
  let body := if (encode [byteOrderMark]).isPrefixOf bytes then bytes.drop 3 else bytes
  match body.toByteArray.utf8Decode? with
  | some chars => chars.toList
  | none => invalid body

/-! ### The bytes of a character -/

@[simp] theorem encode_nil : encode [] = [] := rfl

@[simp] theorem encode_cons (c : Char) (text : Text) :
    encode (c :: text) = String.utf8EncodeChar c ++ encode text := flatMap_cons

@[simp] theorem encode_append (xs ys : Text) : encode (xs ++ ys) = encode xs ++ encode ys :=
  flatMap_append

variable {c : Char}

theorem encodeChar_ascii (h : c.toNat < 128) : String.utf8EncodeChar c = [ascii c] := by
  have hle : c.val.toNat ≤ 127 := Nat.le_of_lt_succ h
  rw [String.utf8EncodeChar]
  simp only [hle, if_true]
  rfl

theorem encode_ascii {text : Text} (h : ∀ c ∈ text, c.toNat < 128) :
    encode text = text.map ascii := by
  induction text with
  | nil => rfl
  | cons c text ih =>
    rw [encode_cons, encodeChar_ascii (h c mem_cons_self),
      ih fun d hd => h d (mem_cons_of_mem _ hd)]
    rfl

theorem le_of_mem_encodeChar (h : 128 ≤ c.toNat) {b : UInt8}
    (hb : b ∈ String.utf8EncodeChar c) : 128 ≤ b.toNat := by
  have hgt : ¬ c.val.toNat ≤ 127 := Nat.not_le_of_lt h
  rw [String.utf8EncodeChar] at hb
  simp only [hgt, if_false] at hb
  split at hb
  · simp only [mem_cons, not_mem_nil, or_false] at hb
    rcases hb with rfl | rfl
    all_goals
      rw [UInt8.toNat_ofNat']
      omega
  split at hb
  · simp only [mem_cons, not_mem_nil, or_false] at hb
    rcases hb with rfl | rfl | rfl
    all_goals
      rw [UInt8.toNat_ofNat']
      omega
  simp only [mem_cons, not_mem_nil, or_false] at hb
  rcases hb with rfl | rfl | rfl | rfl
  all_goals
    rw [UInt8.toNat_ofNat']
    omega

theorem ascii_toNat (h : c.toNat < 128) : (ascii c).toNat = c.toNat := by
  rw [ascii, UInt8.toNat_ofNat', Nat.mod_eq_of_lt (by omega)]

theorem ascii_inj {c d : Char} (hc : c.toNat < 128) (hd : d.toNat < 128)
    (h : ascii c = ascii d) : c = d := by
  have hnat : c.toNat = d.toNat := by
    rw [← ascii_toNat hc, ← ascii_toNat hd, h]
  exact Char.toNat_inj.mp hnat

/-- No character's bytes start those of another. -/
theorem encodeChar_append_inj {c d : Char} {x y : Bytes}
    (h : String.utf8EncodeChar c ++ x = String.utf8EncodeChar d ++ y) : c = d ∧ x = y := by
  have hbytes := congrArg List.toByteArray h
  rw [toByteArray_append, toByteArray_append] at hbytes
  have hc := ByteArray.utf8DecodeChar?_utf8EncodeChar_append (b := x.toByteArray) (c := c)
  rw [hbytes, ByteArray.utf8DecodeChar?_utf8EncodeChar_append] at hc
  obtain rfl := some.inj hc
  exact ⟨rfl, append_cancel_left h⟩

/-! ### Decoding -/

variable (text : Text)

theorem isPrefixOf_encode :
    (encode [byteOrderMark]).isPrefixOf (encode text) = true ↔ text.head? = some byteOrderMark := by
  rw [ isPrefixOf_iff_prefix]
  cases text with
  | nil => decide
  | cons =>
    rw [head?_cons]
    constructor
    · rintro ⟨rest, hrest⟩
      rw [encode_cons, encode_nil, append_nil, encode_cons] at hrest
      rw [(encodeChar_append_inj hrest).1]
    intro h
    rw [some.inj h, encode_cons, encode_cons, encode_nil, append_nil]
    exact prefix_append _ _

theorem decode_encode (invalid : Bytes → Text) (text : Text) :
    decode invalid (encode text) = stripMark text := by
  have hdecode (body : Text) : (encode body).toByteArray.utf8Decode? = some body.toArray :=
    utf8Decode?_utf8Encode
  rw [decode]
  by_cases hmark : text.head? = some byteOrderMark
  · cases text with
    | nil => cases hmark
    | cons c text =>
      obtain rfl := some.inj hmark
      have hdrop : (encode (byteOrderMark :: text)).drop 3 = encode text := by
        rw [encode_cons]
        rfl
      simp only [(isPrefixOf_encode _).mpr hmark, if_true, hdrop, hdecode]
      rfl
  have hnot := mt (isPrefixOf_encode text).mp hmark
  simp only [hnot, Bool.false_eq_true, if_false, hdecode]
  cases text with
  | nil => rfl
  | cons =>
    rw [stripMark, if_neg fun hc => hmark (congrArg some hc)]

/-! ### Cutting at ASCII characters -/

theorem encode_eq_append_cons {text : Text} (hc : c.toNat < 128) {x y : Bytes}
    (h : encode text = x ++ ascii c :: y) :
    ∃ before after, text = before ++ c :: after ∧ x = encode before ∧ y = encode after := by
  induction text generalizing x with
  | nil => cases x <;> cases h
  | cons d text ih =>
    rw [encode_cons] at h
    rcases append_eq_append_iff.mp h with ⟨z, rfl, hz⟩ | ⟨z, hd, hz⟩
    · -- the byte comes after the first character
      obtain ⟨before, after, rfl, rfl, rfl⟩ := ih hz
      exact ⟨d :: before, after, rfl, (encode_cons _ _).symm, rfl⟩
    cases z with
    | nil =>
      obtain ⟨before, after, htext, hbefore, rfl⟩ := ih (x := []) hz.symm
      rw [append_nil] at hd
      refine ⟨d :: before, after, by rw [htext]; rfl, ?_, rfl⟩
      rw [encode_cons, ← hbefore, append_nil, hd]
    | cons b z =>
      -- the byte belongs to the first character, which is then `c`
      injection hz with hb hy
      subst hb
      have hmem : ascii c ∈ String.utf8EncodeChar d := by
        rw [hd]
        exact mem_append_right _ mem_cons_self
      have hdlt : d.toNat < 128 := by
        by_contra hge
        have hle := le_of_mem_encodeChar (Nat.le_of_not_lt hge) hmem
        rw [ascii_toNat hc] at hle
        omega
      rw [encodeChar_ascii hdlt] at hd
      have hlength := congrArg List.length hd
      simp only [length_append, length_cons, length_nil] at hlength
      have hx : x = [] := length_eq_zero_iff.mp (by omega)
      have hznil : z = [] := length_eq_zero_iff.mp (by omega)
      subst hx hznil
      injection hd with hd
      exact ⟨[], text, by rw [ascii_inj hdlt hc hd]; rfl, rfl, hy⟩

theorem ascii_notMem_encode (hc : c.toNat < 128) (h : c ∉ text) : ascii c ∉ encode text := by
  intro hmem
  obtain ⟨x, y, heq⟩ := append_of_mem hmem
  obtain ⟨before, after, rfl, -, -⟩ := encode_eq_append_cons hc heq
  exact h (mem_append_right _ mem_cons_self)

/-- Bytes up to an ASCII byte are the text up to its character. -/
theorem takeWhile_encode (hc : c.toNat < 128) :
    (encode text).takeWhile (· ≠ ascii c) = encode (text.takeWhile (· ≠ c)) := by
  induction text with
  | nil => rfl
  | cons d text ih =>
    by_cases hd : d = c
    · subst hd
      rw [encode_cons, encodeChar_ascii hc, takeWhile_cons, singleton_append, takeWhile_cons]
      simp
    have hnot : ascii c ∉ String.utf8EncodeChar d := by
      have hsingle := ascii_notMem_encode [d] hc (by simpa using Ne.symm hd)
      rwa [encode_cons, encode_nil, append_nil] at hsingle
    have hall : ∀ b ∈ String.utf8EncodeChar d, decide (b ≠ ascii c) = true := by
      intro b hb
      exact decide_eq_true fun heq => hnot (heq ▸ hb)
    rw [encode_cons, takeWhile_append_of_pos hall, ih, takeWhile_cons,
      if_pos (by simpa using hd), encode_cons]

/-- Bytes up to the first ASCII byte of a kind. -/
theorem takeWhile_encode_append {text : Text} (hc : c.toNat < 128) (h : c ∉ text)
    (rest : Bytes) : (encode text ++ ascii c :: rest).takeWhile (· ≠ ascii c) = encode text := by
  have hnot := ascii_notMem_encode text hc h
  have hall : ∀ b ∈ encode text, decide (b ≠ ascii c) = true := by
    intro b hb
    exact decide_eq_true fun heq => hnot (heq ▸ hb)
  rw [takeWhile_append_of_pos hall, takeWhile_cons_of_neg (by simp), append_nil]

end BreadboardTui.Utf8
