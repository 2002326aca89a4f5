import Mathlib.Tactic

/-!
# Little-endian fields

A record is a list of numbers, each written with a number of bytes of its own, the low byte first.
A field is read at its offset, which is the sum of the widths in front of it; bytes that are missing
are read as zero.
-/

namespace BreadboardTui

open List

/-- The lowest `width` bytes of a number. -/
def toLE : ℕ → ℕ → List UInt8
  | 0, _ => []
  | width + 1, value => UInt8.ofNat value :: toLE width (value / 256)

def fromLE : List UInt8 → ℕ
  | [] => 0
  | byte :: bytes => byte.toNat + 256 * fromLE bytes

/-- The number in `width` bytes at an offset. -/
def readLE (bytes : List UInt8) (offset width : ℕ) : ℕ := fromLE ((bytes.drop offset).take width)

@[simp] theorem length_toLE (width value : ℕ) : (toLE width value).length = width := by
  induction width generalizing value with
  | zero => rfl
  | succ width ih => rw [toLE, length_cons, ih]

theorem fromLE_toLE (width value : ℕ) : fromLE (toLE width value) = value % 256 ^ width := by
  induction width generalizing value with
  | zero => rw [toLE, fromLE, pow_zero, Nat.mod_one]
  | succ width ih =>
    have hbyte : (UInt8.ofNat value).toNat = value % 256 := UInt8.toNat_ofNat'
    rw [toLE, fromLE, ih, hbyte, pow_succ', Nat.mod_mul]

theorem readLE_of_toLE (width value : ℕ) (rest : List UInt8) :
    readLE (toLE width value ++ rest) 0 width = value % 256 ^ width := by
  rw [readLE, drop_zero, take_left' (length_toLE width value), fromLE_toLE]

theorem readLE_append {front : List UInt8} {length : ℕ} (hlength : front.length = length)
    (rest : List UInt8) (offset width : ℕ) :
    readLE (front ++ rest) (length + offset) width = readLE rest offset width := by
  subst hlength
  rw [readLE, drop_append, drop_eq_nil_of_le (Nat.le_add_right _ _),
    Nat.add_sub_cancel_left, nil_append, readLE]

/-! ### Records -/

/-- The bytes of a record, whose fields have a width and a value. -/
def fields (record : List (ℕ × ℕ)) : List UInt8 := record.flatMap fun field => toLE field.1 field.2

/-- The bytes in front of a field, or of all fields. -/
def widths (record : List (ℕ × ℕ)) : ℕ := (record.map Prod.fst).sum

@[simp] theorem length_fields (record : List (ℕ × ℕ)) : (fields record).length = widths record := by
  induction record with
  | nil => rfl
  | cons field record ih =>
    rw [fields, flatMap_cons, length_append, length_toLE, ← fields, ih, widths, widths,
      map_cons, sum_cons]

theorem fields_cons (field : ℕ × ℕ) (record : List (ℕ × ℕ)) :
    fields (field :: record) = toLE field.1 field.2 ++ fields record := flatMap_cons

theorem fields_append (record record' : List (ℕ × ℕ)) :
    fields (record ++ record') = fields record ++ fields record' := flatMap_append

theorem readLE_fields (front back : List (ℕ × ℕ)) {width value : ℕ} (hfits : value < 256 ^ width)
    (rest : List UInt8) :
    readLE (fields (front ++ (width, value) :: back) ++ rest) (widths front) width = value := by
  have hbytes : fields (front ++ (width, value) :: back) ++ rest =
      fields front ++ (toLE width value ++ (fields back ++ rest)) := by
    rw [fields_append, fields_cons, append_assoc, append_assoc]
  rw [hbytes, ← add_zero (widths front), readLE_append (length_fields front), readLE_of_toLE,
    Nat.mod_eq_of_lt hfits]

theorem readLE_field {record : List (ℕ × ℕ)} (index : ℕ) {width value offset : ℕ}
    (hfield : record[index]? = some (width, value)) (hoffset : widths (record.take index) = offset)
    (hfits : value < 256 ^ width) (rest : List UInt8) :
    readLE (fields record ++ rest) offset width = value := by
  obtain ⟨hlt, hget⟩ := List.getElem?_eq_some_iff.mp hfield
  have hrecord : record = record.take index ++ (width, value) :: record.drop (index + 1) := by
    rw [← hget, cons_getElem_drop_succ, take_append_drop]
  rw [hrecord, ← hoffset]
  exact readLE_fields _ _ hfits rest

theorem readLE_add (bytes : List UInt8) (offset width width' : ℕ) :
    readLE bytes offset (width + width') =
      readLE bytes offset width + 256 ^ width * readLE bytes (offset + width) width' := by
  rw [readLE, readLE, readLE, ← drop_drop]
  generalize bytes.drop offset = rest
  induction width generalizing rest with
  | zero => simp [fromLE]
  | succ width ih =>
    rw [add_right_comm]
    cases rest with
    | nil => simp [fromLE]
    | cons =>
      rw [take_succ_cons, take_succ_cons, drop_succ_cons, fromLE, fromLE, ih, pow_succ]
      ring

end BreadboardTui
