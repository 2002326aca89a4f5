import BreadboardTui.Js.Collections
import Mathlib.Tactic

/-!
# A cache with limits

A cache that keeps at most so many entries, of at most so much size in all. Its entries stand in
the order in which they were last used, the least recently used one first. Setting an entry makes
room for it by dropping entries from the front; an entry that is larger than the whole cache is
not kept at all, and neither is the one it was to replace.

A limit of zero is no limit. Entries do not expire.
-/

namespace BreadboardTui

open List

/-- The limits of a cache. -/
structure Limits (β : Type) where
  max : ℕ
  maxSize : ℕ
  sizeCalculation : β → ℕ

namespace Limits

variable {κ β : Type} [DecidableEq κ] (limits : Limits β)

def calculatedSize (m : JsMap κ β) : ℕ := (m.map fun entry => limits.sizeCalculation entry.2).sum

/-- The cache is too full for a new entry of the size. -/
def isFullFor (size : ℕ) (m : JsMap κ β) : Bool :=
  decide ((limits.max ≠ 0 ∧ limits.max ≤ m.length) ∨
    (limits.maxSize ≠ 0 ∧ limits.maxSize < limits.calculatedSize m + size))

/-- The loop that drops the oldest entries. -/
def makeRoom (size : ℕ) : JsMap κ β → JsMap κ β
  | [] => []
  | entry :: m => if limits.isFullFor size (entry :: m) then makeRoom size m else entry :: m

/-- The value may be kept. -/
def Fits (v : β) : Prop := limits.maxSize = 0 ∨ limits.sizeCalculation v ≤ limits.maxSize

instance (v : β) : Decidable (limits.Fits v) := inferInstanceAs (Decidable (_ ∨ _))

/-- Sets an entry, which is then the most recently used one. -/
def set (k : κ) (v : β) (m : JsMap κ β) : JsMap κ β :=
  if limits.Fits v then limits.makeRoom (limits.sizeCalculation v) (m.delete k) ++ [(k, v)]
  else m.delete k

/-- Reading an entry makes it the most recently used one. -/
def touch (k : κ) (m : JsMap κ β) : JsMap κ β :=
  match m.get k with
  | none => m
  | some v => m.delete k ++ [(k, v)]

/-- What holds of a cache: its keys are distinct and it keeps to its limits. -/
structure Bounded (m : JsMap κ β) : Prop where
  keys : m.KeysNodup
  length_le : limits.max ≠ 0 → m.length ≤ limits.max
  size_le : limits.maxSize ≠ 0 → limits.calculatedSize m ≤ limits.maxSize

variable {limits} {m : JsMap κ β} {k l : κ} {v : β}

/-! ### Reading -/

theorem delete_eq_self (h : k ∉ m.map Prod.fst) : m.delete k = m := by
  rw [JsMap.delete, filter_eq_self]
  intro entry hentry
  rw [decide_eq_true_eq]
  rintro rfl
  exact h (mem_map_of_mem hentry)

/-- Moving an entry to the end only reorders the cache. -/
theorem delete_append_perm (hkeys : m.KeysNodup) (hget : m.get k = some v) :
    (m.delete k ++ [(k, v)]).Perm m := by
  induction m with
  | nil => cases hget
  | cons entry m ih =>
    obtain ⟨hentry, hm⟩ := nodup_cons.mp hkeys
    rw [JsMap.get_cons] at hget
    by_cases hk : k = entry.1
    · rw [if_pos hk] at hget
      cases hget
      have hdelete : JsMap.delete (entry :: m) k = m := by
        rw [JsMap.delete, filter_cons, if_neg (by simp [hk]), ← JsMap.delete,
          delete_eq_self (hk ▸ hentry)]
      rw [hdelete, hk]
      exact perm_append_singleton _ _
    rw [if_neg hk] at hget
    have hdelete : JsMap.delete (entry :: m) k = entry :: JsMap.delete m k := by
      rw [JsMap.delete, filter_cons, if_pos (by simpa using Ne.symm hk), ← JsMap.delete]
    rw [hdelete, cons_append]
    exact (ih hm hget).cons entry

theorem touch_perm (hkeys : m.KeysNodup) (k : κ) : (touch k m).Perm m := by
  rw [touch]
  split
  · exact List.Perm.refl m
  · next hget => exact delete_append_perm hkeys hget

variable {m' : JsMap κ β}

theorem get_append_of_none (h : m.get l = none) : JsMap.get (m ++ m') l = m'.get l := by
  induction m with
  | nil => rfl
  | cons entry m ih =>
    rw [JsMap.get_cons] at h
    rw [cons_append, JsMap.get_cons]
    split at h
    · cases h
    · next hne => rw [if_neg hne, ih h]

theorem get_append_of_some (h : m.get l = some v) : JsMap.get (m ++ m') l = some v := by
  induction m with
  | nil => cases h
  | cons entry m ih =>
    rw [JsMap.get_cons] at h
    rw [cons_append, JsMap.get_cons]
    split at h
    · next heq => rw [if_pos heq, h]
    · next hne => rw [if_neg hne, ih h]

theorem get_delete_append (k l : κ) (v : β) :
    JsMap.get (m.delete k ++ [(k, v)]) l = if l = k then some v else m.get l := by
  by_cases h : l = k
  · rw [h, if_pos rfl, get_append_of_none JsMap.get_delete_self, JsMap.get_cons, if_pos rfl]
  rw [if_neg h]
  cases hget : m.get l with
  | none =>
    rw [get_append_of_none (by rw [JsMap.get_delete_of_ne h, hget]), JsMap.get_cons, if_neg h]
    rfl
  | some => rw [get_append_of_some (by rw [JsMap.get_delete_of_ne h, hget])]

/-- Reading does not change what is found. -/
@[simp] theorem get_touch (k l : κ) : (touch k m).get l = m.get l := by
  rw [touch]
  split
  · rfl
  next hget =>
  rw [get_delete_append]
  split
  · next h => rw [h, hget]
  · rfl

omit [DecidableEq κ] in
theorem Bounded.of_perm (h : limits.Bounded m) (hperm : m'.Perm m) : limits.Bounded m' where
  keys := (hperm.map Prod.fst).nodup_iff.mpr h.keys
  length_le := fun hmax => hperm.length_eq ▸ h.length_le hmax
  size_le := fun hmax => by
    have hsum : limits.calculatedSize m' = limits.calculatedSize m :=
      (hperm.map fun entry : κ × β => limits.sizeCalculation entry.2).sum_eq
    rw [hsum]
    exact h.size_le hmax

/-! ### Dropping entries -/

omit [DecidableEq κ] in
theorem Bounded.of_sublist (h : limits.Bounded m) (hsub : m'.Sublist m) : limits.Bounded m' where
  keys := h.keys.sublist (hsub.map _)
  length_le := fun hmax => hsub.length_le.trans (h.length_le hmax)
  size_le := fun hmax =>
    have hsum := (hsub.map fun entry : κ × β => limits.sizeCalculation entry.2).sum_le_sum
      fun _ _ => Nat.zero_le _
    hsum.trans (h.size_le hmax)

theorem Bounded.delete (h : limits.Bounded m) (k : κ) : limits.Bounded (m.delete k) :=
  h.of_sublist filter_sublist

omit [DecidableEq κ] in
theorem makeRoom_suffix (size : ℕ) (m : JsMap κ β) : limits.makeRoom size m <:+ m := by
  induction m with
  | nil => exact suffix_rfl
  | cons entry m ih =>
    rw [makeRoom]
    split
    · exact ih.trans (suffix_cons entry m)
    · exact suffix_rfl

omit [DecidableEq κ] in
/-- When the loop has ended, there is room for the entry. -/
theorem not_isFullFor_makeRoom (size : ℕ) (m : JsMap κ β)
    (hsize : limits.maxSize = 0 ∨ size ≤ limits.maxSize) :
    limits.isFullFor size (limits.makeRoom size m) = false := by
  induction m with
  | nil =>
    rw [makeRoom, isFullFor, decide_eq_false_iff_not]
    simp only [calculatedSize, map_nil, sum_nil, length_nil]
    omega
  | cons entry m ih =>
    rw [makeRoom]
    split
    · exact ih
    · next h => simpa using h

/-! ### Setting an entry -/

/-- An entry that may be kept is found; of one that may not be, nothing is left. -/
theorem get_set_self (k : κ) (v : β) (m : JsMap κ β) :
    (limits.set k v m).get k = if limits.Fits v then some v else none := by
  rw [set]
  split
  · have hnone : (limits.makeRoom (limits.sizeCalculation v) (m.delete k)).get k = none := by
      apply JsMap.get_eq_none_of_forall_ne
      intro entry hentry
      have hmem := (makeRoom_suffix _ _).subset hentry
      simpa using (mem_filter.mp hmem).2
    rw [get_append_of_none hnone, JsMap.get_cons, if_pos rfl]
  · exact JsMap.get_delete_self

theorem mem_set_imp {entry : κ × β} (h : entry ∈ limits.set k v m) :
    entry = (k, v) ∨ entry.1 ≠ k ∧ entry ∈ m := by
  rw [set] at h
  have hdelete : entry ∈ m.delete k → entry.1 ≠ k ∧ entry ∈ m := by
    intro hmem
    obtain ⟨hm, hne⟩ := mem_filter.mp hmem
    exact ⟨by simpa using hne, hm⟩
  split at h
  · rcases mem_append.mp h with h | h
    · exact .inr (hdelete ((makeRoom_suffix _ _).subset h))
    · exact .inl (mem_singleton.mp h)
  · exact .inr (hdelete h)

theorem keysNodup_set (h : m.KeysNodup) (k : κ) (v : β) : (limits.set k v m).KeysNodup := by
  rw [Limits.set]
  split
  · have hsub : (limits.makeRoom (limits.sizeCalculation v) (m.delete k)).Sublist (m.delete k) :=
      (makeRoom_suffix _ _).sublist
    -- the key was deleted before the entry is put behind the others
    rw [JsMap.KeysNodup, map_append, nodup_append]
    refine ⟨(h.delete (k := k)).sublist (hsub.map _), nodup_singleton k, ?_⟩
    intro l hl l' hl' heq
    obtain ⟨entry, hentry, rfl⟩ := mem_map.mp hl
    have hne : entry.1 ≠ k := by simpa using (mem_filter.mp (hsub.subset hentry)).2
    exact hne (heq.trans (mem_singleton.mp hl'))
  · exact h.delete

theorem Bounded.set (h : limits.Bounded m) (k : κ) (v : β) : limits.Bounded (limits.set k v m) := by
  refine ⟨keysNodup_set h.keys k v, ?_, ?_⟩
  all_goals
    intro hmax
    rw [Limits.set]
    split
  · next hfits =>
    have hroom := not_isFullFor_makeRoom (limits.sizeCalculation v) (m.delete k) hfits
    rw [isFullFor, decide_eq_false_iff_not, not_or] at hroom
    rw [length_append, length_singleton]
    omega
  · exact (h.delete k).length_le hmax
  · next hfits =>
    have hroom := not_isFullFor_makeRoom (limits.sizeCalculation v) (m.delete k) hfits
    rw [isFullFor, decide_eq_false_iff_not, not_or] at hroom
    have hsize := hroom.2
    simp only [calculatedSize, map_append, sum_append, map_cons, map_nil,
      sum_cons, sum_nil] at hsize ⊢
    omega
  · exact (h.delete k).size_le hmax

/-- Replacing a value in place by one of the same size. -/
theorem Bounded.replace {w : β} (h : limits.Bounded m) (hget : m.get k = some w)
    (hsize : limits.sizeCalculation v = limits.sizeCalculation w) :
    limits.Bounded (JsMap.set k v m) := by
  have hsame : limits.calculatedSize (JsMap.set k v m) = limits.calculatedSize m ∧
      (JsMap.set k v m).length = m.length := by
    have hkeys := h.keys
    clear h
    induction m with
    | nil => cases hget
    | cons entry m ih =>
      rw [JsMap.get_cons] at hget
      rw [JsMap.set]
      split
      · next heq =>
        rw [if_pos heq.symm] at hget
        cases hget
        exact ⟨by simp [calculatedSize, hsize], rfl⟩
      next hne =>
      rw [if_neg (Ne.symm hne)] at hget
      obtain ⟨hsum, hlength⟩ := ih hget (nodup_cons.mp hkeys).2
      simp only [calculatedSize, map_cons, sum_cons] at hsum ⊢
      exact ⟨by rw [hsum], by rw [length_cons, hlength, length_cons]⟩
  exact ⟨h.keys.set, hsame.2 ▸ h.length_le, hsame.1 ▸ h.size_le⟩

end Limits

end BreadboardTui
