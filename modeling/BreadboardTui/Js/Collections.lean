import Mathlib.Data.List.Nodup

/-!
# The `Map` of JavaScript

A `Map` keeps its entries in the order in which their keys were first set; `set` on a key that is
there replaces the value in place. The runtime keeps its maps small and reads them by key, so the
list of the entries is the map.
-/

namespace BreadboardTui

open List

/-- A `Map`, as the list of its entries. -/
abbrev JsMap (κ β : Type) : Type := List (κ × β)

namespace JsMap

variable {κ β : Type} [DecidableEq κ] {m : JsMap κ β} {k l : κ} {v : β}

def get (m : JsMap κ β) (k : κ) : Option β := List.lookup k m

def has (m : JsMap κ β) (k : κ) : Bool := (m.get k).isSome

def set (k : κ) (v : β) : JsMap κ β → JsMap κ β
  | [] => [(k, v)]
  | entry :: m => if entry.1 = k then (k, v) :: m else entry :: set k v m

def delete (m : JsMap κ β) (k : κ) : JsMap κ β := m.filter fun entry => entry.1 ≠ k

def values (m : JsMap κ β) : List β := m.map Prod.snd

@[simp] theorem get_nil : get ([] : JsMap κ β) k = none := rfl

theorem get_cons (entry : κ × β) :
    get (entry :: m) k = if k = entry.1 then some entry.2 else get m k := by
  rw [get, lookup_cons, get]
  split
  · next h => rw [if_pos (eq_of_beq h)]
  · next h => rw [if_neg (ne_of_beq_false h)]

theorem get_set_self : get (set k v m) k = some v := by
  induction m with
  | nil => simp [set, get_cons]
  | cons entry m ih =>
    rw [set]
    split
    · rw [get_cons, if_pos rfl]
    · next hne => rw [get_cons, if_neg (Ne.symm hne), ih]

theorem get_set_of_ne (h : l ≠ k) : get (set k v m) l = get m l := by
  induction m with
  | nil => simp [set, get_cons, h]
  | cons entry m ih =>
    rw [set]
    split
    · next heq => rw [get_cons, get_cons, if_neg h, if_neg (heq ▸ h)]
    · rw [get_cons, get_cons, ih]

theorem get_delete_self : get (delete m k) k = none := by
  induction m with
  | nil => rfl
  | cons entry m ih =>
    rw [delete, filter_cons]
    split
    · next hne => rw [get_cons, if_neg (Ne.symm (of_decide_eq_true hne)), ← delete, ih]
    · rw [← delete, ih]

theorem get_delete_of_ne (h : l ≠ k) : get (delete m k) l = get m l := by
  induction m with
  | nil => rfl
  | cons entry m ih =>
    rw [delete, filter_cons]
    split
    · rw [get_cons, get_cons, ← delete, ih]
    next hk =>
    have heq : entry.1 = k := by simpa using hk
    rw [get_cons, if_neg (heq ▸ h), ← delete, ih]

theorem mem_values_of_get (h : get m k = some v) : v ∈ values m := by
  induction m with
  | nil => cases h
  | cons entry m ih =>
    rw [get_cons] at h
    split at h
    · cases h
      exact mem_cons_self
    · exact mem_cons_of_mem _ (ih h)

theorem mem_set {entry : κ × β} (h : entry ∈ set k v m) : entry = (k, v) ∨ entry ∈ m := by
  induction m with
  | nil => exact .inl (mem_singleton.mp h)
  | cons first m ih =>
    rw [set] at h
    split at h
    · exact (mem_cons.mp h).imp_right (mem_cons_of_mem _)
    rcases mem_cons.mp h with rfl | h
    · exact .inr mem_cons_self
    · exact (ih h).imp_right (mem_cons_of_mem _)

/-- No key has two entries. -/
def KeysNodup (m : JsMap κ β) : Prop := (m.map Prod.fst).Nodup

theorem KeysNodup.set (h : m.KeysNodup) : (JsMap.set k v m).KeysNodup := by
  induction m with
  | nil => exact nodup_singleton k
  | cons first m ih =>
    obtain ⟨hfirst, hm⟩ := nodup_cons.mp h
    rw [JsMap.set]
    split
    · next heq => exact nodup_cons.mpr ⟨heq ▸ hfirst, hm⟩
    next hne =>
    refine nodup_cons.mpr ⟨fun hmem => ?_, ih hm⟩
    obtain ⟨entry, hentry, heq⟩ := mem_map.mp hmem
    rcases mem_set hentry with rfl | hentry
    · exact hne heq.symm
    · exact hfirst (mem_map.mpr ⟨entry, hentry, heq⟩)

theorem KeysNodup.delete (h : m.KeysNodup) : (m.delete k).KeysNodup :=
  h.sublist (filter_sublist.map _)

theorem get_eq_none_of_forall_ne (h : ∀ entry ∈ m, entry.1 ≠ k) : get m k = none := by
  induction m with
  | nil => rfl
  | cons first m ih =>
    rw [get_cons, if_neg (Ne.symm (h first mem_cons_self))]
    exact ih fun entry hentry => h entry (mem_cons_of_mem _ hentry)

theorem get_filter_key {p : κ → Bool} (h : p k = true) :
    get (m.filter fun entry => p entry.1) k = get m k := by
  induction m with
  | nil => rfl
  | cons first m ih =>
    rw [filter_cons]
    split
    · rw [get_cons, get_cons, ih]
    next hfirst =>
    have hne : k ≠ first.1 := by
      rintro rfl
      exact hfirst h
    rw [get_cons, if_neg hne, ih]

theorem mem_keys_of_get (h : get m k = some v) : k ∈ m.map Prod.fst := by
  by_contra hmem
  rw [get_eq_none_of_forall_ne fun entry hentry heq =>
    hmem (mem_map.mpr ⟨entry, hentry, heq⟩)] at h
  cases h

theorem get_of_mem_keys (h : k ∈ m.map Prod.fst) : ∃ v, get m k = some v := by
  induction m with
  | nil => cases h
  | cons first m ih =>
    rw [get_cons]
    split
    · exact ⟨_, rfl⟩
    next hne =>
    rcases mem_cons.mp h with heq | h
    · exact absurd heq hne
    · exact ih h

theorem get_of_mem (h : m.KeysNodup) (hmem : (k, v) ∈ m) : get m k = some v := by
  induction m with
  | nil => exact absurd hmem not_mem_nil
  | cons entry m ih =>
    obtain ⟨hnot, hnodup⟩ := nodup_cons.mp h
    rw [get_cons]
    rcases mem_cons.mp hmem with rfl | hmem
    · rw [if_pos rfl]
    have hne : k ≠ entry.1 := by
      rintro rfl
      exact hnot (mem_map.mpr ⟨(entry.1, v), hmem, rfl⟩)
    rw [if_neg hne, ih hnodup hmem]

theorem keys_set_of_mem (h : k ∈ m.map Prod.fst) : (set k v m).map Prod.fst = m.map Prod.fst := by
  induction m with
  | nil => cases h
  | cons first m ih =>
    rw [set]
    split
    · next heq => rw [map_cons, map_cons, heq]
    next hne =>
    rcases mem_cons.mp h with heq | h
    · exact absurd heq.symm hne
    · rw [map_cons, map_cons, ih h]

theorem set_of_notMem (h : k ∉ m.map Prod.fst) : set k v m = m ++ [(k, v)] := by
  induction m with
  | nil => rfl
  | cons first m ih =>
    rw [map_cons, mem_cons, not_or] at h
    rw [set, if_neg (Ne.symm h.1), ih h.2, cons_append]

end JsMap

end BreadboardTui
