import BreadboardTui.Lib.LruCache

/-!
# The least recently used cache

`LRUCache` keeps the sizes of its entries and their sum, and calls `dispose` for the values that
leave it. A value may be as large as `maxEntrySize`, which is not compared with `maxSize`: the
loop that makes room ends where no entry is left, and what is then set may be too large alone.

Entries do not expire here, and `dispose` does not call the cache.
-/

namespace BreadboardTui

open List

inductive DisposeReason where
  | evict
  | set
  | delete
  deriving DecidableEq

namespace LRUCache

/-- The limits, which are zero where they are not set. -/
structure Options where
  max : ℕ := 0
  maxSize : ℕ := 0
  maxEntrySize : ℕ := 0

/-- The limit of one entry. -/
def Options.entryLimit (options : Options) : ℕ :=
  if options.maxEntrySize = 0 then options.maxSize else options.maxEntrySize

structure Entry (β : Type) where
  value : β
  size : ℕ

/-- A call of `dispose`. -/
structure Disposal (κ β : Type) where
  value : β
  key : κ
  reason : DisposeReason

end LRUCache

open LRUCache

/-- The least recently used entry is the first one. -/
structure LRUCache (κ β : Type) where
  entries : JsMap κ (Entry β) := []
  calculatedSize : ℤ := 0
  disposed : List (Disposal κ β) := []

namespace LRUCache

variable {κ β : Type} (options : Options)

/-- Most recently used first. -/
def keys (cache : LRUCache κ β) : List κ := (cache.entries.map Prod.fst).reverse

def clear (cache : LRUCache κ β) : LRUCache κ β where
  disposed := cache.disposed ++ cache.entries.map fun entry => ⟨entry.2.value, entry.1, .delete⟩

/-- The loop of `set`, which evicts from the front. -/
def makeRoom (size : ℕ) : JsMap κ (Entry β) → ℤ → List (Disposal κ β) → LRUCache κ β
  | [], calculatedSize, disposed => ⟨[], calculatedSize, disposed⟩
  | (key, entry) :: entries, calculatedSize, disposed =>
    if (options.max ≠ 0 ∧ options.max ≤ entries.length + 1) ∨
        (options.maxSize ≠ 0 ∧ options.maxSize < calculatedSize + size) then
      makeRoom size entries (calculatedSize - entry.size)
        (disposed ++ [⟨entry.value, key, .evict⟩])
    else ⟨(key, entry) :: entries, calculatedSize, disposed⟩

inductive Call (κ β : Type) where
  | set (key : κ) (value : Option β) (size : ℕ)
  | get (key : κ)
  | has (key : κ)
  | peek (key : κ)
  | delete (key : κ)
  | clear

section Operations

variable [DecidableEq κ] [DecidableEq β] (cache : LRUCache κ β) (key : κ)

def remove (entry : Entry β) (reason : DisposeReason) : LRUCache κ β where
  entries := cache.entries.delete key
  calculatedSize := cache.calculatedSize - entry.size
  disposed := cache.disposed ++ [⟨entry.value, key, reason⟩]

def delete : LRUCache κ β :=
  match cache.entries.get key with
  | none => cache
  | some entry => cache.remove key entry .delete

/-- The cache without the entry that is about to be replaced by a value. -/
def withoutPrevious (value : β) : LRUCache κ β :=
  match cache.entries.get key with
  | none => cache
  | some previous =>
    { entries := cache.entries.delete key
      calculatedSize := cache.calculatedSize - previous.size
      disposed :=
        if previous.value = value then cache.disposed
        else cache.disposed ++ [⟨previous.value, key, .set⟩] }

/-- `size` is what `sizeCalculation` gives for the value, or zero without it. -/
def set (value : Option β) (size : ℕ) : LRUCache κ β :=
  match value with
  | none => cache.delete key
  | some value =>
    if options.entryLimit ≠ 0 ∧ options.entryLimit < size then
      match cache.entries.get key with
      | none => cache
      | some previous => cache.remove key previous .set
    else
      let cache := cache.withoutPrevious key value
      let cache := makeRoom options size cache.entries cache.calculatedSize cache.disposed
      { cache with
        entries := JsMap.set key ⟨value, size⟩ cache.entries
        calculatedSize := cache.calculatedSize + size }

/-- The value that is found, and the cache with its entry behind the others. -/
def get : Option β × LRUCache κ β :=
  match cache.entries.get key with
  | none => (none, cache)
  | some entry =>
    (some entry.value,
      { cache with entries := JsMap.set key entry (cache.entries.delete key) })

def has : Bool := (cache.entries.get key).isSome

def peek : Option β := (cache.entries.get key).map Entry.value

/-- The cache after a call. -/
def step : Call κ β → LRUCache κ β
  | .set key value size => cache.set options key value size
  | .get key => (cache.get key).2
  | .has _ | .peek _ => cache
  | .delete key => cache.delete key
  | .clear => cache.clear

def run (calls : List (Call κ β)) : LRUCache κ β := calls.foldl (step options) {}

end Operations

/-! ### The books -/

def sizes (entries : JsMap κ (Entry β)) : ℕ := (entries.map fun entry => entry.2.size).sum

/-- The key that a call sets or gets. -/
def Call.uses : Call κ β → Option κ
  | .set key (some _) _ | .get key => some key
  | _ => none

/-- The keys of the calls that set or get one, the last call first. -/
def recent (calls : List (Call κ β)) : List κ := (calls.filterMap Call.uses).reverse

def Recency (calls : List (Call κ β)) (keys : List κ) [DecidableEq κ] : Prop :=
  keys.Pairwise fun k l => (recent calls).idxOf k < (recent calls).idxOf l

/-- The values in the cache, and those that were disposed of. -/
def total (cache : LRUCache κ β) : List (κ × β) :=
  (cache.entries.map fun entry => (entry.1, entry.2.value)) ++
    cache.disposed.map fun call => (call.key, call.value)

/-- The value that comes with a call. -/
def came [DecidableEq κ] [DecidableEq β] (cache : LRUCache κ β) : Call κ β → List (κ × β)
  | .set key (some value) size =>
    if (options.entryLimit ≠ 0 ∧ options.entryLimit < size) ∨ cache.peek key = some value then []
    else [(key, value)]
  | _ => []

/-- What holds of a cache after some calls. -/
structure Sound [DecidableEq κ] (calls : List (Call κ β)) (cache : LRUCache κ β) : Prop where
  size_eq : cache.calculatedSize = sizes cache.entries
  length_le : options.max ≠ 0 → cache.entries.length ≤ options.max
  size_le : options.maxSize ≠ 0 → cache.calculatedSize ≤ options.maxSize
  recency : Recency calls cache.keys

/-- The value is within the limit of all entries, or it is not kept. -/
def Options.Fits : Call κ β → Prop
  | .set _ (some _) size =>
    options.maxSize = 0 ∨ size ≤ options.maxSize ∨ options.entryLimit < size
  | _ => True

variable {options}

/-- The loop evicts from the front, and ends with room or with no entry. -/
theorem makeRoom_spec (size : ℕ) (entries : JsMap κ (Entry β)) (disposed : List (Disposal κ β)) :
    let room := makeRoom options size entries (sizes entries) disposed
    room.entries.Sublist entries ∧ room.calculatedSize = sizes room.entries ∧
      room.total.Perm (total ⟨entries, sizes entries, disposed⟩) ∧
      (room.entries = [] ∨ (options.max ≠ 0 → room.entries.length < options.max) ∧
        (options.maxSize ≠ 0 → room.calculatedSize + size ≤ options.maxSize)) := by
  induction entries generalizing disposed with
  | nil => exact ⟨Sublist.refl _, rfl, Perm.refl _, .inl rfl⟩
  | cons head entries ih =>
    obtain ⟨key, entry⟩ := head
    have hsizes : (sizes ((key, entry) :: entries) : ℤ) - entry.size = sizes entries := by
      simp [sizes]
    simp only [makeRoom]
    split
    · rw [hsizes]
      obtain ⟨hsub, hsize, htotal, hroom⟩ := ih (disposed ++ [⟨entry.value, key, .evict⟩])
      refine ⟨hsub.cons _, hsize, htotal.trans ?_, hroom⟩
      simp only [total, map_append, map_cons, map_nil, cons_append, ← append_assoc]
      exact perm_append_singleton _ _
    · next h =>
      rw [not_or] at h
      refine ⟨Sublist.refl _, rfl, Perm.refl _, .inr ⟨fun hmax => ?_, fun hmax => ?_⟩⟩
      · exact not_le.mp fun hle => h.1 ⟨hmax, hle⟩
      · exact not_lt.mp fun hlt => h.2 ⟨hmax, hlt⟩

theorem recent_concat (calls : List (Call κ β)) (call : Call κ β) :
    recent (calls ++ [call]) = call.uses.toList ++ recent calls := by
  rw [recent, filterMap_append, reverse_append]
  cases huses : call.uses <;> simp [huses, recent]

variable [DecidableEq κ] {cache after : LRUCache κ β} {call : Call κ β}
  {calls : List (Call κ β)} {key : κ} {entry : Entry β} {kept : JsMap κ (Entry β)}

theorem Sound.nodup (h : Sound options calls cache) : cache.entries.KeysNodup := by
  have hnodup : cache.keys.Nodup := h.recency.imp fun hlt heq => by rw [heq] at hlt; exact hlt.false
  exact nodup_reverse.mp hnodup

/-- The keys that are kept stay in their order, behind that of the call. -/
theorem Sound.recency_append (h : Sound options calls cache) (hsub : kept.Sublist cache.entries)
    (hfresh : ∀ k, call.uses = some k → k ∉ kept.map Prod.fst) :
    Recency (calls ++ [call]) (call.uses.toList ++ (kept.map Prod.fst).reverse) := by
  have hkept := h.recency.sublist (hsub.map Prod.fst).reverse
  rw [Recency, recent_concat]
  cases huses : call.uses with
  | none => exact hkept
  | some k =>
    have hne : ∀ l ∈ (kept.map Prod.fst).reverse, k ≠ l := fun l hl heq =>
      hfresh k huses (heq ▸ mem_reverse.mp hl)
    refine pairwise_cons.mpr ⟨fun l hl => ?_, hkept.imp_of_mem fun hl hl' hlt => ?_⟩
    · change idxOf k (k :: recent calls) < idxOf l (k :: recent calls)
      rw [idxOf_cons_self, idxOf_cons_ne _ (hne l hl)]
      exact Nat.succ_pos _
    · change idxOf _ (k :: recent calls) < idxOf _ (k :: recent calls)
      rw [idxOf_cons_ne _ (hne _ hl), idxOf_cons_ne _ (hne _ hl')]
      exact Nat.succ_lt_succ hlt

theorem Sound.recency_push (h : Sound options calls cache) (hsub : kept.Sublist cache.entries)
    (huses : call.uses = some key) (hfresh : key ∉ kept.map Prod.fst) (entry : Entry β) :
    Recency (calls ++ [call]) ((kept ++ [(key, entry)]).map Prod.fst).reverse := by
  have hrecency := h.recency_append hsub fun k hk => Option.some.inj (huses.symm.trans hk) ▸ hfresh
  rw [huses] at hrecency
  rwa [map_append, reverse_append]

/-- Dropping entries. -/
theorem Sound.shrink (h : Sound options calls cache) (hsub : after.entries.Sublist cache.entries)
    (hsize : after.calculatedSize = sizes after.entries)
    (hfresh : ∀ k, call.uses = some k → k ∉ after.entries.map Prod.fst) :
    Sound options (calls ++ [call]) after := by
  refine ⟨hsize, fun hmax => hsub.length_le.trans (h.length_le hmax), fun hmax => ?_,
    (h.recency_append hsub hfresh).sublist (sublist_append_right _ _)⟩
  have hle : sizes after.entries ≤ sizes cache.entries :=
    (hsub.map _).sum_le_sum fun _ _ => Nat.zero_le _
  have hbefore := h.size_le hmax
  rw [h.size_eq] at hbefore
  omega

theorem notMem_delete (h : kept.Sublist (cache.entries.delete key)) : key ∉ kept.map Prod.fst := by
  intro hmem
  obtain ⟨other, hother, rfl⟩ := mem_map.mp hmem
  simpa using (mem_filter.mp (h.subset hother)).2

theorem notMem_of_get (h : cache.entries.get key = none) : key ∉ cache.entries.map Prod.fst := by
  intro hmem
  obtain ⟨entry, hentry⟩ := JsMap.get_of_mem_keys hmem
  exact nomatch h ▸ hentry

theorem Sound.remove (h : Sound options calls cache) (hget : cache.entries.get key = some entry)
    (hcall : ∀ k, call.uses = some k → k = key) (reason : DisposeReason) :
    Sound options (calls ++ [call]) (cache.remove key entry reason) ∧
      (cache.remove key entry reason).total.Perm cache.total := by
  have hperm := Limits.delete_append_perm h.nodup hget
  have hsizes := (hperm.map fun entry => entry.2.size).sum_eq
  refine ⟨h.shrink filter_sublist ?_ fun k hk => hcall k hk ▸ notMem_delete (Sublist.refl _), ?_⟩
  · rw [LRUCache.remove, h.size_eq, sizes, ← hsizes]
    simp [sizes]
  · have hpairs := hperm.map fun entry => (entry.1, entry.2.value)
    rw [map_append] at hpairs
    rw [total, LRUCache.remove, map_append]
    refine (perm_append_comm.append_left _).trans ?_
    rw [← append_assoc]
    exact hpairs.append_right _

theorem Sound.get (h : Sound options calls cache) (hget : cache.entries.get key = some entry) :
    Sound options (calls ++ [.get key]) (cache.get key).2 ∧
      (cache.get key).2.total.Perm cache.total := by
  have hperm := Limits.delete_append_perm h.nodup hget
  have hfresh : key ∉ (cache.entries.delete key).map Prod.fst := notMem_delete (Sublist.refl _)
  simp only [LRUCache.get, hget, JsMap.set_of_notMem hfresh]
  refine ⟨⟨?_, fun hmax => hperm.length_eq ▸ h.length_le hmax, h.size_le,
    h.recency_push filter_sublist rfl hfresh entry⟩, (hperm.map _).append_right _⟩
  rw [h.size_eq, sizes, sizes, (hperm.map fun entry => entry.2.size).sum_eq]

theorem Sound.nothing (h : Sound options calls cache)
    (hfresh : ∀ k, call.uses = some k → cache.entries.get k = none) :
    Sound options (calls ++ [call]) cache :=
  h.shrink (Sublist.refl _) h.size_eq fun k hk => notMem_of_get (hfresh k hk)

theorem Sound.delete (h : Sound options calls cache) (key : κ) (huses : call.uses = none) :
    Sound options (calls ++ [call]) (cache.delete key) ∧
      (cache.delete key).total.Perm cache.total := by
  rw [LRUCache.delete]
  split
  · exact ⟨h.nothing (by simp [huses]), Perm.refl _⟩
  · next entry hget => exact h.remove hget (by simp [huses]) .delete

variable [DecidableEq β] {value : β} {size : ℕ}

theorem withoutPrevious_spec (h : Sound options calls cache) (key : κ) (value : β) :
    let rest := cache.withoutPrevious key value
    rest.entries = cache.entries.delete key ∧ rest.calculatedSize = sizes rest.entries ∧
      ((key, value) :: rest.total).Perm
        ((if cache.peek key = some value then [] else [(key, value)]) ++ cache.total) := by
  cases hget : cache.entries.get key with
  | none =>
    simp only [withoutPrevious, peek, hget]
    exact ⟨(Limits.delete_eq_self (notMem_of_get hget)).symm, h.size_eq, Perm.refl _⟩
  | some previous =>
    obtain ⟨hsound, htotal⟩ := @Sound.remove _ _ _ _ _ (.delete key) _ _ _ h hget
      (fun _ hk => by cases hk) .set
    simp only [withoutPrevious, peek, hget]
    refine ⟨trivial, hsound.size_eq, ?_⟩
    by_cases hsame : previous.value = value
    · have hpairs := (Limits.delete_append_perm h.nodup hget).map fun entry =>
        (entry.1, entry.2.value)
      rw [map_append, map_singleton, hsame] at hpairs
      simp only [Option.map_some, hsame, if_pos, total, nil_append]
      exact ((perm_append_singleton _ _).symm.append_right _).trans (hpairs.append_right _)
    · rw [if_neg hsame, Option.map_some, if_neg (Option.some.inj.mt hsame)]
      exact htotal.cons _

theorem Sound.set (h : Sound options calls cache)
    (hlimit : ¬ (options.entryLimit ≠ 0 ∧ options.entryLimit < size))
    (hfits : options.Fits (.set key (some value) size)) :
    Sound options (calls ++ [.set key (some value) size])
        (cache.set options key (some value) size) ∧
      (cache.set options key (some value) size).total.Perm
        ((if cache.peek key = some value then [] else [(key, value)]) ++ cache.total) := by
  obtain ⟨hentries, hsize, htotal⟩ := withoutPrevious_spec h key value
  rw [LRUCache.set, if_neg hlimit]
  dsimp only
  generalize cache.withoutPrevious key value = rest at *
  obtain ⟨hsub, hsize', htotal', hroom⟩ :=
    @makeRoom_spec κ β options size rest.entries rest.disposed
  rw [← hsize] at hsub hsize' htotal' hroom
  generalize makeRoom options size rest.entries rest.calculatedSize rest.disposed = room at *
  have hfresh : key ∉ room.entries.map Prod.fst := notMem_delete (hentries ▸ hsub)
  rw [JsMap.set_of_notMem hfresh]
  refine ⟨⟨?_, fun hmax => ?_, fun hmax => ?_,
    h.recency_push ((hentries ▸ hsub).trans filter_sublist) rfl hfresh _⟩, ?_⟩
  · rw [hsize']
    simp [sizes]
  · rw [length_append]
    rcases hroom with hnil | hroom
    · rw [hnil]
      exact Nat.pos_of_ne_zero hmax
    · exact hroom.1 hmax
  · rcases hroom with hnil | hroom
    · have hlarge : ¬ options.entryLimit < size := by
        refine fun hlt => hlimit ⟨?_, hlt⟩
        rw [Options.entryLimit]
        split <;> assumption
      have hle : size ≤ options.maxSize := (hfits.resolve_left hmax).resolve_right hlarge
      rw [hsize', hnil]
      simpa [sizes] using hle
    · exact hroom.2 hmax
  refine Perm.trans ?_ ((htotal'.cons _).trans htotal)
  rw [total, total, map_append, append_assoc]
  exact perm_middle

/-- Every call keeps the books, if its value is within the limit or is not kept. -/
theorem Sound.step (h : Sound options calls cache) (hfits : options.Fits call) :
    Sound options (calls ++ [call]) (cache.step options call) ∧
      (cache.step options call).total.Perm (cache.came options call ++ cache.total) := by
  cases call with
  | has key => exact ⟨h.nothing nofun, Perm.refl _⟩
  | peek key => exact ⟨h.nothing nofun, Perm.refl _⟩
  | clear =>
    refine ⟨h.shrink (nil_sublist _) rfl nofun, ?_⟩
    simp only [LRUCache.step, LRUCache.clear, came, total, map_append, map_map, map_nil, nil_append]
    exact perm_append_comm
  | delete key => exact h.delete key rfl
  | get key =>
    cases hget : cache.entries.get key with
    | none =>
      have hsame : cache.step options (.get key) = cache := by
        simp only [LRUCache.step, LRUCache.get, hget]
      rw [hsame]
      exact ⟨h.nothing fun k hk => Option.some.inj hk ▸ hget, Perm.refl _⟩
    | some entry => exact h.get hget
  | set key value size =>
    cases value with
    | none => exact h.delete key rfl
    | some value =>
      by_cases hlimit : options.entryLimit ≠ 0 ∧ options.entryLimit < size
      · simp only [LRUCache.step, LRUCache.set, came, if_pos hlimit, if_pos (Or.inl hlimit)]
        split
        · next hget =>
          refine ⟨h.nothing fun k hk => ?_, Perm.refl _⟩
          rw [← Option.some.inj hk, hget]
        · next previous hget =>
          exact h.remove hget (fun k hk => by cases hk; rfl) .set
      rw [came, if_congr (or_iff_right hlimit) rfl rfl]
      exact h.set hlimit hfits

theorem sound_run (calls : List (Call κ β)) (hfits : ∀ call ∈ calls, options.Fits call) :
    Sound options calls (run options calls) := by
  induction calls using reverseRecOn with
  | nil => exact ⟨rfl, fun _ => Nat.zero_le _, fun _ => Int.natCast_nonneg _, .nil⟩
  | append_singleton calls call ih =>
    rw [forall_mem_append, forall_mem_singleton] at hfits
    rw [run, foldl_concat]
    exact ((ih hfits.1).step hfits.2).1

/-- The cache keeps its books in every run in which no value is larger than `maxSize` and not larger
than `maxEntrySize`: what has come in is in the cache, or it was disposed of once. -/
theorem run_keepsBooks (options : Options) (calls : List (Call κ β)) (call : Call κ β)
    (hfits : ∀ other ∈ calls ++ [call], options.Fits other) :
    Sound options (calls ++ [call]) (run options (calls ++ [call])) ∧
      (run options (calls ++ [call])).total.Perm
        ((run options calls).came options call ++ (run options calls).total) := by
  have hcalls := forall_mem_append.mp hfits
  have hstep := (sound_run calls hcalls.1).step (forall_mem_singleton.mp hcalls.2)
  rw [run, foldl_concat]
  exact hstep

theorem run_keepsBooks_evicting : let calls : List (Call ℕ ℕ) := [.set 0 (some 7) 3]
    let cache := run ⟨0, 10, 0⟩ (calls ++ [.set 1 (some 8) 9])
    Sound ⟨0, 10, 0⟩ (calls ++ [.set 1 (some 8) 9]) cache ∧
      cache.total.Perm ((run ⟨0, 10, 0⟩ calls).came ⟨0, 10, 0⟩ (.set 1 (some 8) 9) ++
        (run ⟨0, 10, 0⟩ calls).total) :=
  run_keepsBooks ⟨0, 10, 0⟩ [.set 0 (some 7) 3] (.set 1 (some 8) 9) (by simp [Options.Fits])

/-- A value larger than `maxSize` is kept where `maxEntrySize` is larger still. -/
theorem not_sound_largeEntry :
    ¬ Sound ⟨0, 1, 2⟩ [.set 0 (some 7) 2] (run ⟨0, 1, 2⟩ [(.set 0 (some 7) 2 : Call ℕ ℕ)]) :=
  fun h => absurd (h.size_le (by decide)) (by decide)

end LRUCache

end BreadboardTui
