import BreadboardTui.Journal.Context
import Mathlib.Data.List.Perm.Subperm
import Mathlib.Data.List.Induction

/-!
# The index of a session journal

`SessionEntryIndex`: the entries by id, the labels in effect and the active leaf. A `SessionTree` is
a journal in which ids are not reused and every parent comes before its children, which is how the
session manager writes them; the path to an entry is then the chain of its parents.
-/

namespace BreadboardTui

open List

namespace Journal

/-- `SessionEntryIndex`, without the adjacency and the usage that only views read. -/
structure SessionEntryIndex where
  entriesById : JsMap String SessionEntry
  labels : JsMap String String
  leaf : Option String
  deriving DecidableEq, Repr

namespace SessionEntryIndex

def empty : SessionEntryIndex := ⟨[], [], none⟩

/-- What an entry does to the labels in effect; an empty label clears. -/
def applyLabel (labels : JsMap String String) (entry : SessionEntry) : JsMap String String :=
  match entry.body with
  | .label targetId label =>
    match label.filter (· ≠ "") with
    | some label => labels.set targetId label
    | none => labels.delete targetId
  | _ => labels

def insert (index : SessionEntryIndex) (entry : SessionEntry) : SessionEntryIndex where
  entriesById := index.entriesById.set entry.id entry
  labels := applyLabel index.labels entry
  leaf := some entry.id

def rebuild (entries : List SessionEntry) : SessionEntryIndex := entries.foldl insert empty

def labelFor (index : SessionEntryIndex) (id : String) : Option String := index.labels.get id

/-- `pathTo` with an id. -/
def pathTo (index : SessionEntryIndex) (id : String) : List SessionEntry :=
  pathFrom index.entriesById (if id = "" then none else index.entriesById.get id)

variable (entries : List SessionEntry)

theorem foldl_insert (index : SessionEntryIndex) : (entries.foldl insert index).entriesById =
        entries.foldl (fun byId entry => byId.set entry.id entry) index.entriesById ∧
      (entries.foldl insert index).labels = entries.foldl applyLabel index.labels := by
  induction entries generalizing index with
  | nil => exact ⟨rfl, rfl⟩
  | cons entry entries ih => exact ih (index.insert entry)

theorem entriesById_rebuild :
    (rebuild entries).entriesById = indexById entries := (foldl_insert entries empty).1

theorem labels_rebuild :
    (rebuild entries).labels = entries.foldl applyLabel [] := (foldl_insert entries empty).2

theorem leaf_rebuild : (rebuild entries).leaf = entries.getLast?.map (·.id) := by
  rcases eq_nil_or_concat entries with rfl | ⟨init, last, rfl⟩
  · rfl
  · simp [rebuild, insert]

end SessionEntryIndex

/-! ### Lookup by id -/

variable {byId : JsMap String SessionEntry}

theorem get_foldl_set_of_ne {entries : List SessionEntry}
    {id : String} (h : ∀ entry ∈ entries, entry.id ≠ id) :
    (entries.foldl (fun byId entry => byId.set entry.id entry) byId).get id = byId.get id := by
  induction entries generalizing byId with
  | nil => rfl
  | cons entry entries ih =>
    rw [foldl_cons, ih fun e he => h e (mem_cons_of_mem _ he),
      JsMap.get_set_of_ne (h entry mem_cons_self).symm]

variable {entry : SessionEntry}

theorem get_foldl_set {entries : List SessionEntry}
    (hnodup : (entries.map (·.id)).Nodup) (hmem : entry ∈ entries) :
    (entries.foldl (fun byId entry => byId.set entry.id entry) byId).get entry.id =
      some entry := by
  induction entries generalizing byId with
  | nil => cases hmem
  | cons first entries ih =>
    obtain ⟨hfirst, hentries⟩ := nodup_cons.mp hnodup
    rw [foldl_cons]
    rcases mem_cons.mp hmem with rfl | hmem
    · rw [get_foldl_set_of_ne fun e he heq => hfirst (mem_map.mpr ⟨e, he, heq⟩), JsMap.get_set_self]
    · exact ih hentries hmem

theorem get_indexById {entries : List SessionEntry}
    (hnodup : (entries.map (·.id)).Nodup) (hmem : entry ∈ entries) :
    (indexById entries).get entry.id = some entry :=
  get_foldl_set hnodup hmem

/-! ### Chains of parents -/

/-- The entries of a list are each other's parents, from a leaf up to a root. -/
inductive RootChain : List SessionEntry → Prop where
  | root {entry : SessionEntry} (h : entry.parentId = none) : RootChain [entry]
  | child {entry parent : SessionEntry} {chain : List SessionEntry}
      (h : entry.parentId = some parent.id) (rest : RootChain (parent :: chain)) :
      RootChain (entry :: parent :: chain)

theorem RootChain.suffix {pre chain : List SessionEntry} (h : RootChain (pre ++ chain))
    (hne : chain ≠ []) : RootChain chain := by
  induction pre with
  | nil => exact h
  | cons entry pre ih =>
    cases hrest : pre ++ chain with
    | nil => exact absurd (append_eq_nil_iff.mp hrest).2 hne
    | cons =>
      rw [cons_append, hrest] at h
      cases h with
      | child _ h => exact ih (hrest ▸ h)

variable {chain : List SessionEntry}

/-- The walk follows a chain of parents to its end. -/
theorem RootChain.ancestors {seen : List String} {n : ℕ} (h : RootChain (entry :: chain))
    (hget : ∀ e ∈ entry :: chain, e.id ≠ "" ∧ byId.get e.id = some e)
    (hnodup : ((entry :: chain).map (·.id)).Nodup) (hseen : ∀ e ∈ entry :: chain, e.id ∉ seen)
    (hn : chain.length + 2 ≤ n) : ancestors byId n seen (some entry) = entry :: chain := by
  induction chain generalizing entry seen n with
  | nil =>
    obtain ⟨n, rfl⟩ : ∃ m, n = m + 2 := ⟨n - 2, by simp at hn; omega⟩
    cases h with
    | root hroot =>
      rw [Journal.ancestors, if_neg (hseen entry mem_cons_self), parentOf, hroot]
      rfl
  | cons parent chain ih =>
    obtain ⟨n, rfl⟩ : ∃ m, n = m + 1 := ⟨n - 1, by simp at hn; omega⟩
    obtain ⟨hentry, hnodup'⟩ := nodup_cons.mp hnodup
    cases h with
    | child hparent hrest =>
      have hfound := hget parent (by simp)
      rw [Journal.ancestors, if_neg (hseen entry mem_cons_self), parentOf, hparent]
      simp only [hfound.1, if_false, hfound.2]
      rw [ih hrest (fun e he => hget e (mem_cons_of_mem _ he)) hnodup' (fun e he => ?_)
        (by simp at hn ⊢; omega)]
      refine fun hmem => ?_
      rcases mem_cons.mp hmem with heq | hmem
      · exact hentry (mem_map.mpr ⟨e, he, heq⟩)
      · exact hseen e (mem_cons_of_mem _ he) hmem

theorem length_le_of_get
    (hget : ∀ e ∈ chain, byId.get e.id = some e) (hnodup : (chain.map (·.id)).Nodup) :
    chain.length ≤ byId.length := by
  have hsub : chain ⊆ byId.values := fun e he => JsMap.mem_values_of_get (hget e he)
  have hlength : byId.values.length = byId.length := length_map ..
  rw [← hlength]
  exact (subperm_of_subset (List.Nodup.of_map _ hnodup) hsub).length_le

theorem RootChain.pathFrom (h : RootChain (entry :: chain))
    (hget : ∀ e ∈ entry :: chain, e.id ≠ "" ∧ byId.get e.id = some e)
    (hnodup : ((entry :: chain).map (·.id)).Nodup) :
    pathFrom byId (some entry) = (entry :: chain).reverse := by
  have hle := length_le_of_get (fun e he => (hget e he).2) hnodup
  rw [Journal.pathFrom, h.ancestors hget hnodup (by simp) (by simp at hle; omega)]

/-! ### Session trees -/

/-- The entries of a journal as a tree: every entry has an id of its own, and a parent among the
entries before it unless it is a root. -/
structure SessionTree where
  entries : List SessionEntry
  ids_nodup : (entries.map (·.id)).Nodup
  ids_ne : ∀ entry ∈ entries, entry.id ≠ ""
  parents : ∀ pre entry post, entries = pre ++ entry :: post → ∀ parentId ∈ entry.parentId,
    ∃ parent ∈ pre, parent.id = parentId

namespace SessionTree

/-- Every entry of a list whose parents come before their children has a chain of parents in it. -/
theorem exists_rootChain (entries : List SessionEntry) (hnodup : (entries.map (·.id)).Nodup)
    (hparents : ∀ pre entry post, entries = pre ++ entry :: post → ∀ parentId ∈ entry.parentId,
      ∃ parent ∈ pre, parent.id = parentId) :
    ∀ entry ∈ entries, ∃ chain, RootChain (entry :: chain) ∧
      (entry :: chain).Subperm entries := by
  induction entries using List.reverseRecOn with
  | nil => exact fun _ h => nomatch h
  | append_singleton entries last ih =>
    rw [map_append, nodup_append] at hnodup
    have ih' := ih hnodup.1 fun pre entry post h =>
      hparents pre entry (post ++ [last]) (by rw [h]; simp)
    intro entry hentry
    rcases mem_append.mp hentry with hentry | hentry
    · obtain ⟨chain, hchain, hsub⟩ := ih' entry hentry
      exact ⟨chain, hchain, hsub.trans (sublist_append_left ..).subperm⟩
    obtain rfl := mem_singleton.mp hentry
    cases hparent : entry.parentId with
    | none => exact ⟨[], .root hparent, (sublist_append_right ..).subperm⟩
    | some parentId =>
      obtain ⟨parent, hmem, rfl⟩ := hparents entries entry [] rfl parentId hparent
      obtain ⟨chain, hchain, hsub⟩ := ih' parent hmem
      refine ⟨parent :: chain, .child hparent hchain, ?_⟩
      have happend : (entry :: entries).Perm (entries ++ [entry]) :=
        (perm_append_singleton entry entries).symm
      exact ((subperm_cons entry).mpr hsub).trans happend.subperm

theorem exists_pathFrom (tree : SessionTree) (h : entry ∈ tree.entries) :
    ∃ chain, RootChain (entry :: chain) ∧ (∀ e ∈ entry :: chain, e ∈ tree.entries) ∧
      ((entry :: chain).map (·.id)).Nodup ∧
      pathFrom (indexById tree.entries) (some entry) = (entry :: chain).reverse := by
  obtain ⟨chain, hchain, hsub⟩ := exists_rootChain tree.entries tree.ids_nodup tree.parents entry h
  have hmem : ∀ e ∈ entry :: chain, e ∈ tree.entries := fun e he => hsub.subset he
  have hnodup : ((entry :: chain).map (·.id)).Nodup := by
    obtain ⟨l, hperm, hsublist⟩ := hsub
    exact (hperm.map _).nodup_iff.mp (tree.ids_nodup.sublist (hsublist.map _))
  exact ⟨chain, hchain, hmem, hnodup, hchain.pathFrom
    (fun e he => ⟨tree.ids_ne e (hmem e he), get_indexById tree.ids_nodup (hmem e he)⟩) hnodup⟩

end SessionTree

end Journal

end BreadboardTui
