import BreadboardTui.Archive.TarEntries

/-!
# Tar archives read back as written

The reader decodes names with `TextDecoder`, which takes a byte order mark off, and stops at a NUL
in a header; the writer knows of neither. Apart from such names, and from directories whose path
has exactly as many bytes as a path may have, an archive is read as what was written: the members
in order, each missing ancestor once, and the bytes of every file.
-/

namespace BreadboardTui.Tar

open List

open Utf8

/-- An entry: its path, and its bytes if it is a file. -/
abbrev Node : Type := Text × Option Bytes

/-- A member with its ancestors. -/
def nodesOf (member : Text × Bytes) : List Node :=
  match normalizeArchiveEntryPath member.1 with
  | none => []
  | some path =>
    (ancestors path).map (·, none) ++
      [(path, if isDirectoryName member.1 then none else some member.2)]

def insertNode (nodes : List Node) (node : Node) : List Node :=
  if node ∈ nodes then nodes else nodes ++ [node]

/-- What an archive should list: the members in order, each after its missing ancestors. -/
def listing (members : List (Text × Bytes)) : List Node :=
  (members.flatMap nodesOf).foldl insertNode []

/-- What an entry of the index says. -/
structure Reads (entry : ArchiveIndexEntry) (node : Node) : Prop where
  path_eq : entry.path = node.1
  isDirectory_eq : entry.isDirectory = node.2.isNone
  read : ∀ payload, node.2 = some payload → entry.read = .ok payload

/-- The name of an entry as it is written. -/
def writtenName (node : Node) : Text := writtenPath node.1 node.2.isNone

def nodeSize (node : Node) : ℕ := (node.2.getD []).length

/-- An archive and its entries stay within the limits. -/
structure WithinLimits (limits : ArchiveLimits) (nodes : List Node) (bytes : Bytes) : Prop where
  inMemory : bytes.length ≤ limits.maxInMemorySize
  entries : nodes.length ≤ limits.maxEntries
  paths : ∀ node ∈ nodes, (encode node.1).length ≤ limits.maxPathBytes
  files : ∀ node ∈ nodes, nodeSize node ≤ limits.maxMemberSize
  index : ∀ node ∈ nodes,
    (paxRecords (writtenName node) (nodeSize node)).length ≤ limits.maxIndexSize

/-! ### What is written -/

/-- The records of entries, numbered from `sequence` on. -/
def encodeNodes : ℕ → List Node → Except ArchiveError Bytes
  | _, [] => .ok []
  | sequence, node :: nodes => do
    let bytes ← tarEntry node.1 (node.2.getD []) node.2.isNone sequence
    let rest ← encodeNodes (sequence + 1) nodes
    .ok (bytes ++ rest)

theorem encodeNodes_append {nodes : List Node} {node : Node} {sequence : ℕ} {bytes record : Bytes}
    (h : encodeNodes sequence nodes = .ok bytes)
    (hrecord : tarEntry node.1 (node.2.getD []) node.2.isNone (sequence + nodes.length) =
      .ok record) : encodeNodes sequence (nodes ++ [node]) = .ok (bytes ++ record) := by
  induction nodes generalizing sequence bytes with
  | nil =>
    injection h with h
    rw [← h, nil_append, nil_append, encodeNodes]
    refine bind_eq_ok.mpr ⟨record, hrecord, ?_⟩
    rw [encodeNodes]
    change Except.ok (record ++ []) = _
    rw [append_nil]
  | cons first nodes ih =>
    rw [encodeNodes] at h
    obtain ⟨front, hfront, h⟩ := bind_eq_ok.mp h
    obtain ⟨back, hback, h⟩ := bind_eq_ok.mp h
    injection h with h
    rw [length_cons, add_comm nodes.length 1, ← add_assoc] at hrecord
    rw [cons_append, encodeNodes]
    refine bind_eq_ok.mpr ⟨front, hfront, bind_eq_ok.mpr ⟨_, ih hback hrecord, ?_⟩⟩
    rw [← h, append_assoc]

def kindOf (node : Node) : Kind := if node.2.isNone then .directory else .file

/-- The writer has written these entries. -/
structure Wrote (w : Writer) (nodes : List Node) : Prop where
  parts : encodeNodes 0 nodes = .ok w.parts
  kinds : w.kinds = nodes.map fun node => (node.1, kindOf node)
  sequence : w.sequence = nodes.length
  nodup : (nodes.map Prod.fst).Nodup
  normalized : ∀ node ∈ nodes, IsNormalized node.1

section Writing

variable {w w' : Writer} {nodes : List Node}

theorem Wrote.keys (h : Wrote w nodes) : w.kinds.map Prod.fst = nodes.map Prod.fst := by
  rw [h.kinds, map_map]
  rfl

variable {path : Text}

theorem Wrote.mem_of_get (h : Wrote w nodes) (hget : w.kinds.get path = some .directory) :
    (path, none) ∈ nodes := by
  rw [h.kinds] at hget
  clear h
  induction nodes with
  | nil => cases hget
  | cons node nodes ih =>
    rw [map_cons, JsMap.get_cons] at hget
    split at hget
    · next heq =>
      obtain ⟨nodePath, content⟩ := node
      cases content with
      | none =>
        rw [heq]
        exact mem_cons_self
      | some => cases hget
    · exact mem_cons_of_mem _ (ih hget)

theorem Wrote.notMem_of_get (h : Wrote w nodes) (hget : w.kinds.get path = none)
    (content : Option Bytes) : (path, content) ∉ nodes := by
  intro hmem
  have hkey : path ∈ w.kinds.map Prod.fst := by
    rw [h.keys]
    exact mem_map_of_mem hmem
  obtain ⟨kind, hkind⟩ := JsMap.get_of_mem_keys hkey
  rw [hget] at hkind
  cases hkind

theorem Wrote.append (h : Wrote w nodes) {node : Node} (hnormalized : IsNormalized node.1)
    (hget : w.kinds.get node.1 = none)
    (happend : appendTarEntry w node.1 (node.2.getD []) node.2.isNone = .ok w') :
    Wrote w' (insertNode nodes node) := by
  have hnot : node ∉ nodes := h.notMem_of_get hget node.2
  have hkey : node.1 ∉ w.kinds.map Prod.fst := by
    intro hmem
    obtain ⟨kind, hkind⟩ := JsMap.get_of_mem_keys hmem
    rw [hget] at hkind
    cases hkind
  obtain ⟨bytes, hbytes, happend⟩ := bind_eq_ok.mp happend
  injection happend with happend
  subst happend
  rw [h.sequence] at hbytes
  rw [insertNode, if_neg hnot]
  refine ⟨encodeNodes_append h.parts (by rwa [zero_add]), ?_, ?_, ?_, ?_⟩
  · dsimp only
    rw [JsMap.set_of_notMem hkey, h.kinds, map_append]
    rfl
  · dsimp only
    rw [h.sequence, length_append, length_singleton]
  · rw [map_append, nodup_append]
    refine ⟨h.nodup, nodup_singleton _, ?_⟩
    rintro p hp q hq rfl
    rw [h.keys] at hkey
    exact hkey (mem_singleton.mp hq ▸ hp)
  intro n hn
  rcases mem_append.mp hn with hn | hn
  · exact h.normalized n hn
  · rwa [mem_singleton.mp hn]

theorem insertNode_of_mem {node : Node} (h : node ∈ nodes) : insertNode nodes node = nodes :=
  if_pos h

theorem Wrote.addParent (h : Wrote w nodes) {parent : Text} (hnormalized : IsNormalized parent)
    (hadd : addParent w parent = .ok w') : Wrote w' (insertNode nodes (parent, none)) := by
  rw [Tar.addParent] at hadd
  split at hadd
  · cases hadd
  · next hget =>
    injection hadd with hadd
    rwa [← hadd, insertNode_of_mem (h.mem_of_get hget)]
  · next hget => exact h.append hnormalized hget hadd

theorem Wrote.addParents (h : Wrote w nodes) {parents : List Text}
    (hnormalized : ∀ parent ∈ parents, IsNormalized parent)
    (hadd : parents.foldlM Tar.addParent w = .ok w') :
    Wrote w' ((parents.map (·, none)).foldl insertNode nodes) := by
  induction parents generalizing w nodes with
  | nil =>
    injection hadd with hadd
    rwa [← hadd]
  | cons parent parents ih =>
    rw [foldlM_cons] at hadd
    obtain ⟨next, hnext, hadd⟩ := bind_eq_ok.mp hadd
    exact ih (h.addParent (hnormalized parent mem_cons_self) hnext)
      (fun p hp => hnormalized p (mem_cons_of_mem _ hp)) hadd

theorem Wrote.addMember (h : Wrote w nodes) {member : Text × Bytes}
    (hadd : addMember w member = .ok w') : Wrote w' ((nodesOf member).foldl insertNode nodes) := by
  rw [Tar.addMember] at hadd
  split at hadd
  · cases hadd
  next hpath =>
  have hnormalized := isNormalized_of_normalize hpath
  split at hadd
  · cases hadd
  split at hadd
  · cases hadd
  next hempty =>
  obtain ⟨next, hnext, hadd⟩ := bind_eq_ok.mp hadd
  have hparents := h.addParents
    (fun parent hparent => isNormalized_of_mem_ancestors hnormalized hparent) hnext
  rw [nodesOf, hpath]
  rw [List.foldl_append, foldl_cons, foldl_nil]
  split at hadd
  · next hget =>
    split at hadd
    · next hdirectory =>
      injection hadd with hadd
      rw [← hadd, if_pos hdirectory.1]
      rw [hdirectory.2] at hget
      rwa [insertNode_of_mem (hparents.mem_of_get hget)]
    · cases hadd
  next hget =>
  refine hparents.append hnormalized hget ?_
  -- a directory has no payload
  cases hdirectory : isDirectoryName member.1 with
  | true =>
    have hnil : member.2 = [] := by
      by_contra hne
      exact hempty ⟨hdirectory, fun hzero => hne (length_eq_zero_iff.mp hzero)⟩
    rw [hdirectory, hnil] at hadd
    exact hadd
  | false =>
    rw [hdirectory] at hadd
    exact hadd

theorem Wrote.addMembers (h : Wrote w nodes) {members : List (Text × Bytes)}
    (hadd : members.foldlM Tar.addMember w = .ok w') :
    Wrote w' ((members.flatMap nodesOf).foldl insertNode nodes) := by
  induction members generalizing w nodes with
  | nil =>
    injection hadd with hadd
    rwa [← hadd]
  | cons member members ih =>
    rw [foldlM_cons] at hadd
    obtain ⟨next, hnext, hadd⟩ := bind_eq_ok.mp hadd
    rw [flatMap_cons, List.foldl_append]
    exact ih (h.addMember hnext) hadd

end Writing

variable {members : List (Text × Bytes)}

theorem encodeTar_eq_ok {bytes : Bytes} (h : encodeTar members = .ok bytes) :
    ∃ w, Wrote w (listing members) ∧ bytes = w.parts ++ zeros (blockSize * 2) ∧
      bytes.length ≤ maxSafeInteger := by
  obtain ⟨w, hw, h⟩ := bind_eq_ok.mp h
  have hstart : Wrote {} [] := by
    refine ⟨rfl, rfl, rfl, nodup_nil, fun node hnode => ?_⟩
    cases hnode
  refine ⟨w, hstart.addMembers hw, ?_⟩
  rw [concatBytes] at h
  split at h
  · cases h
  next hsafe =>
  injection h with h
  rw [← h]
  exact ⟨rfl, Nat.le_of_not_lt hsafe⟩

/-! ### What is read -/

/-- Every entry is under its path. -/
def Keyed (entries : EntryMap) : Prop := ∀ entry ∈ entries, entry.2.path = entry.1

theorem keys_set_sublist (entries : EntryMap) (path : Text) (entry : ArchiveIndexEntry) :
    ((entries.set path entry).map Prod.fst).Sublist (entries.map Prod.fst ++ [path]) := by
  by_cases hmem : path ∈ entries.map Prod.fst
  · rw [JsMap.keys_set_of_mem hmem]
    exact sublist_append_left _ _
  rw [JsMap.set_of_notMem hmem, map_append]
  exact List.Sublist.refl _

theorem Keyed.set {entries : EntryMap} (h : Keyed entries) {path : Text}
    {entry : ArchiveIndexEntry} (hpath : entry.path = path) : Keyed (entries.set path entry) := by
  intro e he
  rcases JsMap.mem_set he with rfl | he
  · exact hpath
  · exact h e he

section Index

variable {R : TarReader} {limits : ArchiveLimits} {entries : EntryMap}
  {entry : ArchiveIndexEntry} {s : Scan} {node : Node}

theorem addEntry_new (hpath : entry.path ∉ entries.map Prod.fst)
    (hcount : entries.length + 1 ≤ limits.maxEntries) :
    addEntry limits { entries } entry none =
      .ok { entries := entries ++ [(entry.path, entry)] } := by
  have hget : entries.get entry.path = none :=
    JsMap.get_eq_none_of_forall_ne fun e he heq => hpath (heq ▸ mem_map_of_mem he)
  have hlength : ¬ limits.maxEntries < (entries ++ [(entry.path, entry)]).length := by
    rw [length_append, length_singleton]
    omega
  rw [addEntry, upsertArchiveEntry, hget]
  dsimp only
  rw [JsMap.set_of_notMem hpath, if_neg hlength]
  split <;> rfl

/-- An entry is added at the end, or in the place of one with its path, or dropped. -/
theorem addEntry_eq_ok (hkeyed : Keyed entries) (h : addEntry limits { entries } entry none = .ok s) :
    ∃ entries', s = { entries := entries' } ∧ Keyed entries' ∧
      (entries'.map Prod.fst).Sublist (entries.map Prod.fst ++ [entry.path]) := by
  have hset : ∀ stored : ArchiveIndexEntry, stored.path = entry.path →
      Keyed (entries.set entry.path stored) ∧
        ((entries.set entry.path stored).map Prod.fst).Sublist
          (entries.map Prod.fst ++ [entry.path]) :=
    fun stored hstored => ⟨hkeyed.set hstored, keys_set_sublist ..⟩
  have hindexed : ∀ entries', upsertArchiveEntry entries entry = some entries' →
      Keyed entries' ∧ (entries'.map Prod.fst).Sublist (entries.map Prod.fst ++ [entry.path]) := by
    intro entries' hupsert
    rw [upsertArchiveEntry] at hupsert
    split at hupsert
    · cases hupsert
      exact hset entry rfl
    split at hupsert
    · cases hupsert
      exact hset entry rfl
    split at hupsert
    · cases hupsert
    · cases hupsert
      exact hset _ rfl
  rw [addEntry] at h
  split at h
  · injection h with h
    exact ⟨entries, h.symm, hkeyed, sublist_append_left _ _⟩
  next entries' hupsert =>
  -- there are no links
  have hlinks : (if JsMap.has entries entry.path then
      JsMap.delete ([] : JsMap Text PendingTarLink) entry.path else []) = [] := by
    split <;> rfl
  dsimp only at h
  rw [hlinks] at h
  split at h
  · cases h
  injection h with h
  exact ⟨entries', h.symm, hindexed entries' hupsert⟩

/-- The entry that the reader makes of a name. -/
def readPath (R : TarReader) (node : Node) : Option Text :=
  normalizeArchiveEntryPath (readName R.invalid (writtenName node))

variable {after : Bytes}

theorem indexEntry_eq_ok (hkeyed : Keyed entries)
    (h : indexEntry R limits entries node.1 node.2.isNone (nodeSize node) after = .ok s) :
    ∃ entries', s = { entries := entries' } ∧ Keyed entries' ∧
      (entries'.map Prod.fst).Sublist (entries.map Prod.fst ++ (readPath R node).toList) := by
  rw [indexEntry] at h
  change (match readPath R node with
    | none => _
    | some path => _) = _ at h
  split at h
  · next hnone =>
    injection h with h
    rw [hnone]
    exact ⟨entries, h.symm, hkeyed, by rw [Option.toList_none, append_nil]⟩
  next hsome =>
  rw [hsome]
  split at h
  · cases h
  split at h
  · exact addEntry_eq_ok hkeyed h
  split at h
  · cases h
  · exact addEntry_eq_ok hkeyed h

/-- An entry whose name is kept is added as it was written. -/
theorem indexEntry_of_keeps (hkeeps : KeepsName limits (writtenName node))
    (hnormalized : IsNormalized node.1) (hsafe : nodeSize node ≤ maxSafeInteger)
    (hpath : (encode node.1).length ≤ limits.maxPathBytes)
    (hfile : nodeSize node ≤ limits.maxMemberSize) (hnew : node.1 ∉ entries.map Prod.fst)
    (hcount : entries.length + 1 ≤ limits.maxEntries)
    (hafter : ∃ rest, after = node.2.getD [] ++ rest) : ∃ entry, Reads entry node ∧
      indexEntry R limits entries node.1 node.2.isNone (nodeSize node) after =
        .ok { entries := entries ++ [(node.1, entry)] } := by
  have hname : readName R.invalid (writtenPath node.1 node.2.isNone) =
      writtenPath node.1 node.2.isNone := readName_of_keeps R.invalid hkeeps
  have hlong : ¬ limits.maxPathBytes < (encode node.1).length := not_lt.mpr hpath
  rw [indexEntry, hname, normalize_of_isNormalized hnormalized]
  obtain ⟨path, content⟩ := node
  cases content with
  | none =>
    refine ⟨⟨path, true, 0, none, some (entryMode true), none⟩, ⟨rfl, rfl, fun payload h => ?_⟩, ?_⟩
    · cases h
    dsimp only
    rw [if_neg hlong, if_pos (.inl rfl)]
    exact addEntry_new hnew hcount
  | some payload =>
    obtain ⟨rest, rfl⟩ := hafter
    refine ⟨⟨path, false, payload.length, none, some (entryMode false),
      some (.member ⟨payload ++ rest, false⟩)⟩, ⟨rfl, rfl, fun p h => ?_⟩, ?_⟩
    · have hlength : ¬ (payload ++ rest).length < payload.length := by
        rw [length_append]
        omega
      cases h
      change MemberSource.read ⟨payload ++ rest, false⟩ payload.length = _
      rw [MemberSource.read, if_neg Bool.false_ne_true, if_neg hlength, take_left' rfl]
    have hlast : ¬ (Option.isNone (some payload) = true ∨
        (writtenPath path (Option.isNone (some payload))).getLast? = some '/') := by
      rintro (hnone | hlast)
      · cases hnone
      · exact getLast_of_isNormalized hnormalized hlast
    dsimp only
    rw [if_neg hlong, if_neg hlast, if_neg (not_or.mpr ⟨not_lt.mpr hsafe, not_lt.mpr hfile⟩)]
    exact addEntry_new hnew hcount

theorem pathFits_of_keeps {path : Text} (h : KeepsName limits path) : PaxPathFits limits path := by
  intro hsplit
  rw [KeepsName, hsplit] at h
  exact h.2

theorem readLoop_zeros : readLoop R limits s (zeros (blockSize * 2)) = .ok s := by
  have hlength : ¬ (zeros (blockSize * 2)).length < blockSize := by
    rw [zeros, length_replicate]
    decide
  have hzero : isZeroBlock ((zeros (blockSize * 2)).take blockSize) = true := by
    rw [isZeroBlock, all_eq_true]
    intro byte hbyte
    exact decide_eq_true (eq_of_mem_replicate (mem_of_mem_take hbyte))
  rw [readLoop, if_neg hlength, if_pos hzero]

theorem entrySize_node (node : Node) :
    entrySize (node.2.getD []) node.2.isNone = nodeSize node := by
  obtain ⟨path, content⟩ := node
  cases content <;> rfl

variable {sequence : ℕ}

theorem readLoop_encodeNodes (entries : EntryMap) {nodes : List Node} {bytes : Bytes}
    (h : encodeNodes sequence (node :: nodes) = .ok bytes)
    (hindex : (paxRecords (writtenName node) (nodeSize node)).length ≤ limits.maxIndexSize) :
    ∃ rest after, encodeNodes (sequence + 1) nodes = .ok rest ∧
      (∃ back, after = node.2.getD [] ++ back) ∧ nodeSize node ≤ maxSafeInteger ∧
      (PaxPathFits limits (writtenName node) →
        readLoop R limits { entries } (bytes ++ zeros (blockSize * 2)) =
          indexEntry R limits entries node.1 node.2.isNone (nodeSize node) after >>= fun s =>
            readLoop R limits s (rest ++ zeros (blockSize * 2))) ∧
      (¬ PaxPathFits limits (writtenName node) →
        readLoop R limits { entries } (bytes ++ zeros (blockSize * 2)) =
          .error (.pathTooLong "PAX path")) := by
  rw [encodeNodes] at h
  obtain ⟨record, hrecord, h⟩ := bind_eq_ok.mp h
  obtain ⟨rest, hrest, h⟩ := bind_eq_ok.mp h
  injection h with h
  obtain ⟨_, _, _, _, -, -, -, hpadded, -⟩ := tarEntry_eq_ok hrecord
  rw [entrySize_node] at hpadded
  have hindex' : (paxRecords (writtenPath node.1 node.2.isNone)
      (entrySize (node.2.getD []) node.2.isNone)).length ≤ limits.maxIndexSize := by
    rw [entrySize_node]
    exact hindex
  obtain ⟨data, ⟨count, hdata⟩, hread⟩ := readLoop_tarEntry (R := R) hrecord hindex'
  obtain ⟨hfits, hnot⟩ := hread entries (rest ++ zeros (blockSize * 2))
  rw [entrySize_node, ← append_assoc record, h] at hfits
  rw [← append_assoc record, h] at hnot
  have hpayload : (if node.2.isNone then [] else node.2.getD []) = node.2.getD [] := by
    cases node.2 <;> rfl
  refine ⟨rest, data ++ (rest ++ zeros (blockSize * 2)), hrest, ?_,
    (paddedSize_eq_ok hpadded).1.trans (paddedSize_eq_ok hpadded).2, hfits, hnot⟩
  rw [hdata, hpayload]
  exact ⟨_, append_assoc ..⟩

theorem readLoop_of_keeps {nodes : List Node} {bytes : Bytes}
    (h : encodeNodes sequence nodes = .ok bytes)
    (hkeeps : ∀ node ∈ nodes, KeepsName limits (writtenName node))
    (hnormalized : ∀ node ∈ nodes, IsNormalized node.1)
    (hpaths : ∀ node ∈ nodes, (encode node.1).length ≤ limits.maxPathBytes)
    (hfiles : ∀ node ∈ nodes, nodeSize node ≤ limits.maxMemberSize)
    (hindex : ∀ node ∈ nodes,
      (paxRecords (writtenName node) (nodeSize node)).length ≤ limits.maxIndexSize)
    (hnodup : (entries.map Prod.fst ++ nodes.map Prod.fst).Nodup)
    (hcount : entries.length + nodes.length ≤ limits.maxEntries) :
    ∃ new : EntryMap, List.Forall₂ Reads new.values nodes ∧
      readLoop R limits { entries } (bytes ++ zeros (blockSize * 2)) =
        .ok { entries := entries ++ new } := by
  induction nodes generalizing entries sequence bytes with
  | nil =>
    injection h with h
    refine ⟨[], .nil, ?_⟩
    rw [← h, nil_append, append_nil]
    exact readLoop_zeros
  | cons node nodes ih =>
    obtain ⟨rest, after, hrest, hafter, hsafe, hfits, -⟩ :=
      readLoop_encodeNodes (R := R) entries h (hindex node mem_cons_self)
    have hkeep := hkeeps node mem_cons_self
    rw [map_cons] at hnodup
    have hnew : node.1 ∉ entries.map Prod.fst := fun hmem =>
      (nodup_append.mp hnodup).2.2 _ hmem _ mem_cons_self rfl
    rw [length_cons] at hcount
    obtain ⟨entry, hreads, hentry⟩ := indexEntry_of_keeps (R := R) hkeep
      (hnormalized node mem_cons_self) hsafe (hpaths node mem_cons_self)
      (hfiles node mem_cons_self) hnew (by omega) hafter
    have hmem {p : Node → Prop} (hall : ∀ n ∈ node :: nodes, p n) : ∀ n ∈ nodes, p n :=
      fun n hn => hall n (mem_cons_of_mem _ hn)
    have hnodup' : ((entries ++ [(node.1, entry)]).map Prod.fst ++ nodes.map Prod.fst).Nodup := by
      rw [map_append, append_assoc]
      exact hnodup
    have hcount' : (entries ++ [(node.1, entry)]).length + nodes.length ≤ limits.maxEntries := by
      rw [length_append, length_singleton]
      omega
    obtain ⟨new, hnewReads, hloop⟩ := ih hrest (hmem hkeeps) (hmem hnormalized) (hmem hpaths)
      (hmem hfiles) (hmem hindex) hnodup' hcount'
    refine ⟨(node.1, entry) :: new, .cons hreads hnewReads, ?_⟩
    rw [hfits (pathFits_of_keeps hkeep), hentry]
    change readLoop R limits { entries := entries ++ [(node.1, entry)] } _ = _
    rw [hloop, append_assoc]
    rfl

/-- Whatever is read, the index has at most one path for each entry, and no path was too long. -/
theorem readLoop_eq_ok {nodes : List Node} {bytes : Bytes}
    (h : encodeNodes sequence nodes = .ok bytes)
    (hindex : ∀ node ∈ nodes,
      (paxRecords (writtenName node) (nodeSize node)).length ≤ limits.maxIndexSize)
    (hkeyed : Keyed entries)
    (hread : readLoop R limits { entries } (bytes ++ zeros (blockSize * 2)) = .ok s) :
    ∃ entries', s = { entries := entries' } ∧ Keyed entries' ∧
      (∀ node ∈ nodes, PaxPathFits limits (writtenName node)) ∧
      (entries'.map Prod.fst).Sublist (entries.map Prod.fst ++ nodes.filterMap (readPath R)) := by
  induction nodes generalizing entries sequence bytes with
  | nil =>
    injection h with h
    rw [← h, nil_append, readLoop_zeros] at hread
    injection hread with hread
    refine ⟨entries, hread.symm, hkeyed, fun node hnode => ?_, ?_⟩
    · cases hnode
    · rw [filterMap_nil, append_nil]
  | cons node nodes ih =>
    obtain ⟨rest, after, hrest, -, -, hfits, hnot⟩ :=
      readLoop_encodeNodes (R := R) entries h (hindex node mem_cons_self)
    by_cases hfit : PaxPathFits limits (writtenName node)
    · rw [hfits hfit] at hread
      obtain ⟨next, hnext, hread⟩ := bind_eq_ok.mp hread
      obtain ⟨nextEntries, rfl, hnextKeyed, hnextKeys⟩ := indexEntry_eq_ok hkeyed hnext
      obtain ⟨entries', hs, hkeyed', hall, hkeys⟩ := ih hrest
        (fun n hn => hindex n (mem_cons_of_mem _ hn)) hnextKeyed hread
      refine ⟨entries', hs, hkeyed', fun n hn => ?_, ?_⟩
      · rcases mem_cons.mp hn with rfl | hn
        · exact hfit
        · exact hall n hn
      refine hkeys.trans ?_
      have hpaths : (node :: nodes).filterMap (readPath R) =
          (readPath R node).toList ++ nodes.filterMap (readPath R) := by
        rw [filterMap_cons]
        cases readPath R node <;> rfl
      rw [hpaths, ← append_assoc]
      exact hnextKeys.append_right _
    rw [hnot hfit] at hread
    cases hread

end Index

/-! ### The round trip -/

/-- What is read is what was written. -/
def ReadsBack (R : TarReader) (limits : ArchiveLimits) (bytes : Bytes) (nodes : List Node) : Prop :=
  ∃ entries, readTarEntriesFromBuffer R limits bytes = .ok entries ∧
    List.Forall₂ Reads entries nodes

section RoundTrip

variable {R : TarReader} {limits : ArchiveLimits} {w : Writer} {nodes : List Node} {bytes : Bytes}

theorem reads_of_keeps (hw : Wrote w nodes) (hbytes : bytes = w.parts ++ zeros (blockSize * 2))
    (hsafe : bytes.length ≤ maxSafeInteger) (hlimits : WithinLimits limits nodes bytes)
    (hkeeps : ∀ node ∈ nodes, KeepsName limits (writtenName node)) :
    ReadsBack R limits bytes nodes := by
  have hnodup : (([] : EntryMap).map Prod.fst ++ nodes.map Prod.fst).Nodup := hw.nodup
  have hcount : ([] : EntryMap).length + nodes.length ≤ limits.maxEntries := by
    rw [length_nil, zero_add]
    exact hlimits.entries
  obtain ⟨new, hreads, hloop⟩ := readLoop_of_keeps (R := R) hw.parts hkeeps hw.normalized
    hlimits.paths hlimits.files hlimits.index hnodup hcount
  have hmemory := hlimits.inMemory
  refine ⟨new.values, ?_, hreads⟩
  rw [← hbytes] at hloop
  rw [readTarEntriesFromBuffer, if_neg (by omega)]
  rw [hloop]
  rfl

theorem paths_of_reads {entries : List ArchiveIndexEntry} (h : List.Forall₂ Reads entries nodes) :
    entries.map ArchiveIndexEntry.path = nodes.map Prod.fst := by
  induction h with
  | nil => rfl
  | cons hreads _ ih => rw [map_cons, map_cons, hreads.path_eq, ih]

theorem keys_of_keyed {entries : EntryMap} (h : Keyed entries) :
    entries.map Prod.fst = entries.values.map ArchiveIndexEntry.path := by
  rw [JsMap.values, map_map]
  exact map_congr_left fun entry hentry => (h entry hentry).symm

theorem keeps_of_reads (hw : Wrote w nodes) (hbytes : bytes = w.parts ++ zeros (blockSize * 2))
    (hindex : ∀ node ∈ nodes,
      (paxRecords (writtenName node) (nodeSize node)).length ≤ limits.maxIndexSize)
    (h : ReadsBack R limits bytes nodes) :
    ∀ node ∈ nodes, KeepsName limits (writtenName node) := by
  obtain ⟨entries, hread, hreads⟩ := h
  rw [readTarEntriesFromBuffer] at hread
  split at hread
  · cases hread
  obtain ⟨s, hloop, hread⟩ := bind_eq_ok.mp hread
  rw [hbytes] at hloop
  have hstart : Keyed [] := fun entry hentry => by cases hentry
  obtain ⟨index, rfl, hkeyed, hfits, hkeys⟩ := readLoop_eq_ok (R := R) hw.parts hindex hstart hloop
  rw [if_pos rfl] at hread
  injection hread with hread
  -- as many paths as entries, so every entry has its own
  rw [keys_of_keyed hkeyed, hread, paths_of_reads hreads, map_nil, nil_append] at hkeys
  have hlength := length_filterMap_le (readPath R) nodes
  have hpaths := hkeys.eq_of_length_le (by rwa [length_map])
  intro node hnode
  have hpath := filterMap_eq_map_iff_forall_eq_some.mp hpaths.symm node hnode
  by_contra hnot
  obtain ⟨c, hc, hlost⟩ := count_readName_lt R.invalid hnot (hfits node hnode)
  have hle := count_normalize_le hc hpath
  have hwritten : (writtenName node).count c = node.1.count c := by
    rw [writtenName, writtenPath]
    split
    · rw [count_append, count_cons_of_ne (Ne.symm hc)]
      rfl
    · rfl
  omega

end RoundTrip

/-- An archive within the limits is read as the members that were written, with their missing
ancestors, exactly if the name of each is kept: in a header it has no NUL, and neither of its two
fields starts with a byte order mark; in a PAX record it does not start with one, and is, with the
separator of a directory, no longer than a path may be. -/
theorem tar_roundTrip (R : TarReader) (limits : ArchiveLimits) (members : List (Text × Bytes))
    (bytes : Bytes) (h : encodeTar members = .ok bytes)
    (hlimits : WithinLimits limits (listing members) bytes) :
    ReadsBack R limits bytes (listing members) ↔
      ∀ node ∈ listing members, KeepsName limits (writtenName node) := by
  obtain ⟨w, hw, hbytes, hsafe⟩ := encodeTar_eq_ok h
  exact ⟨keeps_of_reads hw hbytes hlimits.index, reads_of_keeps hw hbytes hsafe hlimits⟩

instance (limits : ArchiveLimits) (path : Text) : Decidable (KeepsName limits path) :=
  match hsplit : splitUstarPath (encode path) with
  | some (name, namePrefix) =>
    decidable_of_iff
      (0 ∉ encode path ∧ startsWithMark name = false ∧ startsWithMark namePrefix = false)
      (by rw [KeepsName, hsplit])
  | none =>
    decidable_of_iff
      (startsWithMark (encode path) = false ∧ (encode path).length ≤ limits.maxPathBytes)
      (by rw [KeepsName, hsplit])

/-- A reader that knows no links. -/
def plainReader : TarReader where
  invalid _ := []
  applyOldGnuNameRecords _ s := .ok s
  linkTarget _ _ _ := .ok none
  resolvePendingLinks s := .ok s.entries

def wideLimits : ArchiveLimits := ⟨1000000, maxSafeInteger, 64 * 1024 * 1024, 64 * 1024 * 1024, 4096⟩

/-- A file in a directory, and a directory. -/
def smallMembers : List (Text × Bytes) :=
  [("src/a.txt".toList, [104, 105]), ("docs/".toList, [])]

theorem withinLimits_of_all {bytes : Bytes} (h : encodeTar members = .ok bytes)
    (hentries : (listing members).length ≤ wideLimits.maxEntries)
    (hall : ∀ node ∈ listing members, (encode node.1).length ≤ wideLimits.maxPathBytes ∧
      nodeSize node ≤ wideLimits.maxMemberSize ∧
      (paxRecords (writtenName node) (nodeSize node)).length ≤ wideLimits.maxIndexSize) :
    WithinLimits wideLimits (listing members) bytes := by
  obtain ⟨-, -, -, hsafe⟩ := encodeTar_eq_ok h
  exact ⟨hsafe, hentries, fun node hnode => (hall node hnode).1,
    fun node hnode => (hall node hnode).2.1, fun node hnode => (hall node hnode).2.2⟩

theorem eq_ok_of_isOk {ε α : Type} {x : Except ε α} (h : x.isOk = true) : ∃ a, x = .ok a := by
  cases x with
  | error => cases h
  | ok a => exact ⟨a, rfl⟩

theorem tar_roundTrip_smallMembers : ∃ bytes, encodeTar smallMembers = .ok bytes ∧
      listing smallMembers = [("src".toList, none), ("src/a.txt".toList, some [104, 105]),
        ("docs".toList, none)] ∧
      ReadsBack plainReader wideLimits bytes (listing smallMembers) := by
  obtain ⟨bytes, h⟩ := eq_ok_of_isOk (x := encodeTar smallMembers) (by decide +kernel)
  have hlimits := withinLimits_of_all h (by decide +kernel) (by decide +kernel)
  refine ⟨bytes, h, by decide +kernel, ?_⟩
  exact (tar_roundTrip plainReader wideLimits smallMembers bytes h hlimits).mpr
    (by decide +kernel)

/-- A file whose name has a NUL. -/
def nulMembers : List (Text × Bytes) := [("a\x00b".toList, [104])]

theorem not_readsBack_nulMembers :
    ¬ ∀ (R : TarReader) (limits : ArchiveLimits) (members : List (Text × Bytes)) (bytes : Bytes),
      encodeTar members = .ok bytes → WithinLimits limits (listing members) bytes →
        ReadsBack R limits bytes (listing members) := by
  intro hall
  obtain ⟨bytes, h⟩ := eq_ok_of_isOk (x := encodeTar nulMembers) (by decide +kernel)
  have hlimits := withinLimits_of_all h (by decide +kernel) (by decide +kernel)
  obtain ⟨w, hw, hbytes, -⟩ := encodeTar_eq_ok h
  have hkeeps := keeps_of_reads hw hbytes hlimits.index
    (hall plainReader wideLimits nulMembers bytes h hlimits)
  revert hkeeps
  decide +kernel

end BreadboardTui.Tar
