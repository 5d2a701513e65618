import Pequin.Storage.Bits
import Pequin.Storage.IndexTree

/-!
# Compressed index trees

The nodes of a compressed tree are entries of a file and refer to their children by position. The
hashes of the nodes are at the same positions of a second file. Several trees are built one after
the other, each behind the entries that the files have.

The nodes of a subtree are placed behind the existing entries, each range at its own place. The
nodes of the merge are placed as if there were only the null entry. So the entries are right if
there is no other one, and otherwise the last node of the merge leaves a hole.
-/

namespace Pequin.CompressedIndex

open AvlTree Avl PairMerge IndexTree Storage

variable {K V H : Type}

/-- The entries of a file that were written. -/
abbrev File (α : Type) := ℕ → Option α

/-- `index.db` and `hash.db` -/
structure IndexFiles (K H : Type) where
  index : File (CompressedTreeNode K)
  hash : File H

def dumpArray {α : Type} (file : File α) (offset : ℕ) (array : List α) : File α := fun i =>
  if offset ≤ i ∧ i < offset + array.length then array[i - offset]? else file i

def compressedNode (key : K) (offset left right hl hr : ℕ) : CompressedTreeNode K :=
  { left, right, key, numValues := 1, values := Vector.replicate _ offset
    height := max hl hr + 1, heightLeft := hl, heightRight := hr }

structure Buffers (K H : Type) where
  nodes : List (CompressedTreeNode K)
  hashes : List H
  indexOffset : ℕ

/-- `build_compressed_subtree`: the root, the height, and the buffers. -/
def buildCompressedSubtree (N : NodeHash K V H) (kvPairs : List (KeyValuePair K V)) (left right : ℤ)
    (bufs : Buffers K H) : Option (H × ℕ × Buffers K H) :=
  if right < left then some (N.null, 0, bufs)
  else do
    let mid := left + (right - left) / 2
    let (hashLeft, hl, bufs) ← buildCompressedSubtree N kvPairs left (mid - 1) bufs
    let indexLeft := if hl ≠ 0 then uint32 (bufs.indexOffset - 1) else 0
    let (hashRight, hr, bufs) ← buildCompressedSubtree N kvPairs (mid + 1) right bufs
    let indexRight := if hr ≠ 0 then uint32 (bufs.indexOffset - 1) else 0
    let pair ← kvPairs[mid.toNat]?
    let node := pairNode pair hashLeft hashRight hl hr
    let cNode := compressedNode pair.key pair.offset indexLeft indexRight hl hr
    some (N.hash node, node.height,
      ⟨bufs.nodes ++ [cNode], bufs.hashes ++ [N.hash node], bufs.indexOffset + 1⟩)
termination_by (right + 1 - left).toNat

def buildOneCompressedSubtreeBottomUp (N : NodeHash K V H) (existingIndexEntries : ℕ)
    (pairs : List (KeyValuePair K V)) (s : List (SubtreeInfo H) × IndexFiles K H) (subtreeId : ℕ) :
    Option (List (SubtreeInfo H) × IndexFiles K H) := do
  let info ← s.1[subtreeId]?
  let indexOffset := (info.left + existingIndexEntries).toNat
  let subtreeSize := info.right - info.left + 1
  let kvPairs ← loadArray pairs info.left.toNat subtreeSize.toNat
  let (root, height, bufs) ←
    buildCompressedSubtree N kvPairs 0 (subtreeSize - 1) ⟨[], [], indexOffset⟩
  let info := { info with root, height, rootIndex := uint32 (bufs.indexOffset - 1) }
  some (s.1.set subtreeId info,
    ⟨dumpArray s.2.index indexOffset bufs.nodes, dumpArray s.2.hash indexOffset bufs.hashes⟩)

/-- The body of the loop in `merge_compressed_trees`. -/
def mergeCompressedPair (N : NodeHash K V H) (pairs : List (KeyValuePair K V)) (x y : SubtreeInfo H)
    (files : IndexFiles K H) : Option (SubtreeInfo H × IndexFiles K H) := do
  let mid := x.right + 1
  let pair ← pairs[mid.toNat]?
  let node := pairNode pair x.root y.root x.height y.height
  let cNode := compressedNode pair.key pair.offset x.rootIndex y.rootIndex x.height y.height
  let rootIndex := uint32 (mid + 1).toNat
  some (⟨x.left, y.right, node.height, N.hash node, rootIndex⟩,
    ⟨dumpArray files.index rootIndex [cNode], dumpArray files.hash rootIndex [N.hash node]⟩)

/-- `merge_compressed_trees`: the entry of the whole tree, and the node that is read at its
position. -/
def mergeCompressedTrees (N : NodeHash K V H) (pairs : List (KeyValuePair K V))
    (s : List (SubtreeInfo H) × IndexFiles K H) :
    Option (SubtreeInfo H × CompressedTreeNode K × IndexFiles K H) := do
  let (subtrees, files) ← mergeLevels (mergeCompressedPair N pairs) (s.1.length / 2) s
  let top ← subtrees.head?
  let root ← files.index top.rootIndex
  some (top, root, files)

def buildCompressedTreeBottomUp (N : NodeHash K V H) (junk : ℕ → SubtreeInfo H)
    (existingIndexEntries : ℕ) (pairs : List (KeyValuePair K V)) (maxDepth : ℕ)
      (files : IndexFiles K H) :
    Option (SubtreeInfo H × CompressedTreeNode K × IndexFiles K H) := do
  let info := partitionTreeToFile junk pairs.length maxDepth
  let s ← (List.range info.length).foldlM
    (buildOneCompressedSubtreeBottomUp N existingIndexEntries pairs) (info, files)
  mergeCompressedTrees N pairs s

/-! ## Files -/

section
variable {α : Type} {file : File α} {offset i : ℕ} {array array' : List α}

/-- The file has the array at an offset. -/
def HasAt (file : File α) (offset : ℕ) (array : List α) : Prop :=
  ∀ i < array.length, file (offset + i) = array[i]?

theorem hasAt_append : HasAt file offset (array ++ array') ↔
    HasAt file offset array ∧ HasAt file (offset + array.length) array' := by
  refine ⟨fun h => ⟨fun i hi => ?_, fun i hi => ?_⟩, fun ⟨h, h'⟩ i hi => ?_⟩
  · rw [h i (by rw [List.length_append]; omega), List.getElem?_append_left hi]
  · rw [Nat.add_assoc, h _ (by rw [List.length_append]; omega), List.getElem?_append_right
      (by omega), Nat.add_sub_cancel_left]
  · rw [List.length_append] at hi
    rcases Nat.lt_or_ge i array.length with hlt | hge
    · rw [h i hlt, List.getElem?_append_left hlt]
    · rw [List.getElem?_append_right hge, ← h' _ (by omega)]
      congr 1
      omega

theorem hasAt_dumpArray (file : File α) (offset : ℕ) (array : List α) :
    HasAt (dumpArray file offset array) offset array := by
  intro i hi
  rw [dumpArray, if_pos (by omega), Nat.add_sub_cancel_left]

theorem dumpArray_of_outside (h : i < offset ∨ offset + array.length ≤ i) :
    dumpArray file offset array i = file i := by
  rw [dumpArray, if_neg (by omega)]

theorem isSome_dumpArray : (dumpArray file offset array i).isSome ↔
    offset ≤ i ∧ i < offset + array.length ∨ (file i).isSome := by
  rw [dumpArray]
  split_ifs with h
  · rw [List.getElem?_eq_getElem (by omega)]
    exact ⟨fun _ => .inl h, fun _ => rfl⟩
  · exact ⟨.inr, fun h' => h'.resolve_left h⟩

end

/-! ## Subtrees -/

def entryOf (pair : KeyValuePair K V) : K × V × ℕ := (pair.key, pair.value, pair.offset)

def segment (pairs : List (KeyValuePair K V)) (a n : ℕ) : List (K × V × ℕ) :=
  ((pairs.drop a).take n).map entryOf

variable {pairs : List (KeyValuePair K V)}

theorem length_segment {a n : ℕ} (h : a + n ≤ pairs.length) : (segment pairs a n).length = n := by
  rw [segment, List.length_map, List.length_take, List.length_drop]
  omega

theorem segment_split {a m : ℕ} (k : ℕ) (h : a + m < pairs.length) :
    segment pairs a (m + 1 + k) =
      segment pairs a m ++ entryOf (pairs.get ⟨a + m, h⟩) :: segment pairs (a + m + 1) k := by
  rw [segment, Nat.add_assoc, List.take_add, List.map_append, List.drop_drop, Nat.add_comm 1 k,
    List.drop_eq_getElem_cons h, List.take_succ_cons, List.map_cons]
  rfl

variable {N : NodeHash K V H}

def treeHash (N : NodeHash K V H) (t : Avl.Tree K (V × ℕ)) : H :=
  hashOf N (t.map fun v => singleValue v.1)

theorem treeHash_node (l : Avl.Tree K (V × ℕ)) (pair : KeyValuePair K V) (r : Avl.Tree K (V × ℕ)) :
    treeHash N (.node l pair.key (pair.value, pair.offset) r) =
      N.hash (pairNode pair (treeHash N l) (treeHash N r) l.height r.height) := by
  rw [treeHash, Avl.Tree.map, hashOf, Avl.Tree.height_map, Avl.Tree.height_map]
  rfl

/-- From an entry on, the files have the nodes of a tree and their hashes, between two positions. -/
def Decodes (N : NodeHash K V H) (files : IndexFiles K H) (lo hi : ℕ) :
    ℕ → Avl.Tree K (V × ℕ) → Prop
  | i, .nil => i = 0
  | i, .node l k v r => lo ≤ i ∧ i < hi ∧ files.hash i = some (treeHash N (.node l k v r)) ∧
    ∃ a b, files.index i = some (compressedNode k v.2 a b l.height r.height) ∧
      Decodes N files lo hi a l ∧ Decodes N files lo hi b r

variable {t : Avl.Tree K (V × ℕ)}

theorem Decodes.mono {files files' : IndexFiles K H} {lo hi lo' hi' i : ℕ}
    (h : Decodes N files lo hi i t) (hlo : lo' ≤ lo) (hhi : hi ≤ hi')
    (hindex : ∀ j, lo ≤ j → j < hi → files'.index j = files.index j)
    (hhash : ∀ j, lo ≤ j → j < hi → files'.hash j = files.hash j) :
    Decodes N files' lo' hi' i t := by
  induction t generalizing i with
  | nil => exact h
  | node l k v r ihl ihr =>
    obtain ⟨hi₁, hi₂, hh, a, b, hnode, hl, hr⟩ := h
    exact ⟨by omega, by omega, by rw [hhash i hi₁ hi₂, hh], a, b, by rw [hindex i hi₁ hi₂, hnode],
      ihl hl, ihr hr⟩

def rootPosition (offset n : ℕ) : ℕ := if n = 0 then 0 else offset + n - 1

/-- The position of a child. -/
theorem ite_height_eq_rootPosition {offset n : ℕ} (h : t.toList.length = n)
    (hbound : offset + n ≤ 2 ^ 32) :
    (if t.height ≠ 0 then uint32 (offset + n - 1) else 0) = rootPosition offset n := by
  cases t with
  | nil =>
    obtain rfl : 0 = n := h
    rfl
  | node l k v r =>
    rw [Avl.Tree.toList, List.length_append, List.length_cons] at h
    rw [if_pos (by rw [Avl.Tree.height]; omega), uint32, rootPosition, if_neg (by omega),
      Nat.mod_eq_of_lt (by omega)]

/-- A range is built as a tree with its pairs in order, whose nodes are in the buffers. -/
theorem buildCompressedSubtree_spec {kvPairs : List (KeyValuePair K V)} {a n : ℕ}
    (h : a + n ≤ kvPairs.length) (nodes : List (CompressedTreeNode K)) (hashes : List H)
    (offset : ℕ) :
    ∃ (t : Avl.Tree K (V × ℕ)) (nodes' : List (CompressedTreeNode K)) (hashes' : List H),
      buildCompressedSubtree N kvPairs a (a + n - 1) ⟨nodes, hashes, offset⟩ =
        some (treeHash N t, t.height, ⟨nodes ++ nodes', hashes ++ hashes', offset + n⟩) ∧
      nodes'.length = n ∧ hashes'.length = n ∧ t.toList = segment kvPairs a n ∧
      (offset + n ≤ 2 ^ 32 → ∀ files : IndexFiles K H,
        HasAt files.index offset nodes' → HasAt files.hash offset hashes' →
        Decodes N files offset (offset + n) (rootPosition offset n) t) := by
  induction n using Nat.strongRecOn generalizing a nodes hashes offset with
  | ind n ih =>
    obtain _ | n := n
    · refine ⟨.nil, [], [], ?_, rfl, rfl, rfl, fun _ files _ _ => rfl⟩
      rw [buildCompressedSubtree, if_pos (by omega), List.append_nil, List.append_nil]
      rfl
    · have hle : a + n / 2 + 1 + (n - n / 2) ≤ kvPairs.length := by omega
      obtain ⟨l, nodesL, hashesL, hl, hnl, hhl, htl, hdl⟩ :=
        ih (n / 2) (by omega) (show a + n / 2 ≤ kvPairs.length by omega) nodes hashes offset
      obtain ⟨r, nodesR, hashesR, hr, hnr, hhr, htr, hdr⟩ := ih (n - n / 2) (by omega) hle
        (nodes ++ nodesL) (hashes ++ hashesL) (offset + n / 2)
      let pair := kvPairs.get ⟨a + n / 2, by omega⟩
      let indexLeft := if l.height ≠ 0 then uint32 (offset + n / 2 - 1) else 0
      let indexRight := if r.height ≠ 0 then uint32 (offset + n / 2 + (n - n / 2) - 1) else 0
      let cNode := compressedNode pair.key pair.offset indexLeft indexRight l.height r.height
      let t := Avl.Tree.node l pair.key (pair.value, pair.offset) r
      have hoffset : offset + n / 2 + (n - n / 2) = offset + n := by omega
      refine ⟨t, nodesL ++ (nodesR ++ [cNode]), hashesL ++ (hashesR ++ [treeHash N t]),
        ?_, ?_, ?_, ?_, ?_⟩
      · have hmid : (a : ℤ) + ((a + (n + 1 : ℕ) - 1) - a) / 2 = (a + n / 2 : ℕ) := by
          push_cast
          omega
        have hpair : kvPairs[((a + n / 2 : ℕ) : ℤ).toNat]? = some pair := by
          rw [Int.toNat_natCast]
          exact List.getElem?_eq_getElem _
        have hend : (a : ℤ) + (n + 1 : ℕ) - 1 = (a + n / 2 + 1 : ℕ) + (n - n / 2 : ℕ) - 1 := by
          push_cast
          omega
        have hleft : ((a + n / 2 : ℕ) : ℤ) - 1 = a + (n / 2 : ℕ) - 1 := by push_cast; rfl
        have hright : ((a + n / 2 : ℕ) : ℤ) + 1 = (a + n / 2 + 1 : ℕ) := by push_cast; rfl
        rw [buildCompressedSubtree, if_neg (by omega)]
        simp only [hmid, hleft, hright, hl, Option.bind_eq_bind, Option.bind_some]
        rw [hend, hr, Option.bind_some, hpair, Option.bind_some, treeHash_node]
        simp only [List.append_assoc]
        rw [← Nat.add_assoc offset n 1, ← hoffset]
        rfl
      · simp only [List.length_append, List.length_singleton, hnl, hnr]
        omega
      · simp only [List.length_append, List.length_singleton, hhl, hhr]
        omega
      · have hsize : n + 1 = n / 2 + 1 + (n - n / 2) := by omega
        rw [hsize, segment_split _ (by omega), Avl.Tree.toList, htl, htr]
        rfl
      · intro hbound files hnodes hhashes
        rw [hasAt_append, hasAt_append, hnl, hnr, hoffset] at hnodes
        rw [hasAt_append, hasAt_append, hhl, hhr, hoffset] at hhashes
        obtain ⟨hnodesL, hnodesR, hnode⟩ := hnodes
        obtain ⟨hhashesL, hhashesR, hhash⟩ := hhashes
        have hdl := hdl (by omega) files hnodesL hhashesL
        have hdr := hdr (by omega) files hnodesR hhashesR
        have hroot : rootPosition offset (n + 1) = offset + n := if_neg n.succ_ne_zero
        have hnode : files.index (offset + n) = some cNode := hnode 0 Nat.zero_lt_one
        have hhash : files.hash (offset + n) = some (treeHash N t) := hhash 0 Nat.zero_lt_one
        rw [hroot]
        refine ⟨by omega, by omega, hhash, indexLeft, indexRight, hnode, ?_, ?_⟩
        · have hindex : indexLeft = rootPosition offset (n / 2) :=
            ite_height_eq_rootPosition (htl ▸ length_segment (by omega)) (by omega)
          rw [hindex]
          exact hdl.mono le_rfl (by omega) (fun _ _ _ => rfl) fun _ _ _ => rfl
        · have hindex : indexRight = rootPosition (offset + n / 2) (n - n / 2) :=
            ite_height_eq_rootPosition (htr ▸ length_segment (by omega)) (by omega)
          rw [hindex]
          exact hdr.mono (by omega) (by omega) (fun _ _ _ => rfl) fun _ _ _ => rfl

/-! ## The ranges in the files -/

/-- The entry of a range that is in the files. -/
structure IsSubtree (N : NodeHash K V H) (pairs : List (KeyValuePair K V)) (e : ℕ)
    (files : IndexFiles K H) (x : SubtreeInfo H) (t : Avl.Tree K (V × ℕ)) : Prop where
  root : x.root = treeHash N t
  height : x.height = t.height
  toList : t.toList = segment pairs x.left.toNat (x.right + 1 - x.left).toNat
  decodes : Decodes N files (x.left + e).toNat (x.right + 1 + e).toNat x.rootIndex t

def Covers (e : ℕ) (x : SubtreeInfo H) (i : ℕ) : Prop := x.left + e ≤ i ∧ i ≤ x.right + e

/-- The ranges have been written behind the existing entries, and nothing else. -/
structure Built (N : NodeHash K V H) (pairs : List (KeyValuePair K V)) (e : ℕ)
    (files₀ files : IndexFiles K H) (s : List (SubtreeInfo H)) : Prop where
  subtree : e + pairs.length ≤ 2 ^ 32 → ∀ x ∈ s, ∃ t, IsSubtree N pairs e files x t
  old : ∀ i < e, files.index i = files₀.index i ∧ files.hash i = files₀.hash i
  index : ∀ i, e ≤ i → ((files.index i).isSome ↔ ∃ x ∈ s, Covers e x i)
  hash : ∀ i, e ≤ i → ((files.hash i).isSome ↔ ∃ x ∈ s, Covers e x i)

/-- The files agree outside the positions from `lo` to `hi`. -/
def AgreeOutside (lo hi : ℕ) (files files' : IndexFiles K H) : Prop :=
  ∀ i, i < lo ∨ hi ≤ i → files'.index i = files.index i ∧ files'.hash i = files.hash i

theorem IsSubtree.of_agreeOutside {e lo hi : ℕ} {files files' : IndexFiles K H} {x : SubtreeInfo H}
    (h : IsSubtree N pairs e files x t) (hagree : AgreeOutside lo hi files files')
    (hdisj : x.right + e < lo ∨ (hi : ℤ) ≤ x.left + e) : IsSubtree N pairs e files' x t where
  root := h.root
  height := h.height
  toList := h.toList
  decodes := h.decodes.mono le_rfl le_rfl (fun j hj hj' => (hagree j (by omega)).1) fun j hj hj' =>
    (hagree j (by omega)).2

section
variable {pairs : List (KeyValuePair K V)} {e : ℕ} {files₀ files : IndexFiles K H}
  {pre post : List (SubtreeInfo H)} {x : SubtreeInfo H}

theorem loadArray_eq_some {α : Type} {file : List α} {offset count : ℕ}
    (h : offset + count ≤ file.length) :
    loadArray file offset count = some ((file.drop offset).take count) := by
  rw [loadArray, if_pos]
  rw [List.length_take, List.length_drop]
  omega

theorem segment_take_drop (pairs : List (KeyValuePair K V)) (a n : ℕ) :
    segment ((pairs.drop a).take n) 0 n = segment pairs a n := by
  rw [segment, segment, List.drop_zero, List.take_take, min_self]

/-- The files after some positions are written. -/
theorem Built.write {s s' : List (SubtreeInfo H)} {files' : IndexFiles K H} {lo hi : ℕ}
    (h : Built N pairs e files₀ files s) (hagree : AgreeOutside lo hi files files') (hlo : e ≤ lo)
    (hwritten : ∀ i, lo ≤ i → i < hi → (files'.index i).isSome ∧ (files'.hash i).isSome)
    (hcovers : ∀ i, (∃ x ∈ s', Covers e x i) ↔ lo ≤ i ∧ i < hi ∨ ∃ x ∈ s, Covers e x i)
    (hsubtree : e + pairs.length ≤ 2 ^ 32 → ∀ x ∈ s', ∃ t, IsSubtree N pairs e files' x t) :
    Built N pairs e files₀ files' s' := by
  refine ⟨hsubtree, fun i hold => ?_, fun i hnew => ?_, fun i hnew => ?_⟩
  · obtain ⟨hindex, hhash⟩ := hagree i (by omega)
    rw [hindex, hhash]
    exact h.old i hold
  · rw [hcovers]
    by_cases hin : lo ≤ i ∧ i < hi
    · exact ⟨fun _ => .inl hin, fun _ => (hwritten i hin.1 hin.2).1⟩
    · rw [(hagree i (by omega)).1, h.index i hnew]
      exact ⟨.inr, fun h' => h'.resolve_left hin⟩
  · rw [hcovers]
    by_cases hin : lo ≤ i ∧ i < hi
    · exact ⟨fun _ => .inl hin, fun _ => (hwritten i hin.1 hin.2).2⟩
    · rw [(hagree i (by omega)).2, h.hash i hnew]
      exact ⟨.inr, fun h' => h'.resolve_left hin⟩

/-- One range is built behind those before it. -/
theorem Built.buildOne (h : Built N pairs e files₀ files pre)
    (htiles : Tiles 0 (pairs.length - 1) (ranges (pre ++ x :: post))) (hx : x.left ≤ x.right) :
    ∃ y files', buildOneCompressedSubtreeBottomUp N e pairs (pre ++ x :: post, files) pre.length =
        some (pre ++ y :: post, files') ∧
      y.left = x.left ∧ y.right = x.right ∧ Built N pairs e files₀ files' (pre ++ [y]) := by
  obtain ⟨hleft, -, hright⟩ := htiles.ranges_mem
  obtain ⟨hpre, -⟩ := htiles.ranges_split
  obtain ⟨left, right, height, root, rootIndex⟩ := x
  dsimp only at hleft hright hpre hx
  obtain ⟨a, rfl⟩ := Int.eq_ofNat_of_zero_le hleft
  obtain ⟨n, hn⟩ := Int.eq_ofNat_of_zero_le (show 0 ≤ right - a + 1 by omega)
  have hload := loadArray_eq_some (show a + n ≤ pairs.length by omega)
  have hlen : ((pairs.drop a).take n).length = n := by
    rw [List.length_take, List.length_drop]
    omega
  obtain ⟨t, nodes, hashes, hbuild, hnodes, hhashes, ht, hdecodes⟩ :=
    buildCompressedSubtree_spec (N := N) (show 0 + n ≤ ((pairs.drop a).take n).length by omega)
      [] [] (a + e)
  let files' : IndexFiles K H :=
    ⟨dumpArray files.index (a + e) nodes, dumpArray files.hash (a + e) hashes⟩
  refine ⟨⟨a, right, t.height, treeHash N t, uint32 (a + e + n - 1)⟩, files', ?_, rfl, rfl, ?_⟩
  · have hget : (pre ++ ⟨a, right, height, root, rootIndex⟩ :: post)[pre.length]? =
        some ⟨a, right, height, root, rootIndex⟩ := by
      rw [List.getElem?_append_right le_rfl, Nat.sub_self, List.getElem?_cons_zero]
    have hoffset : ((a : ℤ) + e).toNat = a + e := by omega
    have hend : right - a + 1 - 1 = (0 : ℕ) + n - 1 := by omega
    have hbuild : buildCompressedSubtree N ((pairs.drop a).take n) 0 (right - a + 1 - 1)
        ⟨[], [], a + e⟩ = some (treeHash N t, t.height, ⟨nodes, hashes, a + e + n⟩) := by
      rw [hend]
      exact hbuild
    simp only [buildOneCompressedSubtreeBottomUp, hget, hoffset, Option.bind_eq_bind,
      Option.bind_some, Int.toNat_natCast]
    rw [hn, Int.toNat_natCast, hload, Option.bind_some, ← hn, hbuild,
      Option.bind_some, List.set_append_right _ _ le_rfl, Nat.sub_self, List.set_cons_zero]
  · have hagree : AgreeOutside (a + e) (a + e + n) files files' := fun i hi =>
      ⟨dumpArray_of_outside (by omega), dumpArray_of_outside (by omega)⟩
    refine h.write hagree (by omega) (fun i hlo hhi => ⟨?_, ?_⟩) (fun i => ?_) fun hbound w hw => ?_
    · exact isSome_dumpArray.2 (.inl (by omega))
    · exact isSome_dumpArray.2 (.inl (by omega))
    · simp only [List.mem_append, List.mem_singleton, or_and_right, exists_or, exists_eq_left]
      rw [or_comm]
      refine or_congr_left ?_
      rw [Covers]
      dsimp only
      omega
    · rcases List.mem_append.1 hw with hw | hw
      · obtain ⟨t', ht'⟩ := h.subtree hbound w hw
        have hdisj := hpre w hw
        exact ⟨t', ht'.of_agreeOutside hagree (by omega)⟩
      · obtain rfl := List.mem_singleton.1 hw
        have hsize : (right + 1 - a).toNat = n := by omega
        have hhi : (right + 1 + e).toNat = a + e + n := by omega
        have hroot : uint32 (a + e + n - 1) = rootPosition (a + e) n := by
          rw [uint32, rootPosition, if_neg (by omega), Nat.mod_eq_of_lt (by omega)]
        refine ⟨t, rfl, rfl, ?_, ?_⟩
        · dsimp only
          rw [ht, segment_take_drop, hsize]
          rfl
        · dsimp only
          rw [hhi, hroot]
          exact hdecodes (by omega) files' (hasAt_dumpArray _ _ _) (hasAt_dumpArray _ _ _)

/-- All ranges are built. -/
theorem exists_built {info : List (SubtreeInfo H)}
    (htiles : Tiles 0 (pairs.length - 1) (ranges info)) (hne : ∀ x ∈ info, x.left ≤ x.right)
    (hindex : ∀ i, (files₀.index i).isSome ↔ i < e) (hhash : ∀ i, (files₀.hash i).isSome ↔ i < e) :
    ∃ s files, (List.range info.length).foldlM (buildOneCompressedSubtreeBottomUp N e pairs)
        (info, files₀) = some (s, files) ∧ ranges s = ranges info ∧
      Built N pairs e files₀ files s := by
  have hloop (k : ℕ) (hk : k ≤ info.length) : ∃ done files, (List.range k).foldlM
      (buildOneCompressedSubtreeBottomUp N e pairs) (info, files₀) =
        some (done ++ info.drop k, files) ∧
      ranges done = ranges (info.take k) ∧ Built N pairs e files₀ files done := by
    induction k with
    | zero =>
      refine ⟨[], files₀, rfl, rfl, ⟨fun _ x hx => absurd hx List.not_mem_nil, fun i _ =>
        ⟨rfl, rfl⟩, fun i hi => ?_, fun i hi => ?_⟩⟩
      · rw [hindex]
        exact ⟨fun h => absurd h (by omega), fun ⟨_, hx, _⟩ => nomatch hx⟩
      · rw [hhash]
        exact ⟨fun h => absurd h (by omega), fun ⟨_, hx, _⟩ => nomatch hx⟩
    | succ k ih =>
      obtain ⟨done, files, hrun, hdone, hbuilt⟩ := ih (by omega)
      have hlen : done.length = k := by
        have := congrArg List.length hdone
        rw [ranges, ranges, List.length_map, List.length_map, List.length_take] at this
        omega
      rw [List.drop_eq_getElem_cons (show k < info.length by omega)] at hrun
      have htiles' : Tiles 0 (pairs.length - 1)
        (ranges (done ++ info[k] :: info.drop (k + 1))) := by
        rw [← List.drop_eq_getElem_cons, ranges, List.map_append]
        rw [ranges, ranges] at hdone
        rw [hdone, ← List.map_append, List.take_append_drop]
        exact htiles
      obtain ⟨y, files', hone, hl, hr, hbuilt⟩ :=
        hbuilt.buildOne htiles' (hne _ (List.getElem_mem _))
      rw [hlen] at hone
      refine ⟨done ++ [y], files', ?_, ?_, hbuilt⟩
      · rw [List.range_succ, List.foldlM_append, hrun, Option.bind_eq_bind, Option.bind_some,
          List.foldlM_cons, hone, List.append_assoc]
        rfl
      · rw [ranges, ranges] at hdone
        rw [ranges, ranges, List.map_append, hdone, List.take_succ_eq_append_getElem (by omega),
          List.map_append, List.map_singleton, List.map_singleton, hl, hr]
  obtain ⟨s, files, hrun, hs, hbuilt⟩ := hloop info.length le_rfl
  rw [List.drop_length, List.append_nil] at hrun
  rw [List.take_length] at hs
  exact ⟨s, files, hrun, hs, hbuilt⟩

/-! ## The merge -/

theorem exists_covers_merge {x y z : SubtreeInfo H} {i : ℕ} {P : Prop}
    (h : Covers e z i ↔ P ∨ Covers e x i ∨ Covers e y i) :
    (∃ w ∈ pre ++ z :: post, Covers e w i) ↔ P ∨ ∃ w ∈ pre ++ x :: y :: post, Covers e w i := by
  simp only [List.mem_append, List.mem_cons, or_and_right, exists_or, exists_eq_left, h]
  rw [or_assoc, or_assoc, or_left_comm]

/-- Two neighbours with a new root between them. -/
theorem IsSubtree.merge {x y z : SubtreeInfo H} {tx ty : Avl.Tree K (V × ℕ)}
    {pair : KeyValuePair K V}
    {files' : IndexFiles K H} (hx : IsSubtree N pairs e files x tx)
      (hy : IsSubtree N pairs e files y ty)
    (hleft : 0 ≤ x.left) (hle : x.left ≤ x.right + 1) (hxy : y.left = x.right + 2)
    (hyle : y.left ≤ y.right + 1)
    (hagree : AgreeOutside (x.right + 1 + e).toNat (x.right + 2 + e).toNat files files')
    (hpair : pairs[(x.right + 1).toNat]? = some pair) (hzl : z.left = x.left)
      (hzr : z.right = y.right)
    (hheight : z.height = max x.height y.height + 1)
    (hroot : z.root = N.hash (pairNode pair x.root y.root x.height y.height))
    (hposition : (z.rootIndex : ℤ) = x.right + 1 + e)
    (hindex : files'.index z.rootIndex =
      some (compressedNode pair.key pair.offset x.rootIndex y.rootIndex x.height y.height))
    (hhash : files'.hash z.rootIndex = some z.root) :
    IsSubtree N pairs e files' z (.node tx pair.key (pair.value, pair.offset) ty) := by
  have ht : z.root = treeHash N (.node tx pair.key (pair.value, pair.offset) ty) := by
    rw [hroot, treeHash_node, hx.root, hy.root, hx.height, hy.height]
  refine ⟨ht, ?_, ?_, ?_⟩
  · rw [hheight, Avl.Tree.height, ← hx.height, ← hy.height]
  · obtain ⟨hlt, hget⟩ := List.getElem?_eq_some_iff.1 hpair
    have hmid : x.left.toNat + (x.right + 1 - x.left).toNat = (x.right + 1).toNat := by omega
    have hsize : (y.right + 1 - x.left).toNat =
        (x.right + 1 - x.left).toNat + 1 + (y.right + 1 - y.left).toNat := by omega
    have hnext : (x.right + 1).toNat + 1 = y.left.toNat := by omega
    rw [hzl, hzr, Avl.Tree.toList, hx.toList, hy.toList, hsize, segment_split _ (hmid ▸ hlt)]
    simp only [hmid, hnext, List.get_eq_getElem, hget]
    rfl
  · rw [hzl, hzr]
    refine ⟨by omega, by omega, ht ▸ hhash, x.rootIndex, y.rootIndex, ?_, ?_, ?_⟩
    · rw [← hx.height, ← hy.height]
      exact hindex
    · exact hx.decodes.mono le_rfl (by omega) (fun j _ hj => (hagree j (by omega)).1)
        fun j _ hj => (hagree j (by omega)).2
    · exact hy.decodes.mono (by omega) le_rfl (fun j hj _ => (hagree j (by omega)).1)
        fun j hj _ => (hagree j (by omega)).2

/-- If there is only the null entry, two neighbours are merged to a range. -/
theorem merges_built (N : NodeHash K V H) (files₀ : IndexFiles K H)
    (hbound : pairs.length < 2 ^ 31) :
    Merges (mergeCompressedPair N pairs) fun files s => Tiles 0 (pairs.length - 1) (ranges s) ∧
      Built N pairs 1 files₀ files s := by
  intro files pre x y post ⟨htiles, hbuilt⟩
  obtain ⟨hxy, hx₀, hx₁⟩ := htiles.next_ranges
  obtain ⟨hleft, hle, -⟩ := htiles.ranges_mem
  obtain ⟨hpre, -⟩ := htiles.ranges_split
  have htiles' := htiles
  rw [List.append_cons] at htiles'
  obtain ⟨-, hyle, hyright⟩ := htiles'.ranges_mem
  obtain ⟨-, hpost⟩ := htiles'.ranges_split
  have hbound' : 1 + pairs.length ≤ 2 ^ 32 := by omega
  obtain ⟨tx, hx⟩ := hbuilt.subtree hbound' x (by simp)
  obtain ⟨ty, hy⟩ := hbuilt.subtree hbound' y (by simp)
  let pair := pairs.get ⟨(x.right + 1).toNat, by omega⟩
  have hpair : pairs[(x.right + 1).toNat]? = some pair := List.getElem?_eq_getElem _
  -- the position of the new root
  obtain ⟨p, hp⟩ := Int.eq_ofNat_of_zero_le (show 0 ≤ x.right + 2 by omega)
  have hindex : uint32 (x.right + 1 + 1).toNat = p := by
    rw [uint32, Nat.mod_eq_of_lt (by omega)]
    omega
  let root := N.hash (pairNode pair x.root y.root x.height y.height)
  let cNode := compressedNode pair.key pair.offset x.rootIndex y.rootIndex x.height y.height
  let files' : IndexFiles K H := ⟨dumpArray files.index p [cNode], dumpArray files.hash p [root]⟩
  have hmerge : mergeCompressedPair N pairs x y files =
      some (⟨x.left, y.right, max x.height y.height + 1, root, p⟩, files') := by
    rw [mergeCompressedPair, hpair, Option.bind_eq_bind, Option.bind_some]
    simp only [hindex]
    rfl
  have hagree : AgreeOutside p (p + 1) files files' := fun i hi =>
    ⟨dumpArray_of_outside hi, dumpArray_of_outside hi⟩
  have hz := hx.merge hy hleft hle hxy hyle
    (fun i hi => hagree i (by omega)) hpair (z := ⟨x.left, y.right, _, root, p⟩) rfl rfl rfl rfl
    (by dsimp only; omega) (hasAt_dumpArray files.index p [cNode] 0 Nat.zero_lt_one)
    (hasAt_dumpArray files.hash p [root] 0 Nat.zero_lt_one)
  refine ⟨_, files', hmerge, htiles.merge_ranges rfl rfl,
    hbuilt.write hagree (by omega) (fun i hlo hhi => ⟨?_, ?_⟩) (fun i => ?_) fun _ w hw => ?_⟩
  · exact isSome_dumpArray.2 (.inl ⟨hlo, hhi⟩)
  · exact isSome_dumpArray.2 (.inl ⟨hlo, hhi⟩)
  · refine exists_covers_merge ?_
    simp only [Covers]
    omega
  · rcases List.mem_append.1 hw with hw | hw
    · obtain ⟨t', ht'⟩ := hbuilt.subtree hbound' w (by simp [hw])
      have hdisj := hpre w hw
      exact ⟨t', ht'.of_agreeOutside hagree (by omega)⟩
    · rcases List.mem_cons.1 hw with rfl | hw
      · exact ⟨_, hz⟩
      · obtain ⟨t', ht'⟩ := hbuilt.subtree hbound' w (by simp [hw])
        have hdisj := hpost w hw
        exact ⟨t', ht'.of_agreeOutside hagree (by omega)⟩

/-- If there are other entries, the last pair between two ranges leaves a hole. -/
theorem merges_hole (N : NodeHash K V H) (hbound : pairs.length < 2 ^ 31) (he : 2 ≤ e) (gap : ℕ) :
    Merges (mergeCompressedPair N pairs) fun files s => Tiles 0 (pairs.length - 1) (ranges s) ∧
      (∀ x ∈ s, x.left ≤ gap + 1) ∧ files.index (gap + e) = none := by
  intro files pre x y post ⟨htiles, hgap, hhole⟩
  obtain ⟨hxy, hx₀, hx₁⟩ := htiles.next_ranges
  have hx := hgap x (by simp)
  have hy := hgap y (by simp)
  have hpair : pairs[(x.right + 1).toNat]? = some (pairs.get ⟨(x.right + 1).toNat, by omega⟩) :=
    List.getElem?_eq_getElem _
  have hindex : uint32 (x.right + 1 + 1).toNat = (x.right + 2).toNat := by
    rw [uint32, Nat.mod_eq_of_lt (by omega)]
    omega
  rw [mergeCompressedPair, hpair, Option.bind_eq_bind, Option.bind_some]
  refine ⟨_, _, rfl, htiles.merge_ranges rfl rfl, fun w hw => ?_, ?_⟩
  · rcases List.mem_append.1 hw with hw | hw
    · exact hgap w (by simp [hw])
    · rcases List.mem_cons.1 hw with rfl | hw
      · exact hx
      · exact hgap w (by simp [hw])
  · refine (dumpArray_of_outside (.inr ?_)).trans hhole
    rw [hindex, List.length_singleton]
    omega

/-- The entries behind the existing ones are those of a search tree with the pairs in order, the
others are as they were, and the hashes are those of the nodes. -/
structure IsCompressedIndex [LE K] (N : NodeHash K V H) (pairs : List (KeyValuePair K V)) (e : ℕ)
    (files₀ files : IndexFiles K H) (top : SubtreeInfo H) (t : Avl.Tree K (V × ℕ)) : Prop where
  old : ∀ i < e, files.index i = files₀.index i ∧ files.hash i = files₀.hash i
  index : ∀ i, e ≤ i → ((files.index i).isSome ↔ i < e + pairs.length)
  hash : ∀ i, e ≤ i → ((files.hash i).isSome ↔ i < e + pairs.length)
  root : top.root = treeHash N t
  decodes : Decodes N files e (e + pairs.length) top.rootIndex t
  toList : t.toList = pairs.map entryOf
  ordered : t.toList.Pairwise fun a b => a.1 ≤ b.1

theorem Built.isCompressedIndex [LE K] {top : SubtreeInfo H} (h : Built N pairs e files₀ files
    [top]) (htiles : Tiles 0 (pairs.length - 1) (ranges [top])) (hbound : e + pairs.length ≤ 2 ^ 32)
    (hsorted : pairs.Pairwise fun p q => p.key ≤ q.key) :
    ∃ t, IsCompressedIndex N pairs e files₀ files top t := by
  have hleft : top.left = 0 := htiles.first _ rfl
  have hright : top.right = pairs.length - 1 := htiles.last _ rfl
  have hcovers (i : ℕ) (hi : e ≤ i) : (∃ x ∈ [top], Covers e x i) ↔ i < e + pairs.length := by
    simp only [List.mem_singleton, exists_eq_left, Covers, hleft, hright]
    omega
  obtain ⟨t, ht⟩ := h.subtree hbound top List.mem_cons_self
  have htoList : t.toList = pairs.map entryOf := by
    have hsize : (top.right + 1 - top.left).toNat = pairs.length := by omega
    rw [ht.toList, hsize, hleft, segment, Int.toNat_zero, List.drop_zero, List.take_length]
  refine ⟨t, h.old, fun i hi => (h.index i hi).trans (hcovers i hi),
    fun i hi => (h.hash i hi).trans (hcovers i hi), ht.root, ?_, htoList, ?_⟩
  · exact ht.decodes.mono (by omega) (by omega) (fun _ _ _ => rfl) fun _ _ _ => rfl
  · rw [htoList, List.pairwise_map]
    exact hsorted

end

/-- For pairs that are split into as many ranges as the depth allows, none of them empty, the
entries are right if and only if there is only the null entry before. -/
theorem isCompressedIndex_iff [LE K] (N : NodeHash K V H) (junk : ℕ → SubtreeInfo H)
    {pairs : List (KeyValuePair K V)} {e maxDepth : ℕ} {files₀ : IndexFiles K H}
    (hsorted : pairs.Pairwise fun p q => p.key ≤ q.key) (hsize : pairs.length < 2 ^ 31) (he : 1 ≤ e)
    (hdepth : 1 ≤ maxDepth) (hindex : ∀ i, (files₀.index i).isSome ↔ i < e)
    (hhash : ∀ i, (files₀.hash i).isSome ↔ i < e)
    (hcount : (partitionTree maxDepth 0 (pairs.length - 1)).length = 2 ^ maxDepth)
    (hne : ∀ a ∈ partitionTree maxDepth 0 (pairs.length - 1), a.1 ≤ a.2) :
    (∃ top root files t,
      buildCompressedTreeBottomUp N junk e pairs maxDepth files₀ = some (top, root, files) ∧
        IsCompressedIndex N pairs e files₀ files top t) ↔ e = 1 := by
  have hranges := ranges_partitionTreeToFile junk pairs.length maxDepth
  have htiles : Tiles 0 (pairs.length - 1)
    (ranges (partitionTreeToFile junk pairs.length maxDepth)) :=
    hranges ▸ tiles_partitionTree maxDepth (by omega)
  have hne' : ∀ x ∈ partitionTreeToFile junk pairs.length maxDepth, x.left ≤ x.right := by
    intro x hx
    refine hne (x.left, x.right) ?_
    rw [← hranges]
    exact List.mem_map_of_mem hx
  obtain ⟨s, files₁, hrun, hs, hbuilt⟩ := exists_built (N := N) htiles hne' hindex hhash
  rw [← hs] at htiles
  have hlen : s.length = 2 ^ maxDepth := by
    have := congrArg List.length (hs.trans hranges)
    rwa [ranges, List.length_map, hcount] at this
  have htwo : 2 ≤ s.length := by
    rw [hlen]
    exact Nat.le_self_pow (by omega) 2
  have hpos : 2 ≤ pairs.length := by
    have hle := length_partitionTree_le maxDepth 0 (pairs.length - 1)
    rw [hcount, ← hlen] at hle
    omega
  have hs₀ : s ≠ [] := List.length_pos_iff.1 (by omega)
  rw [buildCompressedTreeBottomUp, Option.bind_eq_bind, hrun, Option.bind_some,
    mergeCompressedTrees]
  constructor
  · rintro ⟨top, root, files, t, hmerge, h⟩
    by_contra hone
    -- the last two ranges
    obtain rfl | ⟨s', y, rfl⟩ := List.eq_nil_or_concat s
    · exact hs₀ rfl
    obtain rfl | ⟨pre, x, rfl⟩ := List.eq_nil_or_concat s'
    · exact absurd htwo (Nat.not_le.2 Nat.one_lt_two)
    rw [List.concat_eq_append, List.concat_eq_append, List.append_assoc, List.singleton_append] at *
    obtain ⟨hxy, hx₀, hx₁⟩ := htiles.next_ranges
    obtain ⟨-, hxle, -⟩ := htiles.ranges_mem
    obtain ⟨hpre, -⟩ := htiles.ranges_split
    obtain ⟨gap, hgap⟩ := Int.eq_ofNat_of_zero_le hx₀
    have hhole : files₁.index (gap + e) = none := by
      rw [← Option.not_isSome_iff_eq_none, hbuilt.index _ (by omega)]
      rintro ⟨w, hw, hwlo, hwhi⟩
      rcases List.mem_append.1 hw with hw | hw
      · have := hpre w hw
        omega
      · rcases List.mem_cons.1 hw with rfl | hw
        · omega
        · obtain rfl := List.mem_singleton.1 hw
          omega
    have hleft : ∀ w ∈ pre ++ [x, y], w.left ≤ gap + 1 := by
      intro w hw
      obtain ⟨-, hwle, -⟩ := htiles.within (w.left, w.right) (List.mem_map_of_mem hw)
      rcases List.mem_append.1 hw with hw | hw
      · have := hpre w hw
        omega
      · rcases List.mem_cons.1 hw with rfl | hw
        · omega
        · obtain rfl := List.mem_singleton.1 hw
          omega
    obtain ⟨top', l, files', dropped, hlevels, ⟨-, -, hhole'⟩, -⟩ :=
      (merges_hole N hsize (by omega) gap).all hs₀ ⟨htiles, hleft, hhole⟩
    rw [hlevels] at hmerge
    simp only [Option.bind_eq_bind, Option.bind_some, List.head?_cons, Option.bind_eq_some_iff]
      at hmerge
    obtain ⟨_, _, hmerge⟩ := hmerge
    simp only [Option.some.injEq, Prod.mk.injEq] at hmerge
    obtain ⟨-, -, rfl⟩ := hmerge
    have hsome := (h.index (gap + e) (by omega)).2 (by omega)
    rw [hhole'] at hsome
    exact absurd hsome Bool.false_ne_true
  · rintro rfl
    obtain ⟨top, l, files, dropped, hlevels, ⟨htiles, hbuilt⟩, hdropped⟩ :=
      (merges_built N files₀ hsize).all hs₀ ⟨htiles, hbuilt⟩
    obtain rfl := hdropped _ hlen
    obtain ⟨t, ht⟩ := hbuilt.isCompressedIndex htiles (by omega) hsorted
    have hroot : ∃ root, files.index top.rootIndex = some root := by
      have hdecodes := ht.decodes
      have htoList := ht.toList
      cases t with
      | nil =>
        have := congrArg List.length htoList
        rw [List.length_map, Avl.Tree.toList, List.length_nil] at this
        omega
      | node l k v r =>
        obtain ⟨-, -, -, a, b, hnode, -⟩ := hdecodes
        exact ⟨_, hnode⟩
    obtain ⟨root, hroot⟩ := hroot
    refine ⟨top, root, files, t, ?_, ht⟩
    rw [hlevels]
    simp only [Option.bind_eq_bind, Option.bind_some, List.head?_cons, hroot]


def nullFiles (e : ℕ) : IndexFiles ℕ FreeHash where
  index i := if i < e then some ⟨0, 0, 0, 0, Vector.replicate _ 0, 0, 0, 0⟩ else none
  hash i := if i < e then some .null else none

theorem isSome_nullFiles (e i : ℕ) :
    (((nullFiles e).index i).isSome ↔ i < e) ∧ (((nullFiles e).hash i).isSome ↔ i < e) := by
  rw [nullFiles]
  constructor <;> dsimp only <;> split_ifs with h <;> simp [h]

theorem isCompressedIndex_three : ∃ top root files t,
    buildCompressedTreeBottomUp freeHash (fun _ => blank freeHash) 1
      [⟨1, 7, 0⟩, ⟨2, 8, 1⟩, ⟨3, 9, 2⟩] 1 (nullFiles 1) = some (top, root, files) ∧
        IsCompressedIndex freeHash [⟨1, 7, 0⟩, ⟨2, 8, 1⟩, ⟨3, 9, 2⟩] 1 (nullFiles 1) files top t :=
  (isCompressedIndex_iff freeHash _ (by simp) (by decide) le_rfl le_rfl
    (fun i => (isSome_nullFiles 1 i).1) (fun i => (isSome_nullFiles 1 i).2) (by decide)
      (by decide)).2 rfl

/-- With three entries before, the node of the merge is written over the last of them. -/
theorem buildCompressedTreeBottomUp_overwrites :
    (((nullFiles 3).index 2).map fun node => node.key) = some 0 ∧
      ((buildCompressedTreeBottomUp freeHash (fun _ => blank freeHash) 3
        [⟨1, 7, 0⟩, ⟨2, 8, 1⟩, ⟨3, 9, 2⟩] 1 (nullFiles 3)).map fun result =>
          (result.2.2.index 2).map fun node => node.key) = some (some 2) := by
  decide +kernel

end Pequin.CompressedIndex
