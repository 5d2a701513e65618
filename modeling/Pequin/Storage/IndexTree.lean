import Mathlib.Data.List.Chain
import Pequin.Avl.Refine
import Pequin.Lib.PairMerge

/-!
# Index trees built from the bottom

A sorted list of pairs is split at its middle, down to a depth, into ranges with one pair between
two neighbours. A subtree is built from each range and written to a file, and then the subtrees are
merged in pairs, with the pairs between them at the new roots.

The calls that write a subtree and its root are behind the `exit` for a wrong buffer size. So the
merge reads roots that were never set, and no node of a subtree is in a file.
-/

namespace Pequin.IndexTree

open AvlTree Avl PairMerge

structure KeyValuePair (K V : Type) where
  key : K
  value : V
  /-- The row of the value. -/
  offset : ℕ

structure SubtreeInfo (H : Type) where
  left : ℤ
  right : ℤ
  height : ℕ
  root : H
  rootIndex : ℕ

/-- `partition_tree`, where `levels` is `max_depth + 1 - depth`. -/
def partitionTree : ℕ → ℤ → ℤ → List (ℤ × ℤ)
  | 0, left, right => [(left, right)]
  | levels + 1, left, right =>
    if right ≤ left then [(left, right)]
    else
      let mid := left + (right - left) / 2
      partitionTree levels left (mid - 1) ++ partitionTree levels (mid + 1) right

section
variable {K V H : Type}

/-- `partition_tree_to_file`: only the ranges are set. -/
def partitionTreeToFile (junk : ℕ → SubtreeInfo H) (treeSize maxDepth : ℕ) : List (SubtreeInfo H) :=
  (partitionTree maxDepth 0 (treeSize - 1)).mapIdx fun i (left, right) =>
    { junk i with left, right }

/-- The entries of a file, if it has them. -/
def loadArray {α : Type} (file : List α) (offset count : ℕ) : Option (List α) :=
  if ((file.drop offset).take count).length =
    count then some ((file.drop offset).take count) else none

def singleValue (value : V) : Payload V := ⟨1, Vector.replicate _ value⟩

/-- The node of a pair, from the roots and heights of its subtrees. -/
def pairNode (pair : KeyValuePair K V) (left right : H) (hl hr : ℕ) : TreeNode K V H :=
  { toPayload := singleValue pair.value, left, right, key := pair.key
    height := max hl hr + 1, heightLeft := hl, heightRight := hr }

variable (N : NodeHash K V H)

/-- `build_subtree`: the root, the height, and the buffer with the nodes and their hashes. -/
def buildSubtree (kvPairs : List (KeyValuePair K V)) (left right : ℤ)
    (buf : List (H × TreeNode K V H)) : Option (H × ℕ × List (H × TreeNode K V H)) :=
  if right < left then some (N.null, 0, buf)
  else do
    let mid := left + (right - left) / 2
    let (hashLeft, hl, buf) ← buildSubtree kvPairs left (mid - 1) buf
    let (hashRight, hr, buf) ← buildSubtree kvPairs (mid + 1) right buf
    let pair ← kvPairs[mid.toNat]?
    let node := pairNode pair hashLeft hashRight hl hr
    some (N.hash node, node.height, buf ++ [(N.hash node, node)])
termination_by (right + 1 - left).toNat

structure Files (K V H : Type) where
  /-- `%s_%d_info` -/
  info : List (SubtreeInfo H)
  /-- `%s_%d` -/
  nodes : ℕ → Option (List (H × TreeNode K V H))
  /-- `%s_handle` -/
  handle : Option H

def buildOneSubtreeBottomUp (pairs : List (KeyValuePair K V)) (files : Files K V H)
    (subtreeId : ℕ) : Option (Files K V H) := do
  let info ← files.info[subtreeId]?
  let subtreeSize := info.right - info.left + 1
  let kvPairs ← loadArray pairs info.left.toNat subtreeSize.toNat
  let (_, _, buf) ← buildSubtree N kvPairs 0 (subtreeSize - 1) []
  -- the nodes and the root would be written in this branch, after the exit
  if (buf.length : ℤ) ≠ subtreeSize then none
  else some files

/-- The body of the loop in `merge_trees`. -/
def mergePair (pairs : List (KeyValuePair K V)) (x y : SubtreeInfo H)
    (buf : List (H × TreeNode K V H)) : Option (SubtreeInfo H × List (H × TreeNode K V H)) := do
  let mid := x.right + 1
  let pair ← pairs[mid.toNat]?
  let node := pairNode pair x.root y.root x.height y.height
  some ({ x with right := y.right, height := node.height, root := N.hash node },
    buf ++ [(N.hash node, node)])

def mergeTrees (pairs : List (KeyValuePair K V)) (files : Files K V H) : Option (Files K V H) := do
  let (subtrees, buf) ← mergeLevels (mergePair N pairs) (files.info.length / 2) (files.info, [])
  let top ← subtrees.head?
  some { files with
    nodes := Function.update files.nodes files.info.length (some buf), handle := some top.root }

/-- `build_tree_bottom_up`: the files and the root of the tree. -/
def buildTreeBottomUp (junk : ℕ → SubtreeInfo H) (pairs : List (KeyValuePair K V)) (maxDepth : ℕ) :
    Option (Files K V H × H) := do
  let files : Files K V H := ⟨partitionTreeToFile junk pairs.length maxDepth, fun _ => none, none⟩
  let files ← (List.range files.info.length).foldlM (buildOneSubtreeBottomUp N pairs) files
  let files ← mergeTrees N pairs files
  let root ← files.handle
  some (files, root)

end

/-! ## Ranges -/

/-- The ranges cover an interval except for one number between two neighbours. -/
structure Tiles (left right : ℤ) (s : List (ℤ × ℤ)) : Prop where
  ne_nil : s ≠ []
  first : ∀ a ∈ s.head?, a.1 = left
  last : ∀ a ∈ s.getLast?, a.2 = right
  chain : s.IsChain fun a b => b.1 = a.2 + 2
  within : ∀ a ∈ s, left ≤ a.1 ∧ a.1 ≤ a.2 + 1 ∧ a.2 ≤ right

section
variable {left mid right : ℤ} {s s' pre post : List (ℤ × ℤ)} {a b : ℤ × ℤ}

theorem tiles_singleton (h : left ≤ right + 1) : Tiles left right [(left, right)] where
  ne_nil := List.cons_ne_nil _ _
  first a ha := by obtain rfl := Option.some.inj ha; rfl
  last a ha := by obtain rfl := Option.some.inj ha; rfl
  chain := .singleton _
  within a ha := by
    obtain rfl := List.mem_singleton.1 ha
    exact ⟨le_rfl, h, le_rfl⟩

theorem Tiles.le (h : Tiles left right s) : left ≤ right + 1 := by
  obtain ⟨a, ha⟩ := List.exists_mem_of_ne_nil _ h.ne_nil
  obtain ⟨hl, hlr, hr⟩ := h.within a ha
  omega

theorem Tiles.append (h : Tiles left (mid - 1) s) (h' : Tiles (mid + 1) right s') :
    Tiles left right (s ++ s') where
  ne_nil := List.append_ne_nil_of_left_ne_nil h.ne_nil _
  first := by
    rw [List.head?_append_of_ne_nil _ h.ne_nil]
    exact h.first
  last := by
    rw [List.getLast?_append_of_ne_nil _ h'.ne_nil]
    exact h'.last
  chain := List.isChain_append.2 ⟨h.chain, h'.chain, fun a ha b hb => by
    rw [h.last a ha, h'.first b hb]
    omega⟩
  within a ha := by
    have hle := h.le
    have hle' := h'.le
    rcases List.mem_append.1 ha with ha | ha
    · obtain ⟨hl, hlr, hr⟩ := h.within a ha
      exact ⟨hl, hlr, by omega⟩
    · obtain ⟨hl, hlr, hr⟩ := h'.within a ha
      exact ⟨by omega, hlr, hr⟩

theorem tiles_partitionTree (levels : ℕ) (h : left ≤ right + 1) :
    Tiles left right (partitionTree levels left right) := by
  induction levels generalizing left right with
  | zero => exact tiles_singleton h
  | succ levels ih =>
    rw [partitionTree]
    split_ifs with hstop
    · exact tiles_singleton h
    · exact (ih (by omega)).append (ih (by omega))

theorem length_partitionTree_le (levels : ℕ) (left right : ℤ) :
    ((partitionTree levels left right).length : ℤ) ≤ max (right + 1 - left) 1 := by
  induction levels generalizing left right with
  | zero => exact le_max_right _ _
  | succ levels ih =>
    rw [partitionTree]
    split_ifs with hstop
    · exact le_max_right _ _
    · have hleft := ih left (left + (right - left) / 2 - 1)
      have hright := ih (left + (right - left) / 2 + 1) right
      rw [List.length_append]
      omega

theorem Tiles.pairwise (h : Tiles left right s) : s.Pairwise fun a b => a.2 + 2 ≤ b.1 := by
  let R : ℤ × ℤ → ℤ × ℤ → Prop := fun a b => a.2 + 2 ≤ b.1 ∧ b.1 ≤ b.2 + 1
  have : Trans R R R := ⟨fun hab hbc => ⟨by have := hab.1; have := hab.2; have := hbc.1; omega,
    hbc.2⟩⟩
  have hchain : s.IsChain R := h.chain.imp_of_mem_imp fun a b _ hb hab =>
    ⟨hab.ge, (h.within b hb).2.1⟩
  exact (List.isChain_iff_pairwise.1 hchain).imp And.left

/-- Two neighbours with the number between them are one range. -/
theorem Tiles.merge (h : Tiles left right (pre ++ a :: b :: post)) :
    Tiles left right (pre ++ (a.1, b.2) :: post) := by
  obtain ⟨-, hfirst, hlast, hchain, hwithin⟩ := h
  obtain ⟨hpre, hab, hpost⟩ := List.isChain_append_cons_cons.1 hchain
  have ha := hwithin a (by simp)
  have hb := hwithin b (by simp)
  refine ⟨by simp, ?_, ?_, ?_, ?_⟩
  · cases pre with
    | nil =>
      intro c hc
      obtain rfl := Option.some.inj hc
      exact hfirst a rfl
    | cons c pre => exact hfirst
  · cases post with
    | nil => simpa using hlast
    | cons c post => simpa using hlast
  · obtain ⟨hpre, -, hnext⟩ := List.isChain_append.1 hpre
    refine List.isChain_append.2 ⟨hpre, ?_, fun c hc d hd => ?_⟩
    rotate_left
    · obtain rfl := Option.some.inj hd
      exact hnext c hc a rfl
    · cases post with
      | nil => exact .singleton _
      | cons c post =>
        obtain ⟨hbc, hpost⟩ := List.isChain_cons_cons.1 hpost
        exact List.isChain_cons_cons.2 ⟨hbc, hpost⟩
  · intro c hc
    rcases List.mem_append.1 hc with hc | hc
    · exact hwithin c (List.mem_append_left _ hc)
    · rcases List.mem_cons.1 hc with rfl | hc
      · exact ⟨ha.1, by dsimp only; omega, hb.2.2⟩
      · exact hwithin c (by simp [hc])

/-- Between two neighbours. -/
theorem Tiles.next (h : Tiles left right (pre ++ a :: b :: post)) :
    b.1 = a.2 + 2 ∧ left ≤ a.2 + 1 ∧ a.2 + 1 ≤ right := by
  have hab := (List.isChain_append_cons_cons.1 h.chain).2.1
  have ha := h.within a (by simp)
  have hb := h.within b (by simp)
  omega

end

/-! ## Roots that were not set -/

section
variable {K V H : Type} {N : NodeHash K V H} {pairs : List (KeyValuePair K V)}

def ranges (s : List (SubtreeInfo H)) : List (ℤ × ℤ) := s.map fun x => (x.left, x.right)

theorem ranges_partitionTreeToFile (junk : ℕ → SubtreeInfo H) (treeSize maxDepth : ℕ) :
    ranges (partitionTreeToFile junk treeSize maxDepth) = partitionTree maxDepth 0
      (treeSize - 1) := by
  refine List.ext_getElem? fun i => ?_
  rw [ranges, partitionTreeToFile, List.getElem?_map, List.getElem?_mapIdx, Option.map_map]
  exact congrFun Option.map_id _

section
variable {left right : ℤ} {pre post : List (SubtreeInfo H)} {x y z : SubtreeInfo H}

theorem Tiles.next_ranges (h : Tiles left right (ranges (pre ++ x :: y :: post))) :
    y.left = x.right + 2 ∧ left ≤ x.right + 1 ∧ x.right + 1 ≤ right := by
  rw [ranges, List.map_append] at h
  exact h.next

theorem Tiles.ranges_split (h : Tiles left right (ranges (pre ++ x :: post))) :
    (∀ w ∈ pre, w.right + 2 ≤ x.left) ∧ ∀ w ∈ post, x.right + 2 ≤ w.left := by
  have hpairwise := h.pairwise
  rw [ranges, List.pairwise_map, List.pairwise_append, List.pairwise_cons] at hpairwise
  obtain ⟨-, ⟨hpost, -⟩, hpre⟩ := hpairwise
  exact ⟨fun w hw => hpre w hw x List.mem_cons_self, hpost⟩

theorem Tiles.ranges_mem (h : Tiles left right (ranges (pre ++ x :: post))) :
    left ≤ x.left ∧ x.left ≤ x.right + 1 ∧ x.right ≤ right :=
  h.within _ (List.mem_map.2 ⟨x, List.mem_append_right _ List.mem_cons_self, rfl⟩)

theorem Tiles.merge_ranges (h : Tiles left right (ranges (pre ++ x :: y :: post)))
    (hl : z.left = x.left) (hr : z.right = y.right) :
    Tiles left right (ranges (pre ++ z :: post)) := by
  rw [ranges, List.map_append, List.map_cons, hl, hr]
  rw [ranges, List.map_append] at h
  exact h.merge

end

/-- The entry has the root and the height of the tree. -/
def SubtreeInfo.Of (N : NodeHash K V H) (x : SubtreeInfo H) (t : Tree K (Payload V)) : Prop :=
  x.root = hashOf N t ∧ x.height = t.height

theorem exists_mergePair {x y : SubtreeInfo H} {pair : KeyValuePair K V}
    (buf : List (H × TreeNode K V H)) (hpair : pairs[(x.right + 1).toNat]? = some pair) :
    ∃ z buf', mergePair N pairs x y buf = some (z, buf') ∧ z.left = x.left ∧ z.right = y.right ∧
      ∀ l r, x.Of N l → y.Of N r → z.Of N (.node l pair.key (singleValue pair.value) r) := by
  rw [mergePair, hpair, Option.bind_eq_bind, Option.bind_some]
  refine ⟨_, _, rfl, rfl, rfl, fun l r hx hy => ⟨?_, ?_⟩⟩
  · rw [hashOf, ← hx.1, ← hx.2, ← hy.1, ← hy.2, pairNode]
  · rw [Avl.Tree.height, ← hx.2, ← hy.2, pairNode]

/-- The entries have trees, and a number that is one for each entry and each node of the trees. -/
inductive Counts (N : NodeHash K V H) : List (SubtreeInfo H) → ℕ → Prop
  | nil : Counts N [] 0
  | cons {x s n} {t : Tree K (Payload V)} : x.Of N t → Counts N s n →
    Counts N (x :: s) (t.toList.length + 1 + n)

theorem counts_of_null {s : List (SubtreeInfo H)} (h : ∀ x ∈ s, x.Of N .nil) :
    Counts N s s.length := by
  induction s with
  | nil => exact .nil
  | cons x s ih =>
    obtain ⟨hx, hs⟩ := List.forall_mem_cons.1 h
    rw [List.length_cons, Nat.add_comm, ← Nat.zero_add 1]
    exact .cons hx (ih hs)

theorem Counts.merge {pre post : List (SubtreeInfo H)} {x y z : SubtreeInfo H} {n : ℕ}
    (h : Counts N (pre ++ x :: y :: post) n)
    (hz : ∀ l r, x.Of N l → y.Of N r →
      ∃ t, z.Of N t ∧ t.toList.length = l.toList.length + r.toList.length + 1) :
    Counts N (pre ++ z :: post) n := by
  induction pre generalizing n with
  | nil =>
    cases h with
    | @cons _ _ _ l hx h =>
      cases h with
      | @cons _ _ m r hy hpost =>
        obtain ⟨t, ht, hlen⟩ := hz l r hx hy
        have hsum : l.toList.length + 1 + (r.toList.length + 1 + m) = t.toList.length + 1 + m := by
          omega
        rw [hsum]
        exact .cons ht hpost
  | cons w pre ih =>
    cases h with
    | cons hw hpre => exact .cons hw (ih hpre)

theorem merges_counts (N : NodeHash K V H) (pairs : List (KeyValuePair K V)) (n : ℕ) :
    Merges (mergePair N pairs) fun _ s => Tiles 0 (pairs.length - 1) (ranges s) ∧ Counts N s n := by
  intro buf pre x y post ⟨htiles, hcounts⟩
  have hnext := htiles.next_ranges
  have hpair : pairs[(x.right + 1).toNat]? = some (pairs.get ⟨(x.right + 1).toNat, by omega⟩) :=
    List.getElem?_eq_getElem _
  obtain ⟨z, buf', hz, hl, hr, hof⟩ := exists_mergePair buf hpair
  refine ⟨z, buf', hz, htiles.merge_ranges hl hr, hcounts.merge fun l r hx hy =>
    ⟨_, hof l r hx hy, ?_⟩⟩
  rw [Avl.Tree.toList, List.length_append, List.length_cons]
  omega

/-- The files are as they were before. -/
theorem buildOneSubtreeBottomUp_eq {files files' : Files K V H} {subtreeId : ℕ}
    (h : buildOneSubtreeBottomUp N pairs files subtreeId = some files') : files' = files := by
  simp only [buildOneSubtreeBottomUp, Option.bind_eq_bind, Option.bind_eq_some_iff,
    Option.ite_none_left_eq_some] at h
  obtain ⟨_, _, _, _, _, _, _, h⟩ := h
  exact (Option.some.inj h).symm

theorem foldlM_buildOneSubtreeBottomUp_eq {files files' : Files K V H} {ids : List ℕ}
    (h : ids.foldlM (buildOneSubtreeBottomUp N pairs) files = some files') : files' = files := by
  induction ids with
  | nil => exact (Option.some.inj h).symm
  | cons i ids ih =>
    rw [List.foldlM_cons, Option.bind_eq_bind, Option.bind_eq_some_iff] at h
    obtain ⟨files₁, hone, h⟩ := h
    obtain rfl := buildOneSubtreeBottomUp_eq hone
    exact ih h

def blank (N : NodeHash K V H) : SubtreeInfo H := ⟨0, 0, 0, N.null, 0⟩

/-- With blank memory, the root that is returned is that of a tree with too few nodes. -/
theorem exists_root_blank {files : Files K V H} {root : H} {maxDepth : ℕ} (hpairs : pairs ≠ [])
    (hrun : buildTreeBottomUp N (fun _ => blank N) pairs maxDepth = some (files, root)) :
    ∃ t, root = hashOf N t ∧ t.toList.length < pairs.length := by
  have hpos := List.length_pos_iff.2 hpairs
  let info := partitionTreeToFile (fun _ => blank N) pairs.length maxDepth
  have hranges : ranges info = partitionTree maxDepth 0 (pairs.length - 1) :=
    ranges_partitionTreeToFile ..
  have htiles : Tiles 0 (pairs.length - 1) (ranges info) :=
    hranges ▸ tiles_partitionTree maxDepth (by omega)
  have hne : info ≠ [] := fun h => htiles.ne_nil (congrArg ranges h)
  have hlen : info.length ≤ pairs.length := by
    have hle := length_partitionTree_le maxDepth 0 (pairs.length - 1)
    rw [← hranges, ranges, List.length_map] at hle
    omega
  have hnull : ∀ x ∈ info, x.Of N .nil := by
    intro x hx
    obtain ⟨i, hi, rfl⟩ := List.mem_mapIdx.1 hx
    exact ⟨rfl, rfl⟩
  have hinv : (fun (_ : List (H × TreeNode K V H)) s => Tiles 0 (pairs.length - 1) (ranges s) ∧
      Counts N s info.length) [] info := ⟨htiles, counts_of_null hnull⟩
  obtain ⟨z, s, buf, dropped, hlevels, ⟨-, hcounts⟩, -⟩ := (merges_counts N pairs _).all hne hinv
  simp only [buildTreeBottomUp, Option.bind_eq_bind, Option.bind_eq_some_iff] at hrun
  obtain ⟨files₁, hloop, files₂, hmerge, root', hroot, heq⟩ := hrun
  obtain rfl := foldlM_buildOneSubtreeBottomUp_eq hloop
  obtain ⟨-, rfl⟩ := Prod.mk.inj (Option.some.inj heq)
  rw [mergeTrees, Option.bind_eq_bind, hlevels] at hmerge
  obtain rfl := Option.some.inj hmerge
  obtain rfl := Option.some.inj hroot
  generalize info.length = n at hcounts hlen
  cases hcounts with
  | @cons _ _ _ t hz _ => exact ⟨t, hz.1, by omega⟩

def entries (N : NodeHash K V H) : Avl.Tree K (Payload V) → List (H × TreeNode K V H)
  | .nil => []
  | .node l k v r => entries N l ++ entries N r ++ [(hashOf N (.node l k v r), nodeOf N l k v r)]

/-- The root is that of a balanced tree with the pairs in order, and all of its nodes are in the
files. The heights in the nodes are those of the subtrees. -/
structure IsIndex (N : NodeHash K V H) (pairs : List (KeyValuePair K V)) (files : Files K V H)
    (root : H) (t : Avl.Tree K (Payload V)) : Prop where
  root : root = hashOf N t
  toList : t.toList = pairs.map fun p => (p.key, singleValue p.value)
  balanced : t.Balanced
  written : ∀ x ∈ entries N t, ∃ i file, files.nodes i = some file ∧ x ∈ file

/-- There is no list of pairs whose tree is right whatever is in the memory that is not set. -/
theorem not_isIndex (N : NodeHash K V H) {pairs : List (KeyValuePair K V)} (hpairs : pairs ≠ [])
    (maxDepth : ℕ) : ¬ ∀ junk, ∃ files root t,
      buildTreeBottomUp N junk pairs maxDepth = some (files, root) ∧
        IsIndex N pairs files root t := by
  intro h
  obtain ⟨files, root, t, hrun, hindex⟩ := h fun _ => blank N
  obtain ⟨t', hroot, hlt⟩ := exists_root_blank hpairs hrun
  obtain rfl : t = t' := hashOf_injective (N := N) (hindex.root.symm.trans hroot)
  rw [hindex.toList, List.length_map] at hlt
  exact lt_irrefl _ hlt

end

theorem not_isIndex_single : ¬ ∀ junk, ∃ files root t,
    buildTreeBottomUp freeHash junk [⟨1, 7, 0⟩] 1 = some (files, root) ∧
      IsIndex freeHash [⟨1, 7, 0⟩] files root t :=
  not_isIndex freeHash (List.cons_ne_nil _ _) 1

/-- The root is that of the empty tree, and no node is written. -/
theorem buildTreeBottomUp_single :
    ((buildTreeBottomUp freeHash (fun _ => blank freeHash) [⟨1, 7, 0⟩] 1).map fun (files, root) =>
      (root, (files.nodes 0).map List.length, (files.nodes 1).map List.length)) =
        some (.null, none, some 0) := by decide +kernel

end Pequin.IndexTree
