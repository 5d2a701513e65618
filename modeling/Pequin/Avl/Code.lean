import Mathlib.Data.Vector.Basic
import Mathlib.Logic.Function.Basic
import Mathlib.Order.Basic
import Mathlib.Tactic.Common

/-!
# A persistent AVL tree in a store of hashes

The nodes of a tree are in a content-addressed store and refer to their children by hash. An update
collects the nodes on the search path, changes the last one, and puts the nodes back from the bottom
with the new hashes and heights, rotating where the tree has lost its balance.

A path is the list of the nodes from the root with the branch taken at each. To get a hash that is
not in the store has no result.
-/

namespace Pequin.AvlTree

def maxTreeDepth : ℕ := 12

def maxTreeResults : ℕ := 5

def maxTreeNodeValues : ℕ := 1

structure Payload (V : Type) where
  numValues : ℕ
  values : Vector V maxTreeNodeValues
deriving DecidableEq

structure TreeNode (K V H : Type) extends Payload V where
  left : H
  right : H
  key : K
  height : ℕ
  heightLeft : ℕ
  heightRight : ℕ
deriving DecidableEq

/-- A node with the positions of its children and rows in files instead of their hashes. -/
structure CompressedTreeNode (K : Type) where
  left : ℕ
  right : ℕ
  key : K
  numValues : ℕ
  values : Vector ℕ maxTreeNodeValues
  height : ℕ
  heightLeft : ℕ
  heightRight : ℕ
deriving DecidableEq

inductive TreeBranch
  | left
  | equals
  | right
deriving DecidableEq

/-- The hash of nodes: no two nodes have the same one, and none has the null hash. -/
structure NodeHash (K V H : Type) where
  hash : TreeNode K V H → H
  null : H
  injective : Function.Injective hash
  ne_null : ∀ n, hash n ≠ null

/-- The hash of a node is the node, with the hashes of its subtrees in it. -/
inductive FreeHash
  | null
  | of (left right : FreeHash) (key numValues value height heightLeft heightRight : ℕ)
deriving DecidableEq

def freeHash : NodeHash ℕ ℕ FreeHash where
  hash n := .of n.left n.right n.key n.numValues n.values[0] n.height n.heightLeft n.heightRight
  null := .null
  injective := by
    rintro ⟨⟨num, values⟩, left, right, key, h, hl, hr⟩ ⟨⟨num', values'⟩, left', right',
      key', h', hl', hr'⟩ heq
    obtain ⟨rfl, rfl, rfl, rfl, hvalue, rfl, rfl, rfl⟩ := FreeHash.of.inj heq
    have hvalues : values = values' := by
      apply Vector.ext
      intro i hi
      obtain rfl : i = 0 := Nat.lt_one_iff.1 hi
      exact hvalue
    rw [hvalues]
  ne_null _ := nofun

variable {K V H : Type} [LinearOrder K] [DecidableEq V] [DecidableEq H]

abbrev NodeStore (K V H : Type) := H → Option (TreeNode K V H)

abbrev TreePath (K V H : Type) := List (TreeNode K V H × TreeBranch)

structure TreeState (K V H : Type) where
  root : H
  store : NodeStore K V H

/-! ## Values of a node -/

section
variable (p : Payload V)

/-- `_copy_value`: the flags are `found` and `success`. -/
def copyValue (value : V) : Bool × Payload V :=
  let (_, success, p) := (List.finRange maxTreeNodeValues).foldl
    (fun (found, success, p) (i : Fin maxTreeNodeValues) =>
    if i < p.numValues ∧ p.values[i] = value then (true, success, p)
    else if ¬ found ∧ i = p.numValues then (found, true, { p with values := p.values.set i value })
    else (found, success, p)) (false, false, p)
  (success, if success then { p with numValues := p.numValues + 1 } else p)

/-- `_replace_value`: the flags are `inserted`, `replaced` and `success`. -/
def replaceValue (oldValue newValue : V) : Bool × Payload V :=
  let (inserted, _, success, p) := (List.finRange maxTreeNodeValues).foldl
    (fun (inserted, replaced, success, p) (i : Fin maxTreeNodeValues) =>
      if i < p.numValues ∧ p.values[i] = oldValue then
        (inserted, true, true, { p with values := p.values.set i newValue })
      else if ¬ replaced ∧ i = p.numValues then
        (true, replaced, true, { p with values := p.values.set i newValue })
      else (inserted, replaced, success, p)) (false, false, false, p)
  (success, if inserted then { p with numValues := p.numValues + 1 } else p)

/-- The loop of `tree_remove_value`. -/
def eraseValue (value : V) : Bool × Payload V :=
  let (removed, p) := (List.finRange maxTreeNodeValues).foldl
    (fun (removed, p) (i : Fin maxTreeNodeValues) =>
    if i < p.numValues then
      if p.values[i] = value then (true, p)
      else if removed ∧ 0 < i.val then
        (removed, { p with values := p.values.set (i.val - 1) p.values[i] })
      else (removed, p)
    else (removed, p)) (false, p)
  (removed, if removed then { p with numValues := p.numValues - 1 } else p)

end

/-! ## The store -/

section
variable (N : NodeHash K V H)

/-- `hashput`: the hash of the node, and the store with the node. -/
def hashput (st : NodeStore K V H) (n : TreeNode K V H) : H × NodeStore K V H :=
  (N.hash n, Function.update st (N.hash n) (some n))

def rotateLeftLeft (root : TreeNode K V H) (st : NodeStore K V H) :
    Option (TreeNode K V H × NodeStore K V H) := do
  let left ← st root.left
  let oldRoot := { root with left := left.right, heightLeft := left.heightRight }
  let oldRoot := { oldRoot with height := max oldRoot.heightLeft oldRoot.heightRight + 1 }
  let (h, st) := hashput N st oldRoot
  let root := { left with right := h, heightRight := oldRoot.height }
  some ({ root with height := max root.heightLeft root.heightRight + 1 }, st)

def rotateRightRight (root : TreeNode K V H) (st : NodeStore K V H) :
    Option (TreeNode K V H × NodeStore K V H) := do
  let right ← st root.right
  let oldRoot := { root with right := right.left, heightRight := right.heightLeft }
  let oldRoot := { oldRoot with height := max oldRoot.heightLeft oldRoot.heightRight + 1 }
  let (h, st) := hashput N st oldRoot
  let root := { right with left := h, heightLeft := oldRoot.height }
  some ({ root with height := max root.heightLeft root.heightRight + 1 }, st)

def rotateLeftRight (root : TreeNode K V H) (st : NodeStore K V H) :
    Option (TreeNode K V H × NodeStore K V H) := do
  let left ← st root.left
  let leftRight ← st left.right
  let oldRoot := { root with left := leftRight.right, heightLeft := leftRight.heightRight }
  let oldRoot := { oldRoot with height := max oldRoot.heightLeft oldRoot.heightRight + 1 }
  let left := { left with right := leftRight.left, heightRight := leftRight.heightLeft }
  let left := { left with height := max left.heightLeft left.heightRight + 1 }
  let root := { leftRight with heightLeft := left.height, heightRight := oldRoot.height }
  let root := { root with height := max root.heightLeft root.heightRight + 1 }
  let (hl, st) := hashput N st left
  let (hr, st) := hashput N st oldRoot
  some ({ root with left := hl, right := hr }, st)

def rotateRightLeft (root : TreeNode K V H) (st : NodeStore K V H) :
    Option (TreeNode K V H × NodeStore K V H) := do
  let right ← st root.right
  let rightLeft ← st right.left
  let oldRoot := { root with right := rightLeft.left, heightRight := rightLeft.heightLeft }
  let oldRoot := { oldRoot with height := max oldRoot.heightRight oldRoot.heightLeft + 1 }
  let right := { right with left := rightLeft.right, heightLeft := rightLeft.heightRight }
  let right := { right with height := max right.heightRight right.heightLeft + 1 }
  let root := { rightLeft with heightRight := right.height, heightLeft := oldRoot.height }
  let root := { root with height := max root.heightRight root.heightLeft + 1 }
  let (hr, st) := hashput N st right
  let (hl, st) := hashput N st oldRoot
  some ({ root with right := hr, left := hl }, st)

/-! ## Paths -/

/-- `_find_path`, for at most the given number of nodes from a hash on: whether the key was found,
and the path. -/
def findPath (st : NodeStore K V H) (key : K) : ℕ → H → Option (Bool × TreePath K V H)
  | 0, _ => some (false, [])
  | n + 1, h =>
    if h = N.null then some (false, [])
    else do
      let node ← st h
      if key = node.key then some (true, [(node, .equals)])
      else if key < node.key then do
        let (found, path) ← findPath st key n node.left
        some (found, (node, .left) :: path)
      else do
        let (found, path) ← findPath st key n node.right
        some (found, (node, .right) :: path)

/-- The rotation of a node whose subtree `previous` on the given side was changed. -/
def rebalance (branch : TreeBranch) (node previous : TreeNode K V H) (st : NodeStore K V H) :
    Option (TreeNode K V H × NodeStore K V H) :=
  match branch with
  | .left =>
    if (node.heightLeft : ℤ) - node.heightRight = 2 then
      if (previous.heightLeft : ℤ) - previous.heightRight = 1 then rotateLeftLeft N node st
      else rotateLeftRight N node st
    else some (node, st)
  | .right =>
    if (node.heightLeft : ℤ) - node.heightRight = -2 then
      if (previous.heightLeft : ℤ) - previous.heightRight = -1 then rotateRightRight N node st
      else rotateRightLeft N node st
    else some (node, st)
  | .equals => some (node, st)

def relink (branch : TreeBranch) (node previous : TreeNode K V H) (h : H) : TreeNode K V H :=
  match branch with
  | .left =>
    let node := { node with left := h, heightLeft := previous.height }
    { node with height := max node.heightLeft node.heightRight + 1 }
  | .right =>
    let node := { node with right := h, heightRight := previous.height }
    { node with height := max node.heightLeft node.heightRight + 1 }
  | .equals => node

/-- The loop of `_recompute_path`, from the bottom: the node and hash it ends with. -/
def recomputePath (st : NodeStore K V H) :
    TreePath K V H → Option (TreeNode K V H × H × NodeStore K V H)
  | [] => none
  | [(node, _)] =>
    let (h, st) := hashput N st node
    some (node, h, st)
  | (node, branch) :: path => do
    let (previous, h, st) ← recomputePath st path
    let (node, st) ← rebalance N branch (relink branch node previous h) previous st
    let (h, st) := hashput N st node
    some (node, h, st)

/-- `WITH_PATH_NODE`: the last node of a path gets other values. -/
def setLast (path : TreePath K V H) (p : Payload V) : TreePath K V H :=
  path.dropLast ++ (path.getLast?.map fun (node, branch) =>
    ({ node with toPayload := p }, branch)).toList

/-! ## Updates -/

def treeInit (st : NodeStore K V H) : TreeState K V H := ⟨N.null, st⟩

/-- The new root after the nodes of a path are put back. -/
def putPath (s : TreeState K V H) (path : TreePath K V H) : Option (TreeState K V H) := do
  let (_, h, st) ← recomputePath N s.store path
  some ⟨h, st⟩

def newNode (key : K) (value : V) : TreeNode K V H :=
  { left := N.null, right := N.null, key, numValues := 1, values := Vector.replicate _ value
    height := 1, heightLeft := 0, heightRight := 0 }

/-- The body of `tree_insert` and `tree_update`: `change` is what happens to the values of the key
if it has a node. -/
def treePut (s : TreeState K V H) (key : K) (value : V) (change : Payload V → Bool × Payload V) :
    Option (Bool × TreeState K V H) := do
  let (found, path) ← findPath N s.store key maxTreeDepth s.root
  if found then do
    let (node, _) ← path.getLast?
    let (success, p) := change node.toPayload
    if success then do
      let s ← putPath N s (setLast path p)
      some (true, s)
    else some (false, s)
  else if path.length < maxTreeDepth then do
    -- the branch of the new node is not set and not used
    let s ← putPath N s (path ++ [(newNode N key value, .equals)])
    some (true, s)
  else some (false, s)

def treeInsert (s : TreeState K V H) (key : K) (value : V) : Option (Bool × TreeState K V H) :=
  treePut N s key value (copyValue · value)

def treeUpdate (s : TreeState K V H) (key : K) (oldValue newValue : V) :
    Option (Bool × TreeState K V H) :=
  treePut N s key newValue (replaceValue · oldValue newValue)

/-- The values are erased, the node stays. -/
def treeRemove (s : TreeState K V H) (key : K) : Option (Bool × TreeState K V H) := do
  let (found, path) ← findPath N s.store key maxTreeDepth s.root
  if found then do
    let (node, _) ← path.getLast?
    let s ← putPath N s (setLast path { node.toPayload with numValues := 0 })
    some (true, s)
  else some (false, s)

def treeRemoveValue (s : TreeState K V H) (key : K) (value : V) :
    Option (Bool × TreeState K V H) := do
  let (found, path) ← findPath N s.store key maxTreeDepth s.root
  if found then do
    let (node, _) ← path.getLast?
    let (removed, p) := eraseValue node.toPayload value
    if removed then do
      let s ← putPath N s (setLast path p)
      some (true, s)
    else some (true, s)
  else some (false, s)

/-! ## Queries -/

/-- `_copy_result` -/
def copyResult (results : List (K × V)) (key : K) (value : V) : List (K × V) :=
  if results.length < maxTreeResults then results ++ [(key, value)] else results

/-- `_copy_results` -/
def copyResults (results : List (K × V)) (node : TreeNode K V H) : List (K × V) :=
  (List.finRange maxTreeNodeValues).foldl (fun results (i : Fin maxTreeNodeValues) =>
    if i < node.numValues then copyResult results node.key node.values[i] else results) results

/-- The loop of `tree_find_eq`. -/
def findEqLoop (st : NodeStore K V H) (key : K) : ℕ → H → Option (List (K × V))
  | 0, _ => some []
  | n + 1, h =>
    if h = N.null then some []
    else do
      let node ← st h
      if key = node.key then some (copyResults [] node)
      else if key < node.key then findEqLoop st key n node.left
      else findEqLoop st key n node.right

def treeFindEq (s : TreeState K V H) (key : K) : Option (List (K × V)) :=
  findEqLoop N s.store key maxTreeDepth s.root

end

end Pequin.AvlTree
