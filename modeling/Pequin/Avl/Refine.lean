import Pequin.Avl.Code
import Pequin.Lib.Avl

/-!
# The stored tree

A hash stands for a search tree if the store has its nodes, with the hashes and heights of their
subtrees. Since no two nodes have the same hash, the hash of a tree is a function of the tree. The
paths that the code collects are the search paths of the tree, and putting a changed path back gives
the hash of the updated AVL tree.
-/

namespace Pequin.AvlTree

open Avl Avl.Tree

variable {K V H : Type}

section
variable (N : NodeHash K V H)

/-! ## Hashes of trees -/

def hashOf : Tree K (Payload V) → H
  | nil => N.null
  | .node l k v r => N.hash
    { toPayload := v, left := hashOf l, right := hashOf r, key := k
      height := max l.height r.height + 1, heightLeft := l.height, heightRight := r.height }

def nodeOf (l : Tree K (Payload V)) (k : K) (v : Payload V) (r : Tree K (Payload V)) :
    TreeNode K V H :=
  { toPayload := v, left := hashOf N l, right := hashOf N r, key := k
    height := max l.height r.height + 1, heightLeft := l.height, heightRight := r.height }

def Holds (st : NodeStore K V H) : Tree K (Payload V) → Prop
  | nil => True
  | .node l k v r => st (hashOf N (.node l k v r)) = some (nodeOf N l k v r) ∧
      Holds st l ∧ Holds st r

def Coherent (st : NodeStore K V H) : Prop := ∀ h n, st h = some n → N.hash n = h

def Extends (st st' : NodeStore K V H) : Prop := ∀ h n, st h = some n → st' h = some n

end

section
variable {N : NodeHash K V H} {st st' : NodeStore K V H}

theorem Holds.mono {t : Tree K (Payload V)} (h : Holds N st t) (hext : Extends st st') :
    Holds N st' t := by
  induction t with
  | nil => trivial
  | node l k v r ihl ihr => exact ⟨hext _ _ h.1, ihl h.2.1, ihr h.2.2⟩

theorem Extends.refl (st : NodeStore K V H) : Extends st st := fun _ _ h => h

theorem Extends.trans {st'' : NodeStore K V H} (h : Extends st st') (h' : Extends st' st'') :
    Extends st st'' := fun _ _ hn => h' _ _ (h _ _ hn)

theorem hashOf_ne_null (l : Tree K (Payload V)) (k : K) (v : Payload V) (r : Tree K (Payload V)) :
    hashOf N (.node l k v r) ≠ N.null := N.ne_null _

theorem hashOf_injective : Function.Injective (hashOf N) := by
  intro t t' h
  induction t generalizing t' with
  | nil =>
    cases t' with
    | nil => rfl
    | node l k v r => exact absurd h.symm (hashOf_ne_null l k v r)
  | node l k v r ihl ihr =>
    cases t' with
    | nil => exact absurd h (hashOf_ne_null l k v r)
    | node l' k' v' r' =>
      have hnode := N.injective h
      simp only [TreeNode.mk.injEq] at hnode
      obtain ⟨rfl, hl, hr, rfl, -⟩ := hnode
      rw [ihl hl, ihr hr]

structure Grows (N : NodeHash K V H) (st st' : NodeStore K V H) : Prop where
  coherent : Coherent N st'
  ext : Extends st st'

theorem Grows.refl (h : Coherent N st) : Grows N st st := ⟨h, .refl _⟩

theorem Grows.trans {st'' : NodeStore K V H} (h : Grows N st st') (h' : Grows N st' st'') :
    Grows N st st'' := ⟨h'.coherent, h.ext.trans h'.ext⟩

/-! ## Search paths -/

theorem setLast_cons (x : TreeNode K V H × TreeBranch) {path : TreePath K V H} (h : path ≠ [])
    (p : Payload V) : setLast (x :: path) p = x :: setLast path p := by
  rw [setLast, setLast, List.dropLast_cons_of_ne_nil h, List.getLast?_cons_of_ne_nil h]
  rfl

section
variable [LinearOrder K]

def searchPath (N : NodeHash K V H) (key : K) : Tree K (Payload V) → TreePath K V H
  | nil => []
  | .node l k v r =>
    if key = k then [(nodeOf N l k v r, .equals)]
    else if key < k then (nodeOf N l k v r, .left) :: searchPath N key l
    else (nodeOf N l k v r, .right) :: searchPath N key r

/-- The search path with new values for the key, in a new node if it had none. -/
def changedPath (N : NodeHash K V H) (key : K) (g : Option (Payload V) → Payload V) :
    Tree K (Payload V) → TreePath K V H
  | nil => [(nodeOf N nil key (g none) nil, .equals)]
  | .node l k v r =>
    if key = k then [(nodeOf N l k (g (some v)) r, .equals)]
    else if key < k then (nodeOf N l k v r, .left) :: changedPath N key g l
    else (nodeOf N l k v r, .right) :: changedPath N key g r

theorem length_searchPath (key : K) (t : Tree K (Payload V)) :
    (searchPath N key t).length = t.pathLength key := by
  induction t with
  | nil => rfl
  | node l k v r ihl ihr =>
    rw [searchPath, pathLength]
    split_ifs <;> simp [*]

variable {t : Tree K (Payload V)}

theorem searchPath_ne_nil (key : K) (h : t ≠ nil) : searchPath N key t ≠ [] := by
  cases t with
  | nil => exact absurd rfl h
  | node l k v r =>
    rw [searchPath]
    split_ifs <;> exact List.cons_ne_nil _ _

theorem changedPath_ne_nil (key : K) (g : Option (Payload V) → Payload V)
    (t : Tree K (Payload V)) : changedPath N key g t ≠ [] := by
  cases t with
  | nil => exact List.cons_ne_nil _ _
  | node l k v r =>
    rw [changedPath]
    split_ifs <;> exact List.cons_ne_nil _ _

/-- The path ends at the node of the key if it has one. -/
theorem getLast_searchPath {key : K} {v : Payload V} (h : t.lookup key = some v) :
    ∃ n, (searchPath N key t).getLast? = some (n, .equals) ∧ n.toPayload = v := by
  induction t with
  | nil => exact nomatch h
  | node l k w r ihl ihr =>
    rw [lookup] at h
    rw [searchPath]
    split_ifs at h ⊢
    · exact ⟨_, rfl, Option.some.inj h⟩
    · have hne : l ≠ nil := fun hnil => by rw [hnil] at h; exact nomatch h
      rw [List.getLast?_cons_of_ne_nil (searchPath_ne_nil key hne)]
      exact ihl h
    · have hne : r ≠ nil := fun hnil => by rw [hnil] at h; exact nomatch h
      rw [List.getLast?_cons_of_ne_nil (searchPath_ne_nil key hne)]
      exact ihr h

theorem setLast_searchPath {key : K} {v : Payload V} (h : t.lookup key = some v)
    (g : Option (Payload V) → Payload V) :
    setLast (searchPath N key t) (g (some v)) = changedPath N key g t := by
  induction t with
  | nil => exact nomatch h
  | node l k w r ihl ihr =>
    rw [lookup] at h
    rw [searchPath, changedPath]
    split_ifs at h ⊢
    · rw [Option.some.inj h]
      rfl
    · have hne : l ≠ nil := fun hnil => by rw [hnil] at h; exact nomatch h
      rw [setLast_cons _ (searchPath_ne_nil key hne), ihl h]
    · have hne : r ≠ nil := fun hnil => by rw [hnil] at h; exact nomatch h
      rw [setLast_cons _ (searchPath_ne_nil key hne), ihr h]

theorem searchPath_append {key : K} (h : t.lookup key = none) (g : Option (Payload V) → Payload V) :
    searchPath N key t ++ [(nodeOf N nil key (g none) nil, .equals)] = changedPath N key g t := by
  induction t with
  | nil => rfl
  | node l k w r ihl ihr =>
    rw [lookup] at h
    rw [searchPath, changedPath]
    split_ifs at h ⊢
    · rw [List.cons_append, ihl h]
    · rw [List.cons_append, ihr h]

end

section
variable [DecidableEq H]

theorem Coherent.extends_hashput (h : Coherent N st) (n : TreeNode K V H) :
    Extends st (hashput N st n).2 := by
  intro h' n' hn
  by_cases heq : h' = N.hash n
  · have hsame : n' = n := N.injective ((h _ _ hn).trans heq)
    rw [heq, hsame]
    exact Function.update_self ..
  · exact (Function.update_of_ne heq ..).trans hn

theorem Coherent.hashput (h : Coherent N st) (n : TreeNode K V H) :
    Coherent N (hashput N st n).2 := by
  intro h' n' hn
  by_cases heq : h' = N.hash n
  · rw [heq] at hn
    have hself : (AvlTree.hashput N st n).2 (N.hash n) = some n := Function.update_self ..
    rw [← Option.some.inj (hself.symm.trans hn), heq]
  · exact h h' n' ((Function.update_of_ne heq ..).symm.trans hn)

theorem Grows.hashput (h : Grows N st st') (n : TreeNode K V H) : Grows N st (hashput N st' n).2 :=
  ⟨h.coherent.hashput n, h.ext.trans (h.coherent.extends_hashput n)⟩

theorem holds_hashput (hc : Coherent N st) {l r : Tree K (Payload V)} (hl : Holds N st l)
    (hr : Holds N st r) (k : K) (v : Payload V) :
    Holds N (hashput N st (nodeOf N l k v r)).2 (.node l k v r) :=
  have hext := hc.extends_hashput (nodeOf N l k v r)
  ⟨Function.update_self .., hl.mono hext, hr.mono hext⟩

/-! ## Rotations -/

section
variable {a b c d : Tree K (Payload V)} {x y z : K} {u v w : Payload V}

/-- What a rotation does: its result is the root node of a tree whose subtrees are stored. -/
def Rotates (N : NodeHash K V H) (st : NodeStore K V H)
    (result : Option (TreeNode K V H × NodeStore K V H)) (l : Tree K (Payload V)) (k : K)
    (v : Payload V) (r : Tree K (Payload V)) : Prop :=
  ∃ st', result = some (nodeOf N l k v r, st') ∧ Grows N st st' ∧ Holds N st' l ∧ Holds N st' r

/-- The result is the root node of a tree that is not empty, with its subtrees in the store. -/
def Rebuilds (N : NodeHash K V H) (st : NodeStore K V H)
    (result : Option (TreeNode K V H × NodeStore K V H)) (t : Tree K (Payload V)) : Prop :=
  ∃ l k v r, t = .node l k v r ∧ Rotates N st result l k v r

variable (hc : Coherent N st)
include hc

theorem rotates_leftLeft (hl : Holds N st (.node a y w b)) (hr : Holds N st c) :
    Rotates N st (rotateLeftLeft N (nodeOf N (.node a y w b) x v c) st) a y w (.node b x v c) := by
  obtain ⟨hget, ha, hb⟩ := hl
  have hgrow : Grows N st (hashput N st (nodeOf N b x v c)).2 := (Grows.refl hc).hashput _
  refine ⟨_, ?_, hgrow, ha.mono hgrow.ext, holds_hashput hc hb hr x v⟩
  rw [rotateLeftLeft]
  simp only [nodeOf] at hget ⊢
  rw [hget]
  rfl

theorem rotates_rightRight (hl : Holds N st a) (hr : Holds N st (.node b y w c)) :
    Rotates N st (rotateRightRight N (nodeOf N a x v (.node b y w c)) st)
      (.node a x v b) y w c := by
  obtain ⟨hget, hb, hc'⟩ := hr
  have hgrow : Grows N st (hashput N st (nodeOf N a x v b)).2 := (Grows.refl hc).hashput _
  refine ⟨_, ?_, hgrow, holds_hashput hc hl hb x v, hc'.mono hgrow.ext⟩
  rw [rotateRightRight]
  simp only [nodeOf] at hget ⊢
  rw [hget]
  rfl

theorem rotates_leftRight (hl : Holds N st (.node a y w (.node b z u c))) (hr : Holds N st d) :
    Rotates N st (rotateLeftRight N (nodeOf N (.node a y w (.node b z u c)) x v d) st)
      (.node a y w b) z u (.node c x v d) := by
  obtain ⟨hget, ha, hget', hb, hc'⟩ := hl
  have hgrow : Grows N st (hashput N st (nodeOf N a y w b)).2 := (Grows.refl hc).hashput _
  have hgrow' := hgrow.hashput (nodeOf N c x v d)
  refine ⟨_, ?_, hgrow', ?_, ?_⟩
  · rw [rotateLeftRight]
    simp only [nodeOf] at hget hget' ⊢
    rw [hget, Option.bind_eq_bind, Option.bind_some, hget']
    rfl
  · exact (holds_hashput hc ha hb y w).mono (hgrow.coherent.extends_hashput _)
  · exact holds_hashput hgrow.coherent (hc'.mono hgrow.ext) (hr.mono hgrow.ext) x v

theorem rotates_rightLeft (hl : Holds N st a) (hr : Holds N st (.node (.node b z u c) y w d)) :
    Rotates N st (rotateRightLeft N (nodeOf N a x v (.node (.node b z u c) y w d)) st)
      (.node a x v b) z u (.node c y w d) := by
  obtain ⟨hget, ⟨hget', hb, hc'⟩, hd⟩ := hr
  have hgrow : Grows N st (hashput N st (nodeOf N c y w d)).2 := (Grows.refl hc).hashput _
  have hgrow' := hgrow.hashput (nodeOf N a x v b)
  refine ⟨_, ?_, hgrow', ?_, ?_⟩
  · rw [rotateRightLeft]
    simp only [nodeOf] at hget hget' ⊢
    rw [hget, Option.bind_eq_bind, Option.bind_some, hget', Option.bind_some]
    simp only [hashput, hashOf, height, max_comm]
  · exact holds_hashput hgrow.coherent (hl.mono hgrow.ext) (hb.mono hgrow.ext) x v
  · exact (holds_hashput hc hc' hd y w).mono (hgrow.coherent.extends_hashput _)

variable {l r : Tree K (Payload V)} {k : K} (hbal : (Avl.Tree.node l k v r).Balanced)
include hbal

theorem rebuilds_rebalance_left (hgrown : Grown l (.node a y w b))
    (hl : Holds N st (.node a y w b)) (hr : Holds N st r) :
    Rebuilds N st (rebalance N .left (nodeOf N (.node a y w b) k v r) (nodeOf N a y w b) st)
      (balanceLeft (.node a y w b) k v r) := by
  have htest : ((nodeOf N (.node a y w b) k v r).heightLeft : ℤ) -
      (nodeOf N (.node a y w b) k v r).heightRight = 2 ↔ (Avl.Tree.node a y w b).height =
      r.height + 2 := by
    simp only [nodeOf]
    omega
  have hlean : ((nodeOf N a y w b).heightLeft : ℤ) - (nodeOf N a y w b).heightRight = 1 ↔
      (Avl.Tree.node a y w b).leftHigh := by
    simp only [nodeOf, leftHigh]
    omega
  rw [rebalance, balanceLeft]
  by_cases hhigh : (Avl.Tree.node a y w b).height = r.height + 2
  · rw [if_pos hhigh, if_pos (htest.2 hhigh)]
    by_cases hleft : (Avl.Tree.node a y w b).leftHigh
    · rw [if_pos hleft, if_pos (hlean.2 hleft)]
      exact ⟨_, _, _, _, rfl, rotates_leftLeft hc hl hr⟩
    · rw [if_neg hleft, if_neg (mt hlean.1 hleft)]
      obtain ⟨a', y', w', b', z, u, c, heq⟩ :=
        ((hgrown.leans_of_high hbal.1 hhigh).resolve_left hleft).exists_node
      obtain ⟨rfl, rfl, rfl, rfl⟩ := Avl.Tree.node.inj heq
      exact ⟨_, _, _, _, rfl, rotates_leftRight hc hl hr⟩
  · rw [if_neg hhigh, if_neg (mt htest.1 hhigh)]
    exact ⟨_, _, _, _, rfl, st, rfl, .refl hc, hl, hr⟩

theorem rebuilds_rebalance_right (hgrown : Grown r (.node a y w b))
    (hl : Holds N st l) (hr : Holds N st (.node a y w b)) :
    Rebuilds N st (rebalance N .right (nodeOf N l k v (.node a y w b)) (nodeOf N a y w b) st)
      (balanceRight l k v (.node a y w b)) := by
  have htest : ((nodeOf N l k v (.node a y w b)).heightLeft : ℤ) -
      (nodeOf N l k v (.node a y w b)).heightRight = -2 ↔
        (Avl.Tree.node a y w b).height = l.height + 2 := by
    simp only [nodeOf]
    omega
  have hlean : ((nodeOf N a y w b).heightLeft : ℤ) - (nodeOf N a y w b).heightRight = -1 ↔
      (Avl.Tree.node a y w b).rightHigh := by
    simp only [nodeOf, rightHigh]
    omega
  rw [rebalance, balanceRight]
  by_cases hhigh : (Avl.Tree.node a y w b).height = l.height + 2
  · rw [if_pos hhigh, if_pos (htest.2 hhigh)]
    by_cases hright : (Avl.Tree.node a y w b).rightHigh
    · rw [if_pos hright, if_pos (hlean.2 hright)]
      exact ⟨_, _, _, _, rfl, rotates_rightRight hc hl hr⟩
    · rw [if_neg hright, if_neg (mt hlean.1 hright)]
      obtain ⟨b', z, u, c, y', w', d, heq⟩ :=
        ((hgrown.leans_of_high hbal.2.1 hhigh).resolve_right hright).exists_node
      obtain ⟨rfl, rfl, rfl, rfl⟩ := Avl.Tree.node.inj heq
      exact ⟨_, _, _, _, rfl, rotates_rightLeft hc hl hr⟩
  · rw [if_neg hhigh, if_neg (mt htest.1 hhigh)]
    exact ⟨_, _, _, _, rfl, st, rfl, .refl hc, hl, hr⟩

end

/-! ## Paths in the store -/

/-- The result is the root node and the hash of a tree that is not empty and that the store has. -/
def Puts (N : NodeHash K V H) (st : NodeStore K V H)
    (result : Option (TreeNode K V H × H × NodeStore K V H)) (t : Tree K (Payload V)) : Prop :=
  ∃ l k v r st', t = .node l k v r ∧ result = some (nodeOf N l k v r, hashOf N t, st') ∧
    Grows N st st' ∧ Holds N st' t

theorem Rebuilds.puts {result : Option (TreeNode K V H × NodeStore K V H)} {t : Tree K (Payload V)}
    (h : Rebuilds N st result t) :
    Puts N st (result.bind fun (n, st) => some (n, hashput N st n)) t := by
  obtain ⟨l, k, v, r, rfl, st', hresult, hgrow, hl, hr⟩ := h
  refine ⟨l, k, v, r, _, rfl, ?_, hgrow.hashput _, holds_hashput hgrow.coherent hl hr k v⟩
  rw [hresult]
  rfl

theorem recomputePath_cons (node : TreeNode K V H) (branch : TreeBranch) {path : TreePath K V H}
    (h : path ≠ []) :
    recomputePath N st ((node, branch) :: path) = (recomputePath N st path).bind
      fun (previous, h, st) =>
      (rebalance N branch (relink branch node previous h) previous st).bind fun (n, st) =>
        some (n, hashput N st n) := by
  cases path with
  | nil => exact absurd rfl h
  | cons p path => rfl

/-- One step up the path, on either side. -/
theorem puts_cons {node : TreeNode K V H} {branch : TreeBranch} {path : TreePath K V H}
    {t t' : Tree K (Payload V)} (hpath : path ≠ []) (hput : Puts N st (recomputePath N st path) t)
    (hstep : ∀ l k v r st', t = .node l k v r → Grows N st st' → Holds N st' t →
      Rebuilds N st' (rebalance N branch (relink branch node (nodeOf N l k v r) (hashOf N t))
        (nodeOf N l k v r) st') t') :
    Puts N st (recomputePath N st ((node, branch) :: path)) t' := by
  obtain ⟨l, k, v, r, st', ht, hresult, hgrow, hholds⟩ := hput
  obtain ⟨l', k', v', r', st'', ht', hresult', hgrow', hholds'⟩ :=
    (hstep _ _ _ _ _ ht hgrow hholds).puts
  refine ⟨l', k', v', r', st'', ht', ?_, hgrow.trans hgrow', hholds'⟩
  rw [recomputePath_cons _ _ hpath, hresult, Option.bind_some]
  exact hresult'

section
variable [LinearOrder K]

theorem findPath_hashOf (key : K) {t : Tree K (Payload V)} {n : ℕ} (ht : Holds N st t)
    (hn : t.height ≤ n) :
    findPath N st key n (hashOf N t) = some ((t.lookup key).isSome, searchPath N key t) := by
  induction t generalizing n with
  | nil =>
    cases n with
    | zero => rfl
    | succ n => exact if_pos rfl
  | node l k v r ihl ihr =>
    obtain ⟨hget, hl, hr⟩ := ht
    obtain ⟨n, rfl⟩ : ∃ n', n = n' + 1 := Nat.exists_eq_add_one.2 (by rw [height] at hn; omega)
    rw [height] at hn
    rw [findPath, if_neg (hashOf_ne_null l k v r), hget, lookup, searchPath]
    simp only [Option.bind_eq_bind, Option.bind_some]
    have hkey : (nodeOf N l k v r).key = k := rfl
    have hleft : (nodeOf N l k v r).left = hashOf N l := rfl
    have hright : (nodeOf N l k v r).right = hashOf N r := rfl
    rw [hkey, hleft, hright]
    split_ifs
    · rfl
    · rw [ihl hl (by omega), Option.bind_some]
    · rw [ihr hr (by omega), Option.bind_some]

theorem puts_changedPath (hc : Coherent N st) (key : K) (g : Option (Payload V) → Payload V)
    {t : Tree K (Payload V)} (ht : Holds N st t) (hbal : t.Balanced) :
    Puts N st (recomputePath N st (changedPath N key g t)) (t.update key g) := by
  induction t with
  | nil =>
    have hnil : Holds N st nil := trivial
    exact ⟨_, _, _, _, _, rfl, rfl, (Grows.refl hc).hashput _, holds_hashput hc hnil hnil _ _⟩
  | node l k v r ihl ihr =>
    obtain ⟨-, hl, hr⟩ := ht
    rw [changedPath, Tree.update]
    split_ifs
    · exact ⟨_, _, _, _, _, rfl, rfl, (Grows.refl hc).hashput _, holds_hashput hc hl hr _ _⟩
    · refine puts_cons (changedPath_ne_nil key g l) (ihl hl hbal.2.2.1) ?_
      intro a y w b st' heq hgrow hholds
      have hgrown := grown_update hbal.2.2.1 key g
      rw [heq] at hgrown hholds ⊢
      exact rebuilds_rebalance_left hgrow.coherent hbal hgrown hholds (hr.mono hgrow.ext)
    · refine puts_cons (changedPath_ne_nil key g r) (ihr hr hbal.2.2.2) ?_
      intro a y w b st' heq hgrow hholds
      have hgrown := grown_update hbal.2.2.2 key g
      rw [heq] at hgrown hholds ⊢
      exact rebuilds_rebalance_right hgrow.coherent hbal hgrown (hl.mono hgrow.ext) hholds

/-! ## States -/

structure Represents (N : NodeHash K V H) (s : TreeState K V H)
    (t : Tree K (Payload V)) : Prop where
  coherent : Coherent N s.store
  root : s.root = hashOf N t
  holds : Holds N s.store t

variable {s : TreeState K V H} {t : Tree K (Payload V)}

theorem Represents.findPath (h : Represents N s t) (hdepth : t.height ≤ maxTreeDepth) (key : K) :
    findPath N s.store key maxTreeDepth s.root =
      some ((t.lookup key).isSome, searchPath N key t) := by
  rw [h.root]
  exact findPath_hashOf key h.holds hdepth

theorem Represents.putPath (h : Represents N s t) (hbal : t.Balanced) (key : K)
    (g : Option (Payload V) → Payload V) :
    ∃ s', putPath N s (changedPath N key g t) = some s' ∧ Represents N s' (t.update key g) := by
  obtain ⟨l, k, v, r, st', ht, hresult, hgrow, hholds⟩ :=
    puts_changedPath h.coherent key g h.holds hbal
  refine ⟨⟨hashOf N (t.update key g), st'⟩, ?_, hgrow.coherent, rfl, hholds⟩
  rw [AvlTree.putPath, hresult]
  rfl

end

end

end

end Pequin.AvlTree
