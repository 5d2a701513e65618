import Mathlib.Data.Set.Function
import Mathlib.Logic.Function.Basic
import Mathlib.Tactic.Ring

/-!
# Hash trees

A complete binary tree of hashes over numbered cells. Node `i` of height `h` covers the cells `k`
with `k / 2^h = i`. The hash of the root is computed from one cell and the hashes of the siblings on
the way up (`climb`). If no two hashed pairs collide, then the root determines the cell and the
siblings.
-/

namespace HashTree

variable {V H : Type} (leaf : V → H) (node : H → H → H)

/-- The hash of node `i` of height `h`. -/
def subtree (cells : ℕ → V) : ℕ → ℕ → H
  | 0, i => leaf (cells i)
  | h + 1, i => node (subtree cells h (2 * i)) (subtree cells h (2 * i + 1))

@[simp] theorem subtree_zero (cells : ℕ → V) (i : ℕ) :
    subtree leaf node cells 0 i = leaf (cells i) :=
  rfl

theorem subtree_succ (cells : ℕ → V) (h i : ℕ) : subtree leaf node cells (h + 1) i =
    node (subtree leaf node cells h (2 * i)) (subtree leaf node cells h (2 * i + 1)) := rfl

variable {leaf node}

private theorem div_two_pow_succ (k h : ℕ) : k / 2 ^ (h + 1) = k / 2 ^ h / 2 := by
  rw [pow_succ, Nat.div_div_eq_div_mul]

/-- A node depends only on the cells it covers. -/
theorem subtree_congr {cells cells' : ℕ → V} {h i : ℕ}
    (heq : ∀ k, k / 2 ^ h = i → cells k = cells' k) :
    subtree leaf node cells h i = subtree leaf node cells' h i := by
  induction h generalizing i with
  | zero => rw [subtree_zero, subtree_zero, heq i (by simp)]
  | succ h ih =>
    rw [subtree_succ, subtree_succ, ih fun k hk => heq k ?_, ih fun k hk => heq k ?_]
    · rw [div_two_pow_succ]
      omega
    · rw [div_two_pow_succ]
      omega

theorem subtree_update {cells : ℕ → V} {k h i : ℕ} (hi : k / 2 ^ h ≠ i) (v : V) :
    subtree leaf node (Function.update cells k v) h i = subtree leaf node cells h i := by
  refine subtree_congr fun k' hk' => Function.update_of_ne ?_ v cells
  rintro rfl
  exact hi hk'

/-! ## Paths -/

def sibling (i : ℕ) : ℕ := if i % 2 = 0 then i + 1 else i - 1

theorem sibling_ne (i : ℕ) : sibling i ≠ i := by
  unfold sibling
  split <;> omega

theorem sibling_lt {i h : ℕ} (hi : i < 2 ^ (h + 1)) : sibling i < 2 ^ (h + 1) := by
  have heven : 2 ^ (h + 1) % 2 = 0 := by rw [pow_succ, Nat.mul_mod_left]
  unfold sibling
  split <;> omega

/-- The children of the parent of node `i`, in order. -/
def children (i : ℕ) (x s : H) : H × H := if i % 2 = 0 then (x, s) else (s, x)

/-- The way from node `i` with hash `x` up, the siblings of the lowest level first. -/
def climb (node : H → H → H) : ℕ → H → List H → H
  | _, x, [] => x
  | i, x, s :: ss => climb node (i / 2) (node (children i x s).1 (children i x s).2) ss

@[simp] theorem climb_nil (i : ℕ) (x : H) : climb node i x [] = x := rfl

theorem climb_cons (i : ℕ) (x s : H) (ss : List H) : climb node i x (s :: ss) =
    climb node (i / 2) (node (children i x s).1 (children i x s).2) ss := rfl

/-- The siblings on the way up from node `i` of height `h`. -/
def siblings (leaf : V → H) (node : H → H → H) (cells : ℕ → V) : ℕ → ℕ → ℕ → List H
  | 0, _, _ => []
  | n + 1, h, i => subtree leaf node cells h (sibling i) ::
      siblings leaf node cells n (h + 1) (i / 2)

section
variable (cells : ℕ → V)

theorem length_siblings (n h i : ℕ) :
    (siblings leaf node cells n h i).length = n := by
  induction n generalizing h i with
  | zero => rfl
  | succ n ih => rw [siblings, List.length_cons, ih]

section
variable (leaf node)

theorem children_subtree (h i : ℕ) :
    children i (subtree leaf node cells h i) (subtree leaf node cells h (sibling i)) =
      (subtree leaf node cells h (2 * (i / 2)), subtree leaf node cells h (2 * (i / 2) + 1)) := by
  unfold children sibling
  split
  · rw [show 2 * (i / 2) = i by omega]
  · rw [show 2 * (i / 2) = i - 1 by omega, show i - 1 + 1 = i by omega]

theorem node_children (h i : ℕ) :
    node (children i (subtree leaf node cells h i) (subtree leaf node cells h (sibling i))).1
      (children i (subtree leaf node cells h i) (subtree leaf node cells h (sibling i))).2 =
    subtree leaf node cells (h + 1) (i / 2) := by rw [children_subtree, subtree_succ]

private theorem siblings_update_from (k h : ℕ) (v : V) (n : ℕ) :
    siblings leaf node (Function.update cells k v) n h (k / 2 ^ h) =
      siblings leaf node cells n h (k / 2 ^ h) := by
  induction n generalizing h with
  | zero => rfl
  | succ n ih =>
    rw [siblings, siblings, subtree_update (sibling_ne _).symm, ← div_two_pow_succ, ih]

end

/-- The way up ends at the node that covers node `i`. -/
theorem climb_siblings (n h i : ℕ) :
    climb node i (subtree leaf node cells h i) (siblings leaf node cells n h i) =
      subtree leaf node cells (h + n) (i / 2 ^ n) := by
  induction n generalizing h i with
  | zero => simp [siblings]
  | succ n ih =>
    rw [siblings, climb_cons, node_children leaf node, ih, Nat.div_div_eq_div_mul, ← pow_succ']
    congr 1
    ring

/-- A sibling does not cover the cell the way starts at. -/
theorem siblings_update (k : ℕ) (v : V) (n : ℕ) :
    siblings leaf node (Function.update cells k v) n 0 k = siblings leaf node cells n 0 k := by
  have h := siblings_update_from leaf node cells k 0 v n
  rwa [pow_zero, Nat.div_one] at h

theorem siblings_eq_map (n h i : ℕ) : siblings leaf node cells n h i =
    (List.range n).map fun j => subtree leaf node cells (h + j) (sibling (i / 2 ^ j)) := by
  induction n generalizing h i with
  | zero => rfl
  | succ n ih =>
    rw [siblings, ih, List.range_succ_eq_map, List.map_cons, List.map_map, Nat.add_zero, pow_zero,
      Nat.div_one]
    refine congrArg _ (List.map_congr_left fun j _ => ?_)
    rw [Function.comp_apply, Nat.div_div_eq_div_mul, ← pow_succ', Nat.add_right_comm, Nat.add_assoc]

end

/-- What every node keeps holds at the end of the way up. -/
theorem climb_all {P : H → Prop} (hP : ∀ x y, P x → P y → P (node x y)) (i : ℕ) {x : H} (hx : P x)
    {ss : List H} (hss : ∀ s ∈ ss, P s) : P (climb node i x ss) := by
  induction ss generalizing i x with
  | nil => exact hx
  | cons s ss ih =>
    obtain ⟨hs, hss⟩ := List.forall_mem_cons.1 hss
    rw [climb_cons]
    unfold children
    split
    · exact ih _ (hP x s hx hs) hss
    · exact ih _ (hP s x hs hx) hss

/-- A way up in one kind of hashes is one in another kind. -/
theorem climb_map {H' : Type} {node' : H' → H' → H'} {φ : H → H'} {P : H → Prop}
    (hP : ∀ x y, P x → P y → P (node x y))
    (hφ : ∀ x y, P x → P y → node' (φ x) (φ y) = φ (node x y)) (i : ℕ) {x : H} (hx : P x)
    {ss : List H} (hss : ∀ s ∈ ss, P s) :
    climb node' i (φ x) (ss.map φ) = φ (climb node i x ss) := by
  induction ss generalizing i x with
  | nil => rfl
  | cons s ss ih =>
    obtain ⟨hs, hss⟩ := List.forall_mem_cons.1 hss
    rw [List.map_cons, climb_cons, climb_cons]
    unfold children
    split
    · rw [hφ x s hx hs, ih _ (hP x s hx hs) hss]
    · rw [hφ s x hs hx, ih _ (hP s x hs hx) hss]

/-! ## Collisions -/

def climbPairs (node : H → H → H) : ℕ → H → List H → List (H × H)
  | _, _, [] => []
  | i, x, s :: ss =>
    children i x s :: climbPairs node (i / 2) (node (children i x s).1 (children i x s).2) ss

private theorem children_inj {i : ℕ} {x x' s s' : H} (h : children i x s = children i x' s') :
    x = x' ∧ s = s' := by
  unfold children at h
  split at h
  · exact Prod.mk.inj h
  · exact (Prod.mk.inj h).symm

private theorem children_mod (i n : ℕ) (x s : H) :
    children (i % 2 ^ (n + 1)) x s = children i x s := by
  have h : i % 2 ^ (n + 1) % 2 = i % 2 := Nat.mod_mod_of_dvd i (dvd_pow_self 2 n.succ_ne_zero)
  simp only [children, h]

private theorem mod_div_two (i n : ℕ) : i % 2 ^ (n + 1) / 2 = i / 2 % 2 ^ n := by
  rw [pow_succ', Nat.mod_mul_right_div_self]

/-- The way up reads only as many bits of the index as there are levels. -/
theorem climb_mod (node : H → H → H) (i : ℕ) (x : H) (ss : List H) :
    climb node (i % 2 ^ ss.length) x ss = climb node i x ss := by
  induction ss generalizing i x with
  | nil => rfl
  | cons s ss ih =>
    rw [climb_cons, climb_cons, List.length_cons, children_mod, mod_div_two, ih]

theorem climbPairs_mod (node : H → H → H) (i : ℕ) (x : H) (ss : List H) :
    climbPairs node (i % 2 ^ ss.length) x ss = climbPairs node i x ss := by
  induction ss generalizing i x with
  | nil => rfl
  | cons s ss ih => rw [climbPairs, climbPairs, List.length_cons, children_mod, mod_div_two, ih]

def treePairs (leaf : V → H) (node : H → H → H) (cells : ℕ → V) (l : ℕ) : Set (H × H) :=
  {pr | ∃ h i, h < l ∧ i < 2 ^ (l - h - 1) ∧
    pr = (subtree leaf node cells h (2 * i), subtree leaf node cells h (2 * i + 1))}

/-- The pairs on the way up are pairs of the tree. -/
theorem climbPairs_siblings (cells : ℕ → V) {l n h i : ℕ} (hl : h + n ≤ l) (hi : i < 2 ^ (l - h)) :
    ∀ pr ∈ climbPairs node i (subtree leaf node cells h i) (siblings leaf node cells n h i),
      pr ∈ treePairs leaf node cells l := by
  induction n generalizing h i with
  | zero => exact fun pr hpr => absurd hpr List.not_mem_nil
  | succ n ih =>
    have hlt : i / 2 < 2 ^ (l - h - 1) := by
      rw [show l - h = l - h - 1 + 1 by omega, pow_succ] at hi
      omega
    rw [siblings, climbPairs, node_children leaf node, children_subtree]
    refine List.forall_mem_cons.2 ⟨⟨h, i / 2, by omega, hlt, rfl⟩, ih (by omega) ?_⟩
    rwa [← Nat.sub_sub]

/-- Two ways up from node `i` to one root are equal when their pairs do not collide. -/
theorem climb_inj {S : Set (H × H)} (hS : S.InjOn fun p => node p.1 p.2) {i : ℕ} {x x' : H}
    {ss ss' : List H} (hlen : ss.length = ss'.length) (hpairs : ∀ p ∈ climbPairs node i x ss, p ∈ S)
    (hpairs' : ∀ p ∈ climbPairs node i x' ss', p ∈ S)
    (heq : climb node i x ss = climb node i x' ss') : x = x' ∧ ss = ss' := by
  induction ss generalizing i x x' ss' with
  | nil =>
    cases ss' with
    | nil => exact ⟨heq, rfl⟩
    | cons s' ss' => cases hlen
  | cons s ss ih =>
    cases ss' with
    | nil => cases hlen
    | cons s' ss' =>
      obtain ⟨hp, hpairs⟩ := List.forall_mem_cons.1 hpairs
      obtain ⟨hp', hpairs'⟩ := List.forall_mem_cons.1 hpairs'
      obtain ⟨hnode, rfl⟩ := ih (Nat.succ.inj hlen) hpairs hpairs' heq
      obtain ⟨rfl, rfl⟩ := children_inj (hS hp hp' hnode)
      exact ⟨rfl, rfl⟩

end HashTree
