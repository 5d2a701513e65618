import Pequin.Lib.HashTree

/-!
# Caches of hash trees

A cache has the hashes of some nodes of a tree. It is rebuilt by a recursion that stops where a node
is in the cache, and it is kept up to date by taking out the nodes above a cell that changes. What
makes this work is that the cache has a node only together with all nodes below it.
-/

namespace HashTree

variable {V H : Type}

/-- The hashes of some nodes, by height and number. -/
abbrev Cache (H : Type) := ℕ → ℕ → Option H

namespace Cache
variable (leaf : V → H) (node : H → H → H) (cells : ℕ → V)

/-- All hashes are right, and with a node the cache has its children. -/
structure Good (cache : Cache H) : Prop where
  right {h i : ℕ} {x : H} : cache h i = some x → x = subtree leaf node cells h i
  left_child {h i : ℕ} : (cache (h + 1) i).isSome → (cache h (2 * i)).isSome
  right_child {h i : ℕ} : (cache (h + 1) i).isSome → (cache h (2 * i + 1)).isSome

def Extends (cache' cache : Cache H) : Prop := ∀ h i, (cache h i).isSome → (cache' h i).isSome

def set (cache : Cache H) (h i : ℕ) (x : Option H) : Cache H := fun h' i' =>
  if h' = h ∧ i' = i then x else cache h' i'

theorem set_self {cache : Cache H} {h i : ℕ} {x : Option H} : cache.set h i x h i = x :=
    if_pos ⟨rfl, rfl⟩

theorem extends_set (cache : Cache H) (h i : ℕ) (x : H) :
    (cache.set h i (some x)).Extends cache := by
  intro h' i' hsome
  unfold set
  split
  · rfl
  · exact hsome

variable {leaf node cells} {cache : Cache H}

theorem good_empty : Good leaf node cells fun _ _ => none :=
  ⟨nofun, nofun, nofun⟩

variable (hgood : Good leaf node cells cache)
include hgood

theorem Good.eq_some {h i : ℕ} (hsome : (cache h i).isSome) :
    cache h i = some (subtree leaf node cells h i) := by
  obtain ⟨x, hx⟩ := Option.isSome_iff_exists.1 hsome
  rw [hx, hgood.right hx]

/-- A node is put in when its children are there. -/
theorem Good.set_some {h i : ℕ}
    (hchildren : ∀ h', h = h' + 1 → (cache h' (2 * i)).isSome ∧ (cache h' (2 * i + 1)).isSome) :
    Good leaf node cells (cache.set h i (some (subtree leaf node cells h i))) := by
  have hext := extends_set cache h i (subtree leaf node cells h i)
  have hchild : ∀ h' i', ((cache.set h i (some (subtree leaf node cells h i))) (h' + 1) i').isSome →
      (cache h' (2 * i')).isSome ∧ (cache h' (2 * i' + 1)).isSome := by
    intro h' i' hsome
    by_cases heq : h' + 1 = h ∧ i' = i
    · obtain ⟨rfl, rfl⟩ := heq
      exact hchildren h' rfl
    · rw [set, if_neg heq] at hsome
      exact ⟨hgood.left_child hsome, hgood.right_child hsome⟩
  refine ⟨fun {h' i' x} hx => ?_, fun {h' i'} hsome => hext _ _ (hchild h' i' hsome).1,
    fun {h' i'} hsome => hext _ _ (hchild h' i' hsome).2⟩
  unfold set at hx
  split at hx
  · rename_i heq
    rw [heq.1, heq.2]
    exact (Option.some.inj hx).symm
  · exact hgood.right hx

/-- The nodes above a cell are taken out when it changes. -/
theorem Good.of_update {cache' : Cache H} {k : ℕ} (v : V)
    (hpath : ∀ h i, k / 2 ^ h = i → cache' h i = none)
    (hother : ∀ h i, k / 2 ^ h ≠ i → cache' h i = cache h i) :
    Good leaf node (Function.update cells k v) cache' := by
  have hoff : ∀ h i, (cache' h i).isSome → k / 2 ^ h ≠ i := by
    intro h i hsome heq
    rw [hpath h i heq] at hsome
    cases hsome
  -- a node below one that is not above the cell is not above it either
  have hbelow : ∀ h i j, k / 2 ^ (h + 1) ≠ i → j / 2 = i → k / 2 ^ h ≠ j := by
    rintro h i j hne rfl rfl
    exact hne (by rw [pow_succ, Nat.div_div_eq_div_mul])
  refine ⟨fun {h i x} hx => ?_, fun {h i} hsome => ?_, fun {h i} hsome => ?_⟩
  · have hne := hoff h i (by rw [hx]; rfl)
    rw [hother h i hne] at hx
    rw [subtree_update hne, hgood.right hx]
  · have hne := hoff _ _ hsome
    rw [hother _ _ hne] at hsome
    rw [hother _ _ (hbelow h i (2 * i) hne (by omega))]
    exact hgood.left_child hsome
  · have hne := hoff _ _ hsome
    rw [hother _ _ hne] at hsome
    rw [hother _ _ (hbelow h i (2 * i + 1) hne (by omega))]
    exact hgood.right_child hsome

/-- With a node the cache has every node below it. -/
theorem Good.isSome_below (n : ℕ) {h i : ℕ}
    (hsome : (cache (h + n) (i / 2 ^ n)).isSome) : (cache h i).isSome := by
  induction n generalizing h i with
  | zero => simpa using hsome
  | succ n ih =>
    rw [pow_succ', ← Nat.div_div_eq_div_mul, ← Nat.add_assoc, Nat.add_right_comm] at hsome
    have hparent := ih hsome
    rcases Nat.mod_two_eq_zero_or_one i with hi | hi
    · have heq : 2 * (i / 2) = i := by omega
      exact heq ▸ hgood.left_child hparent
    · have heq : 2 * (i / 2) + 1 = i := by omega
      exact heq ▸ hgood.right_child hparent

end Cache

end HashTree
