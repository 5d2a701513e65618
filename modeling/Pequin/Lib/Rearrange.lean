import Mathlib.Algebra.Group.End
import Mathlib.Data.List.Nodup
import Mathlib.Data.List.Perm.Basic
import Mathlib.Logic.Equiv.Basic
import Mathlib.Order.Basic
import Mathlib.Tactic.Common

/-!
# Rearranging a segment of a buffer

A buffer is a function of the index. In-place algorithms permute the entries of a segment and leave
the others alone; what holds for all entries of a segment before still holds afterwards.
-/

namespace Rearrange

variable {α : Type*} {l r : ℤ} {f g h : ℤ → α}

/-- `g` has the entries of `f` from `l` to `r` in another order and is `f` elsewhere. -/
def Rearranged (l r : ℤ) (f g : ℤ → α) : Prop :=
  ∃ σ : Equiv.Perm ℤ, (∀ x, x < l ∨ r < x → σ x = x) ∧ g = f ∘ σ

theorem Rearranged.refl (l r : ℤ) (f : ℤ → α) : Rearranged l r f f := ⟨1, fun _ _ => rfl, rfl⟩

theorem Rearranged.trans (hfg : Rearranged l r f g) (hgh : Rearranged l r g h) :
    Rearranged l r f h := by
  obtain ⟨σ, hσ, rfl⟩ := hfg
  obtain ⟨τ, hτ, rfl⟩ := hgh
  refine ⟨σ * τ, fun x hx => ?_, rfl⟩
  rw [Equiv.Perm.mul_apply, hτ x hx, hσ x hx]

theorem Rearranged.mono {l' r' : ℤ} (hfg : Rearranged l r f g) (hl : l' ≤ l) (hr : r ≤ r') :
    Rearranged l' r' f g := by
  obtain ⟨σ, hσ, rfl⟩ := hfg
  exact ⟨σ, fun x hx => hσ x (by omega), rfl⟩

theorem Rearranged.swap {i j : ℤ} (hi : l ≤ i) (hir : i ≤ r) (hj : l ≤ j) (hjr : j ≤ r) :
    Rearranged l r f (f ∘ Equiv.swap i j) := by
  refine ⟨Equiv.swap i j, fun x hx => ?_, rfl⟩
  exact Equiv.swap_apply_of_ne_of_ne (by omega) (by omega)

theorem Rearranged.eq_outside (hfg : Rearranged l r f g) {x : ℤ} (hx : x < l ∨ r < x) :
    g x = f x := by
  obtain ⟨σ, hσ, rfl⟩ := hfg
  rw [Function.comp_apply, hσ x hx]

/-- A permutation that is the identity outside of a segment maps the segment to itself. -/
theorem perm_mem {σ : Equiv.Perm ℤ} (hσ : ∀ x, x < l ∨ r < x → σ x = x) {x : ℤ} (hl : l ≤ x)
    (hr : x ≤ r) : l ≤ σ x ∧ σ x ≤ r := by
  by_contra hout
  have hfix : σ x = x := σ.injective (hσ (σ x) (by omega))
  omega

theorem Rearranged.forall_segment (hfg : Rearranged l r f g) {P : α → Prop}
    {l' r' : ℤ} (hl : l' ≤ l)
    (hr : r ≤ r') (hP : ∀ x, l' ≤ x → x ≤ r' → P (f x)) : ∀ x, l' ≤ x → x ≤ r' → P (g x) := by
  obtain ⟨σ, hσ, rfl⟩ := hfg.mono hl hr
  intro x hx hxr
  obtain ⟨hlo, hhi⟩ := perm_mem hσ hx hxr
  exact hP _ hlo hhi

/-! ## Lists -/

def entries (f : ℤ → α) (n : ℕ) : List α := (List.range n).map fun i : ℕ => f i

@[simp] theorem length_entries (f : ℤ → α) (n : ℕ) : (entries f n).length = n := by
  rw [entries, List.length_map, List.length_range]

theorem Rearranged.perm {n : ℕ} (hfg : Rearranged 0 (n - 1) f g) :
    (entries g n).Perm (entries f n) := by
  obtain ⟨σ, hσ, rfl⟩ := hfg
  set indices : List ℤ := (List.range n).map fun i : ℕ => (i : ℤ) with hindices
  have hmem (x : ℤ) : x ∈ indices ↔ 0 ≤ x ∧ x ≤ n - 1 := by
    rw [hindices, List.mem_map]
    constructor
    · rintro ⟨i, hi, rfl⟩
      have hi := List.mem_range.1 hi
      omega
    · rintro ⟨h0, hn⟩
      exact ⟨x.toNat, List.mem_range.2 (by omega), by omega⟩
  have hnodup : indices.Nodup := List.nodup_range.map fun a b hab => by omega
  have hperm : (indices.map σ).Perm indices := by
    rw [List.perm_ext_iff_of_nodup (hnodup.map σ.injective) hnodup]
    intro x
    rw [List.mem_map]
    constructor
    · rintro ⟨y, hy, rfl⟩
      exact (hmem _).2 (perm_mem hσ ((hmem y).1 hy).1 ((hmem y).1 hy).2)
    · intro hx
      refine ⟨σ.symm x, ?_, σ.apply_symm_apply x⟩
      by_contra hout
      rw [hmem] at hout
      have hfix := hσ (σ.symm x) (by omega)
      rw [σ.apply_symm_apply] at hfix
      exact hout (hfix ▸ (hmem x).1 hx)
  have hmap := hperm.map f
  rwa [List.map_map, hindices, List.map_map, List.map_map] at hmap

/-! ## Sorted segments -/

def SortedOn (le : α → α → Prop) (l r : ℤ) (f : ℤ → α) : Prop :=
  ∀ x y, l ≤ x → x < y → y ≤ r → le (f x) (f y)

/-- Two sorted segments around a pivot. -/
theorem SortedOn.join {le : α → α → Prop} (htrans : ∀ a b c, le a b → le b c → le a c) {p : α}
    {i : ℤ} (hlow : SortedOn le l (i - 1) f) (hhigh : SortedOn le i r f)
    (hle : ∀ x, l ≤ x → x ≤ i - 1 → le (f x) p) (hge : ∀ x, i ≤ x → x ≤ r → le p (f x)) :
    SortedOn le l r f := by
  intro x y hx hxy hy
  rcases lt_or_ge y i with hyi | hyi
  · exact hlow x y hx hxy (by omega)
  · rcases lt_or_ge x i with hxi | hxi
    · exact htrans _ _ _ (hle x hx (by omega)) (hge y hyi hy)
    · exact hhigh x y hxi hxy hy

theorem SortedOn.pairwise {le : α → α → Prop} {n : ℕ} (hsort : SortedOn le 0 (n - 1) f) :
    (entries f n).Pairwise le := by
  rw [entries, List.pairwise_map]
  refine List.pairwise_lt_range.imp_of_mem fun {a b} _ hb hab => ?_
  have hb := List.mem_range.1 hb
  exact hsort a b (by omega) (by omega) (by omega)

end Rearrange
