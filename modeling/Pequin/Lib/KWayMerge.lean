import Mathlib.Data.List.Basic
import Mathlib.Data.List.Perm.Basic
import Mathlib.Tactic.Common

/-!
# Merging sorted lists

A merge takes a least head of the lists that are left and writes it, until nothing is left. What is
written is sorted and below everything that is left, and no entry is lost.
-/

namespace KWayMerge

variable {α : Type*} {le : α → α → Prop} {input out : List α} {chunks : List (List α)}

structure Merging (le : α → α → Prop) (input out : List α) (chunks : List (List α)) : Prop where
  perm : (out ++ chunks.flatten).Perm input
  sorted : out.Pairwise le
  below : ∀ a ∈ out, ∀ l ∈ chunks, ∀ b ∈ l, le a b
  chunks_sorted : ∀ l ∈ chunks, l.Pairwise le

theorem Merging.start (h : ∀ l ∈ chunks, l.Pairwise le) : Merging le chunks.flatten [] chunks :=
  ⟨.refl _, .nil, nofun, h⟩

theorem Merging.done (h : Merging le input out chunks) (hnil : ∀ l ∈ chunks, l = []) :
    out.Perm input ∧ out.Pairwise le := by
  have hperm := h.perm
  rw [List.flatten_eq_nil_iff.2 hnil, List.append_nil] at hperm
  exact ⟨hperm, h.sorted⟩

theorem flatten_set_perm {i : ℕ} {x : α} {l : List α} (hi : chunks[i]? = some (x :: l)) :
    (x :: (chunks.set i l).flatten).Perm chunks.flatten := by
  obtain ⟨hlt, hget⟩ := List.getElem?_eq_some_iff.1 hi
  have hset : (chunks.set i l).flatten =
      (chunks.take i).flatten ++ (l ++ (chunks.drop (i + 1)).flatten) := by
    rw [List.set_eq_take_append_cons_drop, if_pos hlt, List.flatten_append, List.flatten_cons]
  have hall : chunks.flatten =
      (chunks.take i).flatten ++ (x :: (l ++ (chunks.drop (i + 1)).flatten)) := by
    conv_lhs => rw [← List.take_append_drop i chunks, List.drop_eq_getElem_cons hlt, hget]
    rw [List.flatten_append, List.flatten_cons, List.cons_append]
  rw [hset, hall]
  exact List.perm_middle.symm

/-- Writing a least head. -/
theorem Merging.step (htrans : ∀ a b c, le a b → le b c → le a c) {i : ℕ} {x : α} {l : List α}
    (h : Merging le input out chunks) (hi : chunks[i]? = some (x :: l))
    (hmin : ∀ y l', y :: l' ∈ chunks → le x y) :
    Merging le input (out ++ [x]) (chunks.set i l) := by
  have hmem : x :: l ∈ chunks := List.mem_of_getElem? hi
  have hxl : (x :: l).Pairwise le := h.chunks_sorted _ hmem
  have hsub {l' : List α} (hl' : l' ∈ chunks.set i l) : l' ∈ chunks ∨ l' = l :=
    List.mem_or_eq_of_mem_set hl'
  have hleast (l' : List α) (hl' : l' ∈ chunks) (b : α) (hb : b ∈ l') : le x b := by
    cases l' with
    | nil => exact nomatch hb
    | cons y l' =>
      have hxy := hmin y l' hl'
      rcases List.mem_cons.1 hb with rfl | hb
      · exact hxy
      · exact htrans _ _ _ hxy (List.rel_of_pairwise_cons (h.chunks_sorted _ hl') hb)
  refine ⟨?_, ?_, ?_, ?_⟩
  · rw [List.append_assoc, List.singleton_append]
    exact ((flatten_set_perm hi).append_left out).trans h.perm
  · rw [List.pairwise_append]
    refine ⟨h.sorted, List.pairwise_singleton _ _, fun a ha b hb => ?_⟩
    rw [List.mem_singleton.1 hb]
    exact h.below a ha _ hmem x List.mem_cons_self
  · intro a ha l' hl' b hb
    rcases List.mem_append.1 ha with ha | ha
    · rcases hsub hl' with hl' | rfl
      · exact h.below a ha l' hl' b hb
      · exact h.below a ha _ hmem b (List.mem_cons_of_mem _ hb)
    · rw [List.mem_singleton.1 ha]
      rcases hsub hl' with hl' | rfl
      · exact hleast l' hl' b hb
      · exact hleast _ hmem b (List.mem_cons_of_mem _ hb)
  · intro l' hl'
    rcases hsub hl' with hl' | rfl
    · exact h.chunks_sorted l' hl'
    · exact hxl.of_cons

end KWayMerge
