import Mathlib.Order.Compare

/-!
# Comparisons

A comparison function that first compares one part and then another is a preorder if the parts are.
The outcomes of three comparisons are kept together, so that the parts of a recursive comparison can
be put together one by one.
-/

namespace Comparison

theorem eq_of_eq_swap {o : Ordering} (h : o = o.swap) : o = .eq := by
  cases o with
  | eq => rfl
  | lt | gt => cases h

/-- The outcomes of comparing `a` with `b`, `b` with `c`, and `a` with `c`. -/
structure Chain (ab bc ac : Ordering) : Prop where
  eq_left : ab = .eq → ac = bc
  eq_right : bc = .eq → ac = ab
  lt : ab = .lt → bc = .lt → ac = .lt
  gt : ab = .gt → bc = .gt → ac = .gt

theorem Chain.symm {ab bc ac : Ordering} (h : Chain ab bc ac) : Chain bc ab ac :=
  ⟨h.eq_right, h.eq_left, fun h₁ h₂ => h.lt h₂ h₁, fun h₁ h₂ => h.gt h₂ h₁⟩

/-- The second parts matter only where the first ones are equal. -/
theorem Chain.append {ab bc ac ab' bc' ac' : Ordering} (h : Chain ab bc ac)
    (h' : ab = .eq → bc = .eq → Chain ab' bc' ac') :
    Chain (ab.then ab') (bc.then bc') (ac.then ac') := by
  cases ab with
  | eq =>
    obtain rfl := h.eq_left rfl
    cases ac with
    | eq => exact h' rfl rfl
    | lt => exact ⟨fun _ => rfl, nofun, fun _ _ => rfl, nofun⟩
    | gt => exact ⟨fun _ => rfl, nofun, nofun, fun _ _ => rfl⟩
  | lt =>
    cases bc with
    | eq =>
      obtain rfl := h.eq_right rfl
      exact ⟨nofun, fun _ => rfl, fun _ _ => rfl, nofun⟩
    | lt =>
      obtain rfl := h.lt rfl rfl
      exact ⟨nofun, nofun, fun _ _ => rfl, nofun⟩
    | gt => exact ⟨nofun, nofun, nofun, nofun⟩
  | gt =>
    cases bc with
    | eq =>
      obtain rfl := h.eq_right rfl
      exact ⟨nofun, fun _ => rfl, nofun, fun _ _ => rfl⟩
    | lt => exact ⟨nofun, nofun, nofun, nofun⟩
    | gt =>
      obtain rfl := h.gt rfl rfl
      exact ⟨nofun, nofun, nofun, fun _ _ => rfl⟩

theorem chain_compare {α : Type} [LinearOrder α] (a b c : α) :
    Chain (compare a b) (compare b c) (compare a c) where
  eq_left h := by rw [compare_eq_iff_eq.1 h]
  eq_right h := by rw [compare_eq_iff_eq.1 h]
  lt h h' := compare_lt_iff_lt.2 ((compare_lt_iff_lt.1 h).trans (compare_lt_iff_lt.1 h'))
  gt h h' := compare_gt_iff_gt.2 ((compare_gt_iff_gt.1 h').trans (compare_gt_iff_gt.1 h))

end Comparison
