import Mathlib.Data.List.Basic
import Mathlib.Logic.Function.Basic

/-!
# Writes that are still pending

Writes to a store may wait in a list before they are made, in order. What the store will have is the
store with the pending writes over it. It does not change if the first pending write is made, nor,
at one key, if a write is made before pending ones to other keys.
-/

namespace WriteBuffer

variable {κ β : Type*} [DecidableEq κ] {base base' : κ → Option β} {k : κ} {l l' : List (κ × β)}

/-- A store with pending writes over it. -/
def overlay (base : κ → Option β) (pending : List (κ × β)) : κ → Option β :=
  pending.foldl (fun m p => Function.update m p.1 (some p.2)) base

theorem overlay_cons (p : κ × β) :
    overlay base (p :: l) = overlay (Function.update base p.1 (some p.2)) l := rfl

theorem overlay_append : overlay base (l ++ l') = overlay (overlay base l) l' := List.foldl_append

theorem overlay_snoc (p : κ × β) :
    overlay base (l ++ [p]) = Function.update (overlay base l) p.1 (some p.2) := overlay_append

theorem overlay_congr (h : base k = base' k) : overlay base l k = overlay base' l k := by
  induction l generalizing base base' with
  | nil => exact h
  | cons p l ih =>
    rw [overlay_cons, overlay_cons]
    refine ih ?_
    by_cases hk : k = p.1
    · rw [hk, Function.update_self, Function.update_self]
    · rw [Function.update_of_ne hk, Function.update_of_ne hk, h]

/-- Writes to other keys do not matter. -/
theorem overlay_of_ne (h : ∀ p ∈ l, p.1 ≠ k) : overlay base l k = base k := by
  induction l generalizing base with
  | nil => rfl
  | cons p l ih =>
    obtain ⟨hp, hl⟩ := List.forall_mem_cons.1 h
    rw [overlay_cons, ih hl, Function.update_of_ne hp.symm]

theorem overlay_append_of_ne (h : ∀ p ∈ l, p.1 ≠ k) :
    overlay base (l ++ l') k = overlay base l' k := by
  rw [overlay_append]
  exact overlay_congr (overlay_of_ne h)

end WriteBuffer
