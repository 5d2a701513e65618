import Mathlib.Data.Nat.Notation
import Mathlib.Logic.Basic

/-!
# Machines whose states are tested one after the other

A machine has numbered states, and the code of a state runs if it is the current one. A pass tests
all states once, in the order of their numbers, so that a pass runs several states as long as the
number of the current one grows. A machine that reaches its final state step by step reaches it
after some number of passes.
-/

namespace FallThrough

variable {T : Type} (pc : T → ℕ) (R : ℕ → T → T → Prop)

/-- The tests of `n` states from `k` on. -/
def Pass : ℕ → ℕ → T → T → Prop
  | _, 0, τ, τ' => τ' = τ
  | k, n + 1, τ, τ' =>
    if pc τ = k then ∃ τ₁, R k τ τ₁ ∧ Pass (k + 1) n τ₁ τ' else Pass (k + 1) n τ τ'

/-- `m` steps of a machine with the final state `F`. -/
inductive Steps (F : ℕ) : ℕ → T → T → Prop where
  | refl (τ) : Steps F 0 τ τ
  | head {m τ τ₁ τ'} (hpc : pc τ < F) (h : R (pc τ) τ τ₁) (hrest : Steps F m τ₁ τ') :
      Steps F (m + 1) τ τ'

variable {pc R} {F : ℕ} {τ τ₁ τ' : T}

theorem Steps.trans {m n : ℕ} (h : Steps pc R F m τ τ₁) (h' : Steps pc R F n τ₁ τ') :
    Steps pc R F (n + m) τ τ' := by
  induction h with
  | refl => exact h'
  | head hpc h _ ih => exact .head hpc h (ih h')

def Reaches (pc : T → ℕ) (R : ℕ → T → T → Prop) (F : ℕ) (τ τ' : T) : Prop :=
  ∃ m, Steps pc R F m τ τ'

theorem Reaches.refl (τ : T) : Reaches pc R F τ τ := ⟨0, .refl τ⟩

theorem Reaches.trans (h : Reaches pc R F τ τ₁) (h' : Reaches pc R F τ₁ τ') :
    Reaches pc R F τ τ' := by
  obtain ⟨m, hm⟩ := h
  obtain ⟨n, hn⟩ := h'
  exact ⟨n + m, hm.trans hn⟩

theorem Reaches.step (hpc : pc τ < F) (h : R (pc τ) τ τ') : Reaches pc R F τ τ' :=
  ⟨1, .head hpc h (.refl τ')⟩

/-! ## Passes -/

/-- A pass follows the steps to the final state, and makes one if it still comes to the current
state. -/
theorem Steps.pass {m k n : ℕ} (h : Steps pc R F m τ τ') (hF : pc τ' = F) (hk : k + n = F) :
    ∃ τ₁ m₁, Pass pc R k n τ τ₁ ∧ Steps pc R F m₁ τ₁ τ' ∧ m₁ ≤ m ∧
      (k ≤ pc τ → pc τ < F → m₁ < m) := by
  induction n generalizing k m τ with
  | zero => exact ⟨τ, m, rfl, h, Nat.le_refl m, fun _ _ => by omega⟩
  | succ n ih =>
    by_cases hpc : pc τ = k
    · cases h with
      | refl => omega
      | @head m τ τ₂ τ' hlt hR hrest =>
        obtain ⟨τ₁, m₁, hpass, hsteps, hle, -⟩ := ih (k := k + 1) hrest (by omega)
        refine ⟨τ₁, m₁, ?_, hsteps, by omega, fun _ _ => by omega⟩
        rw [Pass, if_pos hpc]
        exact ⟨τ₂, hpc ▸ hR, hpass⟩
    · obtain ⟨τ₁, m₁, hpass, hsteps, hle, hlt⟩ := ih (k := k + 1) h (by omega)
      refine ⟨τ₁, m₁, ?_, hsteps, hle, fun h₁ h₂ => hlt (by omega) h₂⟩
      rw [Pass, if_neg hpc]
      exact hpass

def Passes (pc : T → ℕ) (R : ℕ → T → T → Prop) (F : ℕ) : ℕ → T → T → Prop
  | 0, τ, τ' => τ' = τ
  | n + 1, τ, τ' => ∃ τ₁, Pass pc R 0 F τ τ₁ ∧ Passes pc R F n τ₁ τ'

/-- Any number of passes stays on the way to the final state. -/
theorem Reaches.passes (h : Reaches pc R F τ τ') (hF : pc τ' = F) (n : ℕ) :
    ∃ τ₁, Passes pc R F n τ τ₁ ∧ Reaches pc R F τ₁ τ' := by
  induction n generalizing τ with
  | zero => exact ⟨τ, rfl, h⟩
  | succ n ih =>
    obtain ⟨m, hm⟩ := h
    obtain ⟨τ₁, m₁, hpass, hsteps, -, -⟩ := hm.pass hF (Nat.zero_add F)
    obtain ⟨τ₂, hpasses, hrest⟩ := ih ⟨m₁, hsteps⟩
    exact ⟨τ₂, ⟨τ₁, hpass, hpasses⟩, hrest⟩

/-- The final state has no steps. -/
theorem Reaches.eq_of_final (h : Reaches pc R F τ τ') (hF : pc τ = F) : τ' = τ := by
  obtain ⟨m, hm⟩ := h
  cases hm with
  | refl => rfl
  | head hpc => omega

theorem Steps.passes {m n : ℕ} (h : Steps pc R F m τ τ') (hF : pc τ' = F) (hmn : m ≤ n) :
    Passes pc R F n τ τ' := by
  induction n generalizing m τ with
  | zero =>
    cases Nat.le_zero.1 hmn
    cases h
    rfl
  | succ n ih =>
    obtain ⟨τ₁, m₁, hpass, hsteps, hle, hlt⟩ := h.pass hF (Nat.zero_add F)
    refine ⟨τ₁, hpass, ih hsteps ?_⟩
    by_cases hpc : pc τ < F
    · have := hlt (Nat.zero_le _) hpc
      omega
    · -- no step is left in the final state
      cases h with
      | refl => omega
      | head h => exact absurd h hpc

/-- Any number of passes that is large enough gets to the final state. -/
theorem Reaches.exists_passes (h : Reaches pc R F τ τ') (hF : pc τ' = F) :
    ∃ N, ∀ n ≥ N, Passes pc R F n τ τ' := by
  obtain ⟨m, hm⟩ := h
  exact ⟨m, fun n hn => hm.passes hF hn⟩

end FallThrough
