import Pequin.Waksman.Network

/-!
# What flows through the network

`Flows` says, level by level, that the values of the inner wires and the positions of the switches
carry the inputs of a network to its outputs. The inner wires are numbered as the router numbers
them: the wires next to the switches on the left, those next to the switches on the right, and then
the two subnetworks.
-/

namespace Pequin

/-! ## Sizes -/

theorem numSwitches_succ (n : ℕ) : numSwitches (n + 1) = numSwitches n + Nat.clog 2 (n + 1) := by
  simp [numSwitches, List.range_succ]

/-- The switches of both columns, and those of the subnetworks. -/
theorem numSwitches_eq (n : ℕ) (hn : 1 ≤ n) :
    numSwitches n = n - 1 + numSwitches (n / 2) + numSwitches ((n + 1) / 2) := by
  induction n, hn using Nat.le_induction with
  | base => rfl
  | succ n hn ih =>
    have hclog : Nat.clog 2 (n + 1) = Nat.clog 2 (n / 2 + 1) + 1 := by
      rw [Nat.clog_of_two_le one_lt_two (by omega)]
      congr 2
      omega
    have hhalf : (n + 1 + 1) / 2 = n / 2 + 1 := by omega
    rw [numSwitches_succ, ih, hclog, hhalf, numSwitches_succ]
    omega

theorem le_numSwitches (n : ℕ) (hn : 1 ≤ n) : n - 1 ≤ numSwitches n := by
  rw [numSwitches_eq n hn]
  omega

theorem switchCount_eq (n : ℕ) (hn : 2 ≤ n) : n / 2 + rightSwitchCount n = n - 1 := by
  unfold rightSwitchCount
  omega

def numIntermediate (n : ℕ) : ℕ := 2 * numSwitches n - n

/-- The inner wires next to the two columns. In a network of three, one wire is next to both. -/
def levelWires (n : ℕ) : ℕ := n / 2 * 2 + rightSwitchCount n * 2 - if n = 3 then 1 else 0

/-- The wires of the lower subnetwork come after those of the upper one. -/
theorem botVars_eq (n b : ℕ) (hn : 3 ≤ n) :
    b + n / 2 * 2 + rightSwitchCount n * 2 + 2 * numSwitches (n / 2) - n / 2 =
      b + levelWires n + numIntermediate (n / 2) := by
  have hcount := switchCount_eq n (by omega)
  have hle := le_numSwitches (n / 2) (by omega)
  unfold levelWires numIntermediate
  by_cases h3 : n = 3
  · subst h3
    rw [show numSwitches (3 / 2) = 0 by decide]
    simp only [if_true]
    omega
  · rw [if_neg h3]
    omega

theorem numIntermediate_eq (n : ℕ) (hn : 3 ≤ n) :
    numIntermediate n = levelWires n + numIntermediate (n / 2) + numIntermediate ((n + 1) / 2) := by
  have hbot := botVars_eq n 0 hn
  have hcount := switchCount_eq n (by omega)
  have hsum := numSwitches_eq n (by omega)
  have hle := le_numSwitches (n / 2) (by omega)
  have hle' := le_numSwitches ((n + 1) / 2) (by omega)
  unfold numIntermediate at hbot ⊢
  omega

/-- The upper subnetwork starts right after the wires of the level, or has no wires. -/
theorem topVars_eq (n b : ℕ) : b + n / 2 * 2 + rightSwitchCount n * 2 = b + levelWires n ∨
    numIntermediate (n / 2) = 0 := by
  by_cases h3 : n = 3
  · subst h3
    exact .inr (by decide)
  · refine .inl ?_
    rw [levelWires, if_neg h3]
    omega

/-! ## Flow -/

section
variable {α : Type}

/-- What leaves a switch. -/
def crossed (swap : Bool) (x y : α) : α × α := if swap then (y, x) else (x, y)

theorem crossed_symm {swap : Bool} {x y u v : α} (h : crossed swap x y = (u, v)) :
    crossed swap u v = (x, y) := by
  cases swap <;> simp_all [crossed]

/-- The number of the wire `j` on the right. In a network of three, the upper wire on the right is
the upper one on the left. -/
def rightWire (n j : ℕ) : ℕ := if n = 3 then 2 * j else n / 2 * 2 + j

theorem rightWire_lt {n j : ℕ} (hj : j < rightSwitchCount n * 2) :
    rightWire n j < levelWires n := by
  unfold rightWire levelWires
  by_cases h3 : n = 3
  · subst h3
    simp [rightSwitchCount] at hj ⊢
    omega
  · rw [if_neg h3, if_neg h3]
    omega

theorem le_levelWires (n : ℕ) : n / 2 * 2 ≤ levelWires n := by
  unfold levelWires
  by_cases h3 : n = 3
  · subst h3
    decide
  · rw [if_neg h3]
    omega

/-- The wire that goes to the place `k` of the lower subnetwork. -/
def botIndex (n k : ℕ) : ℕ := min (2 * k + 1) (n - 1)

/-- The network of size `n` with wires from `b` and switches from `s` carries `ins` to `outs`. `l`
and `r` are the values next to the two columns. -/
inductive Flows (wire : ℕ → α) (swap : ℕ → Bool) : ℕ → ℕ → ℕ → (ℕ → α) → (ℕ → α) → Prop
  | one {b s : ℕ} {ins outs : ℕ → α} (h : ins 0 = outs 0) : Flows wire swap 1 b s ins outs
  | two {b s : ℕ} {ins outs : ℕ → α} (h : crossed (swap s) (ins 0) (ins 1) = (outs 0, outs 1)) :
    Flows wire swap 2 b s ins outs
  | step {n b s : ℕ} {ins outs : ℕ → α} (l r : ℕ → α) (hn : 3 ≤ n)
    (left_wire : ∀ i < n / 2 * 2, l i = wire (b + i))
    (left_link : ∀ i < n, n / 2 * 2 ≤ i → l i = ins i)
    (right_wire : ∀ j < rightSwitchCount n * 2, r j = wire (b + rightWire n j))
    (right_link : ∀ j < n, rightSwitchCount n * 2 ≤ j → r j = outs j)
    (left : ∀ k < n / 2, crossed (swap (s + k)) (ins (2 * k)) (ins (2 * k + 1)) =
      (l (2 * k), l (2 * k + 1)))
    (right : ∀ k < rightSwitchCount n, crossed (swap (s + n / 2 + k)) (r (2 * k)) (r (2 * k + 1)) =
      (outs (2 * k), outs (2 * k + 1)))
    (top : Flows wire swap (n / 2) (b + n / 2 * 2 + rightSwitchCount n * 2)
      (s + n / 2 + rightSwitchCount n) (fun k => l (2 * k)) fun k => r (2 * k))
    (bot : Flows wire swap ((n + 1) / 2)
      (b + n / 2 * 2 + rightSwitchCount n * 2 + 2 * numSwitches (n / 2) - n / 2)
      (s + n / 2 + rightSwitchCount n + numSwitches (n / 2)) (fun k => l (botIndex n k))
      fun k => r (botIndex n k)) : Flows wire swap n b s ins outs

variable {wire wire' : ℕ → α} {swap swap' : ℕ → Bool} {n b s : ℕ} {ins ins' outs outs' : ℕ → α}

/-- Only the first `n` inputs and outputs matter. -/
theorem Flows.congr (h : Flows wire swap n b s ins outs) (hins : ∀ i < n, ins' i = ins i)
    (houts : ∀ i < n, outs' i = outs i) : Flows wire swap n b s ins' outs' := by
  cases h with
  | one h => exact .one (by rw [hins 0 one_pos, houts 0 one_pos, h])
  | two h =>
    refine .two ?_
    rw [hins 0 two_pos, hins 1 one_lt_two, houts 0 two_pos, houts 1 one_lt_two, h]
  | step l r hn hlw hll hrw hrl hleft hright htop hbot =>
    refine .step l r hn hlw (fun i hi hle => ?_) hrw (fun j hj hle => ?_) (fun k hk => ?_)
      (fun k hk => ?_) htop hbot
    · rw [hins i hi, hll i hi hle]
    · rw [houts j hj, hrl j hj hle]
    · rw [hins _ (by omega), hins _ (by omega), hleft k hk]
    · have hcount := switchCount_eq n (by omega)
      rw [houts _ (by omega), houts _ (by omega), hright k hk]

/-- Only the wires and the switches of the network matter. -/
theorem Flows.frame (h : Flows wire swap n b s ins outs)
    (hwire : ∀ k, b ≤ k → k < b + numIntermediate n → wire' k = wire k)
    (hswap : ∀ k, s ≤ k → k < s + numSwitches n → swap' k = swap k) :
    Flows wire' swap' n b s ins outs := by
  induction h with
  | one h => exact .one h
  | two h => exact .two (by rw [hswap _ le_rfl (Nat.lt_add_of_pos_right (by decide)), h])
  | @step n b s ins outs l r hn hlw hll hrw hrl hleft hright htop hbot ihtop ihbot =>
    have hcount := switchCount_eq n (by omega)
    have hsw := numSwitches_eq n (by omega)
    have hbot' := botVars_eq n b hn
    have htop' := topVars_eq n b
    have hsize := numIntermediate_eq n hn
    have hlevel := le_levelWires n
    refine .step l r hn (fun i hi => ?_) hll (fun j hj => ?_) hrl (fun k hk => ?_) (fun k hk => ?_)
      (ihtop (fun k hle hlt => ?_) fun k hle hlt => ?_)
      (ihbot (fun k hle hlt => ?_) fun k hle hlt => ?_)
    · rw [hwire _ (by omega) (by omega), hlw i hi]
    · have hj' := rightWire_lt hj
      rw [hwire _ (by omega) (by omega), hrw j hj]
    · rw [hswap _ (by omega) (by omega), hleft k hk]
    · rw [hswap _ (by omega) (by omega), hright k hk]
    · exact hwire k (by omega) (by omega)
    · exact hswap k (by omega) (by omega)
    · exact hwire k (by omega) (by omega)
    · exact hswap k (by omega) (by omega)

end

end Pequin
