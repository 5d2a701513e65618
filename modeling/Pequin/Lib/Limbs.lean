import Mathlib.Algebra.BigOperators.Intervals
import Mathlib.Algebra.BigOperators.ModEq
import Mathlib.Algebra.BigOperators.Ring.Finset
import Mathlib.Algebra.Order.BigOperators.Group.Finset
import Mathlib.Data.Nat.ModEq
import Mathlib.Tactic.Linarith
import Mathlib.Tactic.Ring

/-!
# Numbers in limbs

A number in base `b` is a sequence of limbs. A loop over the limbs that keeps a carry computes the
sum of its inputs. Long multiplication by columns does so too, and loses something as soon as a
column needs more than two limbs and its carry is kept in one.
-/

namespace Limbs

open Finset

variable {b n : ℕ}

/-- The number of the first `n` limbs. -/
def value (b : ℕ) (d : ℕ → ℕ) (n : ℕ) : ℕ := ∑ i ∈ range n, d i * b ^ i

@[simp] theorem value_zero (d : ℕ → ℕ) : value b d 0 = 0 := rfl

theorem value_succ (d : ℕ → ℕ) (n : ℕ) : value b d (n + 1) = value b d n + d n * b ^ n :=
  sum_range_succ _ _

theorem value_congr {d e : ℕ → ℕ} (h : ∀ i < n, d i = e i) : value b d n = value b e n :=
  sum_congr rfl fun i hi => by rw [h i (mem_range.1 hi)]

theorem value_add (d e : ℕ → ℕ) (n : ℕ) :
    value b (fun i => d i + e i) n = value b d n + value b e n := by
  simp only [value, add_mul, sum_add_distrib]

theorem value_lt {d : ℕ → ℕ} (hd : ∀ i < n, d i < b) : value b d n < b ^ n := by
  induction n with
  | zero => simp
  | succ n ih =>
    have hlow := ih fun i hi => hd i (by omega)
    have htop : (d n + 1) * b ^ n ≤ b * b ^ n := Nat.mul_le_mul_right _ (hd n n.lt_succ_self)
    rw [value_succ, pow_succ']
    linarith

/-- Splitting off the high limbs. -/
theorem value_eq_add_mul {k : ℕ} (d : ℕ → ℕ) (hk : k ≤ n) :
    ∃ q, value b d n = value b d k + b ^ k * q := by
  induction n, hk using Nat.le_induction with
  | base => exact ⟨0, rfl⟩
  | succ n hk ih =>
    obtain ⟨q, hq⟩ := ih
    refine ⟨q + d n * b ^ (n - k), ?_⟩
    rw [value_succ, hq, mul_add, mul_left_comm, ← pow_add, Nat.add_sub_cancel' hk, add_assoc]

/-- The limbs of a number below `b ^ n` are determined by the number. -/
theorem value_modEq_iff {d : ℕ → ℕ} {x : ℕ} (hd : ∀ i < n, d i < b) :
    value b d n ≡ x [MOD b ^ n] ↔ ∀ i < n, d i = x / b ^ i % b := by
  induction n generalizing x with
  | zero => simp [Nat.modEq_one]
  | succ n ih =>
    have hlt := value_lt fun i hi => hd i (Nat.lt_succ_of_lt hi)
    have hpow : b ^ (n + 1) = b ^ n * b := pow_succ _ _
    have hsplit : x % b ^ (n + 1) = x % b ^ n + x / b ^ n % b * b ^ n := by
      rw [hpow, Nat.mod_mul, mul_comm (b ^ n)]
    have hsmall := value_lt hd
    have hmodlt : x % b ^ n < b ^ n := Nat.mod_lt _ (lt_of_le_of_lt (Nat.zero_le _) hlt)
    have hmod : value b d (n + 1) ≡ x [MOD b ^ (n + 1)] ↔
        value b d n + d n * b ^ n = x % b ^ n + x / b ^ n % b * b ^ n := by
      rw [Nat.ModEq, Nat.mod_eq_of_lt hsmall, hsplit, value_succ]
    have hlow : value b d n ≡ x [MOD b ^ n] ↔ value b d n = x % b ^ n := by
      rw [Nat.ModEq, Nat.mod_eq_of_lt hlt]
    rw [hmod, Nat.forall_lt_succ_right, ← ih fun i hi => hd i (Nat.lt_succ_of_lt hi), hlow]
    refine ⟨fun h => ?_, fun h => by rw [h.1, h.2]⟩
    have hquot := congrArg (· / b ^ n) h
    have hrem := congrArg (· % b ^ n) h
    simp only [Nat.add_mul_mod_self_right, Nat.mod_eq_of_lt hlt, Nat.mod_eq_of_lt hmodlt] at hrem
    rw [hrem] at h
    have hpos : 0 < b ^ n := lt_of_le_of_lt (Nat.zero_le _) hlt
    exact ⟨hrem, Nat.eq_of_mul_eq_mul_right hpos (Nat.add_left_cancel h)⟩

/-! ## Carries -/

/-- A loop that leaves a limb and passes the carry on keeps the sum. -/
theorem value_carry {x d c : ℕ → ℕ} (h : ∀ i < n, x i + c i = d i + b * c (i + 1)) :
    value b x n + c 0 = value b d n + c n * b ^ n := by
  induction n with
  | zero => simp
  | succ n ih =>
    have hlow := ih fun i hi => h i (Nat.lt_succ_of_lt hi)
    have htop := congrArg (· * b ^ n) (h n n.lt_succ_self)
    simp only [add_mul] at htop
    rw [value_succ, value_succ, pow_succ]
    linarith

/-- The complement of all limbs. -/
theorem value_compl {d : ℕ → ℕ} (hd : ∀ i < n, d i < b) :
    value b (fun i => b - 1 - d i) n + value b d n + 1 = b ^ n := by
  induction n with
  | zero => simp
  | succ n ih =>
    have hlow := ih fun i hi => hd i (Nat.lt_succ_of_lt hi)
    have htop : (b - 1 - d n + d n + 1) * b ^ n = b * b ^ n := by
      have hn := hd n n.lt_succ_self
      congr 1
      omega
    simp only [add_mul, one_mul] at htop
    rw [value_succ, value_succ, pow_succ']
    linarith

/-! ## Long multiplication -/

def column (x y : ℕ → ℕ) (k : ℕ) : ℕ := ∑ i ∈ range (k + 1), x (k - i) * y i

theorem column_le {x y : ℕ → ℕ} {k : ℕ} (hx : ∀ i ≤ k, x i < b) (hy : ∀ i ≤ k, y i < b) :
    column x y k ≤ (k + 1) * ((b - 1) * (b - 1)) := by
  have hterm : ∀ i ∈ range (k + 1), x (k - i) * y i ≤ (b - 1) * (b - 1) := fun i hi =>
    Nat.mul_le_mul (Nat.le_sub_one_of_lt (hx _ (Nat.sub_le _ _)))
      (Nat.le_sub_one_of_lt (hy _ (Nat.le_of_lt_succ (mem_range.1 hi))))
  calc column x y k ≤ (range (k + 1)).card • ((b - 1) * (b - 1)) := sum_le_card_nsmul _ _ _ hterm
    _ = (k + 1) * ((b - 1) * (b - 1)) := by rw [card_range, nsmul_eq_mul, Nat.cast_id]

/-- The columns below `n` are the product without a multiple of `b ^ n`. -/
theorem value_column_modEq (x y : ℕ → ℕ) (n : ℕ) :
    value b (column x y) n ≡ value b x n * value b y n [MOD b ^ n] := by
  have hflip : value b (column x y) n =
      ∑ i ∈ range n, y i * b ^ i * value b x (n - i) := by
    have hdiag := sum_range_diag_flip n fun i j => y i * b ^ i * (x j * b ^ j)
    simp only [value, mul_sum, ← hdiag]
    refine sum_congr rfl fun k _ => ?_
    rw [column, sum_mul]
    refine sum_congr rfl fun i hi => ?_
    have hik : i + (k - i) = k := Nat.add_sub_cancel' (Nat.le_of_lt_succ (mem_range.1 hi))
    calc x (k - i) * y i * b ^ k = x (k - i) * y i * b ^ (i + (k - i)) := by rw [hik]
      _ = y i * b ^ i * (x (k - i) * b ^ (k - i)) := by ring
  have hprod : value b x n * value b y n = ∑ i ∈ range n, y i * b ^ i * value b x n := by
    rw [mul_comm, value, sum_mul]
  rw [hflip, hprod]
  refine Nat.ModEq.symm (Nat.ModEq.sum fun i hi => ?_)
  obtain ⟨q, hq⟩ := value_eq_add_mul (b := b) x (Nat.sub_le n i)
  have hpow : b ^ i * b ^ (n - i) = b ^ n := by
    rw [← pow_add, Nat.add_sub_cancel' (mem_range.1 hi).le]
  have heq : y i * b ^ i * value b x n =
      y i * b ^ i * value b x (n - i) + b ^ n * (y i * q) := by
    rw [hq, ← hpow]
    ring
  rw [heq, Nat.ModEq, Nat.add_mul_mod_self_left]

/-! ## Carries of one limb -/

/-- The carry into a column, if every column keeps two limbs of its sum. -/
def keptCarry (b : ℕ) (col : ℕ → ℕ) : ℕ → ℕ
  | 0 => 0
  | k + 1 => (keptCarry b col k + col k) % (b * b) / b

/-- The exact sum of a column with the carry into it. -/
def columnSum (b : ℕ) (col : ℕ → ℕ) (k : ℕ) : ℕ := value b col (k + 1) / b ^ k

section
variable {col : ℕ → ℕ} {k : ℕ} (hb : 0 < b)
include hb

theorem columnSum_eq : columnSum b col k = value b col k / b ^ k + col k := by
  rw [columnSum, value_succ, Nat.add_mul_div_right _ _ (Nat.pow_pos hb)]

theorem columnSum_succ : columnSum b col (k + 1) = columnSum b col k / b + col (k + 1) := by
  rw [columnSum_eq hb, columnSum, pow_succ, Nat.div_div_eq_div_mul]

/-- A limb of the number depends on the columns up to it only. -/
theorem value_div_mod (hk : k < n) : value b col n / b ^ k % b = columnSum b col k % b := by
  obtain ⟨q, hq⟩ := value_eq_add_mul (b := b) col (Nat.succ_le_of_lt hk)
  rw [hq, pow_succ, mul_assoc, Nat.add_mul_div_left _ _ (Nat.pow_pos hb), Nat.add_mul_mod_self_left,
    columnSum]

theorem columnSum_lt_iff : columnSum b col k < b * b ↔ value b col (k + 1) < b ^ (k + 2) := by
  rw [columnSum, Nat.div_lt_iff_lt_mul (Nat.pow_pos hb), pow_add, pow_two, mul_comm (b ^ k)]

omit hb in
theorem keptCarry_succ : keptCarry b col (k + 1) = (keptCarry b col k + col k) / b % b :=
  Nat.mod_mul_right_div_self _ _ _

/-- As long as no column overflows, the kept sums are the exact ones. -/
theorem keptCarry_add_eq (h : ∀ j < k, columnSum b col j < b * b) :
    keptCarry b col k + col k = columnSum b col k := by
  induction k with
  | zero => simp [keptCarry, columnSum, value]
  | succ k ih =>
    have hk := h k k.lt_succ_self
    rw [keptCarry, ih fun j hj => h j (Nat.lt_succ_of_lt hj), Nat.mod_eq_of_lt hk,
      columnSum_succ hb]

/-- A column that overflows makes the limb after the next one wrong. -/
theorem limb_ne_of_overflow (h : ∀ j < k, columnSum b col j < b * b)
    (hk : b * b ≤ columnSum b col k) (hlt : columnSum b col k < b * b * b) :
    (keptCarry b col (k + 2) + col (k + 2)) % b ≠ columnSum b col (k + 2) % b := by
  set t := columnSum b col k / (b * b) with ht
  have ht0 : 0 < t := Nat.div_pos hk (Nat.mul_pos hb hb)
  have htb : t < b := Nat.div_lt_of_lt_mul hlt
  have hone : columnSum b col (k + 1) = keptCarry b col (k + 1) + col (k + 1) + b * t := by
    rw [columnSum_succ hb, keptCarry_succ, keptCarry_add_eq hb h, ht, ← Nat.div_div_eq_div_mul]
    have hdm := Nat.mod_add_div (columnSum b col k / b) b
    omega
  have htwo : columnSum b col (k + 2) ≡ keptCarry b col (k + 2) + col (k + 2) + t [MOD b] := by
    have hkept : keptCarry b col (k + 2) = (keptCarry b col (k + 1) + col (k + 1)) / b % b :=
      keptCarry_succ
    rw [columnSum_succ hb, hone, Nat.add_mul_div_left _ _ hb, hkept, add_right_comm]
    exact ((Nat.mod_modEq _ _).symm.add_right _).add_right _
  intro heq
  have hzero : 0 ≡ t [MOD b] := by
    have hadd : keptCarry b col (k + 2) + col (k + 2) + 0 ≡
        keptCarry b col (k + 2) + col (k + 2) + t [MOD b] := Nat.ModEq.trans heq htwo
    exact Nat.ModEq.add_left_cancel' _ hadd
  rw [Nat.ModEq, Nat.zero_mod, Nat.mod_eq_of_lt htb] at hzero
  omega

/-- The limbs are right exactly when no column overflows, the last two apart. -/
theorem limbs_right_iff (hcol : ∀ k < n, col k + b ≤ b * b * b) :
    (∀ k < n, (keptCarry b col k + col k) % b = columnSum b col k % b) ↔
      ∀ k, k + 2 < n → columnSum b col k < b * b := by
  constructor
  · intro hright k
    induction k using Nat.strong_induction_on with
    | _ k ih =>
      intro hk
      by_contra hover
      have hbelow (j : ℕ) (hj : j < k) : columnSum b col j < b * b := ih j hj (by omega)
      have hkept : keptCarry b col k < b := by
        cases k with
        | zero => exact hb
        | succ k => rw [keptCarry_succ]; exact Nat.mod_lt _ hb
      have hlt : columnSum b col k < b * b * b := by
        rw [← keptCarry_add_eq hb hbelow]
        have hc := hcol k (by omega)
        omega
      exact limb_ne_of_overflow hb hbelow (Nat.not_lt.1 hover) hlt (hright (k + 2) hk)
  · intro hfit k hk
    cases k with
    | zero => rw [keptCarry_add_eq hb fun j hj => absurd hj j.not_lt_zero]
    | succ k =>
      have hprev : keptCarry b col k + col k = columnSum b col k :=
        keptCarry_add_eq hb fun j hj => hfit j (by omega)
      rw [keptCarry_succ, hprev, columnSum_succ hb]
      exact (Nat.mod_modEq _ _).add_right _

/-- Long multiplication with a carry of one limb gives the product modulo `b ^ n` exactly when no
column but the last two overflows. -/
theorem product_modEq_iff {x y d : ℕ → ℕ}
    (hd : ∀ k, d k = (keptCarry b (column x y) k + column x y k) % b)
    (hcol : ∀ k < n, column x y k + b ≤ b * b * b) :
    value b d n ≡ value b x n * value b y n [MOD b ^ n] ↔
      ∀ k, k + 2 < n → value b (column x y) (k + 1) < b ^ (k + 2) := by
  have hlt (k : ℕ) (_ : k < n) : d k < b := hd k ▸ Nat.mod_lt _ hb
  have hprod : value b d n ≡ value b x n * value b y n [MOD b ^ n] ↔
      value b d n ≡ value b (column x y) n [MOD b ^ n] :=
    ⟨fun h => h.trans (value_column_modEq x y n).symm, fun h => h.trans (value_column_modEq x y n)⟩
  rw [hprod, value_modEq_iff hlt]
  simp only [← columnSum_lt_iff hb]
  rw [← limbs_right_iff hb hcol]
  refine forall₂_congr fun k hk => ?_
  rw [hd, value_div_mod hb hk]

end

end Limbs
