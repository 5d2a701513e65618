import Mathlib.Algebra.Field.ZMod
import Mathlib.Algebra.BigOperators.Intervals
import Mathlib.Algebra.BigOperators.Ring.Finset
import Mathlib.Algebra.Order.Ring.Int
import Mathlib.Data.ZMod.Basic
import Mathlib.Tactic.Linarith
import Mathlib.Tactic.Ring

/-!
# Integers in a prime field

A constraint over `ZMod p` says something about integers only as long as nothing wraps around. This
file has the two facts such arguments rest on: integers closer than `p` are told apart by their
residues, and wires restricted to `0` or `2 ^ i` sum to the residue of an integer in a window.
-/

namespace Residue

/-! ## Residues of close integers -/

section
variable {p : ℕ}

theorem eq_of_cast_eq {a b : ℤ} (hlt : |a - b| < p) (h : (a : ZMod p) = (b : ZMod p)) : a = b := by
  have hdvd : (p : ℤ) ∣ a - b := by
    rw [← ZMod.intCast_zmod_eq_zero_iff_dvd, Int.cast_sub, h, sub_self]
  have hzero : a - b = 0 := Int.eq_zero_of_abs_lt_dvd hdvd hlt
  omega

theorem eq_zero_of_cast_eq_zero {a : ℤ} (hlt : |a| < p) (h : (a : ZMod p) = 0) : a = 0 :=
  eq_of_cast_eq (by simpa using hlt) (by simpa using h)

theorem cast_ne_zero {a : ℤ} (hlt : |a| < p) (h : a ≠ 0) : (a : ZMod p) ≠ 0 :=
  fun h' => h (eq_zero_of_cast_eq_zero hlt h')

end

/-! ## Selector wires -/

section
variable {R : Type*} [CommRing R] [IsDomain R]

theorem bool_of_mul_sub_one {x : R} (h : x * (x - 1) = 0) : x = 0 ∨ x = 1 := by
  rcases mul_eq_zero.mp h with h | h
  · exact .inl h
  · exact .inr (sub_eq_zero.mp h)

end

/-- Of three wires that are `0` or `1` and sum to `1`, exactly one is `1`: in a field with more
than three elements the sum cannot wrap. -/
theorem one_hot {p : ℕ} [Fact p.Prime] (hp : 3 < p) {a b c : ZMod p} (ha : a = 0 ∨ a = 1)
    (hb : b = 0 ∨ b = 1) (hc : c = 0 ∨ c = 1) (h : a + b + c - 1 = 0) :
    (a = 1 ∧ b = 0 ∧ c = 0) ∨ (a = 0 ∧ b = 1 ∧ c = 0) ∨ (a = 0 ∧ b = 0 ∧ c = 1) := by
  -- every other combination leaves one of `-1`, `1` and `2` equal to zero
  have h2 : (2 : ZMod p) ≠ 0 := by
    have hlt : |(2 : ℤ)| < p := by rw [abs_two]; omega
    simpa using cast_ne_zero hlt two_ne_zero
  rcases ha with rfl | rfl <;> rcases hb with rfl | rfl <;> rcases hc with rfl | rfl <;>
    norm_num at h <;> first | exact absurd h h2 | simp

/-- Of wires that are `0` or `1` and sum to `1`, one is `1` and the others are `0`: there are fewer
wires than elements of the field. -/
theorem exists_one_hot {p : ℕ} [Fact p.Prime] {k : ℕ} (hk : k < p) {b : ℕ → ZMod p}
    (hb : ∀ i < k, b i = 0 ∨ b i = 1) (hsum : ∑ i ∈ Finset.range k, b i = 1) :
    ∃ j < k, b j = 1 ∧ ∀ i < k, i ≠ j → b i = 0 := by
  set hot := (Finset.range k).filter fun i => b i = 1 with hhot
  have hcard : (hot.card : ZMod p) = 1 := by
    rw [← hsum, hhot, Finset.card_filter, Nat.cast_sum]
    refine Finset.sum_congr rfl fun i hi => ?_
    rcases hb i (Finset.mem_range.mp hi) with h | h <;> simp [h]
  have hle : hot.card ≤ k := by simpa using Finset.card_filter_le (Finset.range k) fun i => b i = 1
  have hone : (hot.card : ℤ) = 1 := by
    refine eq_of_cast_eq (p := p) ?_ (by simpa using hcard)
    rw [abs_lt]
    have := (Fact.out : p.Prime).two_le
    omega
  obtain ⟨j, hj⟩ := Finset.card_eq_one.mp (by exact_mod_cast hone : hot.card = 1)
  have hmem : ∀ i, i ∈ hot ↔ i = j := by simp [hj]
  have hjk : j < k ∧ b j = 1 := by simpa [hhot] using (hmem j).mpr rfl
  refine ⟨j, hjk.1, hjk.2, fun i hi hne => (hb i hi).resolve_right fun h => hne ?_⟩
  exact (hmem i).mp (by simp [hhot, hi, h])

/-! ## Weighted bits -/

section
variable {R : Type*} [CommRing R]

/-- Each of the first `k` wires is `0` or the power of two of its position. -/
def WeightedBits (n : ℕ → R) (k : ℕ) : Prop := ∀ i < k, n i * (2 ^ i - n i) = 0

def bitSum (n : ℕ → R) (k : ℕ) : R := ∑ i ∈ Finset.range k, n i

@[simp] theorem bitSum_zero (n : ℕ → R) : bitSum n 0 = 0 := by simp [bitSum]

@[simp] theorem bitSum_succ (n : ℕ → R) (k : ℕ) : bitSum n (k + 1) = bitSum n k + n k := by
  simp [bitSum, Finset.sum_range_succ]

theorem bitSum_congr {n m : ℕ → R} {k : ℕ} (h : ∀ i < k, n i = m i) : bitSum n k = bitSum m k :=
  Finset.sum_congr rfl fun i hi => h i (Finset.mem_range.mp hi)

theorem WeightedBits.congr {n m : ℕ → R} {k : ℕ} (h : ∀ i < k, n i = m i)
    (hn : WeightedBits n k) : WeightedBits m k := fun i hi => h i hi ▸ hn i hi

/-- Weighted bits sum to the residue of a number below `2 ^ k`. -/
theorem WeightedBits.bitSum_eq [IsDomain R] {n : ℕ → R} {k : ℕ} (h : WeightedBits n k) :
    ∃ m : ℤ, 0 ≤ m ∧ m < 2 ^ k ∧ bitSum n k = (m : R) := by
  induction k with
  | zero => exact ⟨0, by simp, by simp, by simp⟩
  | succ k ih =>
    obtain ⟨m, hm0, hmk, hsum⟩ := ih fun i hi => h i (by omega)
    have hpow : (2 : ℤ) ^ (k + 1) = 2 ^ k + 2 ^ k := by ring
    rcases mul_eq_zero.mp (h k (by omega)) with hk | hk
    · exact ⟨m, hm0, by linarith [pow_pos (by norm_num : (0 : ℤ) < 2) k], by simp [hsum, hk]⟩
    · refine ⟨m + 2 ^ k, by positivity, by linarith, ?_⟩
      simp [hsum, ← sub_eq_zero.mp hk]

/-- The bits of an integer, read from the low end by halving, each at its weight. -/
def bitsOf (m : ℤ) (i : ℕ) : ℤ := (m / 2 ^ i) % 2 * 2 ^ i

theorem weightedBits_bitsOf (m : ℤ) (k : ℕ) : WeightedBits (fun i => (bitsOf m i : R)) k := by
  intro i _
  rcases Int.emod_two_eq_zero_or_one (m / 2 ^ i) with h | h <;> simp [bitsOf, h]

theorem bitSum_bitsOf_int (m : ℤ) (k : ℕ) : bitSum (bitsOf m) k = m % 2 ^ k := by
  induction k with
  | zero => simp
  | succ k ih =>
    have hlow := Int.emod_add_mul_ediv m (2 ^ k)
    have hbit := Int.emod_add_mul_ediv (m / 2 ^ k) 2
    have hall := Int.emod_add_mul_ediv m (2 ^ k * 2)
    rw [← Int.ediv_ediv_of_nonneg (by positivity)] at hall
    have hmul : 2 ^ k * (m / 2 ^ k) = (m / 2 ^ k) % 2 * 2 ^ k + 2 ^ k * 2 * (m / 2 ^ k / 2) := by
      calc 2 ^ k * (m / 2 ^ k) = 2 ^ k * ((m / 2 ^ k) % 2 + 2 * (m / 2 ^ k / 2)) := by rw [hbit]
        _ = _ := by ring
    rw [bitSum_succ, ih, pow_succ, bitsOf]
    linarith

theorem bitSum_bitsOf {m : ℤ} {k : ℕ} (h0 : 0 ≤ m) (hk : m < 2 ^ k) :
    bitSum (fun i => (bitsOf m i : R)) k = (m : R) := by
  have hint : bitSum (bitsOf m) k = m := by rw [bitSum_bitsOf_int, Int.emod_eq_of_lt h0 hk]
  calc bitSum (fun i => (bitsOf m i : R)) k = ((bitSum (bitsOf m) k : ℤ) : R) := by
        simp only [bitSum, Int.cast_sum]
    _ = (m : R) := by rw [hint]

end

end Residue
