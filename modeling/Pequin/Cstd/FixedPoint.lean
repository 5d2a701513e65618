import Mathlib.Data.Nat.Sqrt
import Mathlib.Tactic.Linarith
import Mathlib.Tactic.NormNum
import Mathlib.Tactic.Ring

/-!
# Square roots of fixed-point numbers

A fixed-point number is an `int32_t` in units of `2^-16`. Its square root is an integer square root
of 48 bits, which is found bit by bit from the high end: a bit stays if the square of the number
with this bit is not above the operand.
-/

namespace Pequin.Cstd

/-! ## The search -/

def sqrtMid (lo : UInt64) (i : ℕ) : UInt64 := lo + 1 <<< UInt64.ofNat i

def sqrtStep (a lo : UInt64) (i : ℕ) : UInt64 :=
  let mid := sqrtMid lo i
  if mid * mid > a then lo else mid

def sqrtAfter (a : UInt64) (bits : ℕ) : ℕ → UInt64
  | 0 => 0
  | n + 1 => sqrtStep a (sqrtAfter a bits n) (bits - 1 - n)

def uint64sqrt (a : UInt64) (bits : ℕ) : UInt64 := sqrtAfter a bits bits

def fixScaleLog2 : ℕ := 16

def fixSqrt (a : Int32) : Int32 :=
  let tosqrt := a.toInt64.toUInt64 <<< UInt64.ofNat fixScaleLog2
  Int32.ofInt (uint64sqrt tosqrt ((32 + fixScaleLog2) / 2)).toNat

/-! ## The invariant -/

/-- With `k` bits to go, the root is from `lo` on and below `lo + 2^k`. -/
structure Bracketed (a lo k bits : ℕ) : Prop where
  le : lo * lo ≤ a
  lt : a < (lo + 2 ^ k) * (lo + 2 ^ k)
  bound : lo + 2 ^ k ≤ 2 ^ bits

theorem Bracketed.sqrt_eq {a lo bits : ℕ} (h : Bracketed a lo 0 bits) : a.sqrt = lo :=
  (Nat.eq_sqrt.2 ⟨h.le, h.lt⟩).symm

/-- Halving the interval. -/
theorem Bracketed.step {a lo k bits : ℕ} (h : Bracketed a lo (k + 1) bits) :
    Bracketed a (if (lo + 2 ^ k) * (lo + 2 ^ k) > a then lo else lo + 2 ^ k) k bits := by
  have hpow : 2 ^ (k + 1) = 2 ^ k + 2 ^ k := by ring
  have hlt := h.lt
  have hbound := h.bound
  rw [hpow, ← Nat.add_assoc] at hlt hbound
  split
  · rename_i hmid
    exact ⟨h.le, hmid, le_trans (Nat.le_add_right _ _) hbound⟩
  · rename_i hmid
    exact ⟨Nat.not_lt.1 hmid, hlt, hbound⟩

theorem toNat_one_shiftLeft {i : ℕ} (hi : i < 64) : (1 <<< UInt64.ofNat i).toNat = 2 ^ i := by
  have hmod : (UInt64.ofNat i).toNat % 64 = i := by
    rw [UInt64.toNat_ofNat_of_lt' (lt_trans hi (by decide)), Nat.mod_eq_of_lt hi]
  have hlt : 2 ^ i < 2 ^ 64 := Nat.pow_lt_pow_right one_lt_two hi
  rw [UInt64.toNat_shiftLeft, hmod, UInt64.toNat_one, Nat.one_shiftLeft, Nat.mod_eq_of_lt hlt]

section
variable {a lo : UInt64} {k bits : ℕ} (hbits : bits ≤ 32) (hk : k < bits)
  (h : Bracketed a.toNat lo.toNat (k + 1) bits)
include hbits hk h

theorem toNat_sqrtMid : (sqrtMid lo k).toNat = lo.toNat + 2 ^ k := by
  have hle : lo.toNat + 2 ^ k ≤ 2 ^ 32 := by
    have hbound := h.bound
    have hpow : 2 ^ k ≤ 2 ^ (k + 1) := Nat.pow_le_pow_right two_pos k.le_succ
    have hbits' : 2 ^ bits ≤ 2 ^ 32 := Nat.pow_le_pow_right two_pos hbits
    omega
  rw [sqrtMid, UInt64.toNat_add, toNat_one_shiftLeft (by omega)]
  exact Nat.mod_eq_of_lt (hle.trans_lt (by decide))

/-- The square does not overflow. -/
theorem sqrtMid_mul_self_lt : (sqrtMid lo k).toNat * (sqrtMid lo k).toNat < 2 ^ 64 := by
  have hlt : lo.toNat + 2 ^ k < 2 ^ 32 := by
    have hbound := h.bound
    have hpow : 2 ^ k < 2 ^ (k + 1) := Nat.pow_lt_pow_right one_lt_two k.lt_succ_self
    have hbits' : 2 ^ bits ≤ 2 ^ 32 := Nat.pow_le_pow_right two_pos hbits
    omega
  rw [toNat_sqrtMid hbits hk h]
  calc (lo.toNat + 2 ^ k) * (lo.toNat + 2 ^ k) < 2 ^ 32 * 2 ^ 32 := Nat.mul_lt_mul'' hlt hlt
    _ = 2 ^ 64 := by norm_num

theorem bracketed_sqrtStep : Bracketed a.toNat (sqrtStep a lo k).toNat k bits := by
  have hmid := toNat_sqrtMid hbits hk h
  have hsq : (sqrtMid lo k * sqrtMid lo k).toNat = (lo.toNat + 2 ^ k) * (lo.toNat + 2 ^ k) := by
    rw [UInt64.toNat_mul, Nat.mod_eq_of_lt (sqrtMid_mul_self_lt hbits hk h), hmid]
  have hstep := h.step
  have hgt : sqrtMid lo k * sqrtMid lo k > a ↔
    (lo.toNat + 2 ^ k) * (lo.toNat + 2 ^ k) > a.toNat := by
    rw [gt_iff_lt, UInt64.lt_iff_toNat_lt, hsq]
  unfold sqrtStep
  simp only [hgt]
  split at hstep
  · rw [if_pos (by assumption)]
    exact hstep
  · rw [if_neg (by assumption), hmid]
    exact hstep

end

/-- The invariant holds after every iteration. -/
theorem bracketed_sqrtAfter {a : UInt64} {bits : ℕ} (hbits : bits ≤ 32)
    (hroot : a.toNat.sqrt ≤ 2 ^ bits - 1) {n : ℕ} (hn : n ≤ bits) :
    Bracketed a.toNat (sqrtAfter a bits n).toNat (bits - n) bits := by
  induction n with
  | zero =>
    have hpos := Nat.two_pow_pos bits
    refine ⟨Nat.zero_le _, ?_, (Nat.zero_add _).le⟩
    rw [sqrtAfter, UInt64.toNat_zero, Nat.zero_add, Nat.sub_zero, ← Nat.sqrt_lt]
    omega
  | succ n ih =>
    have hk : bits - n = bits - 1 - n + 1 := by omega
    have h := ih (by omega)
    rw [hk] at h
    have hrest : bits - (n + 1) = bits - 1 - n := by omega
    rw [hrest]
    exact bracketed_sqrtStep hbits (by omega) h

theorem toNat_uint64sqrt {a : UInt64} {bits : ℕ} (hbits : bits ≤ 32)
    (hroot : a.toNat.sqrt ≤ 2 ^ bits - 1) : (uint64sqrt a bits).toNat = a.toNat.sqrt := by
  have h := bracketed_sqrtAfter hbits hroot le_rfl
  rw [Nat.sub_self] at h
  exact h.sqrt_eq.symm

/-! ## Fixed-point numbers -/

theorem toNat_toUInt64 {x : Int64} (h : 0 ≤ x.toInt) : x.toUInt64.toNat = x.toInt.toNat := by
  have hcond := BitVec.toInt_eq_toNat_cond x.toBitVec
  rw [← Int64.toNat_toBitVec]
  change 0 ≤ x.toBitVec.toInt at h
  change x.toBitVec.toNat = x.toBitVec.toInt.toNat
  split at hcond <;> omega

section
variable {a : Int32} (ha : 0 ≤ a.toInt)
include ha

theorem fix_lt : a.toInt.toNat * 2 ^ fixScaleLog2 < 2 ^ 47 := by
  have hlt : a.toInt < 2 ^ 31 := Int32.toInt_lt a
  unfold fixScaleLog2
  omega

theorem toNat_tosqrt :
    (a.toInt64.toUInt64 <<< UInt64.ofNat fixScaleLog2).toNat = a.toInt.toNat * 2 ^
      fixScaleLog2 := by
  have hcast : a.toInt64.toUInt64.toNat = a.toInt.toNat := by
    rw [toNat_toUInt64 (by rwa [Int32.toInt_toInt64]), Int32.toInt_toInt64]
  have hshift : (UInt64.ofNat fixScaleLog2).toNat % 64 = fixScaleLog2 := by decide
  rw [UInt64.toNat_shiftLeft, hcast, hshift, Nat.shiftLeft_eq]
  exact Nat.mod_eq_of_lt ((fix_lt ha).trans (by decide))

/-- 24 bits are enough for the root. -/
theorem sqrt_fix_lt : (a.toInt.toNat * 2 ^ fixScaleLog2).sqrt < 2 ^ 24 :=
  Nat.sqrt_lt.2 ((fix_lt ha).trans (by decide))

theorem toInt_fixSqrt : (fixSqrt a).toInt = (a.toInt.toNat * 2 ^ fixScaleLog2).sqrt := by
  have hlt := sqrt_fix_lt ha
  have hroot : (uint64sqrt (a.toInt64.toUInt64 <<< UInt64.ofNat fixScaleLog2) 24).toNat =
      (a.toInt.toNat * 2 ^ fixScaleLog2).sqrt := by
    rw [← toNat_tosqrt ha] at hlt ⊢
    exact toNat_uint64sqrt (by decide) (Nat.le_sub_one_of_lt hlt)
  unfold fixSqrt
  dsimp only
  rw [show (32 + fixScaleLog2) / 2 = 24 from rfl, hroot, Int32.toInt_ofInt_of_le]
  · omega
  · omega

end

/-- `uint64sqrt` is the integer square root of every operand whose root fits in the given bits, and
no square overflows on the way; `fix_sqrt` is the integer square root of the scaled operand, and
fits. -/
theorem uint64sqrt_fixSqrt_eq :
    (∀ (a : UInt64) (bits : ℕ), 1 ≤ bits → bits ≤ 32 → a.toNat.sqrt ≤ 2 ^ bits - 1 →
      (uint64sqrt a bits).toNat = a.toNat.sqrt ∧
      ∀ n < bits, (sqrtMid (sqrtAfter a bits n) (bits - 1 - n)).toNat *
        (sqrtMid (sqrtAfter a bits n) (bits - 1 - n)).toNat < 2 ^ 64) ∧
    ∀ a : Int32, 0 ≤ a.toInt →
      (fixSqrt a).toInt = (a.toInt.toNat * 2 ^ 16).sqrt ∧
      (a.toInt.toNat * 2 ^ 16).sqrt < 2 ^ 31 := by
  refine ⟨fun a bits _ hbits hroot => ⟨toNat_uint64sqrt hbits hroot, fun n hn => ?_⟩, fun a ha =>
    ?_⟩
  · have h := bracketed_sqrtAfter hbits hroot hn.le
    rw [show bits - n = bits - 1 - n + 1 by omega] at h
    exact sqrtMid_mul_self_lt hbits (by omega) h
  · exact ⟨toInt_fixSqrt ha, (sqrt_fix_lt ha).trans (by decide)⟩

theorem uint64sqrt_fixSqrt_ten_two :
    (uint64sqrt 10 4).toNat = Nat.sqrt 10 ∧ (fixSqrt 131072).toInt = 92681 := by
  have hroot : (10 : UInt64).toNat.sqrt ≤ 2 ^ 4 - 1 :=
    Nat.le_of_lt_succ (Nat.sqrt_lt.2 (by decide))
  have hfix := (uint64sqrt_fixSqrt_eq.2 131072 (by decide)).1
  refine ⟨(uint64sqrt_fixSqrt_eq.1 10 4 (by decide) (by decide) hroot).1, hfix.trans ?_⟩
  rw [show (131072 : Int32).toInt.toNat * 2 ^ 16 = 8589934592 by decide]
  exact congrArg _ (Nat.eq_sqrt.2 (by decide)).symm

end Pequin.Cstd
