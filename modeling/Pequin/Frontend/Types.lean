import Mathlib.Algebra.Order.Ring.Int
import Mathlib.Data.Int.Notation
import Mathlib.Data.Nat.Size
import Mathlib.Tactic.Linarith
import Mathlib.Tactic.Ring

/-!
# Integer types

The type of an expression is an interval of integers. `RestrictedUnsignedIntType` and
`RestrictedSignedIntType` hold one, and the number of bits that its values need; `BooleanType` is
the unsigned type `0 .. 1`, but the operations on types ask for the class, too. What no integer type
can stand for, types that are not finite and types of fractions, is left out.
-/

namespace Pequin

namespace Frontend

/-! ## Bits of an integer -/

theorem two_pow_pos (k : ℕ) : (1 : ℤ) ≤ 2 ^ k := one_le_pow₀ (by decide)

/-- `BigInteger.bitLength`: the bits of the two's complement without the sign. -/
def bitLength : ℤ → ℕ
  | .ofNat n => n.size
  | .negSucc n => n.size

theorem bitLength_le {c : ℤ} {k : ℕ} : bitLength c ≤ k ↔ -2 ^ k ≤ c ∧ c < 2 ^ k := by
  have hpow : ((2 ^ k : ℕ) : ℤ) = 2 ^ k := by push_cast; rfl
  cases c with
  | ofNat n =>
    rw [bitLength, Nat.size_le, Int.ofNat_eq_natCast]
    omega
  | negSucc n =>
    rw [bitLength, Nat.size_le]
    omega

/-! ## Intervals -/

/-- A closed interval of integers; an empty one cannot be made. -/
structure IntConstantInterval where
  lower : ℤ
  upper : ℤ
  lower_le_upper : lower ≤ upper

namespace IntConstantInterval

instance : Membership ℤ IntConstantInterval := ⟨fun i v => i.lower ≤ v ∧ v ≤ i.upper⟩

theorem mem_iff {i : IntConstantInterval} {v : ℤ} : v ∈ i ↔ i.lower ≤ v ∧ v ≤ i.upper := Iff.rfl

instance (v : ℤ) (i : IntConstantInterval) : Decidable (v ∈ i) :=
  inferInstanceAs (Decidable (_ ∧ _))

def point (c : ℤ) : IntConstantInterval := ⟨c, c, le_rfl⟩

@[simp] theorem mem_point {v c : ℤ} : v ∈ point c ↔ v = c :=
  ⟨fun h => le_antisymm h.2 h.1, fun h => h ▸ ⟨le_rfl, le_rfl⟩⟩

def add (i j : IntConstantInterval) : IntConstantInterval :=
  ⟨i.lower + j.lower, i.upper + j.upper, add_le_add i.lower_le_upper j.lower_le_upper⟩

def addNtimes (i : IntConstantInterval) (m : ℕ) : IntConstantInterval :=
  ⟨i.lower * m, i.upper * m, mul_le_mul_of_nonneg_right i.lower_le_upper (Int.natCast_nonneg m)⟩

/-- The least and the greatest of the four products of the bounds. -/
def multiply (i j : IntConstantInterval) : IntConstantInterval where
  lower := min (min (min (i.lower * j.lower) (i.lower * j.upper)) (i.upper * j.lower))
    (i.upper * j.upper)
  upper := max (max (max (i.lower * j.lower) (i.lower * j.upper)) (i.upper * j.lower))
    (i.upper * j.upper)
  lower_le_upper := (min_le_right _ _).trans (le_max_right _ _)

variable {i j : IntConstantInterval}

theorem multiply_nonneg (hi : 0 ≤ i.lower) (hj : 0 ≤ j.lower) : 0 ≤ (i.multiply j).lower := by
  have hiu := hi.trans i.lower_le_upper
  have hju := hj.trans j.lower_le_upper
  exact le_min (le_min (le_min (mul_nonneg hi hj) (mul_nonneg hi hju)) (mul_nonneg hiu hj))
    (mul_nonneg hiu hju)

def isSubInterval (i j : IntConstantInterval) : Bool := j.lower ≤ i.lower ∧ i.upper ≤ j.upper

def looseUnion (i j : IntConstantInterval) : IntConstantInterval where
  lower := min i.lower j.lower
  upper := max i.upper j.upper
  lower_le_upper := (min_le_left _ _).trans (i.lower_le_upper.trans (le_max_left _ _))

theorem mem_add {v w : ℤ} (hv : v ∈ i) (hw : w ∈ j) : v + w ∈ i.add j :=
  ⟨add_le_add hv.1 hw.1, add_le_add hv.2 hw.2⟩

theorem mul_between {l v u w : ℤ} (hl : l ≤ v) (hu : v ≤ u) :
    min (l * w) (u * w) ≤ v * w ∧ v * w ≤ max (l * w) (u * w) := by
  rcases le_total 0 w with hw | hw
  · exact ⟨(min_le_left _ _).trans (mul_le_mul_of_nonneg_right hl hw),
      (mul_le_mul_of_nonneg_right hu hw).trans (le_max_right _ _)⟩
  · exact ⟨(min_le_right _ _).trans (mul_le_mul_of_nonpos_right hu hw),
      (mul_le_mul_of_nonpos_right hl hw).trans (le_max_left _ _)⟩

/-- A product is between products with the bounds of one factor, and these are between the products
of the bounds. -/
theorem mem_multiply {v w : ℤ} (hv : v ∈ i) (hw : w ∈ j) : v * w ∈ i.multiply j := by
  have houter := mul_between (w := w) hv.1 hv.2
  have hlower := mul_between (w := i.lower) hw.1 hw.2
  have hupper := mul_between (w := i.upper) hw.1 hw.2
  simp only [mul_comm _ i.lower, mul_comm _ i.upper] at hlower hupper
  rw [mem_iff]
  simp only [multiply]
  omega

theorem mem_of_isSubInterval (h : i.isSubInterval j) {v : ℤ} (hv : v ∈ i) : v ∈ j := by
  have h : j.lower ≤ i.lower ∧ i.upper ≤ j.upper := of_decide_eq_true h
  exact ⟨h.1.trans hv.1, hv.2.trans h.2⟩

theorem mem_looseUnion {v : ℤ} (h : v ∈ i ∨ v ∈ j) : v ∈ i.looseUnion j := by
  simp only [mem_iff, looseUnion] at h ⊢
  omega

end IntConstantInterval

/-! ## Types -/

inductive RestrictedIntType where
  | boolean
  | unsigned (interval : IntConstantInterval) (nonneg : 0 ≤ interval.lower)
  | signed (interval : IntConstantInterval)

namespace RestrictedIntType

/-- `RestrictedUnsignedIntType(length)`, where length `0` is read as `1`. -/
def uint (length : ℕ) : RestrictedIntType :=
  .unsigned ⟨0, 2 ^ max length 1 - 1, sub_nonneg.2 (one_le_pow₀ (by decide))⟩ le_rfl

/-- `RestrictedSignedIntType(length)` with a length of at least `1`. -/
def int (length : ℕ) : RestrictedIntType :=
  .signed ⟨-2 ^ (length - 1), 2 ^ (length - 1) - 1, by have := two_pow_pos (length - 1); omega⟩

def getInterval : RestrictedIntType → IntConstantInterval
  | .boolean => ⟨0, 1, by decide⟩
  | .unsigned interval _ => interval
  | .signed interval => interval

def isSigned : RestrictedIntType → Bool
  | .boolean | .unsigned .. => false
  | .signed _ => true

/-- `IntType.getBits`: the length of a type. -/
def getBits : RestrictedIntType → ℕ
  | .boolean => 1
  | .unsigned interval _ => if interval.upper = 0 then 1 else bitLength interval.upper
  | .signed interval => max (bitLength interval.lower + 1) (bitLength interval.upper + 1)

/-- The values of a type. -/
instance : Membership ℤ RestrictedIntType := ⟨fun t v => v ∈ t.getInterval⟩

variable {v : ℤ}

theorem mem_iff {t : RestrictedIntType} : v ∈ t ↔ v ∈ t.getInterval := Iff.rfl

instance (v : ℤ) (t : RestrictedIntType) : Decidable (v ∈ t) :=
  inferInstanceAs (Decidable (v ∈ t.getInterval))

def getMaxInt (t : RestrictedIntType) : ℤ :=
  if t.isSigned then 2 ^ (t.getBits - 1) - 1 else 2 ^ t.getBits - 1

def getMinInt (t : RestrictedIntType) : ℤ := if t.isSigned then -2 ^ (t.getBits - 1) else 0

@[simp] theorem mem_uint {n : ℕ} (hn : 1 ≤ n) : v ∈ uint n ↔ 0 ≤ v ∧ v < 2 ^ n := by
  simp only [mem_iff, uint, getInterval, IntConstantInterval.mem_iff, max_eq_left hn]
  omega

@[simp] theorem mem_int {n : ℕ} : v ∈ int n ↔ -2 ^ (n - 1) ≤ v ∧ v < 2 ^ (n - 1) := by
  simp only [mem_iff, int, getInterval, IntConstantInterval.mem_iff]
  omega

@[simp] theorem mem_boolean : v ∈ boolean ↔ v = 0 ∨ v = 1 := by
  simp only [mem_iff, getInterval, IntConstantInterval.mem_iff]
  omega

theorem getBits_pos (t : RestrictedIntType) : 1 ≤ t.getBits := by
  cases t with
  | boolean => exact le_rfl
  | unsigned interval nonneg =>
    simp only [getBits]
    split
    · exact le_rfl
    · next h =>
      by_contra hlt
      have hzero : bitLength interval.upper ≤ 0 := by omega
      have hbound := bitLength_le.1 hzero
      have := interval.lower_le_upper
      omega
  | signed interval => simp only [getBits]; omega

theorem bitLength_two_pow_sub_one (n : ℕ) : bitLength (2 ^ n - 1) = n := by
  have hpow := two_pow_pos n
  refine le_antisymm (bitLength_le.2 ⟨by omega, by omega⟩) ?_
  cases n with
  | zero => exact Nat.zero_le _
  | succ m =>
    by_contra hlt
    have hm := (bitLength_le.1 (Nat.lt_succ_iff.1 (not_le.1 hlt))).2
    have hpos := two_pow_pos m
    rw [pow_succ] at hm
    omega

theorem bitLength_neg_two_pow_le (n : ℕ) : bitLength (-2 ^ n) ≤ n := by
  have hpow := two_pow_pos n
  exact bitLength_le.2 ⟨le_rfl, by omega⟩

@[simp] theorem getBits_uint {n : ℕ} (hn : 1 ≤ n) : (uint n).getBits = n := by
  have hpow : (2 : ℤ) ^ 1 ≤ 2 ^ n := pow_le_pow_right₀ (by decide) hn
  simp only [uint, getBits, max_eq_left hn]
  rw [if_neg (by omega), bitLength_two_pow_sub_one]

@[simp] theorem getBits_int {n : ℕ} (hn : 1 ≤ n) : (int n).getBits = n := by
  have hlower := bitLength_neg_two_pow_le (n - 1)
  simp only [int, getBits, bitLength_two_pow_sub_one]
  omega

/-- The values of a type are among those that its bits can hold. -/
theorem mem_bounds {t : RestrictedIntType} (h : v ∈ t) : t.getMinInt ≤ v ∧ v ≤ t.getMaxInt := by
  cases t with
  | boolean => rcases mem_boolean.1 h with rfl | rfl <;> decide
  | unsigned interval nonneg =>
    have hupper : interval.upper < 2 ^ (getBits (.unsigned interval nonneg)) := by
      simp only [getBits]
      split
      · omega
      · exact (bitLength_le.1 le_rfl).2
    obtain ⟨hl, hu⟩ := h
    simp only [getInterval] at hl hu
    simp only [getMinInt, getMaxInt, isSigned, Bool.false_eq_true, if_false]
    omega
  | signed interval =>
    have hbits : getBits (.signed interval) - 1 =
        max (bitLength interval.lower) (bitLength interval.upper) := by
      simp only [getBits]
      omega
    have hlower :=
      (bitLength_le.1 (le_max_left (bitLength interval.lower) (bitLength interval.upper))).1
    have hupper :=
      (bitLength_le.1 (le_max_right (bitLength interval.lower) (bitLength interval.upper))).2
    obtain ⟨hl, hu⟩ := h
    simp only [getInterval] at hl hu
    simp only [getMinInt, getMaxInt, isSigned, if_true, hbits]
    omega

end RestrictedIntType

def constType (c : ℤ) : RestrictedIntType :=
  if c = 1 ∨ c = 0 then .boolean
  else if h : 0 < c then .unsigned (.point c) h.le
  else .signed (.point c)

theorem mem_constType (c : ℤ) : c ∈ constType c := by
  rw [constType]
  split
  · next h => exact RestrictedIntType.mem_boolean.2 h.symm
  · split <;> exact IntConstantInterval.mem_point.2 rfl

namespace RestrictedIntType

/-! ## Operations on types -/

def isSubType (a b : RestrictedIntType) : Bool := a.getInterval.isSubInterval b.getInterval

theorem lower_nonneg {t : RestrictedIntType} (h : t.isSigned = false) :
    0 ≤ t.getInterval.lower := by
  cases t with
  | boolean => exact le_rfl
  | unsigned interval nonneg => exact nonneg
  | signed interval => cases h

theorem nonneg_of_mem {t : RestrictedIntType} (h : t.isSigned = false) {v : ℤ} (hv : v ∈ t) :
    0 ≤ v :=
  (lower_nonneg h).trans hv.1

def looseUnion (a b : RestrictedIntType) : RestrictedIntType :=
  if a.isSubType b then b
  else if b.isSubType a then a
  else if h : a.isSigned = false ∧ b.isSigned = false then
    .unsigned (a.getInterval.looseUnion b.getInterval)
      (le_min (lower_nonneg h.1) (lower_nonneg h.2))
  else .signed (a.getInterval.looseUnion b.getInterval)

/-- `TypeHeirarchy.looseIntersect`; an empty intersection is an exception. -/
def looseIntersect (a b : RestrictedIntType) : Option RestrictedIntType :=
  if a.isSubType b then some a
  else if b.isSubType a then some b
  else if h : max a.getInterval.lower b.getInterval.lower ≤ min a.getInterval.upper
    b.getInterval.upper
  then
    if hs : a.isSigned = false ∨ b.isSigned = false then
      some (.unsigned ⟨_, _, h⟩ (hs.elim (fun ha => (lower_nonneg ha).trans (le_max_left _ _))
        fun hb => (lower_nonneg hb).trans (le_max_right _ _)))
    else some (.signed ⟨_, _, h⟩)
  else none

/-- `TimesOperator.multiplyTypes`: a factor whose type is `BooleanType` does not change the type of
the other one. -/
def multiplyTypes (a b : RestrictedIntType) : RestrictedIntType :=
  match a, b with
  | .boolean, b => b
  | a, .boolean => a
  | a, b =>
    if h : a.isSigned = false ∧ b.isSigned = false then
      .unsigned (a.getInterval.multiply b.getInterval)
        (IntConstantInterval.multiply_nonneg (lower_nonneg h.1) (lower_nonneg h.2))
    else .signed (a.getInterval.multiply b.getInterval)

/-- `PlusOperator.sumTypes`: the type of the sum of `m` values. -/
def sumTypes (m : ℕ) (t : RestrictedIntType) : RestrictedIntType :=
  if m = 0 then .boolean
  else if m = 1 then t
  else if h : t.isSigned = false then
    .unsigned (t.getInterval.addNtimes m) (mul_nonneg (lower_nonneg h) (Int.natCast_nonneg m))
  else .signed (t.getInterval.addNtimes m)

variable {a b : RestrictedIntType}

theorem mem_of_isSubType (h : a.isSubType b) {v : ℤ} (hv : v ∈ a) : v ∈ b :=
  IntConstantInterval.mem_of_isSubInterval h hv

theorem mem_looseUnion {v : ℤ} (h : v ∈ a ∨ v ∈ b) : v ∈ a.looseUnion b := by
  rw [looseUnion]
  split
  · next hab => exact h.elim (mem_of_isSubType hab) id
  · split
    · next hba => exact h.elim id (mem_of_isSubType hba)
    · split <;> exact IntConstantInterval.mem_looseUnion h

theorem mem_looseIntersect {v : ℤ} (ha : v ∈ a) (hb : v ∈ b) :
    ∃ t, a.looseIntersect b = some t ∧ v ∈ t := by
  have hlower := max_le ha.1 hb.1
  have hupper := le_min ha.2 hb.2
  rw [looseIntersect]
  split
  · exact ⟨a, rfl, ha⟩
  · split
    · exact ⟨b, rfl, hb⟩
    · rw [dif_pos (hlower.trans hupper)]
      split <;> exact ⟨_, rfl, hlower, hupper⟩

theorem getInterval_sumTypes {m : ℕ} (hm : 2 ≤ m) (t : RestrictedIntType) :
    (sumTypes m t).getInterval = t.getInterval.addNtimes m := by
  rw [sumTypes, if_neg (by omega), if_neg (by omega)]
  split <;> rfl

/-- The rule for `BooleanType` is right for a factor `1`, and for a factor `0` if the other type
contains `0`. -/
theorem mem_multiplyTypes {v w : ℤ} (hv : v ∈ a) (hw : w ∈ b)
    (ha : a = .boolean → v = 1 ∨ v * w ∈ b) (hb : b = .boolean → w = 1 ∨ v * w ∈ a) :
    v * w ∈ a.multiplyTypes b := by
  rw [multiplyTypes.eq_def]
  split
  · exact (ha rfl).elim (fun h => by rwa [h, one_mul]) id
  · exact (hb rfl).elim (fun h => by rwa [h, mul_one]) id
  · split <;> exact IntConstantInterval.mem_multiply hv hw

end RestrictedIntType

end Frontend

end Pequin
