import Mathlib.Data.Int.ModEq
import Mathlib.Data.Nat.Bitwise
import Mathlib.Tactic.NormNum
import Pequin.Lib.Limbs

/-!
# Multi-precision integers

A number has 72 limbs of 32 bits, in two's complement. The functions get their destination and their
operands by reference, and the destination may be one of the operands. Sums and products of integers
are exact in the compiled program; `&` and `>>` see the operand modulo `2^64`.

The columns of a product are sums of up to 72 products of 64 bits. A column that does not fit in 64
bits loses its upper bits in the carry.
-/

namespace Pequin.Cstd

/-! ## The library -/

def mpzLength : ℕ := 72

def limbBase : ℕ := 2 ^ 32

/-- The numbers in memory: those of the caller, and the local variables of `mpz_neg`, `mpz_sub` and
`mpz_mul_`. -/
inductive MpzVar
  | arg (i : ℕ)
  | one
  | subTemp
  | mulTemp
deriving DecidableEq

abbrev MpzMem := MpzVar → ℕ → ℕ

def MpzMem.write (m : MpzMem) (x : MpzVar) (i v : ℕ) : MpzMem :=
  Function.update m x (Function.update (m x) i v)

def band (x mask : ℕ) : ℕ := x % 2 ^ 64 &&& mask

def shr (x k : ℕ) : ℕ := (x % 2 ^ 64) >>> k

def bnot32 (x : ℕ) : ℕ := 2 ^ 32 - 1 - x % 2 ^ 32

/-- `for (i = 0; i < n; i++) f(i)` -/
def forLoop {σ : Type} (f : ℕ → σ → σ) : ℕ → σ → σ
  | 0, s => s
  | n + 1, s => f n (forLoop f n s)

def mpzSetSi (m : MpzMem) (a : MpzVar) (num : ℤ) : MpzMem :=
  let val := (num % 2 ^ 64).toNat
  let m := m.write a 0 (band val 0xFFFFFFFF)
  let m := m.write a 1 (band (shr val 32) 0xFFFFFFFF)
  let fill := if band (shr val 63) 1 = 1 then 0xFFFFFFFF else 0
  forLoop (fun i m => m.write a (i + 2) fill) (mpzLength - 2) m

def mpzSet (m : MpzMem) (c a : MpzVar) : MpzMem :=
  forLoop (fun i m => m.write c i (m a i)) mpzLength m

def mpzAdd (m : MpzMem) (c a b : MpzVar) : MpzMem :=
  (forLoop (fun i (m, carry) =>
    let sum := m a i + m b i + carry
    (m.write c i (band sum 0xFFFFFFFF), band (shr sum 32) 1)) mpzLength (m, 0)).1

def mpzNeg (m : MpzMem) (c a : MpzVar) : MpzMem :=
  let m := forLoop (fun i m => m.write c i (bnot32 (m a i))) mpzLength m
  let m := mpzSetSi m .one 1
  mpzAdd m c c .one

def mpzSub (m : MpzMem) (c a b : MpzVar) : MpzMem :=
  let m := mpzNeg m .subTemp b
  let m := mpzAdd m .subTemp .subTemp a
  mpzSet m c .subTemp

def mulColumn (a b : MpzVar) (column : ℕ) : MpzMem × ℕ → MpzMem × ℕ := fun (m, carry) =>
  let columnSum := forLoop (fun i sum => sum + m a (column - i) * m b i) (column + 1) carry
  (m.write .mulTemp column (band columnSum 0xFFFFFFFF), shr columnSum 32)

/-- The column-based multiplication; the parameter `size` is not used by it. -/
def mpzMul_ (m : MpzMem) (c a b : MpzVar) : MpzMem :=
  let m := (forLoop (mulColumn a b) mpzLength (m, 0)).1
  mpzSet m c .mulTemp

def mpzMul (m : MpzMem) (c a b : MpzVar) : MpzMem := mpzMul_ m c a b

/-! ## Loops over the limbs -/

/-- The memory after the first `n` limbs of `c` are written. -/
def MpzMem.put (m : MpzMem) (c : MpzVar) (d : ℕ → ℕ) (n : ℕ) : MpzMem :=
  fun x i => if x = c ∧ i < n then d i else m x i

section
variable (m : MpzMem) (c : MpzVar) (d : ℕ → ℕ)

@[simp] theorem put_zero : m.put c d 0 = m := by
  funext x i
  simp [MpzMem.put]

theorem write_put (n : ℕ) : (m.put c d n).write c n (d n) = m.put c d (n + 1) := by
  funext x i
  unfold MpzMem.write MpzMem.put
  by_cases hx : x = c
  · subst hx
    by_cases hi : i = n
    · simp [hi]
    · have hlt : i < n + 1 ↔ i < n := by omega
      simp [hi, hlt]
  · simp [hx]

/-- The limb that is written next has its old value, also in the destination. -/
@[simp] theorem put_next (x : MpzVar) (n : ℕ) : m.put c d n x n = m x n := by
  simp [MpzMem.put]

theorem put_self {n i : ℕ} (hi : i < n) : m.put c d n c i = d i := by
  simp [MpzMem.put, hi]

theorem put_other {x : MpzVar} (n : ℕ) (hx : x ≠ c) : m.put c d n x = m x := by
  funext i
  simp [MpzMem.put, hx]

theorem forLoop_write (f : ℕ → MpzMem → MpzMem)
    (hf : ∀ n, f n (m.put c d n) = (m.put c d n).write c n (d n)) (n : ℕ) :
    forLoop f n m = m.put c d n := by
  induction n with
  | zero => simp [forLoop]
  | succ n ih => rw [forLoop, ih, hf, write_put]

/-- A loop that writes a limb and passes a carry on. -/
theorem forLoop_carry {k : ℕ → ℕ} (f : ℕ → MpzMem × ℕ → MpzMem × ℕ)
    (hf : ∀ n, f n (m.put c d n, k n) = ((m.put c d n).write c n (d n), k (n + 1))) (n : ℕ) :
    forLoop f n (m, k 0) = (m.put c d n, k n) := by
  induction n with
  | zero => simp [forLoop]
  | succ n ih => rw [forLoop, ih, hf, write_put]

end

theorem mpzSet_eq (m : MpzMem) (c a : MpzVar) : mpzSet m c a = m.put c (m a) mpzLength :=
  forLoop_write m c (m a) _ (fun n => by rw [put_next]) _

theorem write_apply (m : MpzMem) (a x : MpzVar) (j v i : ℕ) :
    m.write a j v x i = if x = a ∧ i = j then v else m x i := by
  unfold MpzMem.write
  by_cases hx : x = a
  · subst hx
    by_cases hi : i = j <;> simp [hi]
  · simp [hx]

theorem forLoop_fill (m : MpzMem) (a x : MpzVar) (fill n i : ℕ) :
    forLoop (fun i m => m.write a (i + 2) fill) n m x i =
      if x = a ∧ 2 ≤ i ∧ i < n + 2 then fill else m x i := by
  induction n with
  | zero => rw [forLoop, if_neg (by omega)]
  | succ n ih =>
    rw [forLoop, write_apply, ih]
    by_cases hx : x = a
    · simp only [hx, true_and]
      split_ifs <;> first | rfl | omega
    · simp only [hx, false_and, if_false]

theorem mpzSetSi_one (m : MpzMem) (a x : MpzVar) {i : ℕ} (hi : i < mpzLength) :
    mpzSetSi m a 1 x i = if x = a then (if i = 0 then 1 else 0) else m x i := by
  have hlow : band ((1 : ℤ) % 2 ^ 64).toNat 0xFFFFFFFF = 1 := by decide
  have hhigh : band (shr ((1 : ℤ) % 2 ^ 64).toNat 32) 0xFFFFFFFF = 0 := by decide
  have hsign : band (shr ((1 : ℤ) % 2 ^ 64).toNat 63) 1 = 0 := by decide
  unfold mpzLength at hi
  simp only [mpzSetSi, hlow, hhigh, hsign, forLoop_fill, write_apply, mpzLength]
  by_cases hx : x = a
  · simp only [hx, true_and]
    split_ifs <;> first | rfl | omega
  · simp only [hx, false_and, if_false]

/-! ## Words -/

theorem band_low (x : ℕ) : band x 0xFFFFFFFF = x % limbBase := by
  have hand := Nat.and_two_pow_sub_one_eq_mod (x % 2 ^ 64) 32
  have hdvd : 2 ^ 32 ∣ 2 ^ 64 := pow_dvd_pow 2 (by decide)
  exact hand.trans (Nat.mod_mod_of_dvd x hdvd)

theorem band_one_le (x : ℕ) : band x 1 ≤ 1 := Nat.and_le_right

theorem shr_eq (x : ℕ) : shr x 32 = x % (limbBase * limbBase) / limbBase :=
  Nat.shiftRight_eq_div_pow _ _

theorem bnot32_eq {x : ℕ} (hx : x < limbBase) : bnot32 x = limbBase - 1 - x := by
  rw [limbBase] at hx
  rw [bnot32, Nat.mod_eq_of_lt hx, limbBase]

/-- The carry of a sum of two limbs and a carry. -/
theorem band_carry {x : ℕ} (hx : x < 2 * limbBase) : band (shr x 32) 1 = x / limbBase := by
  have hlt : x < limbBase * limbBase := hx.trans_le (Nat.mul_le_mul_right _ (by decide))
  have hquot : x / limbBase < 2 := Nat.div_lt_of_lt_mul (by rwa [mul_comm])
  have hand := Nat.and_two_pow_sub_one_eq_mod (x / limbBase) 1
  rw [shr_eq, Nat.mod_eq_of_lt hlt, band, Nat.mod_eq_of_lt (hquot.trans (by decide))]
  exact hand.trans (Nat.mod_eq_of_lt hquot)

/-! ## What a number stands for -/

/-- The first 72 limbs are 32 bits wide. -/
def InLimbs (d : ℕ → ℕ) : Prop := ∀ i < mpzLength, d i < limbBase

def mpzValue (d : ℕ → ℕ) : ℕ := Limbs.value limbBase d mpzLength

/-- 72 limbs that represent a number modulo `2^(32*72)`. -/
structure Represents (d : ℕ → ℕ) (x : ℤ) : Prop where
  inLimbs : InLimbs d
  modEq : (mpzValue d : ℤ) ≡ x [ZMOD 2 ^ (32 * mpzLength)]

theorem modulus_eq : (limbBase ^ mpzLength : ℕ) = 2 ^ (32 * mpzLength) :=
    (pow_mul 2 32 mpzLength).symm

theorem Represents.congr {d e : ℕ → ℕ} {x : ℤ} (h : Represents d x) (hde : ∀ i < mpzLength, e i =
    d i) : Represents e x := by
  refine ⟨fun i hi => hde i hi ▸ h.inLimbs i hi, ?_⟩
  rw [mpzValue, Limbs.value_congr hde]
  exact h.modEq

theorem InLimbs.represents {d : ℕ → ℕ} (h : InLimbs d) : Represents d (mpzValue d) :=
    ⟨h, Int.ModEq.rfl⟩

/-! ## Addition -/

def addCarry (x y : ℕ → ℕ) : ℕ → ℕ
  | 0 => 0
  | i + 1 => band (shr (x i + y i + addCarry x y i) 32) 1

def addLimb (x y : ℕ → ℕ) (i : ℕ) : ℕ := band (x i + y i + addCarry x y i) 0xFFFFFFFF

theorem mpzAdd_eq (m : MpzMem) (c a b : MpzVar) :
    mpzAdd m c a b = m.put c (addLimb (m a) (m b)) mpzLength := by
  have hloop := forLoop_carry m c (addLimb (m a) (m b)) (k := addCarry (m a) (m b))
    (fun i (m, carry) =>
      let sum := m a i + m b i + carry
      (m.write c i (band sum 0xFFFFFFFF), band (shr sum 32) 1))
    (fun n => by simp only [put_next]; rfl) mpzLength
  exact congrArg Prod.fst hloop

theorem addCarry_le (x y : ℕ → ℕ) (i : ℕ) : addCarry x y i ≤ 1 := by
  cases i with
  | zero => exact Nat.zero_le _
  | succ i => exact band_one_le _

variable {x y : ℕ → ℕ}

theorem addLimb_add_carry {i : ℕ} (hx : x i < limbBase) (hy : y i < limbBase) :
    x i + y i + addCarry x y i = addLimb x y i + limbBase * addCarry x y (i + 1) := by
  have hlt : x i + y i + addCarry x y i < 2 * limbBase := by
    have hcarry := addCarry_le x y i
    omega
  rw [addLimb, band_low, addCarry, band_carry hlt]
  exact (Nat.mod_add_div _ _).symm

theorem represents_addLimb {u v : ℤ} (hx : Represents x u) (hy : Represents y v) :
    Represents (addLimb x y) (u + v) := by
  refine ⟨fun i _ => ?_, ?_⟩
  · rw [addLimb, band_low]
    exact Nat.mod_lt _ (by decide)
  · have hsum := Limbs.value_carry (b := limbBase) (n := mpzLength) (c := addCarry x y)
      (x := fun i => x i + y i) (d := addLimb x y)
      fun i hi => addLimb_add_carry (hx.inLimbs i hi) (hy.inLimbs i hi)
    rw [Limbs.value_add, addCarry, modulus_eq, add_zero] at hsum
    have hmod : (mpzValue (addLimb x y) : ℤ) ≡ mpzValue x + mpzValue y
      [ZMOD 2 ^ (32 * mpzLength)] := by
      have hcast : (mpzValue x : ℤ) + mpzValue y =
          mpzValue (addLimb x y) + addCarry x y mpzLength * 2 ^ (32 * mpzLength) := by
        exact_mod_cast hsum
      rw [hcast]
      exact (Int.add_mul_emod_self_right _ _ _).symm
    exact hmod.trans (hx.modEq.add hy.modEq)

theorem represents_mpzAdd {m : MpzMem} {c a b : MpzVar} {u v : ℤ} (ha : Represents (m a) u)
    (hb : Represents (m b) v) : Represents (mpzAdd m c a b c) (u + v) := by
  rw [mpzAdd_eq]
  exact (represents_addLimb ha hb).congr fun i hi => put_self _ _ _ hi

/-! ## Negation and subtraction -/

theorem represents_bnot32 {d : ℕ → ℕ} {u : ℤ} (h : Represents d u) :
    Represents (fun i => bnot32 (d i)) (-u - 1) := by
  have hlimb (i : ℕ) (hi : i < mpzLength) : bnot32 (d i) = limbBase - 1 - d i :=
    bnot32_eq (h.inLimbs i hi)
  refine ⟨fun i hi => ?_, ?_⟩
  · have hpos : 0 < limbBase := by decide
    rw [hlimb i hi]
    omega
  · have hcompl := Limbs.value_compl h.inLimbs
    rw [← Limbs.value_congr hlimb, modulus_eq] at hcompl
    have hcast : (mpzValue fun i => bnot32 (d i) : ℤ) = -mpzValue d - 1 + 1 * 2 ^
      (32 * mpzLength) := by
      have : (mpzValue fun i => bnot32 (d i) : ℤ) + mpzValue d + 1 = 2 ^ (32 * mpzLength) := by
        exact_mod_cast hcompl
      linarith
    rw [hcast]
    exact (show _ = _ from Int.add_mul_emod_self_right _ _ _).trans (h.modEq.neg.sub_right 1)

theorem represents_one {d : ℕ → ℕ} (h : ∀ i < mpzLength, d i = if i = 0 then 1 else 0) :
    Represents d 1 := by
  have hone : mpzValue d = 1 := by
    rw [mpzValue, Limbs.value_congr h, Limbs.value]
    simp [mpzLength]
  refine ⟨fun i hi => ?_, by rw [hone]; rfl⟩
  rw [h i hi]
  split <;> decide

section
variable {m : MpzMem} {c a : MpzVar}

theorem mpzNeg_eq (m : MpzMem) (c a : MpzVar) : mpzNeg m c a =
    mpzAdd (mpzSetSi (m.put c (fun i => bnot32 (m a i)) mpzLength) .one 1) c c .one := by
  rw [← forLoop_write m c (fun i => bnot32 (m a i)) (fun i m => m.write c i (bnot32 (m a i)))
    (fun n => by rw [put_next])]
  rfl

theorem represents_mpzNeg {u : ℤ} (hc : c ≠ .one) (ha : Represents (m a) u) :
    Represents (mpzNeg m c a c) (-u) := by
  have hcompl : Represents (mpzSetSi (m.put c (fun i => bnot32 (m a i)) mpzLength) .one 1 c)
      (-u - 1) := by
    refine (represents_bnot32 ha).congr fun i hi => ?_
    rw [mpzSetSi_one _ _ _ hi, if_neg hc, put_self _ _ _ hi]
  have hone : Represents (mpzSetSi (m.put c (fun i => bnot32 (m a i)) mpzLength) .one 1 .one) 1 :=
    represents_one fun i hi => by rw [mpzSetSi_one _ _ _ hi, if_pos rfl]
  rw [mpzNeg_eq]
  simpa using represents_mpzAdd (c := c) hcompl hone

/-- `mpz_neg` leaves the other numbers alone. -/
theorem mpzNeg_other {x : MpzVar} {i : ℕ} (hx : x ≠ c) (hone : x ≠ .one) (hi : i < mpzLength) :
    mpzNeg m c a x i = m x i := by
  rw [mpzNeg_eq, mpzAdd_eq, put_other _ _ _ _ hx, mpzSetSi_one _ _ _ hi, if_neg hone,
    put_other _ _ _ _ hx]

end

theorem represents_mpzSub {m : MpzMem} {c : MpzVar} {a b : ℕ} {u v : ℤ}
    (ha : Represents (m (.arg a)) u) (hb : Represents (m (.arg b)) v) :
    Represents (mpzSub m c (.arg a) (.arg b) c) (u - v) := by
  have hneg : Represents (mpzNeg m .subTemp (.arg b) .subTemp) (-v) := represents_mpzNeg nofun hb
  have hkeep : Represents (mpzNeg m .subTemp (.arg b) (.arg a)) u :=
    ha.congr fun i hi => mpzNeg_other nofun nofun hi
  have hsum := represents_mpzAdd (c := .subTemp) hneg hkeep
  rw [neg_add_eq_sub] at hsum
  rw [mpzSub, mpzSet_eq]
  exact hsum.congr fun i hi => put_self _ _ _ hi

/-! ## Multiplication -/

theorem forLoop_column (x y : ℕ → ℕ) (column carry : ℕ) :
    forLoop (fun i sum => sum + x (column - i) * y i) (column + 1) carry =
      carry + Limbs.column x y column := by
  have hloop (n : ℕ) : forLoop (fun i sum => sum + x (column - i) * y i) n carry =
      carry + ∑ i ∈ Finset.range n, x (column - i) * y i := by
    induction n with
    | zero => rfl
    | succ n ih => rw [forLoop, ih, Finset.sum_range_succ, add_assoc]
  exact hloop _

/-- The limb a column leaves. -/
def mulLimb (x y : ℕ → ℕ) (k : ℕ) : ℕ :=
  (Limbs.keptCarry limbBase (Limbs.column x y) k + Limbs.column x y k) % limbBase

theorem mpzMul_apply {m : MpzMem} {c : MpzVar} {a b i : ℕ} (hi : i < mpzLength) :
    mpzMul m c (.arg a) (.arg b) c i = mulLimb (m (.arg a)) (m (.arg b)) i := by
  have hstep (n : ℕ) : mulColumn (.arg a) (.arg b) n
      (m.put .mulTemp (mulLimb (m (.arg a)) (m (.arg b))) n,
        Limbs.keptCarry limbBase (Limbs.column (m (.arg a)) (m (.arg b))) n) =
      ((m.put .mulTemp (mulLimb (m (.arg a)) (m (.arg b))) n).write .mulTemp n
        (mulLimb (m (.arg a)) (m (.arg b)) n),
        Limbs.keptCarry limbBase (Limbs.column (m (.arg a)) (m (.arg b))) (n + 1)) := by
    have hread (j : ℕ) : m.put .mulTemp (mulLimb (m (.arg a)) (m (.arg b))) n (.arg j) =
      m (.arg j) :=
      put_other _ _ _ _ nofun
    simp only [mulColumn, hread, forLoop_column, band_low, shr_eq]
    rfl
  have hloop := forLoop_carry m .mulTemp _ _ hstep mpzLength
  rw [Limbs.keptCarry] at hloop
  rw [mpzMul, mpzMul_, mpzSet_eq, put_self _ _ _ hi, hloop]
  exact put_self _ _ _ hi

theorem column_add_le (hx : InLimbs x) (hy : InLimbs y) {k : ℕ} (hk : k < mpzLength) :
    Limbs.column x y k + limbBase ≤ limbBase * limbBase * limbBase := by
  have hcol : Limbs.column x y k ≤ (k + 1) * ((limbBase - 1) * (limbBase - 1)) :=
    Limbs.column_le (fun i hi => hx i (hi.trans_lt hk)) fun i hi => hy i (hi.trans_lt hk)
  have hfew : (k + 1) * ((limbBase - 1) * (limbBase - 1)) ≤
      mpzLength * ((limbBase - 1) * (limbBase - 1)) := Nat.mul_le_mul_right _ hk
  have hnum : mpzLength * ((limbBase - 1) * (limbBase - 1)) + limbBase ≤
      limbBase * limbBase * limbBase := by decide
  omega

theorem represents_mul_iff {x y d : ℕ → ℕ} (hx : InLimbs x) (hy : InLimbs y)
    (hd : ∀ i < mpzLength, d i = mulLimb x y i) :
    Represents d (mpzValue x * mpzValue y) ↔
      ∀ k < 70, Limbs.value limbBase (Limbs.column x y) (k + 1) < 2 ^ (32 * (k + 2)) := by
  have hin : InLimbs d := fun i hi => hd i hi ▸ Nat.mod_lt _ (by decide)
  have hiff := Limbs.product_modEq_iff (b := limbBase) (n := mpzLength) (x := x) (y := y)
    (d := mulLimb x y) (by decide) (fun _ => rfl) fun k hk => column_add_le hx hy hk
  have hrep : Represents d (mpzValue x * mpzValue y) ↔
      Limbs.value limbBase (mulLimb x y) mpzLength ≡
        mpzValue x * mpzValue y [MOD limbBase ^ mpzLength] := by
    rw [← Limbs.value_congr hd, ← Int.natCast_modEq_iff, modulus_eq]
    push_cast
    exact ⟨fun h => h.modEq, fun h => ⟨hin, h⟩⟩
  have hfits (k : ℕ) : limbBase ^ (k + 2) = 2 ^ (32 * (k + 2)) := (pow_mul 2 32 (k + 2)).symm
  have hlast (k : ℕ) : k + 2 < mpzLength ↔ k < 70 := by unfold mpzLength; omega
  simp only [hfits, hlast] at hiff
  exact hrep.trans hiff

/-- For every memory and every aliasing of the destination, the sum, the negative and the difference
are right, and the product is right exactly when no column but the last two needs more than 64
bits. -/
theorem mpz_arithmetic (m : MpzMem) (c a b : ℕ) (ha : InLimbs (m (.arg a)))
    (hb : InLimbs (m (.arg b))) :
    Represents (mpzAdd m (.arg c) (.arg a) (.arg b) (.arg c))
      (mpzValue (m (.arg a)) + mpzValue (m (.arg b))) ∧
    Represents (mpzNeg m (.arg c) (.arg a) (.arg c)) (-mpzValue (m (.arg a))) ∧
    Represents (mpzSub m (.arg c) (.arg a) (.arg b) (.arg c))
      (mpzValue (m (.arg a)) - mpzValue (m (.arg b))) ∧
    (Represents (mpzMul m (.arg c) (.arg a) (.arg b) (.arg c))
        (mpzValue (m (.arg a)) * mpzValue (m (.arg b))) ↔
      ∀ k < 70, Limbs.value limbBase (Limbs.column (m (.arg a)) (m (.arg b))) (k + 1) <
        2 ^ (32 * (k + 2))) :=
  ⟨represents_mpzAdd ha.represents hb.represents, represents_mpzNeg nofun ha.represents,
    represents_mpzSub ha.represents hb.represents,
    represents_mul_iff ha hb fun _ hi => mpzMul_apply hi⟩

/-- The number `2^33 - 1` of two limbs. -/
def twoLimbs (i : ℕ) : ℕ := [limbBase - 1, 1].getD i 0

/-- Squared in place: every column carries into the next limb. -/
theorem mpz_arithmetic_twoLimbs : InLimbs twoLimbs ∧
    Represents (mpzMul (fun _ => twoLimbs) (.arg 0) (.arg 0) (.arg 0) (.arg 0))
      ((2 ^ 33 - 1) ^ 2) := by
  have hin : InLimbs twoLimbs := by
    unfold InLimbs
    decide
  have hvalue : mpzValue twoLimbs = 2 ^ 33 - 1 := by decide +kernel
  have hmul := (mpz_arithmetic (fun _ => twoLimbs) 0 0 0 hin hin).2.2.2.2 (by decide +kernel)
  rw [hvalue] at hmul
  exact ⟨hin, hmul⟩

/-- The square of the number whose limbs are all `2^32 - 1`: the second column overflows. -/
theorem mpzMul_wrong : ∃ m : MpzMem, InLimbs (m (.arg 0)) ∧
    ¬ Represents (mpzMul m (.arg 1) (.arg 0) (.arg 0) (.arg 1))
      (mpzValue (m (.arg 0)) * mpzValue (m (.arg 0))) := by
  have hwrong (m : MpzMem) (hm : ∀ x i, m x i = limbBase - 1) : InLimbs (m (.arg 0)) ∧
      ¬ Represents (mpzMul m (.arg 1) (.arg 0) (.arg 0) (.arg 1))
        (mpzValue (m (.arg 0)) * mpzValue (m (.arg 0))) := by
    have hin : InLimbs (m (.arg 0)) := fun i _ => by rw [hm]; decide
    refine ⟨hin, fun h => ?_⟩
    have hfits := (represents_mul_iff hin hin fun _ hi => mpzMul_apply hi).1 h 1 (by decide)
    simp [Limbs.value, Limbs.column, Finset.sum_range_succ, hm, limbBase] at hfits
  exact ⟨fun _ _ => limbBase - 1, hwrong _ fun _ _ => rfl⟩

end Pequin.Cstd
