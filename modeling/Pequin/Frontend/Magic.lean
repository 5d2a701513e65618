import Mathlib.Algebra.Order.Archimedean.Basic
import Pequin.Frontend.Bitwise
import Pequin.Frontend.Division

/-!
# Division by a constant

`DivisionOperator.inlineOp` divides by a constant `d ≥ 2` without a quotient of run time: it
searches for a multiplier `M` and an amount `p`, adds `2 ^ p` to the product with `M` if the
dividend is negative, and shifts the sum right by `p` in the encoding that is the inferred type of
the sum.

The search ends, the encoding has room for the sum and for the amount, and the shifted sum is the
quotient truncated toward zero.
-/

namespace Pequin

namespace Frontend

open TwosComplement CStyleCast

namespace DivisionOperator

structure MagicNumber where
  M : ℤ
  shift : ℕ
  deriving DecidableEq

/-- The loop of `getMagicNumber`, from `p` on. -/
def search (nMax nMin d : ℤ) : (fuel : ℕ) → (p : ℕ) → Option MagicNumber
  | 0, _ => none
  | fuel + 1, p =>
    let twoP : ℤ := 2 ^ p
    let Md := twoP + d - twoP % d
    if (Md - twoP) * nMax ≥ twoP then search nMax nMin d fuel (p + 1)
    else if -((Md - twoP) * nMin + 1) ≥ twoP then search nMax nMin d fuel (p + 1)
    else some ⟨Md.tdiv d, p⟩

/-- `getMagicNumber`; without fuel, or for `d < 2`, there is no result. -/
def getMagicNumber (fuel : ℕ) (t : RestrictedIntType) (d : ℤ) : Option MagicNumber :=
  if d < 2 then none else search t.getMaxInt t.getMinInt d fuel 0

/-- A type of both `n * M` and `(n < 0) * 2 ^ p`, as `PlusOperator.getType` takes it. -/
def addendType (t : RestrictedIntType) (r : MagicNumber) : RestrictedIntType :=
  .looseUnion (.multiplyTypes t (constType r.M)) (.multiplyTypes .boolean (constType (2 ^ r.shift)))

/-- The type of `n * M + (n < 0) * 2 ^ p`. -/
def productType (t : RestrictedIntType) (r : MagicNumber) : RestrictedIntType :=
  .sumTypes 2 (addendType t r)

def product (r : MagicNumber) (n : ℤ) : ℤ := n * r.M + (if n < 0 then 1 else 0) * 2 ^ r.shift

/-- The right shift of the product, which `a` stands for. -/
def quotient (L : Lookup ℤ) (fresh : ℕ) (t : RestrictedIntType) (r : MagicNumber)
    (a : CStyleCast.Operand) : Option BitwiseOperator.Result :=
  BitwiseOperator.inlineOp L (productType t r) fresh (.shift .right a r.shift)

/-- The expression of the result, from the dividend and the quotient. -/
def Mode.result : Mode → (n d q : ℤ) → ℤ
  | .remainder, n, d, q => n - q * d
  | .quotient, _, _, q => q

/-! ## The search -/

/-- What the loop knows of a result: `M * d` is the next multiple of `d` after `2 ^ p`, and the
excess is small for all dividends. -/
structure Accepted (nMax nMin d : ℤ) (r : MagicNumber) : Prop where
  excess_pos : 1 ≤ r.M * d - 2 ^ r.shift
  excess_max : (r.M * d - 2 ^ r.shift) * nMax < 2 ^ r.shift
  excess_min : -((r.M * d - 2 ^ r.shift) * nMin) ≤ 2 ^ r.shift

section
variable {nMax nMin d : ℤ}

theorem roundUp (d twoP : ℤ) : (twoP + d - twoP % d).tdiv d * d - twoP = d - twoP % d := by
  have hdvd : d ∣ twoP + d - twoP % d :=
    ⟨twoP / d + 1, by linarith [Int.emod_add_mul_ediv twoP d]⟩
  rw [Int.tdiv_mul_cancel hdvd]
  ring

variable {r : MagicNumber}

theorem search_accepted (hd : 2 ≤ d) {fuel p : ℕ} (h : search nMax nMin d fuel p = some r) :
    Accepted nMax nMin d r := by
  induction fuel generalizing p with
  | zero => cases h
  | succ fuel ih =>
    simp only [search] at h
    split at h
    · exact ih h
    · next hmax =>
      split at h
      · exact ih h
      · next hmin =>
        obtain rfl := Option.some.inj h
        have hround := roundUp d (2 ^ p)
        rw [show (2 : ℤ) ^ p + d - 2 ^ p % d - 2 ^ p = d - 2 ^ p % d by ring] at hmax hmin
        have hmod := Int.emod_lt_of_pos (2 ^ p : ℤ) (show 0 < d by omega)
        constructor <;> dsimp only <;> rw [hround] <;> omega

/-- A step of the loop returns, or goes on while `2 ^ p` is not more than `d` times each bound. -/
theorem search_succ (hd : 2 ≤ d) {k : ℕ} (hmax : d * |nMax| < 2 ^ k) (hmin : d * |nMin| < 2 ^ k)
    (p : ℕ) :
    (∃ r, ∀ fuel, search nMax nMin d (fuel + 1) p = some r) ∨
      p < k ∧ ∀ fuel, search nMax nMin d (fuel + 1) p = search nMax nMin d fuel (p + 1) := by
  have hmod := Int.emod_lt_of_pos (2 ^ p : ℤ) (show 0 < d by omega)
  have hnonneg := Int.emod_nonneg (2 ^ p : ℤ) (show d ≠ 0 by omega)
  have hexcess : (2 : ℤ) ^ p + d - 2 ^ p % d - 2 ^ p = d - 2 ^ p % d := by ring
  have hle : ∀ x : ℤ, (d - 2 ^ p % d) * x ≤ d * |x| := fun x =>
    (mul_le_mul_of_nonneg_left (le_abs_self x) (by omega)).trans
      (mul_le_mul_of_nonneg_right (by omega) (abs_nonneg x))
  have hlt : ∀ x : ℤ, 2 ^ p ≤ (d - 2 ^ p % d) * x → d * |x| < 2 ^ k → p < k := fun x hx hk =>
    (pow_lt_pow_iff_right₀ (by decide : (1 : ℤ) < 2)).1 ((hx.trans (hle x)).trans_lt hk)
  simp only [search, hexcess]
  split
  · next h => exact .inr ⟨hlt nMax h hmax, fun _ => rfl⟩
  · split
    · next h =>
      refine .inr ⟨hlt (-nMin) ?_ (by rwa [abs_neg]), fun _ => rfl⟩
      rw [mul_neg]
      omega
    · exact .inl ⟨_, fun _ => rfl⟩

/-- The loop ends. -/
theorem exists_search (hd : 2 ≤ d) {k : ℕ} (hmax : d * |nMax| < 2 ^ k) (hmin : d * |nMin| < 2 ^ k)
    (p : ℕ) : ∃ r fuel₀, ∀ fuel ≥ fuel₀, search nMax nMin d fuel p = some r := by
  induction hm : k - p generalizing p with
  | zero =>
    rcases search_succ hd hmax hmin p with ⟨r, hr⟩ | ⟨hlt, -⟩
    · exact ⟨r, 1, fun fuel hfuel => Nat.sub_add_cancel hfuel ▸ hr (fuel - 1)⟩
    · omega
  | succ m ih =>
    rcases search_succ hd hmax hmin p with ⟨r, hr⟩ | ⟨hlt, hstep⟩
    · exact ⟨r, 1, fun fuel hfuel => Nat.sub_add_cancel hfuel ▸ hr (fuel - 1)⟩
    · obtain ⟨r, fuel₀, hr⟩ := ih (p + 1) (by omega)
      refine ⟨r, fuel₀ + 1, fun fuel hfuel => ?_⟩
      rw [← Nat.sub_add_cancel (show 1 ≤ fuel by omega), hstep]
      exact hr _ (by omega)

theorem exists_getMagicNumber (t : RestrictedIntType) (hd : 2 ≤ d) :
    ∃ r, Accepted t.getMaxInt t.getMinInt d r ∧
      ∃ fuel₀, ∀ fuel ≥ fuel₀, getMagicNumber fuel t d = some r := by
  obtain ⟨k, hk⟩ := pow_unbounded_of_one_lt (max (d * |t.getMaxInt|) (d * |t.getMinInt|))
    (by decide : (1 : ℤ) < 2)
  obtain ⟨hmax, hmin⟩ := max_lt_iff.1 hk
  obtain ⟨r, fuel₀, hr⟩ := exists_search hd hmax hmin 0
  refine ⟨r, search_accepted hd (hr fuel₀ le_rfl), fuel₀, fun fuel hfuel => ?_⟩
  rw [getMagicNumber, if_neg (by omega)]
  exact hr fuel hfuel

/-! ## The quotient -/

/-- The product with `M` of a number that is not negative, against multiples of `2 ^ p`. -/
theorem product_between {M T e m : ℤ} (hM : M * d = T + e) (hd : 0 < d) (hT : 0 < T) :
    m / d * T * d + e * m ≤ m * M * d ∧ m * M * d + T ≤ (m / d + 1) * T * d + e * m := by
  have hsplit : m * M * d = m * T + e * m := by
    rw [mul_assoc, hM]
    ring
  have hlower : m / d * d * T ≤ m * T := mul_le_mul_of_nonneg_right (Int.ediv_mul_le m hd.ne') hT.le
  have hupper : (m + 1) * T ≤ (m / d + 1) * d * T :=
    mul_le_mul_of_nonneg_right (Int.lt_ediv_add_one_mul_self m hd) hT.le
  exact ⟨by linarith, by linarith⟩

/-- The floor of the product by `2 ^ p` is the quotient truncated toward zero. -/
theorem Accepted.product_div (h : Accepted nMax nMin d r) (hd : 2 ≤ d) {n : ℤ} (hmin : nMin ≤ n)
    (hmax : n ≤ nMax) : product r n / 2 ^ r.shift = n.tdiv d := by
  have hT : (0 : ℤ) < 2 ^ r.shift := by positivity
  have hd0 : 0 < d := by omega
  obtain ⟨e, he⟩ : ∃ e, r.M * d - 2 ^ r.shift = e := ⟨_, rfl⟩
  have hM : r.M * d = 2 ^ r.shift + e := by linarith
  have hpos := h.excess_pos
  have hemax := h.excess_max
  have hemin := h.excess_min
  rw [he] at hpos hemax hemin
  rcases le_or_gt 0 n with hn | hn
  · have hbetween := product_between (m := n) hM hd0 hT
    have hen : e * n < 2 ^ r.shift := (mul_le_mul_of_nonneg_left hmax (by omega)).trans_lt hemax
    have hen0 : 0 ≤ e * n := mul_nonneg (by omega) hn
    rw [product, if_neg (not_lt.2 hn), zero_mul, add_zero, Int.tdiv_eq_ediv_of_nonneg hn]
    refine (Int.ediv_eq_iff_of_pos hT).2 ⟨?_, ?_⟩
    · exact le_of_mul_le_mul_right (by linarith) hd0
    · exact lt_of_mul_lt_mul_right (by linarith) hd0.le
  · have hbetween := product_between (m := -n) hM hd0 hT
    have hen : e * -n ≤ 2 ^ r.shift := by
      have := mul_le_mul_of_nonneg_left hmin (show 0 ≤ e by omega)
      linarith
    have hen0 : 0 < e * -n := mul_pos (by omega) (by omega)
    have htdiv : n.tdiv d = -(-n / d) := by
      rw [← Int.tdiv_eq_ediv_of_nonneg (by omega), Int.neg_tdiv, neg_neg]
    rw [product, if_pos hn, one_mul, htdiv]
    refine (Int.ediv_eq_iff_of_pos hT).2 ⟨?_, ?_⟩
    · have hle : -n * r.M ≤ (-n / d + 1) * 2 ^ r.shift :=
        le_of_mul_le_mul_right (by linarith) hd0
      linarith
    · have hlt : -n / d * 2 ^ r.shift < -n * r.M :=
        lt_of_mul_lt_mul_right (by linarith) hd0.le
      linarith

theorem Mode.result_tdiv (mode : Mode) (n d : ℤ) : mode.result n d (n.tdiv d) = mode.apply n d := by
  cases mode with
  | quotient => rfl
  | remainder =>
    have hdiv := Int.tmod_add_mul_tdiv n d
    rw [result, apply]
    linarith

/-! ## The encoding -/

theorem fits_iff {t : RestrictedIntType} {v : ℤ} :
    Fits t.isSigned t.getBits v ↔ t.getMinInt ≤ v ∧ v ≤ t.getMaxInt := by
  cases h : t.isSigned <;> simp [Fits, RestrictedIntType.getMinInt, RestrictedIntType.getMaxInt, h]

theorem getMinInt_le_zero (t : RestrictedIntType) : t.getMinInt ≤ 0 := by
  rw [RestrictedIntType.getMinInt]
  split
  · exact neg_nonpos.2 (by positivity)
  · exact le_rfl

theorem two_pow_mem_addendType (t : RestrictedIntType) (r : MagicNumber) :
    2 ^ r.shift ∈ addendType t r :=
  RestrictedIntType.mem_looseUnion (.inr (mem_constType _))

theorem Accepted.one_le_M (h : Accepted nMax nMin d r) (hd : 2 ≤ d) : 1 ≤ r.M := by
  have hT : (0 : ℤ) < 2 ^ r.shift := by positivity
  have hpos := h.excess_pos
  exact (mul_pos_iff_of_pos_right (show 0 < d by omega)).1 (by linarith)

/-- The product with a Boolean dividend has the type of `M`, which need not contain `0`. -/
theorem mul_mem_addendType {t : RestrictedIntType} (hM : 1 ≤ r.M) {n : ℤ} (hn : n ∈ t)
    (hne : n ≠ 0) : n * r.M ∈ addendType t r := by
  refine RestrictedIntType.mem_looseUnion
    (.inl (RestrictedIntType.mem_multiplyTypes hn (mem_constType _) ?_ ?_))
  · rintro rfl
    exact .inl ((RestrictedIntType.mem_boolean.1 hn).resolve_left hne)
  · intro hb
    have hmem := hb ▸ mem_constType r.M
    exact .inl ((RestrictedIntType.mem_boolean.1 hmem).resolve_left (by omega))

section
variable {t : RestrictedIntType} {r : MagicNumber}

theorem two_mul_upper_le (t : RestrictedIntType) (r : MagicNumber) :
    2 * (addendType t r).getInterval.upper ≤ (productType t r).getMaxInt := by
  have hmem : (productType t r).getInterval.upper ∈ productType t r :=
    ⟨(productType t r).getInterval.lower_le_upper, le_rfl⟩
  have hupper : (productType t r).getInterval.upper = (addendType t r).getInterval.upper * 2 := by
    rw [productType, RestrictedIntType.getInterval_sumTypes le_rfl]
    rfl
  have hmax := (RestrictedIntType.mem_bounds hmem).2
  omega

theorem shift_lt_getBits (t : RestrictedIntType) (r : MagicNumber) :
    r.shift < (productType t r).getBits := by
  have hle := two_mul_upper_le t r
  have hmem := (two_pow_mem_addendType t r).2
  have hlt : (2 : ℤ) ^ r.shift < 2 ^ (productType t r).getBits := by
    have hmono : (2 : ℤ) ^ ((productType t r).getBits - 1) ≤ 2 ^ (productType t r).getBits :=
      pow_le_pow_right₀ (by decide) (Nat.sub_le _ _)
    have hT : (0 : ℤ) < 2 ^ r.shift := by positivity
    rw [RestrictedIntType.getMaxInt] at hle
    split at hle <;> omega
  exact (pow_lt_pow_iff_right₀ (by decide : (1 : ℤ) < 2)).1 hlt

/-- The encoding has room for the product, although its interval need not contain `0`. -/
theorem fits_product (hM : 1 ≤ r.M) {n : ℤ} (hn : n ∈ t) :
    (productType t r).getMinInt ≤ product r n ∧ product r n ≤ (productType t r).getMaxInt := by
  have hT : (0 : ℤ) < 2 ^ r.shift := by positivity
  have htwo := two_pow_mem_addendType t r
  have hmax := two_mul_upper_le t r
  have hmin := getMinInt_le_zero (productType t r)
  have hupper := htwo.2
  rcases lt_trichotomy n 0 with hneg | rfl | hpos
  · have hmul := mul_mem_addendType hM hn hneg.ne
    refine RestrictedIntType.mem_bounds ?_
    rw [RestrictedIntType.mem_iff, productType, RestrictedIntType.getInterval_sumTypes le_rfl,
      product, if_pos hneg, one_mul]
    have hl := add_le_add hmul.1 htwo.1
    have hu := add_le_add hmul.2 htwo.2
    exact ⟨(mul_two _).trans_le hl, hu.trans_eq (mul_two _).symm⟩
  · rw [product, zero_mul, if_neg (lt_irrefl 0), zero_mul, add_zero]
    exact ⟨hmin, by omega⟩
  · have hmul := (mul_mem_addendType hM hn hpos.ne').2
    have hprod : 0 ≤ n * r.M := mul_nonneg hpos.le (by omega)
    rw [product, if_neg hpos.not_gt, zero_mul, add_zero]
    exact ⟨hmin.trans hprod, by omega⟩

end

end

/-- The right shift by `p` is the floor of the product by `2 ^ p`. -/
theorem eval_quotient {L : Lookup ℤ} {fresh : ℕ} {t : RestrictedIntType} {r : MagicNumber}
    (hM : 1 ≤ r.M) {n : ℤ} (hn : n ∈ t) {z : ℕ → ℤ} (hL : L.Holds z) {a : CStyleCast.Operand}
    (ha : a.Holds z) (hval : a.eval z = product r n) {q : BitwiseOperator.Result}
    (hq : quotient L fresh t r a = some q) (hholds : q.Holds z) :
    (q.bitString.toPolynomial L).eval z = product r n / 2 ^ r.shift := by
  have hfits : Fits (productType t r).isSigned (productType t r).getBits (a.eval z) := by
    rw [hval]
    exact fits_iff.2 (fits_product hM hn)
  have hop : BitwiseOperator.Operation.Holds z (.shift .right a r.shift) :=
    List.forall_mem_singleton.2 ha
  rw [BitwiseOperator.eval_inlineOp hL hop hq hholds,
    BitwiseOperator.Operation.word, BitwiseOperator.Operation.apply, Int.toNat_natCast,
    read_shiftRight,
    BitwiseOperator.encoded_of_fits hfits, read_ofInt (RestrictedIntType.getBits_pos _) hfits, hval]

/-- Division by a constant: the search ends with some `M` and `p`, the encoding has more than `p`
bits and has room for the product, and the quotient and the remainder are those of C. -/
theorem getMagicNumber_correct (t : RestrictedIntType) {d : ℤ} (hd : 2 ≤ d) :
    ∃ r : MagicNumber, (∃ fuel₀, ∀ fuel ≥ fuel₀, getMagicNumber fuel t d = some r) ∧
      r.shift < (productType t r).getBits ∧
      ∀ n ∈ t,
        ((productType t r).getMinInt ≤ product r n ∧ product r n ≤ (productType t r).getMaxInt) ∧
        ∀ L fresh a, ∃ q, quotient L fresh t r a = some q ∧
          ∀ z, L.Holds z → a.Holds z → a.eval z = product r n → q.Holds z →
            ∀ mode : Mode, mode.result n d ((q.bitString.toPolynomial L).eval z) =
              mode.apply n d := by
  obtain ⟨r, haccepted, hfuel⟩ := exists_getMagicNumber t hd
  have hM := haccepted.one_le_M hd
  have hlt := shift_lt_getBits t r
  refine ⟨r, hfuel, hlt, fun n hn => ⟨fits_product hM hn, fun L fresh a => ?_⟩⟩
  obtain ⟨q, hq⟩ := BitwiseOperator.exists_inlineOp L (productType t r) fresh
    (show BitwiseOperator.Operation.InRange _ (.shift .right a r.shift) from ⟨by omega, by omega⟩)
  refine ⟨q, hq, fun z hL ha hval hholds mode => ?_⟩
  have hbounds := RestrictedIntType.mem_bounds hn
  rw [eval_quotient hM hn hL ha hval hq hholds, haccepted.product_div hd hbounds.1 hbounds.2,
    mode.result_tdiv]

/-- Six signed bits divided by seven: multiply by `37` and shift by `8`. -/
theorem getMagicNumber_int_six :
    getMagicNumber 9 (.int 6) 7 = some ⟨37, 8⟩ ∧ product ⟨37, 8⟩ (-32) / 2 ^ 8 = -4 ∧
      ∃ r : MagicNumber, ∃ fuel₀, ∀ fuel ≥ fuel₀, getMagicNumber fuel (.int 6) 7 = some r := by
  obtain ⟨r, hr, -⟩ := getMagicNumber_correct (.int 6) (show (2 : ℤ) ≤ 7 by decide)
  exact ⟨by decide, by decide, r, hr⟩

end DivisionOperator

end Frontend

end Pequin
