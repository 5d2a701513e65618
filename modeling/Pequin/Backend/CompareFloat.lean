import Mathlib.Data.Nat.Prime.Int
import Mathlib.Data.Rat.Cast.Defs
import Mathlib.Data.Rat.Lemmas
import Pequin.Backend.Compare

/-!
# The comparison of floats

A float is a number `a / 2^k` with bounds on `a` and on `k`. The difference of the operands of a
comparison is such a number, too. The constraints ask for it as a negative numerator, given by its
bits above `-2^na`, times the inverse of a power of two, given by the one of `nb + 1` wires that is
set. Another quotient could stand for the same residue, but not if the prime is large: the numerator
of each times the denominator of the other is then smaller than the prime.
-/

namespace Pequin

/-! ## Dyadic numbers -/

/-- A number with a numerator of `na` bits and one of the denominators `1`, `2`, …, `2^nb`. -/
structure FitsFloat (na nb : ℕ) (q : ℚ) : Prop where
  num : |q.num| < 2 ^ na
  den : ∃ j ≤ nb, q.den = 2 ^ j

namespace FitsFloat
variable {na nb : ℕ} {q : ℚ}

theorem of_eq_div {a : ℤ} {k : ℕ} (hk : k ≤ nb) (ha : |a| < 2 ^ na) (hq : q = a / 2 ^ k) :
    FitsFloat na nb q := by
  have hdiv : q = Rat.divInt a ((2 ^ k : ℕ) : ℤ) := by
    rw [hq, Rat.divInt_eq_div]
    push_cast
    rfl
  refine ⟨?_, ?_⟩
  · have hdvd : q.num ∣ a := hdiv ▸ Rat.num_dvd a (by simp)
    rcases eq_or_ne a 0 with rfl | hne
    · have hzero : q = 0 := by rw [hq, Int.cast_zero, zero_div]
      rw [hzero, Rat.num_zero]
      exact ha
    · exact lt_of_le_of_lt (Int.le_of_dvd (abs_pos.2 hne) ((abs_dvd_abs _ _).2 hdvd)) ha
  · have hdvd : q.den ∣ 2 ^ k := Int.natCast_dvd_natCast.1 (hdiv ▸ Rat.den_dvd a _)
    obtain ⟨j, hj, hden⟩ := (Nat.dvd_prime_pow Nat.prime_two).1 hdvd
    exact ⟨j, hj.trans hk, hden⟩

theorem neg (h : FitsFloat na nb q) : FitsFloat na nb (-q) :=
  ⟨by rw [Rat.neg_num, abs_neg]; exact h.num, by rw [Rat.neg_den]; exact h.den⟩

theorem mono {na' nb' : ℕ} (h : FitsFloat na nb q) (ha : na ≤ na') (hb : nb ≤ nb') :
    FitsFloat na' nb' q := by
  obtain ⟨j, hj, hden⟩ := h.den
  exact ⟨lt_of_lt_of_le h.num (pow_le_pow_right₀ (by norm_num) ha), j, hj.trans hb, hden⟩

/-- A difference has one bit more over the common denominator. -/
theorem sub {r : ℚ} (hq : FitsFloat na nb q) (hr : FitsFloat na nb r) :
    FitsFloat (na + nb + 1) nb (q - r) := by
  obtain ⟨i, hi, hqi⟩ := hq.den
  obtain ⟨j, hj, hrj⟩ := hr.den
  have hscale : ∀ (n : ℤ) (k : ℕ), k ≤ nb → |n| < 2 ^ na → |n * 2 ^ (nb - k)| < 2 ^ (na + nb) := by
    intro n k hk hn
    have hle : (2 : ℤ) ^ (nb - k) ≤ 2 ^ nb := pow_le_pow_right₀ (by norm_num) (by omega)
    have hpos : (0 : ℤ) < 2 ^ (nb - k) := by positivity
    calc |n * 2 ^ (nb - k)| = |n| * 2 ^ (nb - k) := by rw [abs_mul, abs_of_pos hpos]
      _ < 2 ^ na * 2 ^ (nb - k) := mul_lt_mul_of_pos_right hn hpos
      _ ≤ 2 ^ na * 2 ^ nb := mul_le_mul_of_nonneg_left hle (by positivity)
      _ = 2 ^ (na + nb) := (pow_add 2 na nb).symm
  have hquot : ∀ {a : ℚ} {k : ℕ}, k ≤ nb → a.den = 2 ^ k →
      a = (a.num * 2 ^ (nb - k) : ℤ) / 2 ^ nb := by
    intro a k hk hden
    have hsplit : (2 : ℚ) ^ nb = 2 ^ k * 2 ^ (nb - k) := by rw [← pow_add, Nat.add_sub_cancel' hk]
    conv_lhs => rw [← Rat.num_div_den a, hden]
    rw [hsplit]
    push_cast
    field_simp
  refine of_eq_div (a := q.num * 2 ^ (nb - i) - r.num * 2 ^ (nb - j)) le_rfl ?_ ?_
  · have h1 := abs_lt.1 (hscale _ i hi hq.num)
    have h2 := abs_lt.1 (hscale _ j hj hr.num)
    rw [pow_succ', abs_lt]
    constructor <;> linarith
  · rw [Int.cast_sub, sub_div, ← hquot hi hqi, ← hquot hj hrj]

end FitsFloat

/-! ## Operands -/

/-- The numbers of the declared type. A float is declared with at least one bit for the exponent of
its denominator. -/
def VarObj.Represents (o : VarObj) (q : ℚ) : Prop :=
  match o.type with
  | .float => 0 < o.nb ∧ ∃ (a : ℤ) (k : ℕ), k ≤ o.nb ∧ |a| < 2 ^ o.na ∧ q = a / 2 ^ k
  | _ => ∃ v : ℤ, o.InRange v ∧ q = v

theorem VarObj.Represents.fitsFloat {o : VarObj} {q : ℚ} (h : o.Represents q) :
    FitsFloat o.adjustedNa o.nb q := by
  have hint : ∀ v : ℤ, o.InRange v → q = v → FitsFloat o.adjustedNa o.nb q := by
    intro v hv hq
    obtain ⟨hlo, hhi⟩ := hv.signed
    have hpos : (0 : ℤ) < 2 ^ o.adjustedNa := by positivity
    refine .of_eq_div (k := 0) (Nat.zero_le _) ?_ (by rw [hq, pow_zero, div_one])
    rw [abs_lt]
    constructor <;> linarith
  obtain ⟨type, na, nb⟩ := o
  cases type with
  | float =>
    obtain ⟨-, a, k, hk, ha, hq⟩ := h
    exact .of_eq_div hk ha hq
  | int =>
    obtain ⟨v, hv, hq⟩ := h
    exact hint v hv hq
  | uint =>
    obtain ⟨v, hv, hq⟩ := h
    exact hint v hv hq

/-- A variable has a number of its declared type. A constant may be one bit longer than an integer
of its width. -/
def Arg.Represents (d : Decls) (v : Name → ℚ) : Arg Name → Prop
  | .var x => (d.varObj x).Represents (v x)
  | .const c => |c| < 2 ^ (toVar d (.const c)).na

theorem Arg.Represents.fitsFloat {d : Decls} {v : Name → ℚ} {a : Arg Name} (h : a.Represents d v) :
    FitsFloat (toVar d a).adjustedNa (toVar d a).nb (a.eval v) := by
  cases a with
  | var x => exact VarObj.Represents.fitsFloat h
  | const c =>
    exact .of_eq_div (k := 0) (Nat.zero_le _) h (by rw [pow_zero, div_one, Arg.eval_const])

/-- The widths of a comparison hold the difference of its operands. -/
theorem fitsFloat_getBitsSignedDifference {d : Decls} {arg0 arg1 : Arg Name} {v : Name → ℚ}
    (h0 : arg0.Represents d v) (h1 : arg1.Represents d v) {na nb : ℕ}
    (hw : getBitsSignedDifference arg0 (toVar d arg0) arg1 (toVar d arg1) = (na, nb))
    (hnb : nb ≠ 0) : FitsFloat na nb (arg0.eval v - arg1.eval v) := by
  have hx := h0.fitsFloat.mono (le_max_left _ (toVar d arg1).adjustedNa)
    (le_max_left _ (toVar d arg1).nb)
  have hy := h1.fitsFloat.mono (le_max_right (toVar d arg0).adjustedNa _)
    (le_max_right (toVar d arg0).nb _)
  simp only [getBitsSignedDifference] at hw
  split at hw
  · rename_i hzero
    split at hw <;> exact absurd (by rw [← (Prod.mk.inj hw).2, hzero]) hnb
  · split at hw
    · -- against the literal `0` the difference is the other operand, up to sign
      rename_i hlit
      obtain ⟨rfl, rfl⟩ := Prod.mk.inj hw
      rcases hlit with rfl | rfl
      · simpa using hy.neg
      · simpa using hx
    · obtain ⟨rfl, rfl⟩ := Prod.mk.inj hw
      exact hx.sub hy

/-! ## What the constraints say -/

section
variable {R : Type} [CommRing R] (z : Name → R)

/-- A sum written by a loop. -/
private theorem eval_foldl_range {f : Sum Name → ℕ → Sum Name} {w : ℕ → R}
    (hf : ∀ s i, (f s i).eval z = s.eval z + w i) (s : Sum Name) (k : ℕ) :
    ((List.range k).foldl f s).eval z = s.eval z + ∑ i ∈ Finset.range k, w i := by
  induction k with
  | zero => simp
  | succ k ih =>
    rw [List.range_succ, List.foldl_append, List.foldl_cons, List.foldl_nil, hf, ih,
      Finset.sum_range_succ, add_assoc]

theorem eval_numeratorSum (t : Name) (na : ℕ) : (numeratorSum t na).eval z =
    z (.sub t .Num) + 2 ^ na - Residue.bitSum (fun i => z (.sub t (.N i))) na := by
  cases na with
  | zero => simp [numeratorSum, Sum.eval]
  | succ k =>
    simp only [numeratorSum, Sum.eval_add, Arg.eval_var, Arg.eval_const]
    rw [eval_foldl_range z (w := fun i => -z (.sub t (.N (i + 1)))) (by simp [sub_eq_add_neg]),
      Sum.eval_negSum, Arg.eval_var, Residue.bitSum, Finset.sum_range_succ', Finset.sum_neg_distrib]
    push_cast
    ring

theorem eval_denominatorSum (t : Name) (nb : ℕ) : (denominatorSum t nb).eval z =
    2 ^ nb * z (.sub t .Den) - ∑ i ∈ Finset.range (nb + 1), 2 ^ (nb - i) * z (.sub t (.D i)) := by
  simp only [denominatorSum, Sum.eval_snoc, Sign.apply_plus]
  rw [eval_foldl_range z (w := fun i => -(2 ^ (nb - (i + 1)) * z (.sub t (.D (i + 1)))))
    (by simp [scaled, pow2, Term.eval]), Finset.sum_range_succ', Finset.sum_neg_distrib]
  simp only [Sum.eval, scaled, pow2, Term.eval, constProd_cons, constProd_nil, mul_one,
    Int.cast_pow, Int.cast_ofNat, Sign.apply_minus, Nat.sub_zero, Int.cast_one]
  ring

theorem eval_denominatorCount (t : Name) (nb : ℕ) :
    (denominatorCount t nb).eval z = ∑ i ∈ Finset.range (nb + 1), z (.sub t (.D i)) - 1 := by
  simp only [denominatorCount, Sum.eval_sub, Arg.eval_const, Int.cast_one]
  rw [eval_foldl_range z (w := fun i => z (.sub t (.D (i + 1)))) (by simp), Finset.sum_range_succ']
  simp [Sum.eval, add_comm]

structure FloatWires (na nb : ℕ) (x y : R) (t : Name) : Prop where
  bits : Residue.WeightedBits (fun i => z (.sub t (.N i))) na
  num : z (.sub t .Num) + 2 ^ na - Residue.bitSum (fun i => z (.sub t (.N i))) na = 0
  dBits : ∀ i < nb + 1, z (.sub t (.D i)) * (z (.sub t (.D i)) - 1) = 0
  den : 2 ^ nb * z (.sub t .Den) -
    ∑ i ∈ Finset.range (nb + 1), 2 ^ (nb - i) * z (.sub t (.D i)) = 0
  count : ∑ i ∈ Finset.range (nb + 1), z (.sub t (.D i)) - 1 = 0
  mlt : z (.sub t .Mlt) * (z (.sub t .Mlt) - 1) = 0
  meq : z (.sub t .Meq) * (z (.sub t .Meq) - 1) = 0
  mgt : z (.sub t .Mgt) * (z (.sub t .Mgt) - 1) = 0
  one : z (.sub t .Mlt) + z (.sub t .Meq) + z (.sub t .Mgt) - 1 = 0
  quotient : z (.sub t .Num) * z (.sub t .Den) + -z (.sub t .ND) = 0
  less : z (.sub t .Mlt) * (x - y - z (.sub t .ND)) = 0
  equal : z (.sub t .Meq) * (x - y) = 0
  greater : z (.sub t .Mgt) * (y - x - z (.sub t .ND)) = 0
  output : z (.sub t .Mlt) - z t = 0

theorem satisfies_lessThanF (na nb : ℕ) (arg0 arg1 : Arg Name) (t : Name) :
    Satisfies z (lessThanAsBasicConstraintsF na nb arg0 arg1 t) ↔
      FloatWires z na nb (arg0.eval z) (arg1.eval z) t := by
  have hpot : Satisfies z ((List.range na).map (potLine t)) ↔
      Residue.WeightedBits (fun i => z (.sub t (.N i))) na := by
    simp [Satisfies, Residue.WeightedBits]
  have hbool : Satisfies z ((List.range (nb + 1)).map fun i => boolLine (.sub t (.D i))) ↔
      ∀ i < nb + 1, z (.sub t (.D i)) * (z (.sub t (.D i)) - 1) = 0 := by
    simp only [Satisfies, List.forall_mem_map, List.mem_range, eval_boolLine]
  simp only [lessThanAsBasicConstraintsF, selectorLines, satisfies_append, satisfies_cons,
    satisfies_nil, hpot, hbool, eval_boolLine, eval_lineC, eval_lineAB, eval_numeratorSum,
    eval_denominatorSum, eval_denominatorCount, Line.eval_mk, Poly.eval_some, Sum.eval_negSum,
    Sum.eval_add, Sum.eval_sub, Sum.eval_sum, Arg.eval_var, Arg.eval_const, Int.cast_one]
  constructor
  · rintro ⟨⟨⟨⟨⟨hb, h1, -⟩, h2⟩, h3, h4, -⟩, h5, h6, h7, h8, -⟩, h9, h10, h11, h12, h13, -⟩
    exact ⟨hb, h1, h2, h3, h4, h5, h6, h7, h8, h9, h10, h11, h12, h13⟩
  · rintro ⟨hb, h1, h2, h3, h4, h5, h6, h7, h8, h9, h10, h11, h12, h13⟩
    exact ⟨⟨⟨⟨⟨hb, h1, trivial⟩, h2⟩, h3, h4, trivial⟩, h5, h6, h7, h8, trivial⟩,
      h9, h10, h11, h12, h13, trivial⟩

end

/-! ## The float comparison decides the order -/

section
variable {p : ℕ} [Fact p.Prime] {na nb : ℕ} {q : ℚ}

theorem toField_eq_cast (q : ℚ) : toField p q = (q : ZMod p) := by
  rw [toField, Rat.cast_def]
  split
  · rename_i hden
    rw [hden, Nat.cast_one, div_one]
  · rw [div_eq_inv_mul]

theorem two_pow_ne_zero (hp : 2 < p) (k : ℕ) : (2 : ZMod p) ^ k ≠ 0 := by
  have htwo : ((2 : ℤ) : ZMod p) ≠ 0 := Residue.cast_ne_zero (by simpa using hp) two_ne_zero
  exact pow_ne_zero k (by simpa using htwo)

theorem FitsFloat.cast_den_ne_zero (hp : 2 < p) (h : FitsFloat na nb q) : (q.den : ZMod p) ≠ 0 := by
  obtain ⟨j, -, hden⟩ := h.den
  rw [hden, Nat.cast_pow, Nat.cast_ofNat]
  exact two_pow_ne_zero hp j

theorem FitsFloat.toField_mul_den (hp : 2 < p) (h : FitsFloat na nb q) :
    toField p q * q.den = q.num := by
  rw [toField_eq_cast, Rat.cast_def, div_mul_cancel₀ _ (h.cast_den_ne_zero hp)]

theorem FitsFloat.toField_sub (hp : 2 < p) {na' nb' : ℕ} {r : ℚ} (hq : FitsFloat na nb q)
    (hr : FitsFloat na' nb' r) : toField p (q - r) = toField p q - toField p r := by
  simp only [toField_eq_cast]
  exact Rat.cast_sub_of_ne_zero (hq.cast_den_ne_zero hp) (hr.cast_den_ne_zero hp)

theorem toField_sub_comm {x y : ℚ} (h : toField p (x - y) = toField p x - toField p y) :
    toField p (y - x) = toField p y - toField p x := by
  rw [← neg_sub x y, ← neg_sub (toField p x), ← h]
  simp only [toField_eq_cast, Rat.cast_neg]

/-- A difference that is, in the field, a negative numerator over a power of two, is negative. -/
theorem FitsFloat.neg_of_toField_eq (hp : 2 ^ (na + nb + 1) < p) (h : FitsFloat na nb q) {n : ℤ}
    (hlo : -2 ^ na ≤ n) (hneg : n < 0) {j : ℕ} (hj : j ≤ nb) {den : ZMod p} (hden : 2 ^ j * den = 1)
    (hq : toField p q = n * den) : q < 0 := by
  have hp2 : 2 < p := lt_of_le_of_lt (Nat.pow_le_pow_right two_pos (Nat.le_add_left 1 _)) hp
  obtain ⟨k, hk, hqk⟩ := h.den
  have hcast : ((q.num * 2 ^ j : ℤ) : ZMod p) = ((n * 2 ^ k : ℤ) : ZMod p) := by
    have hmul := h.toField_mul_den hp2
    rw [hq, hqk] at hmul
    push_cast at hmul ⊢
    rw [← hmul]
    linear_combination (n : ZMod p) * 2 ^ k * hden
  have hscale : ∀ i ≤ nb, (0 : ℤ) < 2 ^ i ∧ (2 : ℤ) ^ i ≤ 2 ^ nb := fun i hi =>
    ⟨by positivity, pow_le_pow_right₀ (by norm_num) hi⟩
  have hpow : (2 : ℤ) * (2 ^ na * 2 ^ nb) < p := by
    rw [← pow_add, ← pow_succ']
    exact_mod_cast hp
  have hbound : |q.num * 2 ^ j - n * 2 ^ k| < p := by
    obtain ⟨hj0, hj1⟩ := hscale j hj
    obtain ⟨hk0, hk1⟩ := hscale k hk
    obtain ⟨h1, h2⟩ := abs_lt.1 h.num
    rw [abs_lt]
    constructor <;> nlinarith [pow_pos (two_pos : (0 : ℤ) < 2) na]
  have hint : q.num * 2 ^ j = n * 2 ^ k := Residue.eq_of_cast_eq hbound hcast
  have hnum : q.num * 2 ^ j < 0 := hint ▸ mul_neg_of_neg_of_pos hneg (by positivity)
  exact Rat.num_neg.1 (neg_of_mul_neg_left hnum (by positivity))

end

section
variable {p : ℕ} [Fact p.Prime] {z : Name → ZMod p} {na nb : ℕ} {x y : ℚ} {t : Name}

/-- The product of the numerator and denominator wires. -/
theorem FloatWires.exists_quotient {x y : ZMod p} (hp : 2 ^ (na + nb + 1) < p)
    (h : FloatWires z na nb x y t) :
    ∃ n : ℤ, -2 ^ na ≤ n ∧ n < 0 ∧ ∃ j ≤ nb, ∃ den : ZMod p, 2 ^ j * den = 1 ∧
      z (.sub t .ND) = n * den := by
  have hp2 : 2 < p := lt_of_le_of_lt (Nat.pow_le_pow_right two_pos (Nat.le_add_left 1 _)) hp
  have hcount : nb + 1 < p := by
    have h1 : nb + 1 < 2 ^ (nb + 1) := Nat.lt_two_pow_self
    have h2 : 2 ^ (nb + 1) ≤ 2 ^ (na + nb + 1) := Nat.pow_le_pow_right two_pos (by omega)
    omega
  obtain ⟨m, hm0, hm1, hm⟩ := h.bits.bitSum_eq
  obtain ⟨j, hj, hone, hzero⟩ := Residue.exists_one_hot hcount
    (fun i hi => Residue.bool_of_mul_sub_one (h.dBits i hi)) (sub_eq_zero.1 h.count)
  refine ⟨m - 2 ^ na, by linarith, by linarith, j, by omega, z (.sub t .Den), ?_, ?_⟩
  · have hden := h.den
    rw [Finset.sum_eq_single_of_mem j (Finset.mem_range.2 hj)
      (fun i hi hne => by rw [hzero i (Finset.mem_range.1 hi) hne, mul_zero]),
        hone, mul_one] at hden
    have hsplit : (2 : ZMod p) ^ nb = 2 ^ (nb - j) * 2 ^ j := by
      rw [← pow_add, Nat.sub_add_cancel (by omega)]
    have hcancel : (2 : ZMod p) ^ (nb - j) * (2 ^ j * z (.sub t .Den) - 1) = 0 := by
      rw [hsplit] at hden
      linear_combination hden
    have := (mul_eq_zero.1 hcancel).resolve_left (two_pow_ne_zero hp2 _)
    linear_combination this
  · have hnum := h.num
    have hquot := h.quotient
    rw [hm] at hnum
    push_cast
    linear_combination z (.sub t .Den) * hnum - hquot

theorem FloatWires.output_eq (hp : 2 ^ (na + nb + 1) < p) (hnb : nb ≠ 0)
    (hxy : FitsFloat na nb (x - y)) (hsub : toField p (x - y) = toField p x - toField p y)
    (h : FloatWires z na nb (toField p x) (toField p y) t) : z t = if x < y then 1 else 0 := by
  have hp2 : 3 < p := lt_of_lt_of_le (by norm_num : 3 < 2 ^ 2)
    ((Nat.pow_le_pow_right two_pos (by omega)).trans hp.le)
  obtain ⟨n, hlo, hneg, j, hj, den, hden, hnd⟩ := h.exists_quotient hp
  rcases selected hp2 h.mlt h.meq h.mgt h.one h.output with
    ⟨hsel, hout⟩ | ⟨hsel, hout⟩ | ⟨hsel, hout⟩
  · have h' := h.less
    rw [hsel, one_mul, hnd, ← hsub] at h'
    have hlt := hxy.neg_of_toField_eq hp hlo hneg hj hden (sub_eq_zero.1 h')
    rw [hout, if_pos (sub_neg.1 hlt)]
  · have h' := h.equal
    rw [hsel, one_mul, ← hsub] at h'
    have hnum : (x - y).num = 0 := by
      refine Residue.eq_zero_of_cast_eq_zero (p := p) (hxy.num.trans ?_) ?_
      · have hle : 2 ^ na ≤ 2 ^ (na + nb + 1) := Nat.pow_le_pow_right two_pos (by omega)
        exact_mod_cast lt_of_le_of_lt hle hp
      · rw [← hxy.toField_mul_den (by omega), h', zero_mul]
    rw [hout, if_neg (by rw [sub_eq_zero.1 (Rat.num_eq_zero.1 hnum)]; exact lt_irrefl y)]
  · have h' := h.greater
    rw [hsel, one_mul, hnd, ← toField_sub_comm hsub] at h'
    have hyx : FitsFloat na nb (y - x) := neg_sub x y ▸ hxy.neg
    have hlt := hyx.neg_of_toField_eq hp hlo hneg hj hden (sub_eq_zero.1 h')
    rw [hout, if_neg (not_lt.2 (sub_neg.1 hlt).le)]

end

/-! ## What the prover computes -/

/-- The negative number that is split into numerator and denominator: the smaller operand minus the
larger one, and `-1` for equal operands. -/
def floatDiff (x y : ℚ) : ℚ := if x = y then -1 else if y < x then y - x else x - y

theorem floatDiff_neg (x y : ℚ) : floatDiff x y < 0 := by
  unfold floatDiff
  split
  · norm_num
  · rename_i hne
    split
    · linarith
    · rename_i hle
      exact sub_neg.2 (lt_of_le_of_ne (not_lt.1 hle) hne)

/-- Numerator and denominator of the difference fit the wires. -/
theorem FitsFloat.floatDiff_fits {na nb : ℕ} {x y : ℚ} (h : FitsFloat na nb (x - y)) :
    -2 ^ na ≤ (floatDiff x y).num ∧ ∃ j ≤ nb, (floatDiff x y).den = 2 ^ j := by
  unfold floatDiff
  split
  · refine ⟨?_, 0, Nat.zero_le nb, by simp⟩
    have hpos : (0 : ℤ) < 2 ^ na := by positivity
    simp only [Rat.neg_num, Rat.num_one]
    linarith
  · split
    · rw [← neg_sub x y]
      exact ⟨(abs_lt.1 h.neg.num).1.le, h.neg.den⟩
    · exact ⟨(abs_lt.1 h.num).1.le, h.den⟩

section
variable {arg0 arg1 : Arg Name} {t : Name} (s : Prover)

theorem lessF_exec (p na nb : ℕ) (h0 : arg0.FreshFor t) (h1 : arg1.FreshFor t) {x y : ℚ}
    (hread : operandsRead arg0 arg1 s = (x, y)) :
    ∃ s₁ : Prover, (generateComputationLessF na nb arg0 arg1 t).exec p s =
        ((fillBits (fun i => .sub t (.D i)) (fun _ => 1) (nb + 1) 0 (floatDiff x y).den
          (fillBits (fun i => .sub t (.N i)) (2 ^ ·) na 0 (2 ^ na + (floatDiff x y).num) s₁)).set
            (.var (.sub t .Den)) ((floatDiff x y).den : ℚ)⁻¹).set
            (.var (.sub t .ND)) ((floatDiff x y).num * ((floatDiff x y).den : ℚ)⁻¹) ∧
      s₁.vals = Function.update (Function.update (selectorVals t x y s.vals)
        (.sub t .Num) (floatDiff x y).num) (.sub t .Den) (floatDiff x y).den := by
  rcases hX1 : voc arg0 .tempQ s with ⟨X1, s'⟩
  rcases hX2 : voc arg1 .tempQ s' with ⟨X2, s''⟩
  obtain ⟨hx, hy, hx', hy', -, hvals⟩ := setSelectors_operands s h0 h1 hread hX1 hX2
  set r := setSelectors (.var (.sub t .Mlt)) (.var (.sub t .Meq)) (.var (.sub t .Mgt)) X1 X2 s''
    with hr
  -- the state after numerator and denominator are written
  set r' := if x = y then (r.set (.var (.sub t .Num)) (-1)).set (.var (.sub t .Den)) 1
    else (((r.set .tempQ (if y < x then y - x else x - y)).set (.var (.sub t .Num))
      (if y < x then y - x else x - y : ℚ).num).set (.var (.sub t .Den))
      (if y < x then y - x else x - y : ℚ).den) with hr'
  have hr'vals : r'.vals = Function.update (Function.update r.vals (.sub t .Num)
    (floatDiff x y).num)
      (.sub t .Den) (floatDiff x y).den := by
    by_cases hxy : x = y <;> simp [hr', floatDiff, hxy]
  set s₁ := r'.set (.var t) (r'.vals (.sub t .Mlt)) with hs₁
  have hvals₁ : s₁.vals = Function.update (Function.update (selectorVals t x y s.vals)
      (.sub t .Num) (floatDiff x y).num) (.sub t .Den) (floatDiff x y).den := by
    have hmlt : r'.vals (.sub t .Mlt) = r.vals (.sub t .Mlt) := by simp [hr'vals]
    rw [hs₁, Prover.set_var_vals, hmlt, hr'vals, Function.update_comm (Name.sub_ne_self t .Den),
      Function.update_comm (Name.sub_ne_self t .Num), hvals]
  refine ⟨s₁, ?_, hvals₁⟩
  simp only [generateComputationLessF, Cmd.exec, computeLessThanFloat, voc_var, hX1, hX2, ← hr, hx,
    hy, hx', hy', Prover.get_var, Prover.set_tempQ_tempQ, ← hr', ← hs₁]
  simp [fillBits_vals_of_ne, hvals₁]

end

/-- What the prover's values of a comparison of `x` and `y` are in the field. -/
structure FloatValues (p : ℕ) (z : Name → ZMod p) (na nb : ℕ) (x y : ℚ) (t : Name) : Prop where
  bits : ∀ i < na, z (.sub t (.N i)) = (Residue.bitsOf (2 ^ na + (floatDiff x y).num) i : ZMod p)
  num : z (.sub t .Num) = (floatDiff x y).num
  dBits : ∀ i < nb + 1, z (.sub t (.D i)) = ((floatDiff x y).den / 2 ^ i % 2 : ℤ)
  den : z (.sub t .Den) = ((floatDiff x y).den : ZMod p)⁻¹
  quotient : z (.sub t .ND) = toField p (floatDiff x y)
  mlt : z (.sub t .Mlt) = if x < y then 1 else 0
  meq : z (.sub t .Meq) = if x = y then 1 else 0
  mgt : z (.sub t .Mgt) = if y < x then 1 else 0
  output : z t = if x < y then 1 else 0

/-- A power of two has one bit. -/
private theorem two_pow_div_mod (i j : ℕ) : ((2 : ℤ) ^ j / 2 ^ i % 2) = if i = j then 1 else 0 := by
  rcases lt_trichotomy i j with h | rfl | h
  · obtain ⟨k, rfl⟩ := Nat.exists_eq_add_of_lt h
    rw [if_neg (by omega), show i + k + 1 = (k + 1) + i by omega, pow_add _ (k + 1) i,
      Int.mul_ediv_cancel _ (by positivity), pow_succ, Int.mul_emod_left]
  · rw [if_pos rfl, Int.ediv_self (by positivity)]
    rfl
  · rw [if_neg (by omega), Int.ediv_eq_zero_of_lt (by positivity)
      (pow_lt_pow_right₀ (by norm_num) h)]
    rfl

theorem FloatValues.floatWires {p : ℕ} [Fact p.Prime] {z : Name → ZMod p} {na nb : ℕ} {x y : ℚ}
    {t : Name} (hp : 2 < p) (hxy : FitsFloat na nb (x - y))
    (hsub : toField p (x - y) = toField p x - toField p y) (h : FloatValues p z na nb x y t) :
    FloatWires z na nb (toField p x) (toField p y) t := by
  obtain ⟨hlo, j, hj, hden⟩ := hxy.floatDiff_fits
  have hneg := Rat.num_neg.2 (floatDiff_neg x y)
  have hhot : ∀ i < nb + 1, z (.sub t (.D i)) = if i = j then 1 else 0 := by
    intro i hi
    rw [h.dBits i hi, hden]
    push_cast
    rw [two_pow_div_mod]
    split <;> simp
  have hj' : j ∈ Finset.range (nb + 1) := Finset.mem_range.2 (by omega)
  have hbits : Residue.WeightedBits (fun i => z (.sub t (.N i))) na :=
    Residue.WeightedBits.congr (fun i hi => (h.bits i hi).symm) (Residue.weightedBits_bitsOf _ na)
  have hnum : Residue.bitSum (fun i => z (.sub t (.N i))) na = 2 ^ na + (floatDiff x y).num := by
    rw [Residue.bitSum_congr h.bits, Residue.bitSum_bitsOf (by linarith) (by linarith)]
    push_cast
    rfl
  refine ⟨hbits, by rw [h.num, hnum]; ring, fun i hi => by rw [hhot i hi]; split <;> simp, ?_, ?_,
    by rw [h.mlt]; split <;> simp, by rw [h.meq]; split <;> simp, by rw [h.mgt]; split <;> simp,
    ?_, ?_, ?_, ?_, ?_, by rw [h.mlt, h.output, sub_self]⟩
  · rw [Finset.sum_congr rfl fun i hi => by rw [hhot i (Finset.mem_range.1 hi)], h.den, hden]
    have hsplit : (2 : ZMod p) ^ nb = 2 ^ (nb - j) * 2 ^ j := by
      rw [← pow_add, Nat.sub_add_cancel hj]
    have hne := two_pow_ne_zero (p := p) hp j
    simp only [mul_ite, mul_one, mul_zero, Finset.sum_ite_eq', hj', if_true, hsplit]
    push_cast
    rw [mul_assoc, mul_inv_cancel₀ hne, mul_one, sub_self]
  · rw [Finset.sum_congr rfl fun i hi => hhot i (Finset.mem_range.1 hi)]
    simp [hj']
  · rw [h.mlt, h.meq, h.mgt]
    rcases lt_trichotomy x y with hlt | heq | hgt
    · simp [hlt, hlt.ne, hlt.not_gt]
    · simp [heq]
    · simp [hgt, hgt.ne', hgt.not_gt]
  · rw [h.num, h.den, h.quotient, toField_eq_cast, Rat.cast_def, div_eq_mul_inv, add_neg_cancel]
  · rw [h.mlt, h.quotient, ← hsub]
    split
    · rename_i hlt
      rw [floatDiff, if_neg hlt.ne, if_neg hlt.not_gt, sub_self, mul_zero]
    · rw [zero_mul]
  · rw [h.meq]
    split
    · rename_i heq
      rw [heq, sub_self, mul_zero]
    · rw [zero_mul]
  · rw [h.mgt, h.quotient, ← toField_sub_comm hsub]
    split
    · rename_i hgt
      rw [floatDiff, if_neg hgt.ne', if_pos hgt, sub_self, mul_zero]
    · rw [zero_mul]

section
variable {p : ℕ} [Fact p.Prime] {arg0 arg1 : Arg Name} {t : Name} (s : Prover) (na nb : ℕ)

omit [Fact p.Prime] in
theorem lessF_exec_vals_of_not_owned (h0 : arg0.FreshFor t) (h1 : arg1.FreshFor t) {o : Name}
    (ho : ¬ t.Owned o) :
    ((generateComputationLessF na nb arg0 arg1 t).exec p s).vals o = s.vals o := by
  obtain ⟨s₁, hexec, hvals⟩ := lessF_exec s p na nb h0 h1 rfl
  simp only [Name.Owned, not_or, not_exists] at ho
  rw [hexec, Prover.set_var_vals, Function.update_of_ne (ho.2 _), Prover.set_var_vals,
    Function.update_of_ne (ho.2 _), fillBits_vals_of_ne _ _ _ _ (fun j => ho.2 _),
    fillBits_vals_of_ne _ _ _ _ (fun j => ho.2 _), hvals]
  simp [selectorVals, ho.1, ho.2]

theorem lessF_exec_floatValues (h0 : arg0.FreshFor t) (h1 : arg1.FreshFor t) {x y : ℚ}
    (hread : operandsRead arg0 arg1 s = (x, y)) (hxy : FitsFloat na nb (x - y)) :
    FloatValues p (((generateComputationLessF na nb arg0 arg1 t).exec p s).witness p)
      na nb x y t := by
  obtain ⟨hlo, -⟩ := hxy.floatDiff_fits
  obtain ⟨s₁, hexec, hvals⟩ := lessF_exec s p na nb h0 h1 hread
  have hinjN : Function.Injective fun i => Name.sub t (.N i) := fun a b hab => by simpa using hab
  have hinjD : Function.Injective fun i => Name.sub t (.D i) := fun a b hab => by simpa using hab
  have hsel : ∀ o, (∀ j, o ≠ Name.sub t (.N j)) → (∀ j, o ≠ Name.sub t (.D j)) →
      o ≠ .sub t .Den → o ≠ .sub t .ND → o ≠ .sub t .Num →
      ((generateComputationLessF na nb arg0 arg1 t).exec p s).witness p o =
        toField p (selectorVals t x y s.vals o) := by
    intro o hN hD hDen hND hNum
    rw [Prover.witness, hexec, Prover.set_var_vals, Function.update_of_ne hND, Prover.set_var_vals,
      Function.update_of_ne hDen, fillBits_vals_of_ne _ _ _ _ hD, fillBits_vals_of_ne _ _ _ _ hN,
      hvals, Function.update_of_ne hDen, Function.update_of_ne hNum]
  refine ⟨fun i hi => ?_, ?_, fun i hi => ?_, ?_, ?_, ?_, ?_, ?_, ?_⟩
  · have hbit := fillBits_vals (2 ^ ·) hinjN na 0
      (by linarith : 0 ≤ 2 ^ na + (floatDiff x y).num) s₁ hi
    rw [Nat.zero_add] at hbit
    have hval : ((generateComputationLessF na nb arg0 arg1 t).exec p s).vals (.sub t (.N i)) =
        (Residue.bitsOf (2 ^ na + (floatDiff x y).num) i : ℤ) := by
      rw [Residue.bitsOf, ← hbit]
      simp [hexec, fillBits_vals_of_ne]
    rw [Prover.witness, hval, toField_intCast]
  · simp [Prover.witness, hexec, fillBits_vals_of_ne, hvals]
  · have hbit := fillBits_vals (fun _ => 1) hinjD (nb + 1) 0
      (Int.natCast_nonneg (floatDiff x y).den)
      (fillBits (fun i => .sub t (.N i)) (2 ^ ·) na 0 (2 ^ na + (floatDiff x y).num) s₁) hi
    rw [Nat.zero_add, mul_one] at hbit
    have hval : ((generateComputationLessF na nb arg0 arg1 t).exec p s).vals (.sub t (.D i)) =
        ((floatDiff x y).den / 2 ^ i % 2 : ℤ) := by
      rw [← hbit]
      simp [hexec]
    rw [Prover.witness, hval, toField_intCast]
  · simp [Prover.witness, hexec, toField_eq_cast]
  · rw [Prover.witness, hexec, Prover.set_var_vals, Function.update_self, ← div_eq_mul_inv,
      Rat.num_div_den]
  · rw [hsel _ (by simp) (by simp) (by simp) (by simp) (by simp)]
    by_cases hlt : x < y <;> simp [selectorVals, hlt]
  · rw [hsel _ (by simp) (by simp) (by simp) (by simp) (by simp)]
    by_cases heq : x = y <;> simp [selectorVals, heq]
  · rw [hsel _ (by simp) (by simp) (by simp) (by simp) (by simp)]
    rcases lt_trichotomy x y with hlt | heq | hgt
    · simp [selectorVals, hlt, hlt.not_gt]
    · simp [selectorVals, heq]
    · simp [selectorVals, hgt, hgt.ne', hgt.not_gt]
  · rw [hsel _ (by simp) (by simp) (by simp) (by simp) (by simp)]
    by_cases hlt : x < y <;> simp [selectorVals, hlt]

end

/-! ## Soundness and completeness of the float comparison -/

section
variable (p : ℕ) (d : Decls) (arg0 arg1 : Arg Name) (t : Name) (v : Name → ℚ)

/-- The constraints can be satisfied with target `τ` exactly when `τ` is the truth value of the
comparison of the operands' values under `v`. -/
def FloatLessExact : Prop :=
  ∀ τ : ZMod p,
    (∃ z : Name → ZMod p, arg0.eval z = toField p (arg0.eval v) ∧
        arg1.eval z = toField p (arg1.eval v) ∧ z t = τ ∧
        Satisfies z (lessThanAsBasicConstraints d arg0 arg1 t)) ↔
      τ = if arg0.eval v < arg1.eval v then 1 else 0

/-- The assignment the prover computes satisfies the constraints, whenever the operands have their
values under `v`. -/
def FloatLessComplete : Prop :=
  ∀ s : Prover, arg0.eval s.vals = arg0.eval v → arg1.eval s.vals = arg1.eval v →
    Satisfies (((generateComputationLess d arg0 arg1 t).exec p s).witness p)
      (lessThanAsBasicConstraints d arg0 arg1 t)

def floatWidths : ℕ × ℕ := getBitsSignedDifference arg0 (toVar d arg0) arg1 (toVar d arg1)

/-- A comparison of a float with a float, an integer or a constant, whose values under `v` are of
the declared types. -/
structure FloatOperands : Prop where
  left : arg0.Represents d v
  right : arg1.Represents d v
  float : (toVar d arg0).type = .float ∨ (toVar d arg1).type = .float

variable {p d arg0 arg1 t v} [Fact p.Prime]

namespace FloatOperands
variable (h : FloatOperands d arg0 arg1 v)
include h

theorem nb_ne_zero : (floatWidths d arg0 arg1).2 ≠ 0 := by
  have hsnd : (floatWidths d arg0 arg1).2 = max (toVar d arg0).nb (toVar d arg1).nb := by
    simp only [floatWidths, getBitsSignedDifference]
    split <;> split <;> rfl
  have hpos {a : Arg Name} (ha : a.Represents d v) (hf : (toVar d a).type = .float) :
      0 < (toVar d a).nb := by
    cases a with
    | var x =>
      simp only [Arg.Represents, VarObj.Represents, show (d.varObj x).type = .float from hf] at ha
      exact ha.1
    | const c => cases hf
  rw [hsnd]
  rcases h.float with hf | hf
  · have := hpos h.left hf
    omega
  · have := hpos h.right hf
    omega

theorem fitsFloat :
    FitsFloat (floatWidths d arg0 arg1).1 (floatWidths d arg0 arg1).2 (arg0.eval v - arg1.eval v) :=
  fitsFloat_getBitsSignedDifference h.left h.right rfl h.nb_ne_zero

theorem satisfies_lessThan (z : Name → ZMod p) :
    Satisfies z (lessThanAsBasicConstraints d arg0 arg1 t) ↔ FloatWires z
      (floatWidths d arg0 arg1).1 (floatWidths d arg0 arg1).2 (arg0.eval z) (arg1.eval z) t := by
  have hlines : lessThanAsBasicConstraints d arg0 arg1 t =
      lessThanAsBasicConstraintsF (floatWidths d arg0 arg1).1
        (floatWidths d arg0 arg1).2 arg0 arg1 t :=
    if_neg h.nb_ne_zero
  rw [hlines, satisfies_lessThanF]

/-- One operand is a variable, so that the prover reads both as they are. -/
theorem operandsRead_eq (s : Prover) :
    operandsRead arg0 arg1 s = (arg0.eval s.vals, arg1.eval s.vals) := by
  refine Pequin.operandsRead_eq ?_ s
  rintro ⟨c₀, c₁, rfl, rfl, -⟩
  simpa [toVar] using h.float

variable (hp : 2 ^ ((floatWidths d arg0 arg1).1 + (floatWidths d arg0 arg1).2 + 1) < p)
include hp

omit h [Fact p.Prime] in
theorem two_lt : 2 < p :=
  lt_of_le_of_lt (Nat.pow_le_pow_right two_pos (Nat.le_add_left 1 _)) hp

theorem toField_sub : toField p (arg0.eval v - arg1.eval v) =
    toField p (arg0.eval v) - toField p (arg1.eval v) :=
  h.left.fitsFloat.toField_sub (two_lt hp) h.right.fitsFloat

/-- The prover's assignment satisfies the equations, and gives the target the truth value of the
comparison. -/
theorem prover_floatWires (hf0 : arg0.FreshFor t) (hf1 : arg1.FreshFor t) (s : Prover)
    (hx : arg0.eval s.vals = arg0.eval v) (hy : arg1.eval s.vals = arg1.eval v) {z : Name → ZMod p}
    (hz : z = ((generateComputationLess d arg0 arg1 t).exec p s).witness p) :
    arg0.eval z = toField p (arg0.eval v) ∧ arg1.eval z = toField p (arg1.eval v) ∧
      z t = (if arg0.eval v < arg1.eval v then 1 else 0) ∧
      Satisfies z (lessThanAsBasicConstraints d arg0 arg1 t) := by
  have hgen : generateComputationLess d arg0 arg1 t =
      generateComputationLessF (floatWidths d arg0 arg1).1
        (floatWidths d arg0 arg1).2 arg0 arg1 t :=
    if_neg h.nb_ne_zero
  rw [hgen] at hz
  have hkeep := fun o (ho : ¬ t.Owned o) => lessF_exec_vals_of_not_owned (p := p) s
    (floatWidths d arg0 arg1).1 (floatWidths d arg0 arg1).2 hf0 hf1 ho
  have hx' := eval_witness_toField p hf0 hkeep hx
  have hy' := eval_witness_toField p hf1 hkeep hy
  have hvalues := lessF_exec_floatValues (p := p) s _ _ hf0 hf1
    (by rw [h.operandsRead_eq, hx, hy]) h.fitsFloat
  rw [← hz] at hx' hy' hvalues
  refine ⟨hx', hy', hvalues.output, ?_⟩
  rw [h.satisfies_lessThan, hx', hy']
  exact hvalues.floatWires (two_lt hp) h.fitsFloat (h.toField_sub hp)

end FloatOperands

/-- The float less-than gadget is exact, and the prover completes it. -/
theorem lessThanFloat_exact_and_complete (h : FloatOperands d arg0 arg1 v) (hf0 : arg0.FreshFor t)
    (hf1 : arg1.FreshFor t)
    (hp : 2 ^ ((floatWidths d arg0 arg1).1 + (floatWidths d arg0 arg1).2 + 1) < p) :
    FloatLessExact p d arg0 arg1 t v ∧ FloatLessComplete p d arg0 arg1 t v := by
  constructor
  · intro τ
    constructor
    · rintro ⟨z, hx, hy, rfl, hsat⟩
      rw [h.satisfies_lessThan, hx, hy] at hsat
      exact hsat.output_eq hp h.nb_ne_zero h.fitsFloat (h.toField_sub hp)
    · rintro rfl
      let s : Prover := ⟨v, 0, 0, fun _ => none⟩
      exact ⟨_, h.prover_floatWires hp hf0 hf1 s rfl rfl rfl⟩
  · intro s hx hy
    exact (h.prover_floatWires hp hf0 hf1 s hx hy rfl).2.2.2

end

def floatDecls (na nb : ℕ) : Decls := ⟨fun _ => ⟨.float, na, nb⟩, Nat.clog 2⟩

theorem lessThanFloat_quarter_lt_one :
    FloatLessExact 257 (floatDecls 2 2) (.var (.spec "x")) (.const 1) (.spec "t") (fun _ => 1 / 4) ∧
      FloatLessComplete 257 (floatDecls 2 2) (.var (.spec "x")) (.const 1) (.spec "t")
        (fun _ => 1 / 4) := by
  have : Fact (Nat.Prime 257) := ⟨by norm_num⟩
  refine lessThanFloat_exact_and_complete ⟨?_, ?_, .inl rfl⟩ (by simp) (by simp) (by decide)
  · exact ⟨by decide, 1, 2, by decide, by decide, by norm_num⟩
  · exact show |(1 : ℤ)| < 2 ^ _ by decide

end Pequin
