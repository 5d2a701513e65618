import Mathlib.Algebra.Order.Ring.Int
import Mathlib.Data.Int.ModEq
import Mathlib.Tactic.LinearCombination
import Mathlib.Tactic.Linarith
import Mathlib.Tactic.Ring

/-!
# Two's complement

The bits of a number are a list of integers, the least significant one first. The last bit of a
signed number has a negative weight. Appending bits adds a multiple of a power of two, which gives
truncation, extension and the right shift.
-/

namespace TwosComplement

def IsBit (b : ℤ) : Prop := b = 0 ∨ b = 1

def Bits (bs : List ℤ) : Prop := ∀ b ∈ bs, IsBit b

def unsigned : List ℤ → ℤ
  | [] => 0
  | b :: bs => b + 2 * unsigned bs

def signed : List ℤ → ℤ
  | [] => 0
  | [b] => -b
  | b :: c :: bs => b + 2 * signed (c :: bs)

def value (sign : Bool) (bs : List ℤ) : ℤ := if sign then signed bs else unsigned bs

@[simp] theorem value_false (bs : List ℤ) : value false bs = unsigned bs := rfl

@[simp] theorem value_true (bs : List ℤ) : value true bs = signed bs := rfl

/-! ## Appending -/

theorem unsigned_append (xs ys : List ℤ) :
    unsigned (xs ++ ys) = unsigned xs + 2 ^ xs.length * unsigned ys := by
  induction xs with
  | nil => simp [unsigned]
  | cons b xs ih =>
    rw [List.cons_append, unsigned, ih, unsigned, List.length_cons, pow_succ]
    ring

theorem signed_append (xs : List ℤ) {ys : List ℤ} (h : ys ≠ []) :
    signed (xs ++ ys) = unsigned xs + 2 ^ xs.length * signed ys := by
  induction xs with
  | nil => simp [unsigned]
  | cons b xs ih =>
    obtain ⟨c, zs, hzs⟩ := List.exists_cons_of_ne_nil (List.append_ne_nil_of_right_ne_nil xs h)
    rw [List.cons_append, hzs, signed, ← hzs, ih, unsigned, List.length_cons, pow_succ]
    ring

theorem value_append (sign : Bool) (xs : List ℤ) {ys : List ℤ} (h : ys ≠ []) :
    value sign (xs ++ ys) = unsigned xs + 2 ^ xs.length * value sign ys := by
  cases sign with
  | false => exact unsigned_append xs ys
  | true => exact signed_append xs h

theorem signed_concat (xs : List ℤ) (b : ℤ) :
    signed (xs ++ [b]) = unsigned xs - 2 ^ xs.length * b := by
  rw [signed_append xs (List.cons_ne_nil _ _), signed]
  ring

theorem unsigned_concat (xs : List ℤ) (b : ℤ) :
    unsigned (xs ++ [b]) = unsigned xs + 2 ^ xs.length * b := by
  rw [unsigned_append]
  simp [unsigned]

/-- The sign of the last bit is not seen modulo the power of two. -/
theorem value_modEq (sign : Bool) (bs : List ℤ) :
    value sign bs ≡ unsigned bs [ZMOD 2 ^ bs.length] := by
  cases sign with
  | false => exact Int.ModEq.refl _
  | true =>
    rcases List.eq_nil_or_concat bs with rfl | ⟨xs, b, rfl⟩
    · exact Int.ModEq.refl _
    · rw [List.concat_eq_append, value_true, signed_concat, unsigned_concat, List.length_append,
        List.length_singleton]
      refine Int.modEq_iff_dvd.2 ⟨b, ?_⟩
      ring

/-! ## Ranges -/

theorem Bits.append {xs ys : List ℤ} : Bits (xs ++ ys) ↔ Bits xs ∧ Bits ys := List.forall_mem_append

variable {bs : List ℤ}

theorem Bits.cons {b : ℤ} : Bits (b :: bs) ↔ IsBit b ∧ Bits bs := List.forall_mem_cons

theorem Bits.replicate {b : ℤ} (h : IsBit b) (n : ℕ) : Bits (List.replicate n b) :=
  fun _ hc => List.eq_of_mem_replicate hc ▸ h

theorem unsigned_bounds (h : Bits bs) : 0 ≤ unsigned bs ∧ unsigned bs < 2 ^ bs.length := by
  induction bs with
  | nil => exact ⟨le_rfl, one_pos⟩
  | cons b bs ih =>
    obtain ⟨hb, hbs⟩ := Bits.cons.1 h
    have hbounds := ih hbs
    rw [unsigned, List.length_cons, pow_succ]
    rcases hb with rfl | rfl <;> omega

theorem signed_bounds (h : Bits bs) (hne : bs ≠ []) :
    -2 ^ (bs.length - 1) ≤ signed bs ∧ signed bs < 2 ^ (bs.length - 1) := by
  obtain ⟨xs, b, rfl⟩ := (List.eq_nil_or_concat bs).resolve_left hne
  rw [List.concat_eq_append] at h ⊢
  obtain ⟨hxs, hb⟩ := Bits.append.1 h
  have hbounds := unsigned_bounds hxs
  rw [signed_concat, List.length_append, List.length_singleton, Nat.add_sub_cancel]
  rcases hb b List.mem_cons_self with rfl | rfl <;> omega

/-! ## Extension and truncation -/

/-- `n` more copies of the last bit of a signed number, or of zero. -/
def extend (sign : Bool) (bs : List ℤ) (n : ℕ) : List ℤ :=
  bs ++ List.replicate n (if sign then bs.getLastD 0 else 0)

theorem unsigned_replicate_zero (n : ℕ) : unsigned (List.replicate n 0) = 0 := by
  induction n with
  | zero => rfl
  | succ n ih => rw [List.replicate_succ, unsigned, ih, mul_zero, add_zero]

theorem signed_replicate (n : ℕ) (b : ℤ) : signed (List.replicate (n + 1) b) = -b := by
  induction n with
  | zero => rfl
  | succ n ih =>
    rw [List.replicate_succ] at ih
    rw [List.replicate_succ, List.replicate_succ, signed, ih]
    ring

/-- Copies of the sign do not change a signed number. -/
theorem signed_append_replicate (xs : List ℤ) (b : ℤ) (n : ℕ) :
    signed (xs ++ [b] ++ List.replicate n b) = signed (xs ++ [b]) := by
  have hrep : [b] ++ List.replicate n b = List.replicate (n + 1) b := List.replicate_succ.symm
  rw [List.append_assoc, hrep, signed_append xs (by simp), signed_replicate,
    signed_append xs (List.cons_ne_nil _ _), signed]

theorem value_extend (sign : Bool) (hne : bs ≠ []) (n : ℕ) :
    value sign (extend sign bs n) = value sign bs := by
  cases sign with
  | false =>
    rw [value_false, value_false, extend, unsigned_append]
    simp [unsigned_replicate_zero]
  | true =>
    obtain ⟨xs, b, rfl⟩ := (List.eq_nil_or_concat bs).resolve_left hne
    rw [List.concat_eq_append, value_true, value_true, extend, if_pos rfl, List.getLastD_concat,
      signed_append_replicate]

/-- The first `n` bits are the number modulo `2 ^ n`. -/
theorem unsigned_take_modEq (sign : Bool) {n : ℕ} (hn : n ≤ bs.length) :
    unsigned (bs.take n) ≡ value sign bs [ZMOD 2 ^ n] := by
  have hlen : (bs.take n).length = n := List.length_take_of_le hn
  by_cases hdrop : bs.drop n = []
  · have hle : bs.length ≤ n := List.drop_eq_nil_iff.1 hdrop
    obtain rfl : n = bs.length := le_antisymm hn hle
    rw [List.take_length]
    exact (value_modEq sign bs).symm
  · have happ := value_append sign (bs.take n) hdrop
    rw [List.take_append_drop, hlen] at happ
    refine Int.modEq_iff_dvd.2 ⟨value sign (bs.drop n), ?_⟩
    rw [happ]
    ring

/-! ## The bits of an integer -/

/-- The lowest `n` bits of an integer. -/
def bitsOf : ℕ → ℤ → List ℤ
  | 0, _ => []
  | n + 1, c => c % 2 :: bitsOf n (c / 2)

@[simp] theorem length_bitsOf (n : ℕ) (c : ℤ) : (bitsOf n c).length = n := by
  induction n generalizing c with
  | zero => rfl
  | succ n ih => rw [bitsOf, List.length_cons, ih]

theorem isBit_emod_two (c : ℤ) : IsBit (c % 2) := Int.emod_two_eq_zero_or_one c

theorem bits_bitsOf (n : ℕ) (c : ℤ) : Bits (bitsOf n c) := by
  induction n generalizing c with
  | zero => exact List.forall_mem_nil _
  | succ n ih => exact Bits.cons.2 ⟨isBit_emod_two c, ih _⟩

/-- What the lowest bits leave is a multiple of the power of two. -/
theorem unsigned_bitsOf (n : ℕ) (c : ℤ) : unsigned (bitsOf n c) + 2 ^ n * (c / 2 ^ n) = c := by
  induction n generalizing c with
  | zero => simp [bitsOf, unsigned]
  | succ n ih =>
    have hrec := ih (c / 2)
    rw [Int.ediv_ediv_of_nonneg (by decide), ← pow_succ'] at hrec
    rw [bitsOf, unsigned]
    linear_combination 2 * hrec + Int.emod_add_mul_ediv c 2

theorem bitsOf_concat (n : ℕ) (c : ℤ) : bitsOf (n + 1) c = bitsOf n c ++ [c / 2 ^ n % 2] := by
  induction n generalizing c with
  | zero => simp [bitsOf]
  | succ n ih =>
    rw [bitsOf, ih, bitsOf, List.cons_append, Int.ediv_ediv_of_nonneg (by decide), ← pow_succ']

theorem unsigned_bitsOf_modEq (n : ℕ) (c : ℤ) : unsigned (bitsOf n c) ≡ c [ZMOD 2 ^ n] := by
  refine Int.modEq_iff_dvd.2 ⟨c / 2 ^ n, ?_⟩
  linear_combination -unsigned_bitsOf n c

/-- With another last bit `b` a signed number keeps its residue just if `b` has the parity of the
bit in its place. -/
theorem signed_bitsOf_modEq (n : ℕ) (c b : ℤ) :
    signed (bitsOf n c ++ [b]) ≡ c [ZMOD 2 ^ (n + 1)] ↔ (2 : ℤ) ∣ c / 2 ^ n + b := by
  have hdiff : c - signed (bitsOf n c ++ [b]) = 2 ^ n * (c / 2 ^ n + b) := by
    rw [signed_concat, length_bitsOf]
    linear_combination -unsigned_bitsOf n c
  rw [Int.modEq_iff_dvd, hdiff, pow_succ]
  exact mul_dvd_mul_iff_left (by positivity)

/-! ## Words -/

/-- Numbers of the same length with the same bits are equal, and conversely. -/
theorem unsigned_injective {xs ys : List ℤ} (hxs : Bits xs) (hys : Bits ys)
    (hlen : xs.length = ys.length) (h : unsigned xs = unsigned ys) : xs = ys := by
  induction xs generalizing ys with
  | nil => exact (List.length_eq_zero_iff.1 hlen.symm).symm
  | cons b xs ih =>
    match ys with
    | c :: ys =>
      obtain ⟨hb, hxs⟩ := Bits.cons.1 hxs
      obtain ⟨hc, hys⟩ := Bits.cons.1 hys
      simp only [unsigned] at h
      have hbc : b = c := by rcases hb with rfl | rfl <;> rcases hc with rfl | rfl <;> omega
      rw [hbc, ih hxs hys (Nat.succ.inj hlen) (by omega)]

theorem unsigned_bitsOf_of_lt {n : ℕ} {c : ℤ} (h0 : 0 ≤ c) (hn : c < 2 ^ n) :
    unsigned (bitsOf n c) = c := by
  have h := unsigned_bitsOf n c
  rwa [Int.ediv_eq_zero_of_lt h0 hn, mul_zero, add_zero] at h

theorem bitsOf_unsigned (h : Bits bs) : bitsOf bs.length (unsigned bs) = bs := by
  obtain ⟨h0, h1⟩ := unsigned_bounds h
  exact unsigned_injective (bits_bitsOf _ _) h (length_bitsOf _ _) (unsigned_bitsOf_of_lt h0 h1)

theorem take_bitsOf {l n : ℕ} (hl : l ≤ n) (c : ℤ) : (bitsOf n c).take l = bitsOf l c := by
  induction l generalizing n c with
  | zero => rfl
  | succ l ih =>
    obtain ⟨m, rfl⟩ := Nat.exists_eq_add_of_le hl
    rw [show l + 1 + m = l + m + 1 by omega, bitsOf, bitsOf, List.take_succ_cons, ih (by omega)]

theorem Bits.nonneg (h : Bits bs) : ∀ b ∈ bs, 0 ≤ b := fun b hb => by
  rcases h b hb with rfl | rfl <;> decide

theorem Bits.sum_le (h : Bits bs) : bs.sum ≤ bs.length := by
  induction bs with
  | nil => simp
  | cons b bs ih =>
    obtain ⟨hb, hbs⟩ := Bits.cons.1 h
    have := ih hbs
    rw [List.sum_cons, List.length_cons]
    push_cast
    rcases hb with rfl | rfl <;> omega

theorem Bits.take (h : Bits bs) (k : ℕ) : Bits (bs.take k) :=
  fun b hb => h b (List.mem_of_mem_take hb)

theorem Bits.drop (h : Bits bs) (k : ℕ) : Bits (bs.drop k) :=
  fun b hb => h b (List.mem_of_mem_drop hb)

theorem Bits.reverse (h : Bits bs) : Bits bs.reverse := fun b hb =>
  h b (List.mem_reverse.1 hb)

def ofWord {w : ℕ} (x : BitVec w) : List ℤ := (List.range w).map fun i => (x.getLsbD i).toInt

/-- The number that a word stands for. -/
def read {w : ℕ} (sign : Bool) (x : BitVec w) : ℤ := if sign then x.toInt else x.toNat

section
variable {w : ℕ} (x : BitVec w)

@[simp] theorem length_ofWord : (ofWord x).length = w := by
  rw [ofWord, List.length_map, List.length_range]

theorem isBit_toInt (b : Bool) : IsBit b.toInt := by
  cases b with
  | false => exact .inl rfl
  | true => exact .inr rfl

theorem bits_ofWord : Bits (ofWord x) := by
  intro b hb
  obtain ⟨i, -, rfl⟩ := List.mem_map.1 hb
  exact isBit_toInt _

theorem unsigned_range (n k : ℕ) :
    unsigned ((List.range k).map fun i => (n.testBit i).toInt) = ((n % 2 ^ k : ℕ) : ℤ) := by
  induction k with
  | zero => simp [unsigned, Nat.mod_one]
  | succ k ih =>
    rw [List.range_succ, List.map_append, List.map_singleton, unsigned_concat, ih, List.length_map,
      List.length_range, Nat.mod_pow_succ, Nat.testBit_eq_decide_div_mod_eq]
    rcases Nat.mod_two_eq_zero_or_one (n / 2 ^ k) with h | h <;> simp [h]

theorem unsigned_ofWord : unsigned (ofWord x) = x.toNat := by
  have hrange := unsigned_range x.toNat w
  rwa [Nat.mod_eq_of_lt x.isLt] at hrange

theorem value_ofWord (hw : 1 ≤ w) (sign : Bool) : value sign (ofWord x) = read sign x := by
  cases sign with
  | false => exact unsigned_ofWord x
  | true =>
    obtain ⟨n, rfl⟩ := Nat.exists_eq_add_of_le' hw
    have hconcat : ofWord x = (List.range n).map (fun i => (x.getLsbD i).toInt) ++
      [x.msb.toInt] := by
      rw [ofWord, List.range_succ, List.map_append, List.map_singleton, BitVec.msb_eq_getLsbD_last]
      rfl
    have hunsigned := unsigned_ofWord x
    rw [hconcat, unsigned_concat] at hunsigned
    rw [hconcat, value_true, signed_concat, read, if_pos rfl, BitVec.toInt_eq_msb_cond, ← hunsigned,
      List.length_map, List.length_range]
    cases x.msb with
    | false => simp
    | true =>
      simp only [Bool.toInt_true, if_true]
      push_cast
      ring

/-- Bits that are congruent to a number are those of its word. -/
theorem eq_ofWord {bs : List ℤ} (h : Bits bs) (hlen : bs.length = w) {v : ℤ}
    (hv : unsigned bs ≡ v [ZMOD 2 ^ w]) : bs = ofWord (BitVec.ofInt w v) := by
  refine unsigned_injective h (bits_ofWord _) (by rw [hlen, length_ofWord]) ?_
  have hbounds := unsigned_bounds h
  have hpow : ((2 ^ w : ℕ) : ℤ) = 2 ^ w := by push_cast; rfl
  rw [hlen] at hbounds
  rw [unsigned_ofWord, BitVec.toNat_ofInt, hpow, ← hv.eq, Int.emod_eq_of_lt hbounds.1 hbounds.2,
    Int.toNat_of_nonneg hbounds.1]

theorem ofWord_ofInt (w : ℕ) (v : ℤ) : ofWord (BitVec.ofInt w v) = bitsOf w v :=
  (eq_ofWord (bits_bitsOf w v) (length_bitsOf w v) (unsigned_bitsOf_modEq w v)).symm

theorem toInt_getLsbD_ofInt {i : ℕ} (hi : i < w) (v : ℤ) :
    ((BitVec.ofInt w v).getLsbD i).toInt = v / 2 ^ i % 2 := by
  have hbits : ∀ {n : ℕ} {c : ℤ} {i : ℕ}, i < n → (bitsOf n c)[i]? = some (c / 2 ^ i % 2) := by
    intro n c i hi
    induction n generalizing c i with
    | zero => omega
    | succ n ih =>
      cases i with
      | zero => simp [bitsOf]
      | succ i =>
        rw [bitsOf, List.getElem?_cons_succ, ih (Nat.lt_of_succ_lt_succ hi),
          Int.ediv_ediv_of_nonneg (by decide), ← pow_succ']
  have hword : (ofWord (BitVec.ofInt w v))[i]? = some ((BitVec.ofInt w v).getLsbD i).toInt := by
    simp [ofWord, hi]
  rw [ofWord_ofInt, hbits hi] at hword
  exact (Option.some.inj hword).symm

variable {sign : Bool}

theorem read_injective {x y : BitVec w} (h : read sign x = read sign y) : x = y := by
  cases sign with
  | false => exact BitVec.toNat_inj.1 (Int.ofNat_inj.1 h)
  | true => exact BitVec.toInt_inj.1 h

/-! ## Numbers that fit -/

/-- The numbers that a word of `w` bits can be read as. -/
def Fits (sign : Bool) (w : ℕ) (v : ℤ) : Prop :=
  if sign then -2 ^ (w - 1) ≤ v ∧ v ≤ 2 ^ (w - 1) - 1 else 0 ≤ v ∧ v ≤ 2 ^ w - 1

theorem read_ofInt (hw : 1 ≤ w) {v : ℤ} (h : Fits sign w v) : read sign (BitVec.ofInt w v) = v := by
  cases sign with
  | false =>
    obtain ⟨h0, h1⟩ : 0 ≤ v ∧ v ≤ 2 ^ w - 1 := h
    have hlt : v < ((2 ^ w : ℕ) : ℤ) := by
      push_cast
      omega
    rw [read, if_neg Bool.false_ne_true, BitVec.toNat_ofInt, Int.emod_eq_of_lt h0 hlt,
      Int.toNat_of_nonneg h0]
  | true =>
    obtain ⟨h0, h1⟩ : -2 ^ (w - 1) ≤ v ∧ v ≤ 2 ^ (w - 1) - 1 := h
    have hpow : (2 : ℤ) ^ w = 2 * 2 ^ (w - 1) := by rw [← pow_succ', Nat.sub_add_cancel hw]
    rw [read, if_pos rfl, BitVec.toInt_ofInt]
    refine Int.bmod_eq_of_le ?_ ?_ <;> push_cast <;> omega

/-- Bits that stand for `v` are those of the word of `v`. -/
theorem eq_ofWord_of_value {bs : List ℤ} (h : Bits bs) (hlen : bs.length = w) {v : ℤ}
    (hv : value sign bs = v) : bs = ofWord (BitVec.ofInt w v) := by
  refine eq_ofWord h hlen ?_
  rw [← hv, ← hlen]
  exact (value_modEq sign bs).symm

/-- Two numbers that fit are less than a power of two apart. -/
theorem Fits.abs_sub_lt (hw : 1 ≤ w) {u v : ℤ} (hu : Fits sign w u) (hv : Fits sign w v) :
    |u - v| < 2 ^ w := by
  have hpow : (2 : ℤ) ^ w = 2 * 2 ^ (w - 1) := by rw [← pow_succ', Nat.sub_add_cancel hw]
  rw [abs_lt]
  cases sign with
  | false =>
    obtain ⟨hu0, hu1⟩ : 0 ≤ u ∧ u ≤ 2 ^ w - 1 := hu
    obtain ⟨hv0, hv1⟩ : 0 ≤ v ∧ v ≤ 2 ^ w - 1 := hv
    omega
  | true =>
    obtain ⟨hu0, hu1⟩ : -2 ^ (w - 1) ≤ u ∧ u ≤ 2 ^ (w - 1) - 1 := hu
    obtain ⟨hv0, hv1⟩ : -2 ^ (w - 1) ≤ v ∧ v ≤ 2 ^ (w - 1) - 1 := hv
    omega

theorem fits_zero (sign : Bool) (w : ℕ) : Fits sign w 0 := by
  have hpow : ∀ k : ℕ, (0 : ℤ) < 2 ^ k := fun k => pow_pos (by decide) k
  cases sign with
  | false => exact ⟨le_rfl, Int.le_sub_one_of_lt (hpow w)⟩
  | true => exact ⟨neg_nonpos.2 (hpow _).le, Int.le_sub_one_of_lt (hpow _)⟩

theorem Bits.fits (hw : 1 ≤ w) {bs : List ℤ} (h : Bits bs) (hlen : bs.length = w) (sign : Bool) :
    Fits sign w (value sign bs) := by
  cases sign with
  | false =>
    have hbounds := unsigned_bounds h
    rw [hlen] at hbounds
    exact ⟨hbounds.1, Int.le_sub_one_of_lt hbounds.2⟩
  | true =>
    have hbounds := signed_bounds h (List.ne_nil_of_length_pos (hlen ▸ hw))
    rw [hlen] at hbounds
    exact ⟨hbounds.1, Int.le_sub_one_of_lt hbounds.2⟩

/-! ## The last bit -/

theorem setWidth_ofInt {k : ℕ} (hk : k ≤ w) (v : ℤ) :
    (BitVec.ofInt w v).setWidth k = BitVec.ofInt k v := by
  apply BitVec.eq_of_toNat_eq
  rw [BitVec.toNat_setWidth, BitVec.toNat_ofInt, BitVec.toNat_ofInt, ← Int.ofNat_inj,
    Int.natCast_emod, Int.toNat_of_nonneg (Int.emod_nonneg _ (by positivity)),
    Int.toNat_of_nonneg (Int.emod_nonneg _ (by positivity))]
  exact Int.emod_emod_of_dvd v (Int.natCast_dvd_natCast.2 (pow_dvd_pow 2 hk))

/-- The first bits of a word are determined modulo a power of two. -/
theorem getLsbD_ofInt_congr {k : ℕ} (hk : k ≤ w) {u v : ℤ} (h : u ≡ v [ZMOD 2 ^ k]) {i : ℕ}
    (hi : i < k) : (BitVec.ofInt w u).getLsbD i = (BitVec.ofInt w v).getLsbD i := by
  have hword : (BitVec.ofInt w u).setWidth k = (BitVec.ofInt w v).setWidth k := by
    rw [setWidth_ofInt hk, setWidth_ofInt hk]
    apply BitVec.eq_of_toNat_eq
    rw [BitVec.toNat_ofInt, BitVec.toNat_ofInt, Int.natCast_pow, Nat.cast_ofNat, h.eq]
  simpa [hi] using congrArg (fun x => x.getLsbD i) hword

theorem eq_iff_msb {x y : BitVec w} (h : ∀ i < w - 1, x.getLsbD i = y.getLsbD i) :
    x = y ↔ x.msb = y.msb := by
  refine ⟨fun hxy => by rw [hxy], fun hmsb => BitVec.eq_of_getLsbD_eq fun i hi => ?_⟩
  rcases Nat.lt_or_ge i (w - 1) with hlt | hge
  · exact h i hlt
  · rw [BitVec.msb_eq_getLsbD_last, BitVec.msb_eq_getLsbD_last] at hmsb
    rwa [show i = w - 1 by omega]

/-- The last bit of a number that fits is its sign. -/
theorem msb_ofInt (hw : 1 ≤ w) {v : ℤ} (h : Fits true w v) :
    (BitVec.ofInt w v).msb = decide (v < 0) := by
  rw [BitVec.msb_eq_toInt, show (BitVec.ofInt w v).toInt = v from read_ofInt hw h]

/-! ## Right shifts -/

/-- The shift that copies the sign of a signed word divides by a power of two. -/
theorem read_shiftRight (sign : Bool) (s : ℕ) :
    read sign (if sign then x.sshiftRight s else x >>> s) = read sign x / 2 ^ s := by
  cases sign with
  | false =>
    rw [if_neg Bool.false_ne_true, read, read, if_neg Bool.false_ne_true, if_neg Bool.false_ne_true,
      BitVec.toNat_ushiftRight, Nat.shiftRight_eq_div_pow]
    push_cast
    rfl
  | true =>
    rw [if_pos rfl, read, read, if_pos rfl, if_pos rfl, BitVec.toInt_sshiftRight,
      Int.shiftRight_eq_div_pow]
    push_cast
    rfl

end

end TwosComplement
