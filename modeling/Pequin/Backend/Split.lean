import Pequin.Backend.Compare
import Pequin.Lib.TwosComplement

/-!
# Splitting a number into bits

The lines `SIL` and `SI` split a number into consecutive bit variables. A `SIL` line has the lowest
bit first, and is signed or unsigned; an `SI` line is unsigned and has the highest bit first. In
both cases every variable is made a bit, and the weighted sum of the bits is the number. The prover
finds the bits by shifting, and handles the sign bit on its own.
-/

namespace Pequin

open TwosComplement

/-! ## The constraints -/

def matchSum (weight : ℕ → NonzeroInt) (bits : ℕ → Name) : ℕ → Poly Name
  | 0 => none
  | k + 1 => some <|
    match matchSum weight bits k with
    | none => .first (some .plus) (scaled (weight k) (bits k))
    | some s => .snoc s .plus (scaled (weight k) (bits k))

/-- The lines that make the variables bits, and the line `( ) * ( ) + ( + w0 * b0 … - toSplit )`. -/
def splitLines (weight : ℕ → NonzeroInt) (numBits : ℕ) (toSplit : Arg Name) (bits : ℕ → Name) :
    List (Line Name) :=
  (List.range numBits).map (fun i => boolLine (bits i)) ++
    [⟨none, none, (matchSum weight bits numBits).minus toSplit⟩]

/-- The last bit of a signed number has a negative weight. -/
def signedPot (signed : Bool) (numBits i : ℕ) : NonzeroInt :=
  if i = numBits - 1 ∧ signed then ⟨-2 ^ i, neg_ne_zero.2 (pow2 i).2⟩ else pow2 i

def splitIntLeAsBasicConstraints (signed : Bool) : ℕ → Arg Name → (ℕ → Name) → List (Line Name) :=
  fun numBits => splitLines (signedPot signed numBits) numBits

def splitUnsignedintAsBasicConstraints (numBits : ℕ) : Arg Name → (ℕ → Name) → List (Line Name) :=
  splitLines (fun i => pow2 (numBits - 1 - i)) numBits

/-! ## The prover -/

/-- The loop of `compute_split_int_le` over the last `k` bits. -/
def splitLoop (bits : ℕ → Name) (isSigned inIsNegative : Bool) : ℕ → ℕ → ℤ → Prover → Prover
  | 0, _, _, s => s
  | k + 1, i, temp, s =>
    if k = 0 ∧ isSigned then
      let temp2 : ℤ := if inIsNegative then 1 else 0
      splitLoop bits isSigned inIsNegative k (i + 1) (temp - temp2) (s.set (.var (bits i)) temp2)
    else
      splitLoop bits isSigned inIsNegative k (i + 1) (temp.tdiv 2)
        (s.set (.var (bits i)) (temp.tmod 2))

def computeSplitIntLe (isSigned : Bool) (n : ℕ) (x : Arg Name) (bits : ℕ → Name)
    (s : Prover) : Prover :=
  let (X, s) := voc x .tempQ s
  let temp := (s.get X).num
  let inIsNegative : Bool := temp < 0
  splitLoop bits isSigned inIsNegative n 0 (if inIsNegative then temp + 2 ^ n else temp) s

/-- `compute_split_unsignedint`: the input, a variable, is read anew for each bit. -/
def computeSplitUnsignedint (length : ℕ) (x : Name) (bits : ℕ → Name) (s : Prover) : Prover :=
  (List.range length).foldl
    (fun s i => s.set (.var (bits i)) (((s.vals x).num / 2 ^ (length - i - 1) % 2 : ℤ) : ℚ)) s

/-! ## Values of the constraints -/

section
variable {R : Type} [CommRing R] (z : Name → R)

theorem eval_matchSum (weight : ℕ → NonzeroInt) (bits : ℕ → Name) (k : ℕ) :
    (matchSum weight bits k).eval z =
      ∑ i ∈ Finset.range k, ((weight i : ℤ) : R) * z (bits i) := by
  induction k with
  | zero => rfl
  | succ k ih =>
    rw [Finset.sum_range_succ, ← ih, matchSum]
    cases matchSum weight bits k <;> simp [Sum.eval, scaled, Term.eval]

theorem satisfies_splitLines [IsDomain R] (weight : ℕ → NonzeroInt) (numBits : ℕ)
    (toSplit : Arg Name) (bits : ℕ → Name) :
    Satisfies z (splitLines weight numBits toSplit bits) ↔
      (∀ i < numBits, z (bits i) = 0 ∨ z (bits i) = 1) ∧
        ∑ i ∈ Finset.range numBits, ((weight i : ℤ) : R) * z (bits i) = toSplit.eval z := by
  have hbit : ∀ x : Name, z x * (z x - 1) = 0 ↔ z x = 0 ∨ z x = 1 := fun x => by
    rw [mul_eq_zero, sub_eq_zero]
  simp only [splitLines, satisfies_append, satisfies_cons, satisfies_nil, and_true, Line.eval_mk,
    Poly.eval_none, mul_zero, zero_add, Poly.eval_minus, eval_matchSum, sub_eq_zero]
  simp [Satisfies, hbit]

end

/-! ## The bits are determined -/

theorem sum_signedPot (signed : Bool) {n : ℕ} (hn : 1 ≤ n) (b : ℕ → ℤ) :
    ∑ i ∈ Finset.range n, (signedPot signed n i : ℤ) * b i = value signed
      ((List.range n).map b) := by
  have hunsigned : ∀ k, ∑ i ∈ Finset.range k, 2 ^ i * b i = unsigned ((List.range k).map b) := by
    intro k
    induction k with
    | zero => rfl
    | succ k ih =>
      rw [Finset.sum_range_succ, ih, List.range_succ, List.map_append, List.map_singleton,
        unsigned_concat, List.length_map, List.length_range]
  cases signed with
  | false => simpa [signedPot, pow2] using hunsigned n
  | true =>
    obtain ⟨n, rfl⟩ := Nat.exists_eq_add_of_le' hn
    have hlow : ∑ i ∈ Finset.range n, (signedPot true (n + 1) i : ℤ) * b i =
        ∑ i ∈ Finset.range n, 2 ^ i * b i := by
      refine Finset.sum_congr rfl fun i hi => ?_
      have hne : i ≠ n := (Finset.mem_range.1 hi).ne
      simp [signedPot, pow2, hne]
    rw [Finset.sum_range_succ, hlow, hunsigned, List.range_succ, List.map_append,
      List.map_singleton, value_true, signed_concat, List.length_map, List.length_range]
    simp [signedPot, sub_eq_add_neg]

/-- In the field, bits with the weighted sum `v` are those of the word of `v`. -/
theorem weightedSum_eq_iff {p n : ℕ} [Fact p.Prime] (hn : 1 ≤ n) (hp : 2 ^ n < p) {signed : Bool}
    {v : ℤ} (hv : Fits signed n v) (b : ℕ → ZMod p) :
    ((∀ i < n, b i = 0 ∨ b i = 1) ∧
        ∑ i ∈ Finset.range n, ((signedPot signed n i : ℤ) : ZMod p) * b i = v) ↔
      ∀ i < n, b i = (((BitVec.ofInt n v).getLsbD i).toInt : ℤ) := by
  have hcast : ∀ c : ℕ → ℤ, (∀ i < n, b i = c i) →
      ∑ i ∈ Finset.range n, ((signedPot signed n i : ℤ) : ZMod p) * b i =
        ((value signed ((List.range n).map c) : ℤ) : ZMod p) := by
    intro c hc
    rw [← sum_signedPot signed hn, Int.cast_sum]
    refine Finset.sum_congr rfl fun i hi => ?_
    rw [hc i (Finset.mem_range.1 hi), Int.cast_mul]
  constructor
  · rintro ⟨hbit, hsum⟩
    -- the integers `0` and `1` with the residues of the wires
    let c : ℕ → ℤ := fun i => if b i = 1 then 1 else 0
    have hc : ∀ i < n, b i = c i := by
      intro i hi
      rcases hbit i hi with h | h <;> simp [c, h]
    have hbits : Bits ((List.range n).map c) := by
      intro d hd
      obtain ⟨i, -, rfl⟩ := List.mem_map.1 hd
      by_cases h : b i = 1 <;> simp [c, h, IsBit]
    have hlen : ((List.range n).map c).length = n := by simp
    have hvalue : value signed ((List.range n).map c) = v := by
      refine Residue.eq_of_cast_eq ?_ ((hcast c hc).symm.trans hsum)
      exact ((hbits.fits hn hlen signed).abs_sub_lt hn hv).trans (by exact_mod_cast hp)
    have hword := eq_ofWord_of_value hbits hlen hvalue
    intro i hi
    have hget := congrArg (·[i]?) hword
    simp only [ofWord, List.getElem?_map, List.getElem?_range hi, Option.map_some,
      Option.some.injEq] at hget
    rw [hc i hi, hget]
  · intro h
    refine ⟨fun i hi => ?_, ?_⟩
    · rw [h i hi]
      cases (BitVec.ofInt n v).getLsbD i <;> simp
    · rw [hcast _ h]
      exact congrArg _ ((value_ofWord _ hn signed).trans (read_ofInt hn hv))

section
variable {p n : ℕ} [Fact p.Prime] {v : ℤ} {z : Name → ZMod p} {x : Arg Name} {bits : ℕ → Name}

theorem satisfies_splitIntLe (hn : 1 ≤ n) (hp : 2 ^ n < p) {signed : Bool} (hv : Fits signed n v)
    (hx : x.eval z = v) :
    Satisfies z (splitIntLeAsBasicConstraints signed n x bits) ↔
      ∀ i < n, z (bits i) = (((BitVec.ofInt n v).getLsbD i).toInt : ℤ) := by
  rw [splitIntLeAsBasicConstraints, satisfies_splitLines, hx, weightedSum_eq_iff hn hp hv]

/-- Read from the other end, the weights are those of the `SIL` line. -/
theorem satisfies_splitUnsignedint (hn : 1 ≤ n) (hp : 2 ^ n < p) (hv : Fits false n v)
    (hx : x.eval z = v) :
    Satisfies z (splitUnsignedintAsBasicConstraints n x bits) ↔
      ∀ i < n, z (bits i) = (((BitVec.ofInt n v).getMsbD i).toInt : ℤ) := by
  have hsum : ∑ i ∈ Finset.range n, ((pow2 (n - 1 - i) : ℤ) : ZMod p) * z (bits i) =
      ∑ i ∈ Finset.range n, ((signedPot false n i : ℤ) : ZMod p) * z (bits (n - 1 - i)) := by
    rw [← Finset.sum_range_reflect]
    refine Finset.sum_congr rfl fun i hi => ?_
    rw [Nat.sub_sub_self (by have := Finset.mem_range.1 hi; omega)]
    simp [signedPot]
  have hflip : ∀ P : ℕ → Prop, (∀ i < n, P (n - 1 - i)) ↔ ∀ i < n, P i := by
    refine fun P => ⟨fun h i hi => ?_, fun h i hi => h _ (by omega)⟩
    have hsub : n - 1 - (n - 1 - i) = i := by omega
    exact hsub ▸ h (n - 1 - i) (by omega)
  rw [splitUnsignedintAsBasicConstraints, satisfies_splitLines, hx, hsum,
    ← hflip fun i => z (bits i) = 0 ∨ z (bits i) = 1,
    weightedSum_eq_iff hn hp hv fun i => z (bits (n - 1 - i)), ← hflip]
  refine forall_congr' fun i => imp_congr_right fun hi => ?_
  rw [BitVec.getMsbD, Nat.sub_sub_self (by omega), decide_eq_true (by omega), Bool.true_and]

end

/-! ## What the prover computes -/

section
variable {bits : ℕ → Name} {isSigned neg : Bool}

theorem splitLoop_vals_of_ne {x : Name} (k i : ℕ) (temp : ℤ) (s : Prover)
    (hx : ∀ j, i ≤ j → j < i + k → x ≠ bits j) :
    (splitLoop bits isSigned neg k i temp s).vals x = s.vals x := by
  induction k generalizing i temp s with
  | zero => rfl
  | succ k ih =>
    have hi := hx i le_rfl (by omega)
    have hrest : ∀ j, i + 1 ≤ j → j < i + 1 + k → x ≠ bits j :=
      fun j hj hjk => hx j (by omega) (by omega)
    rw [splitLoop]
    split <;> rw [ih _ _ _ hrest, Prover.set_var_vals, Function.update_of_ne hi]

variable (hinj : Function.Injective bits)
include hinj

theorem splitLoop_vals (k i : ℕ) {temp : ℤ} (h0 : 0 ≤ temp) (s : Prover) {j : ℕ} (hj : j < k) :
    (splitLoop bits isSigned neg k i temp s).vals (bits (i + j)) =
      if j + 1 = k ∧ isSigned then (if neg then 1 else 0) else ((temp / 2 ^ j % 2 : ℤ) : ℚ) := by
  induction k generalizing i temp s j with
  | zero => omega
  | succ k ih =>
    cases j with
    | zero =>
      have hlater : ∀ j, i + 1 ≤ j → j < i + 1 + k → bits (i + 0) ≠ bits j :=
        fun j hj _ h => absurd (hinj h) (by omega)
      by_cases h : k = 0 ∧ isSigned
      · rw [splitLoop, if_pos h, splitLoop_vals_of_ne _ _ _ _ hlater]
        cases neg <;> simp [h]
      · rw [splitLoop, if_neg h, splitLoop_vals_of_ne _ _ _ _ hlater, if_neg fun h' =>
          h ⟨by omega, h'.2⟩, Int.tmod_eq_emod_of_nonneg h0]
        simp
    | succ j =>
      have hne : ¬ (k = 0 ∧ isSigned) := by omega
      rw [splitLoop, if_neg hne, Int.tdiv_eq_ediv_of_nonneg h0, ← Nat.add_assoc, Nat.add_right_comm,
        ih _ (Int.ediv_nonneg h0 (by decide)) _ (Nat.lt_of_succ_lt_succ hj),
        Int.ediv_ediv_of_nonneg (by decide), ← pow_succ']
      simp only [Nat.add_right_cancel_iff]

/-- `compute_split_int_le` finds the bits of the word. -/
theorem computeSplitIntLe_vals {n : ℕ} (hn : 1 ≤ n) {x : Arg Name}
    {s : Prover} {v : ℤ} (hx : x.eval s.vals = v) (hv : Fits isSigned n v) {i : ℕ} (hi : i < n) :
    (computeSplitIntLe isSigned n x bits s).vals (bits i) =
      (((BitVec.ofInt n v).getLsbD i).toInt : ℤ) := by
  have hread : ((voc x .tempQ s).2.get (voc x .tempQ s).1).num = v := by
    cases x with
    | const c => exact (congrArg Rat.num hx).trans (Rat.num_intCast v)
    | var y => exact (congrArg Rat.num hx).trans (Rat.num_intCast v)
  have hs : computeSplitIntLe isSigned n x bits s = splitLoop bits isSigned (v < 0) n 0
      (if v < 0 then v + 2 ^ n else v) (voc x .tempQ s).2 := by
    simp only [computeSplitIntLe, decide_eq_true_eq]
    rw [hread]
  have hmod : (if v < 0 then v + 2 ^ n else v) ≡ v [ZMOD 2 ^ n] := by
    split
    · exact Int.add_modEq_right
    · exact Int.ModEq.refl v
  have hnonneg : 0 ≤ if v < 0 then v + 2 ^ n else v := by
    have habs := abs_lt.1 (hv.abs_sub_lt hn (fits_zero isSigned n))
    split <;> omega
  have hloop := @splitLoop_vals bits isSigned (v < 0) hinj n 0 _ hnonneg (voc x .tempQ s).2 i hi
  rw [Nat.zero_add] at hloop
  rw [hs, hloop]
  split
  · next h =>
    obtain ⟨hlast, rfl⟩ := h
    have hmsb := msb_ofInt hn hv
    rw [BitVec.msb_eq_getLsbD_last, ← hlast, Nat.add_sub_cancel] at hmsb
    rw [← hlast, hmsb]
    by_cases hneg : v < 0 <;> simp [hneg]
  · rw [← toInt_getLsbD_ofInt hi, getLsbD_ofInt_congr le_rfl hmod hi]

/-- The loop of `compute_split_unsignedint` keeps the input. -/
theorem computeSplitUnsignedint_run {n : ℕ} {x : Name} (hfresh : ∀ i < n, x ≠ bits i) (s : Prover) :
    (computeSplitUnsignedint n x bits s).vals x = s.vals x ∧
      ∀ i < n, (computeSplitUnsignedint n x bits s).vals (bits i) =
        (((s.vals x).num / 2 ^ (n - i - 1) % 2 : ℤ) : ℚ) := by
  -- a round of the loop changes neither the input nor an earlier bit
  have hrun : ∀ k ≤ n, ∃ s', (List.range k).foldl (fun s i => s.set (.var (bits i))
      (((s.vals x).num / 2 ^ (n - i - 1) % 2 : ℤ) : ℚ)) s = s' ∧ s'.vals x = s.vals x ∧
      ∀ i < k, s'.vals (bits i) = (((s.vals x).num / 2 ^ (n - i - 1) % 2 : ℤ) : ℚ) := by
    intro k hk
    induction k with
    | zero => exact ⟨s, rfl, rfl, nofun⟩
    | succ k ih =>
      obtain ⟨s', hs', hx, hbits⟩ := ih (Nat.le_of_succ_le hk)
      refine ⟨_, rfl, ?_, fun i hi => ?_⟩ <;> rw [List.range_succ, List.foldl_append, hs',
        List.foldl_cons, List.foldl_nil, Prover.set_var_vals]
      · rw [Function.update_of_ne (hfresh k hk), hx]
      · rcases Nat.lt_succ_iff_lt_or_eq.1 hi with hlt | rfl
        · rw [Function.update_of_ne fun h => hlt.ne (hinj h), hbits i hlt]
        · rw [Function.update_self, hx]
  obtain ⟨s', hs', hx, hbits⟩ := hrun n le_rfl
  rw [computeSplitUnsignedint, hs']
  exact ⟨hx, hbits⟩

/-- `compute_split_unsignedint` finds the bits of the word, the highest first. -/
theorem computeSplitUnsignedint_vals {n : ℕ} {x : Name}
    (hfresh : ∀ i < n, x ≠ bits i) {s : Prover} {v : ℤ} (hx : s.vals x = v) {i : ℕ} (hi : i < n) :
    (computeSplitUnsignedint n x bits s).vals (bits i) =
      (((BitVec.ofInt n v).getMsbD i).toInt : ℤ) := by
  rw [(computeSplitUnsignedint_run hinj hfresh s).2 i hi, hx, Rat.num_intCast, BitVec.getMsbD,
    decide_eq_true hi, Bool.true_and, toInt_getLsbD_ofInt (by omega), Nat.sub_right_comm]

end

/-- The constraints of a split of `v` have the single solution `bit` for the bit variables, and the
prover finds it. -/
structure ExactSplit (p n : ℕ) (lines : List (Line Name)) (run : Prover → Prover) (x : Arg Name)
    (bits : ℕ → Name) (v : ℤ) (bit : ℕ → Bool) : Prop where
  satisfies_iff (z : Name → ZMod p) : x.eval z = v →
    (Satisfies z lines ↔ ∀ i < n, z (bits i) = ((bit i).toInt : ℤ))
  vals (s : Prover) : x.eval s.vals = v → ∀ i < n, (run s).vals (bits i) = ((bit i).toInt : ℤ)
  satisfies_witness (s : Prover) : x.eval s.vals = v → Satisfies ((run s).witness p) lines

theorem ExactSplit.of_vals {p n : ℕ} {lines : List (Line Name)} {run : Prover → Prover}
    {x : Arg Name} {bits : ℕ → Name} {v : ℤ} {bit : ℕ → Bool}
    (hiff : ∀ z : Name → ZMod p, x.eval z = v →
      (Satisfies z lines ↔ ∀ i < n, z (bits i) = ((bit i).toInt : ℤ)))
    (hvals : ∀ s : Prover, x.eval s.vals = v → ∀ i < n, (run s).vals (bits i) = ((bit i).toInt : ℤ))
    (hx : ∀ (s : Prover) y, x = .var y → (run s).vals y = s.vals y) :
    ExactSplit p n lines run x bits v bit := by
  refine ⟨hiff, hvals, fun s hs => (hiff _ ?_).2 fun i hi => ?_⟩
  · cases x with
    | const c => rw [Arg.eval_const, Int.cast_injective (hs : (c : ℚ) = v)]
    | var y =>
      have hy : s.vals y = v := hs
      rw [Arg.eval_var, Prover.witness, hx s y rfl, hy, toField_intCast]
  · rw [Prover.witness, hvals s hs i hi, toField_intCast]

/-- Both split lines determine the bits of the two's complement, and the prover computes them. -/
theorem split_exact {p n : ℕ} [Fact p.Prime] (hn : 1 ≤ n) (hp : 2 ^ n < p) {bits : ℕ → Name}
    (hinj : Function.Injective bits) (v : ℤ) :
    (∀ (signed : Bool) (x : Arg Name), Fits signed n v → (∀ i < n, x ≠ .var (bits i)) →
      ExactSplit p n (splitIntLeAsBasicConstraints signed n x bits)
        (computeSplitIntLe signed n x bits) x bits v (BitVec.ofInt n v).getLsbD) ∧
    (∀ x : Name, Fits false n v → (∀ i < n, x ≠ bits i) →
      ExactSplit p n (splitUnsignedintAsBasicConstraints n (.var x) bits)
        (computeSplitUnsignedint n x bits) (.var x) bits v (BitVec.ofInt n v).getMsbD) := by
  constructor
  · intro signed x hv hfresh
    refine .of_vals (fun z hx => satisfies_splitIntLe hn hp hv hx)
      (fun s hx i hi => computeSplitIntLe_vals hinj hn hx hv hi) fun s y hy => ?_
    subst hy
    exact splitLoop_vals_of_ne _ _ _ _ fun j _ hj h => hfresh j (by omega) (congrArg Arg.var h)
  · intro x hv hfresh
    refine .of_vals (fun z hx => satisfies_splitUnsignedint hn hp hv hx)
      (fun s hx i hi => computeSplitUnsignedint_vals hinj hfresh hx hi) fun s y hy => ?_
    obtain rfl : x = y := Arg.var.inj hy
    exact (computeSplitUnsignedint_run hinj hfresh s).1

/-- Three signed bits of `-3`, and three bits of `5` from the highest on. -/
theorem split_neg_three_and_five :
    ExactSplit 11 3 (splitIntLeAsBasicConstraints true 3 (.var (.spec "x")) fun i =>
      .sub (.spec "y") (.N i))
      (computeSplitIntLe true 3 (.var (.spec "x")) fun i => .sub (.spec "y") (.N i))
        (.var (.spec "x"))
      (fun i => .sub (.spec "y") (.N i)) (-3) (BitVec.ofInt 3 (-3)).getLsbD ∧
    ExactSplit 11 3 (splitUnsignedintAsBasicConstraints 3 (.var (.spec "x")) fun i =>
      .sub (.spec "y") (.N i))
      (computeSplitUnsignedint 3 (.spec "x") fun i => .sub (.spec "y") (.N i)) (.var (.spec "x"))
      (fun i => .sub (.spec "y") (.N i)) 5 (BitVec.ofInt 3 5).getMsbD := by
  have hprime : Fact (Nat.Prime 11) := ⟨by decide⟩
  have hinj : Function.Injective fun i => Name.sub (.spec "y") (.N i) :=
    fun i j h => Suffix.N.inj (Name.sub.inj h).2
  exact ⟨(split_exact (by decide) (by decide) hinj (-3)).1 true _ ⟨by decide, by decide⟩ fun _ _ =>
    nofun, (split_exact (by decide) (by decide) hinj 5).2 _ ⟨by decide, by decide⟩ fun _ _ => nofun⟩

end Pequin
