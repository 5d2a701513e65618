import Pequin.Lib.Residue
import Pequin.Backend.Worksheet
import Mathlib.Tactic.LinearCombination
import Mathlib.Tactic.NormNum.Prime

/-!
# Comparison gadgets

The lines `X1 != X2 - T` and `X1 < X2 - T` of a spec. Each has the basic constraints it stands for
and the worksheet command that computes its auxiliary variables.

For the integer comparison one of three selectors is `1`. The selector of a strict comparison says
that the difference of the operands, moved up by `2 ^ (na - 1)`, is a number of `na - 1` bits, so
that the difference is negative.
-/

namespace Pequin

/-! ## Basic constraints -/

def lineC (s : Sum Name) : Line Name := ⟨none, none, some s⟩

def lineAB (x : Arg Name) (s : Sum Name) : Line Name := ⟨some x.sum, some s, none⟩

def boolLine (x : Name) : Line Name := lineAB (.var x) ((Arg.var x).sum.sub (.const 1))

def notEqualAsBasicConstraints (arg0 arg1 : Arg Name) (target : Name) : List (Line Name) :=
  let m : Arg Name := .var (.sub target .M)
  [⟨some m.sum, some (arg0.sum.sub arg1), some (Arg.var target).negSum⟩,
   ⟨some (Arg.var target).sum, some (arg0.sum.sub arg1), some (arg0.negSum.add arg1)⟩]

def getBitsSignedDifference (arg0 : Arg Name) (var0 : VarObj) (arg1 : Arg Name) (var1 : VarObj) :
    ℕ × ℕ :=
  let na1 := max var0.adjustedNa var1.adjustedNa
  let nb1 := max var0.nb var1.nb
  if nb1 = 0 then
    if arg0 = .const 0 ∨ arg1 = .const 0 then (na1, nb1) else (na1 + 1, nb1)
  else
    if arg0 = .const 0 ∨ arg1 = .const 0 then (na1, nb1) else (na1 + nb1 + 1, nb1)

/-- `s +  - N0 - N1 … `, up to the bit `k - 1`. -/
def subBits (s : Sum Name) (bits : ℕ → Name) : ℕ → Sum Name
  | 0 => s
  | k + 1 => .snoc (subBits s bits k) ⟨k = 0, true⟩ (Arg.var (bits k)).term

/-- `arg0 - arg1 +  - N0 - … + 2^k`. -/
def differenceFromPot (arg0 arg1 : Arg Name) (bits : ℕ → Name) (k : ℕ) : Sum Name :=
  .snoc (subBits (arg0.sum.sub arg1) bits k) ⟨k = 0, false⟩ (Arg.const (2 ^ k)).term

/-- `( Mlt ) * ( Mlt - 1 ) + ( )` and so on, and `( ) * ( ) + ( Mlt + Meq + Mgt - 1 )`. -/
def selectorLines (target : Name) : List (Line Name) :=
  [boolLine (.sub target .Mlt), boolLine (.sub target .Meq), boolLine (.sub target .Mgt),
   lineC ((((Arg.var (.sub target .Mlt)).sum.add (.var (.sub target .Meq))).add
     (.var (.sub target .Mgt))).sub (.const 1))]

/-- The variable `Ni` is `0` or its power of two. -/
def potLine (target : Name) (i : ℕ) : Line Name :=
  lineAB (.var (.sub target (.N i))) ((Arg.const (2 ^ i)).sum.sub (.var (.sub target (.N i))))

def lessThanAsBasicConstraintsI (na2 : ℕ) (arg0 arg1 : Arg Name) (target : Name) :
    List (Line Name) :=
  let bits := fun i => Name.sub target (.N i)
  (List.range (na2 - 1)).map (potLine target) ++ selectorLines target ++
  [lineAB (.var (.sub target .Mlt)) (differenceFromPot arg0 arg1 bits (na2 - 1)),
   lineAB (.var (.sub target .Meq)) (arg0.sum.sub arg1),
   lineAB (.var (.sub target .Mgt)) (differenceFromPot arg1 arg0 bits (na2 - 1)),
   lineC ((Arg.var (.sub target .Mlt)).sum.sub (.var target))]

/-- `- N0 - N1 …  + N + 2^na2`. -/
def numeratorSum (target : Name) (na2 : ℕ) : Sum Name :=
  match na2 with
  | 0 => (Sum.first (some .plus) (Arg.var (.sub target .Num)).term).add (.const 1)
  | k + 1 =>
    (((List.range k).foldl (fun s i => s.sub (.var (.sub target (.N (i + 1)))))
      (Arg.var (.sub target (.N 0))).negSum).add (.var (.sub target .Num))).add
        (.const (2 ^ (k + 1)))

def scaled (c : NonzeroInt) (x : Name) : Term Name := .var [c] x []

def pow2 (k : ℕ) : NonzeroInt := ⟨2 ^ k, by positivity⟩

/-- `- 2^nb2 * D0 - 2^(nb2-1) * D1 … + 2^nb2 * D`. -/
def denominatorSum (target : Name) (nb2 : ℕ) : Sum Name :=
  .snoc ((List.range nb2).foldl
      (fun s i => .snoc s .minus (scaled (pow2 (nb2 - (i + 1))) (.sub target (.D (i + 1)))))
      (.first (some .minus) (scaled (pow2 nb2) (.sub target (.D 0)))))
    .plus (scaled (pow2 nb2) (.sub target .Den))

/-- `+ D0 + D1 … - 1`. -/
def denominatorCount (target : Name) (nb2 : ℕ) : Sum Name :=
  ((List.range nb2).foldl (fun s i => s.add (.var (.sub target (.D (i + 1)))))
    (Sum.first (some .plus) (Arg.var (.sub target (.D 0))).term)).sub (.const 1)

def lessThanAsBasicConstraintsF (na2 nb2 : ℕ) (arg0 arg1 : Arg Name) (target : Name) :
    List (Line Name) :=
  let nd : Arg Name := .var (.sub target .ND)
  (List.range na2).map (potLine target) ++ [lineC (numeratorSum target na2)] ++
  (List.range (nb2 + 1)).map (fun i => boolLine (.sub target (.D i))) ++
  [lineC (denominatorSum target nb2), lineC (denominatorCount target nb2)] ++
  selectorLines target ++
  [⟨some (Arg.var (.sub target .Num)).sum, some (Arg.var (.sub target .Den)).sum, some nd.negSum⟩,
   lineAB (.var (.sub target .Mlt)) ((arg0.sum.sub arg1).sub nd),
   lineAB (.var (.sub target .Meq)) (arg0.sum.sub arg1),
   lineAB (.var (.sub target .Mgt)) ((arg1.sum.sub arg0).sub nd),
   lineC ((Arg.var (.sub target .Mlt)).sum.sub (.var target))]

def lessThanAsBasicConstraints (d : Decls) (arg0 arg1 : Arg Name) (target : Name) :
    List (Line Name) :=
  let (na1, nb1) := getBitsSignedDifference arg0 (toVar d arg0) arg1 (toVar d arg1)
  if nb1 = 0 then lessThanAsBasicConstraintsI na1 arg0 arg1 target
  else lessThanAsBasicConstraintsF na1 nb1 arg0 arg1 target

/-! ## Worksheet commands -/

def generateComputationNotEquals (arg0 arg1 : Arg Name) (target : Name) : Cmd :=
  .notEqual (.var (.sub target .M)) arg0 arg1 (.var target)

def generateComputationLessI (n : ℕ) (arg0 arg1 : Arg Name) (target : Name) : Cmd :=
  .lessI (fun i => .sub target (.N i)) n (.var (.sub target .Mlt)) (.var (.sub target .Meq))
    (.var (.sub target .Mgt)) arg0 arg1 (.var target)

def generateComputationLessF (na2 nb2 : ℕ) (arg0 arg1 : Arg Name) (target : Name) : Cmd :=
  .lessF (fun i => .sub target (.N i)) na2 (.var (.sub target .Num)) (fun i => .sub target (.D i))
    nb2 (.var (.sub target .Den)) (.var (.sub target .ND)) (.var (.sub target .Mlt))
    (.var (.sub target .Meq)) (.var (.sub target .Mgt)) arg0 arg1 (.var target)

def generateComputationLess (d : Decls) (arg0 arg1 : Arg Name) (target : Name) : Cmd :=
  let (na1, nb1) := getBitsSignedDifference arg0 (toVar d arg0) arg1 (toVar d arg1)
  if nb1 = 0 then generateComputationLessI na1 arg0 arg1 target
  else generateComputationLessF na1 nb1 arg0 arg1 target

/-! ## What the constraints say -/

section
variable {R : Type} [CommRing R] (z : Name → R)

@[simp] theorem eval_lineC (s : Sum Name) : (lineC s).eval z = s.eval z := by simp [lineC]

@[simp] theorem eval_lineAB (x : Arg Name) (s : Sum Name) :
    (lineAB x s).eval z = x.eval z * s.eval z := by simp [lineAB]

@[simp] theorem eval_boolLine (x : Name) : (boolLine x).eval z = z x * (z x - 1) := by
  simp [boolLine]

@[simp] theorem eval_potLine (t : Name) (i : ℕ) :
    (potLine t i).eval z = z (.sub t (.N i)) * (2 ^ i - z (.sub t (.N i))) := by
  simp [potLine]

theorem eval_subBits (s : Sum Name) (bits : ℕ → Name) (k : ℕ) :
    (subBits s bits k).eval z = s.eval z - Residue.bitSum (fun i => z (bits i)) k := by
  induction k with
  | zero => simp [subBits]
  | succ k ih =>
    simp only [subBits, Sum.eval_snoc, ih, Sign.apply, if_true, Arg.eval_term, Arg.eval_var,
      Residue.bitSum_succ]
    ring

@[simp] theorem eval_differenceFromPot (arg0 arg1 : Arg Name) (bits : ℕ → Name) (k : ℕ) :
    (differenceFromPot arg0 arg1 bits k).eval z =
      arg0.eval z - arg1.eval z - Residue.bitSum (fun i => z (bits i)) k + 2 ^ k := by
  simp [differenceFromPot, eval_subBits, Sign.apply]

structure LessWires (n : ℕ) (x y : R) (t : Name) : Prop where
  bits : Residue.WeightedBits (fun i => z (.sub t (.N i))) (n - 1)
  mlt : z (.sub t .Mlt) * (z (.sub t .Mlt) - 1) = 0
  meq : z (.sub t .Meq) * (z (.sub t .Meq) - 1) = 0
  mgt : z (.sub t .Mgt) * (z (.sub t .Mgt) - 1) = 0
  one : z (.sub t .Mlt) + z (.sub t .Meq) + z (.sub t .Mgt) - 1 = 0
  less : z (.sub t .Mlt) *
    (x - y - Residue.bitSum (fun i => z (.sub t (.N i))) (n - 1) + 2 ^ (n - 1)) = 0
  equal : z (.sub t .Meq) * (x - y) = 0
  greater : z (.sub t .Mgt) *
    (y - x - Residue.bitSum (fun i => z (.sub t (.N i))) (n - 1) + 2 ^ (n - 1)) = 0
  output : z (.sub t .Mlt) - z t = 0

variable {z} in
/-- The equations only speak of the operands and the gadget's own variables. -/
theorem LessWires.congr {z' : Name → R} {n : ℕ} {x y : R} {t : Name} (h : LessWires z n x y t)
    (hz : ∀ o, t.Owned o → z' o = z o) : LessWires z' n x y t := by
  have hsub : ∀ s, z' (.sub t s) = z (.sub t s) := fun s => hz _ (.inr ⟨s, rfl⟩)
  have hself : z' t = z t := hz t (.inl rfl)
  obtain ⟨hb, h1, h2, h3, h4, h5, h6, h7, h8⟩ := h
  constructor <;> simp only [hsub, hself] <;> assumption

theorem satisfies_lessThanI (n : ℕ) (arg0 arg1 : Arg Name) (t : Name) :
    Satisfies z (lessThanAsBasicConstraintsI n arg0 arg1 t) ↔
      LessWires z n (arg0.eval z) (arg1.eval z) t := by
  have hpot : Satisfies z ((List.range (n - 1)).map (potLine t)) ↔
      Residue.WeightedBits (fun i => z (.sub t (.N i))) (n - 1) := by
    simp [Satisfies, Residue.WeightedBits]
  simp only [lessThanAsBasicConstraintsI, selectorLines, satisfies_append, satisfies_cons,
    satisfies_nil, hpot, eval_boolLine, eval_lineC, eval_lineAB, eval_differenceFromPot,
    Sum.eval_add, Sum.eval_sub, Sum.eval_sum, Arg.eval_var, Arg.eval_const, Int.cast_one]
  constructor
  · rintro ⟨⟨hb, h1, h2, h3, h4, -⟩, h5, h6, h7, h8, -⟩
    exact ⟨hb, h1, h2, h3, h4, h5, h6, h7, h8⟩
  · rintro ⟨hb, h1, h2, h3, h4, h5, h6, h7, h8⟩
    exact ⟨⟨hb, h1, h2, h3, h4, trivial⟩, h5, h6, h7, h8, trivial⟩

end

/-! ## The integer comparison decides the order -/

def lessValue (R : Type) [Zero R] [One R] (x y : ℤ) : R := if x < y then 1 else 0

def lessWidth (d : Decls) (arg0 arg1 : Arg Name) : ℕ :=
  (getBitsSignedDifference arg0 (toVar d arg0) arg1 (toVar d arg1)).1

section
variable {d : Decls} {arg0 arg1 : Arg Name} (h0 : (toVar d arg0).nb = 0)
  (h1 : (toVar d arg1).nb = 0) (t : Name)
include h0 h1

private theorem signedDifference_snd :
    (getBitsSignedDifference arg0 (toVar d arg0) arg1 (toVar d arg1)).2 = 0 := by
  simp only [getBitsSignedDifference, h0, h1, max_self, if_true]
  split <;> rfl

theorem lessThanAsBasicConstraints_eq : lessThanAsBasicConstraints d arg0 arg1 t =
    lessThanAsBasicConstraintsI (lessWidth d arg0 arg1) arg0 arg1 t := by
  simp only [lessThanAsBasicConstraints, signedDifference_snd h0 h1, if_true, lessWidth]

theorem generateComputationLess_eq : generateComputationLess d arg0 arg1 t =
    generateComputationLessI (lessWidth d arg0 arg1) arg0 arg1 t := by
  simp only [generateComputationLess, signedDifference_snd h0 h1, if_true, lessWidth]

end

/-- The width is enough for the difference of the operands, with `k` more bits if these take `k`
more bits than their types have. -/
theorem abs_sub_le_lessWidth {arg0 arg1 : Arg Name} {d : Decls} (v : Name → ℤ) (k : ℕ)
    (hnb0 : (toVar d arg0).nb = 0) (hnb1 : (toVar d arg1).nb = 0)
    (hx : |2 * arg0.eval v| ≤ 2 ^ ((toVar d arg0).adjustedNa + k))
    (hy : |2 * arg1.eval v| ≤ 2 ^ ((toVar d arg1).adjustedNa + k)) :
    |arg0.eval v - arg1.eval v| ≤ 2 ^ (lessWidth d arg0 arg1 - 1 + k) := by
  generalize hxe : arg0.eval v = x at *
  generalize hye : arg1.eval v = y at *
  set w := max (toVar d arg0).adjustedNa (toVar d arg1).adjustedNa with hw
  have hmono (l : ℕ) (hl : l ≤ w) : (2 : ℤ) ^ (l + k) ≤ 2 ^ (w + k) :=
    pow_le_pow_right₀ (by norm_num) (by omega)
  obtain ⟨hx1, hx2⟩ := abs_le.mp (hx.trans (hmono _ (le_max_left _ _)))
  obtain ⟨hy1, hy2⟩ := abs_le.mp (hy.trans (hmono _ (le_max_right _ _)))
  simp only [lessWidth, getBitsSignedDifference, hnb0, hnb1, max_self, if_true]
  split
  · -- against the literal `0` the difference is the other operand, up to sign
    rename_i hzero
    have hpos : 2 ≤ w := by
      rcases hzero with rfl | rfl
      · exact le_trans (by simp [toVar, VarObj.adjustedNa]) (le_max_left _ _)
      · exact le_trans (by simp [toVar, VarObj.adjustedNa]) (le_max_right _ _)
    have hpow : (2 : ℤ) ^ (w + k) = 2 * 2 ^ (w - 1 + k) := by
      rw [← pow_succ']
      congr 1
      omega
    have hor : x = 0 ∨ y = 0 := by
      rcases hzero with rfl | rfl
      · exact .inl hxe.symm
      · exact .inr hye.symm
    show |x - y| ≤ 2 ^ (w - 1 + k)
    rw [abs_le]
    rcases hor with rfl | rfl <;> constructor <;> linarith
  · show |x - y| ≤ 2 ^ (w + 1 - 1 + k)
    rw [Nat.add_sub_cancel, abs_le]
    constructor <;> linarith

/-- `a` is an operand of an integer gadget, and `v` a value of its declared type if it is a
variable. The width of a constant is computed from its logarithm, and the constant need not fit into
it. -/
structure DeclaredInt (d : Decls) (a : Arg Name) (v : ℤ) : Prop where
  nb : (toVar d a).nb = 0
  inRange : ∀ x, a = .var x → (toVar d a).InRange v

/-- The floating point logarithm is less than one too small. -/
def Decls.LogWithinOne (d : Decls) : Prop := ∀ n, n ≤ 2 ^ (d.ceilLog2 n + 1)

theorem abs_two_mul_le {o : VarObj} {v : ℤ} (h : o.InRange v) : |2 * v| ≤ 2 ^ o.adjustedNa :=
  abs_le.mpr ⟨h.signed.1, h.signed.2.le⟩

theorem DeclaredInt.two_abs_le {d : Decls} {a : Arg Name} {v : Name → ℤ} (hlog : d.LogWithinOne)
    (h : DeclaredInt d a (a.eval v)) : |2 * a.eval v| ≤ 2 ^ ((toVar d a).adjustedNa + 1) := by
  cases a with
  | var x =>
    exact (abs_two_mul_le (h.inRange x rfl)).trans (pow_le_pow_right₀ (by norm_num) (by omega))
  | const c =>
    have hn := hlog (if c < 0 then -c else c + 1).toNat
    have hpow : (2 : ℤ) ^ (d.ceilLog2 (if c < 0 then -c else c + 1).toNat + 1 + 1) =
      2 * ((2 ^ (d.ceilLog2 (if c < 0 then -c else c + 1).toNat + 1) : ℕ) : ℤ) := by
      push_cast
      ring
    by_cases hc : c = 0
    · simp [hc]
    · simp only [Arg.eval_const, toVar, VarObj.adjustedNa, if_neg hc, reduceCtorEq, if_false,
        Int.cast_id, hpow]
      rw [abs_le]
      split_ifs at hn ⊢ <;> omega

section
variable {p : ℕ} [Fact p.Prime] {z : Name → ZMod p} {n : ℕ} {x y : ℤ} {t : Name}

omit [Fact p.Prime] in
private theorem three_lt (hp : 2 ^ (n + 2) < p) : 3 < p := by
  have : 2 ^ 2 ≤ 2 ^ (n + 2) := Nat.pow_le_pow_right (by norm_num) (by omega)
  omega

/-- A selected strict comparison: the shifted difference is a number of `n - 1` bits. -/
private theorem lt_of_window (hp : 2 ^ (n + 2) < p) (hxy : |x - y| ≤ 2 ^ (n - 1)) {b : ℕ → ZMod p}
    (hb : Residue.WeightedBits b (n - 1))
    (h : (x : ZMod p) - y - Residue.bitSum b (n - 1) + 2 ^ (n - 1) = 0) : x < y := by
  obtain ⟨m, hm0, hmn, hsum⟩ := hb.bitSum_eq
  obtain ⟨hlo, hhi⟩ := abs_le.mp hxy
  have hpow : (2 : ℤ) ^ (n - 1) ≤ 2 ^ n := pow_le_pow_right₀ (by norm_num) (by omega)
  have hpz : (4 : ℤ) * 2 ^ n < p := by
    have : (2 : ℤ) ^ (n + 2) < p := by exact_mod_cast hp
    linarith [pow_add (2 : ℤ) n 2]
  have hzero : x - y - m + 2 ^ (n - 1) = 0 := by
    apply Residue.eq_zero_of_cast_eq_zero (p := p)
    · rw [abs_lt]
      constructor <;> linarith
    · rw [hsum] at h
      exact_mod_cast h
  linarith

/-- One of the three selectors is set, and the target is `1` if it is the first. -/
theorem selected (hp : 3 < p) (hmlt : z (.sub t .Mlt) * (z (.sub t .Mlt) - 1) = 0)
    (hmeq : z (.sub t .Meq) * (z (.sub t .Meq) - 1) = 0)
    (hmgt : z (.sub t .Mgt) * (z (.sub t .Mgt) - 1) = 0)
    (hone : z (.sub t .Mlt) + z (.sub t .Meq) + z (.sub t .Mgt) - 1 = 0)
    (hout : z (.sub t .Mlt) - z t = 0) :
    (z (.sub t .Mlt) = 1 ∧ z t = 1) ∨ (z (.sub t .Meq) = 1 ∧ z t = 0) ∨
      (z (.sub t .Mgt) = 1 ∧ z t = 0) := by
  rw [← sub_eq_zero.mp hout]
  rcases Residue.one_hot hp (Residue.bool_of_mul_sub_one hmlt) (Residue.bool_of_mul_sub_one hmeq)
    (Residue.bool_of_mul_sub_one hmgt) hone with ⟨h, -, -⟩ | ⟨h, h', -⟩ | ⟨h, -, h'⟩
  · exact .inl ⟨h, h⟩
  · exact .inr (.inl ⟨h', h⟩)
  · exact .inr (.inr ⟨h', h⟩)

theorem LessWires.output_eq (hp : 2 ^ (n + 2) < p) (hxy : |x - y| ≤ 2 ^ (n - 1))
    (h : LessWires z n (x : ZMod p) (y : ZMod p) t) : z t = lessValue (ZMod p) x y := by
  have hpow : (2 : ℤ) ^ (n - 1) < p := by
    have : 2 ^ (n - 1) ≤ 2 ^ (n + 2) := Nat.pow_le_pow_right (by norm_num) (by omega)
    exact_mod_cast (by omega : 2 ^ (n - 1) < p)
  rcases selected (three_lt hp) h.mlt h.meq h.mgt h.one h.output with
    ⟨hlt, hout⟩ | ⟨heq, hout⟩ | ⟨hgt, hout⟩
  · have h' := h.less
    rw [hlt, one_mul] at h'
    rw [hout, lessValue, if_pos (lt_of_window hp hxy h.bits h')]
  · have h' := h.equal
    rw [heq, one_mul] at h'
    have hxy0 : x = y := Residue.eq_of_cast_eq (lt_of_le_of_lt hxy hpow) (sub_eq_zero.mp h')
    rw [hout, lessValue, if_neg (by omega)]
  · have h' := h.greater
    rw [hgt, one_mul] at h'
    have hyx := lt_of_window hp (abs_sub_comm x y ▸ hxy) h.bits h'
    rw [hout, lessValue, if_neg (by omega)]

/-- The equations only speak of the difference of the operands. -/
theorem LessWires.sub {x y : ZMod p} (h : LessWires z n x y t) : LessWires z n (x - y) 0 t := by
  obtain ⟨hb, h1, h2, h3, h4, h5, h6, h7, h8⟩ := h
  exact ⟨hb, h1, h2, h3, h4, by rwa [sub_zero], by rwa [sub_zero], by rwa [zero_sub, neg_sub], h8⟩

/-- A comparison with `0` bounds its operand. -/
theorem LessWires.exists_int {x : ZMod p} (hp : 3 < p) (h : LessWires z n x 0 t) :
    ∃ m : ℤ, x = (m : ZMod p) ∧ |m| ≤ 2 ^ (n - 1) ∧ z t = lessValue (ZMod p) m 0 := by
  obtain ⟨m, hm0, hmn, hsum⟩ := h.bits.bitSum_eq
  rcases selected hp h.mlt h.meq h.mgt h.one h.output with
    ⟨hlt, hout⟩ | ⟨heq, hout⟩ | ⟨hgt, hout⟩
  · have h' := h.less
    rw [hlt, one_mul, hsum] at h'
    refine ⟨m - 2 ^ (n - 1), ?_, ?_, ?_⟩
    · push_cast
      linear_combination h'
    · rw [abs_le]
      constructor <;> linarith
    · rw [hout, lessValue, if_pos (by linarith)]
  · have h' := h.equal
    rw [heq, one_mul, sub_zero] at h'
    exact ⟨0, by simpa using h', by simp, by simp [hout, lessValue]⟩
  · have h' := h.greater
    rw [hgt, one_mul, hsum] at h'
    refine ⟨2 ^ (n - 1) - m, ?_, ?_, ?_⟩
    · push_cast
      linear_combination -h'
    · rw [abs_le]
      constructor <;> linarith
    · rw [hout, lessValue, if_neg (by linarith)]

/-- The value of the comparison's difference that is split into bits. -/
def lessOffset (n : ℕ) (x y : ℤ) : ℤ := 2 ^ (n - 1) + if y < x then y - x else x - y

/-- An assignment made from the order of the operands satisfies the equations. -/
theorem LessWires.of_values (hxy : |x - y| ≤ 2 ^ (n - 1))
    (hmlt : z (.sub t .Mlt) = lessValue (ZMod p) x y)
    (hmeq : z (.sub t .Meq) = if x = y then 1 else 0)
    (hmgt : z (.sub t .Mgt) = lessValue (ZMod p) y x)
    (hbits : ∀ i < n - 1, z (.sub t (.N i)) = (Residue.bitsOf (lessOffset n x y) i : ZMod p))
    (hout : z t = lessValue (ZMod p) x y) : LessWires z n (x : ZMod p) (y : ZMod p) t := by
  obtain ⟨hlo, hhi⟩ := abs_le.mp hxy
  have hsum (hne : x ≠ y) : Residue.bitSum (fun i => z (.sub t (.N i))) (n - 1) =
      (lessOffset n x y : ZMod p) := by
    rw [Residue.bitSum_congr hbits, Residue.bitSum_bitsOf]
    · unfold lessOffset; split <;> linarith
    · unfold lessOffset; split <;> omega
  have hwb : Residue.WeightedBits (fun i => z (.sub t (.N i))) (n - 1) := by
    intro i hi
    have h := Residue.weightedBits_bitsOf (R := ZMod p) (lessOffset n x y) (n - 1) i hi
    simpa only [hbits i hi] using h
  rcases lt_trichotomy x y with hlt | heq | hgt
  · have hngt : ¬ y < x := by omega
    refine ⟨hwb, ?_, ?_, ?_, ?_, ?_, ?_, ?_, ?_⟩ <;>
      simp [hmlt, hmeq, hmgt, hout, lessValue, hlt, hngt, hlt.ne, hsum hlt.ne, lessOffset]
  · subst heq
    refine ⟨hwb, ?_, ?_, ?_, ?_, ?_, ?_, ?_, ?_⟩ <;> simp [hmlt, hmeq, hmgt, hout, lessValue]
  · have hnlt : ¬ x < y := by omega
    refine ⟨hwb, ?_, ?_, ?_, ?_, ?_, ?_, ?_, ?_⟩ <;>
      simp [hmlt, hmeq, hmgt, hout, lessValue, hgt, hnlt, hgt.ne', hsum hgt.ne', lessOffset]

end

/-! ## What the prover computes -/

section
variable {bits : ℕ → Name} {weight : ℕ → ℤ}

theorem fillBits_vals_of_ne {x : Name} (k i : ℕ) (temp : ℤ) (s : Prover) (hx : ∀ j, x ≠ bits j) :
    (fillBits bits weight k i temp s).vals x = s.vals x := by
  induction k generalizing i temp s with
  | zero => rfl
  | succ k ih => rw [fillBits, ih, Prover.set_var_vals, Function.update_of_ne (hx i)]

theorem fillBits_trueRam (k i : ℕ) (temp : ℤ) (s : Prover) :
    (fillBits bits weight k i temp s).trueRam = s.trueRam := by
  induction k generalizing i temp s with
  | zero => rfl
  | succ k ih => rw [fillBits, ih, Prover.set_trueRam]

/-- Bits below the ones a loop writes keep their values. -/
private theorem fillBits_vals_of_lt (hinj : Function.Injective bits) {j : ℕ} (k i : ℕ) (temp : ℤ)
    (s : Prover) (hj : j < i) :
    (fillBits bits weight k i temp s).vals (bits j) = s.vals (bits j) := by
  induction k generalizing i temp s with
  | zero => rfl
  | succ k ih =>
    rw [fillBits, ih _ _ _ (by omega), Prover.set_var_vals, Function.update_of_ne]
    exact fun h => absurd (hinj h) (by omega)

theorem fillBits_vals (weight : ℕ → ℤ) (hinj : Function.Injective bits) (k i : ℕ) {temp : ℤ}
    (h0 : 0 ≤ temp) (s : Prover) {j : ℕ} (hj : j < k) :
    (fillBits bits weight k i temp s).vals (bits (i + j)) =
      ((temp / 2 ^ j % 2 * weight (i + j) : ℤ) : ℚ) := by
  induction k generalizing i temp s j with
  | zero => omega
  | succ k ih =>
    have hdiv : temp.tdiv 2 = temp / 2 := Int.tdiv_eq_ediv_of_nonneg h0
    have hmod : temp.tmod 2 = temp % 2 := Int.tmod_eq_emod_of_nonneg h0
    cases j with
    | zero =>
      rw [fillBits, fillBits_vals_of_lt hinj _ _ _ _ (by omega), hmod]
      simp
    | succ j =>
      have hstep := ih (i + 1) (show 0 ≤ temp / 2 by omega)
        (s.set (.var (bits i)) ((temp.tmod 2 * weight i : ℤ) : ℚ)) (show j < k by omega)
      rw [fillBits, hdiv, show i + (j + 1) = i + 1 + j by omega, hstep,
        Int.ediv_ediv_of_nonneg (by norm_num), ← pow_succ']

end

/-- The operands as the prover reads them: of two constants the second one is read twice. -/
def operandsRead (arg0 arg1 : Arg Name) (s : Prover) : ℚ × ℚ :=
  match arg0, arg1 with
  | .const _, .const c => (c, c)
  | arg0, arg1 => (arg0.eval s.vals, arg1.eval s.vals)

theorem operandsRead_eq {arg0 arg1 : Arg Name}
    (h : ¬ ∃ c₀ c₁, arg0 = .const c₀ ∧ arg1 = .const c₁ ∧ c₀ ≠ c₁) (s : Prover) :
    operandsRead arg0 arg1 s = (arg0.eval s.vals, arg1.eval s.vals) := by
  cases arg0 with
  | var x => rfl
  | const c₀ =>
    cases arg1 with
    | var y => rfl
    | const c₁ =>
      have : c₀ = c₁ := by
        by_contra hne
        exact h ⟨c₀, c₁, rfl, rfl, hne⟩
      simp [operandsRead, this]

section
variable {arg0 arg1 : Arg Name} {t : Name} (s : Prover)

/-- Writing a gadget's own variables does not change its operands. -/
theorem get_voc_set {a : Arg Name} (ha : a.FreshFor t) (r : Ref) (hr : ∀ x, r ≠ .var x)
    (s' : Prover) {o : Name} (ho : t.Owned o) (v : ℚ) :
    (s'.set (.var o) v).get (voc a r s).1 = s'.get (voc a r s).1 := by
  cases a with
  | const c =>
    cases r with
    | var x => exact absurd rfl (hr x)
    | tempQ => rfl
    | tempQ2 => rfl
  | var x =>
    have hne : x ≠ o := fun h => ha x rfl (h ▸ ho)
    simp [Function.update_of_ne hne]

def selectorVals (t : Name) (x y : ℚ) (vals : Name → ℚ) : Name → ℚ :=
  Function.update (Function.update (Function.update (Function.update vals
    (.sub t .Mlt) (if x < y then 1 else 0)) (.sub t .Meq) (if x = y then 1 else 0))
    (.sub t .Mgt) (if x < y ∨ x = y then 0 else 1)) t (if x < y then 1 else 0)

section
variable (p n : ℕ) (h0 : arg0.FreshFor t) (h1 : arg1.FreshFor t)
include h0 h1

/-- The start of a comparison: the operands are read, and the selectors are set from them, which
leaves the operands as they are. -/
theorem setSelectors_operands {x y : ℚ} (hread : operandsRead arg0 arg1 s = (x, y)) {X1 X2 : Ref}
    {s' s'' : Prover} (hX1 : voc arg0 .tempQ s = (X1, s')) (hX2 : voc arg1 .tempQ s' = (X2, s'')) :
    s''.get X1 = x ∧ s''.get X2 = y ∧
      let s₁ := setSelectors (.var (.sub t .Mlt)) (.var (.sub t .Meq))
        (.var (.sub t .Mgt)) X1 X2 s''
      s₁.get X1 = x ∧ s₁.get X2 = y ∧ s₁.trueRam = s.trueRam ∧
        Function.update s₁.vals t (s₁.vals (.sub t .Mlt)) = selectorVals t x y s.vals := by
  have hvals : s''.vals = s.vals ∧ s''.trueRam = s.trueRam ∧ s''.get X1 = x ∧ s''.get X2 = y := by
    rcases arg0 with c₀ | x₀ <;> rcases arg1 with c₁ | x₁ <;> cases hX1 <;> cases hX2 <;>
      (obtain ⟨rfl, rfl⟩ := Prod.mk.inj hread; simp)
  obtain ⟨hv, hram, hx, hy⟩ := hvals
  have hkeep : ∀ (r : Prover) (o : Name) (v : ℚ), t.Owned o →
      (r.set (.var o) v).get X1 = r.get X1 ∧ (r.set (.var o) v).get X2 = r.get X2 := by
    intro r o v ho
    have hk0 := get_voc_set s h0 .tempQ nofun r ho v
    have hk1 := get_voc_set s' h1 .tempQ nofun r ho v
    rw [hX1] at hk0
    rw [hX2] at hk1
    exact ⟨hk0, hk1⟩
  have howned : ∀ σ, t.Owned (.sub t σ) := fun σ => .inr ⟨σ, rfl⟩
  refine ⟨hx, hy, ?_, ?_, by simp [setSelectors, hram], ?_⟩
  · simp only [setSelectors, (hkeep _ _ _ (howned _)).1, hx]
  · simp only [setSelectors, (hkeep _ _ _ (howned _)).2, hy]
  · simp [setSelectors, hx, hy, hv, selectorVals]

theorem lessI_exec {x y : ℚ} (hread : operandsRead arg0 arg1 s = (x, y)) :
    ∃ s₁ : Prover, (generateComputationLessI n arg0 arg1 t).exec p s =
        fillBits (fun i => .sub t (.N i)) (2 ^ ·) (n - 1) 0
          (2 ^ (n - 1) + (if y < x then y - x else x - y).num) s₁ ∧
      s₁.trueRam = s.trueRam ∧ s₁.vals = selectorVals t x y s.vals := by
  rcases hX1 : voc arg0 .tempQ s with ⟨X1, s'⟩
  rcases hX2 : voc arg1 .tempQ s' with ⟨X2, s''⟩
  obtain ⟨hx, hy, hx', hy', hram, hvals⟩ := setSelectors_operands s h0 h1 hread hX1 hX2
  set s₁ := setSelectors (.var (.sub t .Mlt)) (.var (.sub t .Meq)) (.var (.sub t .Mgt)) X1 X2 s''
    with hs₁
  refine ⟨s₁.set (.var t) (s₁.vals (.sub t .Mlt)), ?_, by simp [hram], by simp [hvals]⟩
  simp only [generateComputationLessI, Cmd.exec, computeLessThanInt, voc_var, hX1, hX2, ← hs₁, hx,
    hy, hx', hy', Prover.get_var]

theorem lessI_exec_vals_of_not_owned {o : Name} (ho : ¬ t.Owned o) :
    ((generateComputationLessI n arg0 arg1 t).exec p s).vals o = s.vals o := by
  obtain ⟨s₁, hexec, -, hvals⟩ := lessI_exec s p n h0 h1 rfl
  simp only [Name.Owned, not_or, not_exists] at ho
  rw [hexec, fillBits_vals_of_ne _ _ _ _ (fun j => ho.2 _), hvals]
  simp [selectorVals, ho.1, ho.2]

theorem lessI_exec_trueRam :
    ((generateComputationLessI n arg0 arg1 t).exec p s).trueRam = s.trueRam := by
  obtain ⟨s₁, hexec, hram, -⟩ := lessI_exec s p n h0 h1 rfl
  rw [hexec, fillBits_trueRam, hram]

/-- The field elements of the selectors and the target, when the operands are read as the integers
`x` and `y`. -/
theorem lessI_exec_selectors {x y : ℤ} (hread : operandsRead arg0 arg1 s = ((x : ℚ), (y : ℚ))) :
    let z := ((generateComputationLessI n arg0 arg1 t).exec p s).witness p
    z (.sub t .Mlt) = lessValue (ZMod p) x y ∧ z (.sub t .Meq) = (if x = y then 1 else 0) ∧
      z (.sub t .Mgt) = lessValue (ZMod p) y x ∧ z t = lessValue (ZMod p) x y := by
  obtain ⟨s₁, hexec, -, hvals⟩ := lessI_exec s p n h0 h1 hread
  have hsel : ∀ o, (∀ j, o ≠ Name.sub t (.N j)) →
      ((generateComputationLessI n arg0 arg1 t).exec p s).vals o = selectorVals t x y s.vals o :=
    fun o ho => by rw [hexec, fillBits_vals_of_ne _ _ _ _ ho, hvals]
  simp only [Prover.witness]
  rw [hsel _ (by simp), hsel _ (by simp), hsel _ (by simp), hsel _ (by simp)]
  rcases lt_trichotomy x y with hlt | rfl | hgt
  · have hngt : ¬ y < x := by omega
    simp [selectorVals, lessValue, hlt, hngt, hlt.ne]
  · simp [selectorVals, lessValue]
  · have hnlt : ¬ x < y := by omega
    simp [selectorVals, lessValue, hgt, hnlt, hgt.ne']

theorem lessI_exec_lessWires {p : ℕ} [Fact p.Prime] {x y : ℤ}
    (hread : operandsRead arg0 arg1 s = ((x : ℚ), (y : ℚ))) (hxy : |x - y| ≤ 2 ^ (n - 1)) :
    LessWires (((generateComputationLessI n arg0 arg1 t).exec p s).witness p) n
      (x : ZMod p) (y : ZMod p) t := by
  obtain ⟨s₁, hexec, -, -⟩ := lessI_exec s p n h0 h1 hread
  have hoff : (2 ^ (n - 1) + (if (y : ℚ) < x then (y : ℚ) - x else x - y).num : ℤ) =
      lessOffset n x y := by
    simp only [lessOffset, Int.cast_lt]
    split <;> rw [← Int.cast_sub, Rat.num_intCast]
  have hnonneg : 0 ≤ lessOffset n x y := by
    obtain ⟨hlo, hhi⟩ := abs_le.mp hxy
    unfold lessOffset
    split <;> linarith
  rw [hoff] at hexec
  obtain ⟨hmlt, hmeq, hmgt, hout⟩ := lessI_exec_selectors s p n h0 h1 hread
  refine LessWires.of_values hxy hmlt hmeq hmgt (fun i hi => ?_) hout
  have hinj : Function.Injective fun i => Name.sub t (.N i) := fun a b hab => by simpa using hab
  have hbit := fillBits_vals (2 ^ ·) hinj (n - 1) 0 hnonneg s₁ hi
  simp only [Nat.zero_add] at hbit
  simp only [Prover.witness]
  rw [hexec, hbit, toField_intCast]
  rfl

end

/-- An operand of a gadget keeps its value while the gadget's variables are computed. -/
theorem eval_witness_toField {a : Arg Name} (p : ℕ) {s s' : Prover} {x : ℚ} (ha : a.FreshFor t)
    (hkeep : ∀ o, ¬ t.Owned o → s'.vals o = s.vals o) (hx : a.eval s.vals = x) :
    a.eval (s'.witness p) = toField p x := by
  cases a with
  | const c =>
    have : (c : ℚ) = x := hx
    rw [← this, toField_intCast, Arg.eval_const]
  | var o =>
    have ho : s.vals o = x := hx
    rw [Arg.eval_var, Prover.witness, hkeep o (ha o rfl), ho]

theorem eval_witness {a : Arg Name} (p : ℕ) {s s' : Prover} {x : ℤ} (ha : a.FreshFor t)
    (hkeep : ∀ o, ¬ t.Owned o → s'.vals o = s.vals o) (hx : a.eval s.vals = (x : ℚ)) :
    a.eval (s'.witness p) = (x : ZMod p) := by
  rw [eval_witness_toField p ha hkeep hx, toField_intCast]

end

/-! ## Soundness and completeness of the integer comparison -/

def lessAux (n : ℕ) (x y : ℤ) : Suffix → ℤ
  | .N i => Residue.bitsOf (lessOffset n x y) i
  | .Mlt => lessValue ℤ x y
  | .Meq => if x = y then 1 else 0
  | .Mgt => lessValue ℤ y x
  | _ => 0

/-- `v` with the variables of a comparison with target `t` filled in. -/
def lessAssignment (n : ℕ) (x y : ℤ) (t : Name) (v : Name → ℤ) (o : Name) : ℤ :=
  if o = t then lessValue ℤ x y else
  match o with
  | .sub b s => if b = t then lessAux n x y s else v o
  | o => v o

@[simp] theorem lessAssignment_self (n : ℕ) (x y : ℤ) (t : Name) (v : Name → ℤ) :
    lessAssignment n x y t v t = lessValue ℤ x y := by simp [lessAssignment]

@[simp] theorem lessAssignment_sub (n : ℕ) (x y : ℤ) (t : Name) (v : Name → ℤ) (s : Suffix) :
    lessAssignment n x y t v (.sub t s) = lessAux n x y s := by simp [lessAssignment]

theorem eval_lessAssignment {a : Arg Name} {t : Name} (ha : a.FreshFor t) (n : ℕ) (x y : ℤ)
    (v : Name → ℤ) (p : ℕ) :
    a.eval (fun o => (lessAssignment n x y t v o : ZMod p)) = ((a.eval v : ℤ) : ZMod p) := by
  cases a with
  | const c => simp
  | var o =>
    obtain ⟨hne, hsub⟩ := Arg.freshFor_var.mp ha
    have : lessAssignment n x y t v o = v o := by
      unfold lessAssignment
      rw [if_neg hne]
      cases o with
      | sub b s => exact if_neg fun (h : b = t) => hsub s (h ▸ rfl)
      | _ => rfl
    simp [this]

theorem lessWires_lessAssignment {p : ℕ} [Fact p.Prime] {n : ℕ} {x y : ℤ} (t : Name) (v : Name → ℤ)
    (hxy : |x - y| ≤ 2 ^ (n - 1)) :
    LessWires (fun o => (lessAssignment n x y t v o : ZMod p)) n (x : ZMod p) (y : ZMod p) t := by
  refine LessWires.of_values hxy ?_ ?_ ?_ ?_ ?_ <;>
    simp [lessAux, lessValue, apply_ite]

section
variable (p : ℕ) (d : Decls) (arg0 arg1 : Arg Name) (t : Name) (v : Name → ℤ)

/-- The constraints can be satisfied with target `τ` exactly when `τ` is the truth value of the
comparison of the operands' values under `v`. -/
def LessExact : Prop :=
  ∀ τ : ZMod p,
    (∃ z : Name → ZMod p, arg0.eval z = ((arg0.eval v : ℤ) : ZMod p) ∧
        arg1.eval z = ((arg1.eval v : ℤ) : ZMod p) ∧ z t = τ ∧
        Satisfies z (lessThanAsBasicConstraints d arg0 arg1 t)) ↔
      τ = if arg0.eval v < arg1.eval v then 1 else 0

/-- The assignment the prover computes satisfies the constraints, whenever the operands have their
values under `v`. -/
def LessComplete : Prop :=
  ∀ s : Prover, arg0.eval s.vals = ((arg0.eval v : ℤ) : ℚ) →
    arg1.eval s.vals = ((arg1.eval v : ℤ) : ℚ) →
    Satisfies (((generateComputationLess d arg0 arg1 t).exec p s).witness p)
      (lessThanAsBasicConstraints d arg0 arg1 t)

def DistinctConstants : Prop := ∃ c₀ c₁, arg0 = .const c₀ ∧ arg1 = .const c₁ ∧ c₀ ≠ c₁

theorem not_distinctConstants_var (x : Name) (c : Arg Name) : ¬ DistinctConstants (.var x) c := by
  rintro ⟨c₀, c₁, h, -⟩
  cases h

variable {p d arg0 arg1 t v} [Fact p.Prime]

section
variable (h0 : (toVar d arg0).nb = 0) (h1 : (toVar d arg1).nb = 0) (hf0 : arg0.FreshFor t)
  (hf1 : arg1.FreshFor t) (hp : 2 ^ (lessWidth d arg0 arg1 + 2) < p)
include h0 h1 hf0 hf1 hp

theorem lessExact_of_le (hxy : |arg0.eval v - arg1.eval v| ≤ 2 ^ (lessWidth d arg0 arg1 - 1)) :
    LessExact p d arg0 arg1 t v := by
  intro τ
  simp only [lessThanAsBasicConstraints_eq h0 h1, satisfies_lessThanI]
  constructor
  · rintro ⟨z, hx, hy, rfl, hsat⟩
    rw [hx, hy] at hsat
    exact hsat.output_eq hp hxy
  · rintro rfl
    let z := lessAssignment (lessWidth d arg0 arg1) (arg0.eval v) (arg1.eval v) t v
    have hx : arg0.eval (fun o => (z o : ZMod p)) = _ := eval_lessAssignment hf0 _ _ _ v p
    have hy : arg1.eval (fun o => (z o : ZMod p)) = _ := eval_lessAssignment hf1 _ _ _ v p
    refine ⟨fun o => z o, hx, hy, by simp [z, lessValue, apply_ite], ?_⟩
    rw [hx, hy]
    exact lessWires_lessAssignment t v hxy

theorem lessComplete_iff (hxy : |arg0.eval v - arg1.eval v| ≤ 2 ^ (lessWidth d arg0 arg1 - 1)) :
    LessComplete p d arg0 arg1 t v ↔ ¬ DistinctConstants arg0 arg1 := by
  simp only [LessComplete, lessThanAsBasicConstraints_eq h0 h1, generateComputationLess_eq h0 h1,
    satisfies_lessThanI]
  set n := lessWidth d arg0 arg1
  constructor
  · rintro hsat ⟨c₀, c₁, rfl, rfl, hne⟩
    -- both operands are read as `c₁`, so the prover selects equality
    let s : Prover := ⟨fun o => v o, 0, 0, fun _ => none⟩
    obtain ⟨-, hmeq, -, -⟩ := lessI_exec_selectors s p n hf0 hf1
      (show operandsRead (.const c₀) (.const c₁) s = ((c₁ : ℚ), (c₁ : ℚ)) from rfl)
    have hequal := (hsat s (by simp) (by simp)).equal
    rw [hmeq, if_pos rfl, one_mul] at hequal
    have hlt : |c₀ - c₁| < p := by
      have h2 : (2 : ℤ) ^ (n - 1) ≤ 2 ^ (n + 2) := pow_le_pow_right₀ (by norm_num) (by omega)
      have h3 : (2 : ℤ) ^ (n + 2) < p := by exact_mod_cast hp
      have h4 : |c₀ - c₁| ≤ 2 ^ (n - 1) := hxy
      linarith
    exact hne (Residue.eq_of_cast_eq hlt (sub_eq_zero.mp hequal))
  · intro hne s hx hy
    have hkeep := fun o (ho : ¬ t.Owned o) => lessI_exec_vals_of_not_owned s p n hf0 hf1 ho
    rw [eval_witness p hf0 hkeep hx, eval_witness p hf1 hkeep hy]
    exact lessI_exec_lessWires s n hf0 hf1 (by rw [operandsRead_eq hne, hx, hy]) hxy

omit hf0 hf1 in
/-- A difference of one bit more than the width has no satisfying assignment. -/
theorem le_of_lessExact (hxy : |arg0.eval v - arg1.eval v| ≤ 2 ^ (lessWidth d arg0 arg1 - 1 + 1))
    (h : LessExact p d arg0 arg1 t v) :
    |arg0.eval v - arg1.eval v| ≤ 2 ^ (lessWidth d arg0 arg1 - 1) := by
  obtain ⟨z, hx, hy, -, hsat⟩ := (h _).mpr rfl
  rw [lessThanAsBasicConstraints_eq h0 h1, satisfies_lessThanI, hx, hy] at hsat
  obtain ⟨m, hm, hle, -⟩ := hsat.sub.exists_int (three_lt hp)
  have heq : arg0.eval v - arg1.eval v = m := by
    refine Residue.eq_of_cast_eq (p := p) ?_ (by exact_mod_cast hm)
    have hpow : (2 : ℤ) ^ (lessWidth d arg0 arg1 - 1 + 2) ≤ 2 ^ (lessWidth d arg0 arg1 + 2) :=
      pow_le_pow_right₀ (by norm_num) (by omega)
    have hpz : (2 : ℤ) ^ (lessWidth d arg0 arg1 + 2) < p := by exact_mod_cast hp
    have htri := abs_sub (arg0.eval v - arg1.eval v) m
    have hpos : (0 : ℤ) < 2 ^ (lessWidth d arg0 arg1 - 1) := by positivity
    rw [pow_succ] at hxy
    rw [pow_add _ _ 2] at hpow
    linarith
  rw [heq]
  exact hle

end

/-- The integer less-than gadget is exact, and the prover completes it, unless it compares two
different constants or the difference of the operands does not fit the width. It fits if the
constants fit the widths computed for them. -/
theorem lessThanInt_exact_and_complete_iff (hlog : d.LogWithinOne)
    (h0 : DeclaredInt d arg0 (arg0.eval v)) (h1 : DeclaredInt d arg1 (arg1.eval v))
    (hf0 : arg0.FreshFor t) (hf1 : arg1.FreshFor t) (hp : 2 ^ (lessWidth d arg0 arg1 + 2) < p) :
    (LessExact p d arg0 arg1 t v ∧ LessComplete p d arg0 arg1 t v ↔ ¬ DistinctConstants arg0 arg1 ∧
      |arg0.eval v - arg1.eval v| ≤ 2 ^ (lessWidth d arg0 arg1 - 1)) ∧
    (IntOperand d arg0 (arg0.eval v) → IntOperand d arg1 (arg1.eval v) →
      |arg0.eval v - arg1.eval v| ≤ 2 ^ (lessWidth d arg0 arg1 - 1)) := by
  refine ⟨⟨fun h => ?_, fun h => ?_⟩, fun hfit0 hfit1 => ?_⟩
  · have hbound := abs_sub_le_lessWidth v 1 h0.nb h1.nb (h0.two_abs_le hlog) (h1.two_abs_le hlog)
    have hxy := le_of_lessExact h0.nb h1.nb hp hbound h.1
    exact ⟨(lessComplete_iff h0.nb h1.nb hf0 hf1 hp hxy).mp h.2, hxy⟩
  · exact ⟨lessExact_of_le h0.nb h1.nb hf0 hf1 hp h.2,
      (lessComplete_iff h0.nb h1.nb hf0 hf1 hp h.2).mpr h.1⟩
  · exact abs_sub_le_lessWidth v 0 h0.nb h1.nb (abs_two_mul_le hfit0.inRange)
      (abs_two_mul_le hfit1.inRange)

end

def intDecls (na : ℕ) : Decls := ⟨fun _ => ⟨.int, na, 0⟩, Nat.clog 2⟩

theorem lessThanInt_neg_two_lt_three :
    LessExact 131 (intDecls 4) (.var (.spec "x")) (.const 3) (.spec "t") (fun _ => -2) ∧
      LessComplete 131 (intDecls 4) (.var (.spec "x")) (.const 3) (.spec "t") (fun _ => -2) := by
  have : Fact (Nat.Prime 131) := ⟨by norm_num⟩
  have hlog : (intDecls 4).LogWithinOne := fun n =>
    (Nat.le_pow_clog (by decide) n).trans (Nat.pow_le_pow_right (by decide) (Nat.le_succ _))
  have h0 : DeclaredInt (intDecls 4) (.var (.spec "x")) (-2) :=
    ⟨rfl, fun _ _ => ⟨by decide, by decide⟩⟩
  have h1 : DeclaredInt (intDecls 4) (.const 3) 3 := ⟨rfl, by simp⟩
  refine (lessThanInt_exact_and_complete_iff hlog h0 h1 (by simp) (by simp) (by decide)).1.mpr
    ⟨?_, by decide⟩
  rintro ⟨c₀, c₁, h, -⟩
  cases h

/-- For `1 < 2 - T` the prover computes an assignment that the constraints reject. -/
theorem lessThanInt_one_lt_two_rejected :
    IntOperand (intDecls 4) (.const 1) 1 ∧ IntOperand (intDecls 4) (.const 2) 2 ∧
      2 ^ (lessWidth (intDecls 4) (.const 1) (.const 2) + 2) < 67 ∧
      ¬ LessComplete 67 (intDecls 4) (.const 1) (.const 2) (.spec "t") (fun _ => 0) := by
  have : Fact (Nat.Prime 67) := ⟨by norm_num⟩
  have hp : 2 ^ (lessWidth (intDecls 4) (.const 1) (.const 2) + 2) < 67 := by decide
  refine ⟨⟨rfl, by decide, by decide⟩, ⟨rfl, by decide, by decide⟩, hp, fun hcomplete => ?_⟩
  exact (lessComplete_iff rfl rfl (by simp) (by simp) hp (by decide)).mp hcomplete
    ⟨1, 2, rfl, rfl, by decide⟩

/-! ## The not-equal gadget -/

section
variable {R : Type} [CommRing R] (z : Name → R)

structure NotEqualWires (x y : R) (t : Name) : Prop where
  inverse : z (.sub t .M) * (x - y) + -z t = 0
  output : z t * (x - y) + (-x + y) = 0

theorem satisfies_notEqual (arg0 arg1 : Arg Name) (t : Name) :
    Satisfies z (notEqualAsBasicConstraints arg0 arg1 t) ↔
      NotEqualWires z (arg0.eval z) (arg1.eval z) t := by
  simp only [notEqualAsBasicConstraints, satisfies_cons, satisfies_nil, Line.eval_mk,
    Poly.eval_some, Sum.eval_sum, Sum.eval_sub, Sum.eval_add, Sum.eval_negSum, Arg.eval_var]
  constructor
  · rintro ⟨h1, h2, -⟩
    exact ⟨h1, h2⟩
  · rintro ⟨h1, h2⟩
    exact ⟨h1, h2, trivial⟩

variable {z}

theorem NotEqualWires.congr {z' : Name → R} {x y : R} {t : Name} (h : NotEqualWires z x y t)
    (hz : ∀ o, t.Owned o → z' o = z o) : NotEqualWires z' x y t := by
  have hM : z' (.sub t .M) = z (.sub t .M) := hz _ (.inr ⟨_, rfl⟩)
  have hself : z' t = z t := hz t (.inl rfl)
  obtain ⟨h1, h2⟩ := h
  constructor <;> simp only [hM, hself] <;> assumption

theorem NotEqualWires.output_eq [IsDomain R] [DecidableEq R] {x y : R} {t : Name}
    (h : NotEqualWires z x y t) : z t = if x = y then 0 else 1 := by
  by_cases hxy : x = y
  · have h' := h.inverse
    rw [hxy, sub_self, mul_zero, zero_add, neg_eq_zero] at h'
    rw [if_pos hxy, h']
  · have hmul : (z t - 1) * (x - y) = 0 := by linear_combination h.output
    rcases mul_eq_zero.mp hmul with h' | h'
    · rw [if_neg hxy, sub_eq_zero.mp h']
    · exact absurd (sub_eq_zero.mp h') hxy

end

section
variable {arg0 arg1 : Arg Name} {t : Name} (s : Prover) (p : ℕ) (h0 : arg0.FreshFor t)
  (h1 : arg1.FreshFor t)
include h0 h1

theorem notEqual_exec {x y : ℚ} (hx : arg0.eval s.vals = x) (hy : arg1.eval s.vals = y) :
    let s' := (generateComputationNotEquals arg0 arg1 t).exec p s
    s'.trueRam = s.trueRam ∧ s'.vals = Function.update (Function.update s.vals
      (.sub t .M) (if x = y then 0 else invertNum p (x - y))) t (if x = y then 0 else 1) := by
  by_cases hxy : x = y <;> rcases arg0 with c₀ | x₀ <;> rcases arg1 with c₁ | x₁ <;>
    simp_all [generateComputationNotEquals, Cmd.exec, computeNotEqual]

theorem notEqual_exec_vals_of_not_owned {o : Name} (ho : ¬ t.Owned o) :
    ((generateComputationNotEquals arg0 arg1 t).exec p s).vals o = s.vals o := by
  simp only [Name.Owned, not_or, not_exists] at ho
  rw [(notEqual_exec s p h0 h1 rfl rfl).2, Function.update_of_ne ho.1,
    Function.update_of_ne (ho.2 _)]

theorem notEqual_exec_notEqualWires {p : ℕ} [Fact p.Prime] {x y : ℤ} (hx : arg0.eval s.vals = x)
    (hy : arg1.eval s.vals = y) (hxy : |x - y| < p) :
    NotEqualWires (((generateComputationNotEquals arg0 arg1 t).exec p s).witness p)
      (x : ZMod p) (y : ZMod p) t := by
  obtain ⟨-, hvals⟩ := notEqual_exec s p h0 h1 hx hy
  by_cases heq : x = y
  · subst heq
    constructor <;> simp [Prover.witness, hvals]
  · have hne : (x : ZMod p) - y ≠ 0 := by
      have h := Residue.cast_ne_zero hxy (sub_ne_zero.mpr heq)
      simpa using h
    have hinv : toField p (invertNum p ((x : ℚ) - y)) = ((x : ZMod p) - y)⁻¹ := by
      have hnum : ((x : ℚ) - y) = ((x - y : ℤ) : ℚ) := by simp
      rw [hnum, invertNum, Rat.num_intCast, Rat.den_intCast, Nat.mul_one]
      have h := toField_intCast p (((x - y : ℤ) : ZMod p)⁻¹.val : ℤ)
      simpa using h
    constructor
    · simp [Prover.witness, hvals, heq, hinv, hne]
    · simp [Prover.witness, hvals, heq]

end

end Pequin
