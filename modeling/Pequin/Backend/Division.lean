import Pequin.Backend.Spec

/-!
# The division gadget

A line `a / b - T` or `a % b - T` is expanded into comparisons of the quotient `Q`, the remainder
`R`, their absolute values and the operands, and into the equation `b * Q + R = a`. The prover
computes `Q` and `R` first, and leaves both `0` when `b` is `0`.
-/

namespace Pequin

inductive DivOp where
  | quotient
  | remainder
  deriving DecidableEq, Repr

def DivOp.apply : DivOp → ℤ → ℤ → ℤ
  | .quotient, a, b => a.tdiv b
  | .remainder, a, b => a.tmod b

/-! ## Generators -/

/-- A new variable `t$name`, signed and as wide as `template` needs. -/
def pnType (t : Name) (name : Suffix) (template : Arg Name) (d : Decls) : Decls :=
  { d with
    varObj := Function.update d.varObj (.sub t name) ⟨.int, (toVar d template).adjustedNa, 0⟩ }

/-- The declarations after the worksheet of a division was generated. -/
def divideDecls (d : Decls) (arg0 arg1 : Arg Name) (t : Name) : Decls :=
  pnType t .Absb arg1 (pnType t .Absr (.var (.sub t .R)) (pnType t .R arg1 (pnType t .Q arg0 d)))

def minusTwice (a : Arg Name) : Term Name :=
  match a with
  | .var x => .var [⟨-2, by decide⟩] x []
  | .const c => if h : c = 0 then .zero else .const ⟨-2, by decide⟩ [⟨c, h⟩]

/-- The lines that are both constrained and computed. -/
def divisionLines (a b : Arg Name) (t : Name) : List SpecLine :=
  let q : Arg Name := .var (.sub t .Q)
  let r : Arg Name := .var (.sub t .R)
  let rless0 : Arg Name := .var (.sub t .Rless0)
  let bless0 : Arg Name := .var (.sub t .Bless0)
  let bnon0 : Arg Name := .var (.sub t .Bnon0)
  [.notEqual b (.const 0) (.sub t .Bnon0),
   .less r (.const 0) (.sub t .Rless0),
   .notEqual r (.const 0) (.sub t .Rnon0),
   .less b (.const 0) (.sub t .Bless0),
   .less a (.const 0) (.sub t .Aless0),
   .less q (.const 0) (.sub t .Qless0),
   .poly (some rless0.sum) (some (.first none (minusTwice r))) (some r.sum) (.sub t .Absr),
   .poly (some bless0.sum) (some (.first none (minusTwice b))) (some b.sum) (.sub t .Absb),
   .less (.var (.sub t .Absr)) (.var (.sub t .Absb)) (.sub t .Absrlessabsb),
   .poly (some bnon0.sum) (some a.sum) none (.sub t .ATBnon0)]

/-- The variable that holds the result: `q` or `r`. -/
def DivOp.wire (op : DivOp) (t : Name) : Name :=
  match op with
  | .quotient => .sub t .Q
  | .remainder => .sub t .R

/-- `( ) * ( ) + ( q - target )`, or the same with `r`. -/
def divisionOutput (op : DivOp) (t : Name) : SpecLine :=
  .poly none none (some (Arg.var (op.wire t)).sum) t

/-- The lines that are only constrained. -/
def divisionChecks (b : Arg Name) (t : Name) : List (Line Name) :=
  [⟨some b.sum, some (Arg.var (.sub t .Q)).sum,
      some ((Arg.var (.sub t .R)).sum.sub (.var (.sub t .ATBnon0)))⟩,
   lineAB (.var (.sub t .Bnon0)) ((Arg.const 1).sum.sub (.var (.sub t .Absrlessabsb))),
   lineAB (.var (.sub t .Rnon0)) ((Arg.var (.sub t .Rless0)).sum.sub (.var (.sub t .Aless0)))]

/-- `none` is the exception for rational operands. -/
def divisionAsBasicConstraints (d : Decls) (a : Arg Name) (op : DivOp) (b : Arg Name) (t : Name) :
    Option (List (Line Name)) :=
  if (toVar d a).nb ≠ 0 ∨ (toVar d b).nb ≠ 0 then none
  else some (toBasicConstraintsLines d (divisionLines a b t) ++ divisionChecks b t ++
    (divisionOutput op t).toBasicConstraints d)

def generateComputationDivide (d : Decls) (a : Arg Name) (op : DivOp) (b : Arg Name) (t : Name) :
    Option (List Cmd) := do
  if (toVar d a).nb ≠ 0 ∨ (toVar d b).nb ≠ 0 then none
  let d := divideDecls d a b t
  let lines ← generateComputationLines d (divisionLines a b t)
  let output ← (divisionOutput op t).generateComputationLine d
  return [.divideI (.var (.sub t .Q)) a b, .modI (.var (.sub t .R)) a b] ++ lines ++ output

/-! ## Widths -/

section
variable (d : Decls) (a b : Arg Name) (t : Name)

/-- The widths of the nested comparisons. -/
def divisionLessWidths : List ℕ :=
  (divisionLines a b t).filterMap fun
    | .less arg0 arg1 _ => some (lessWidth (divideDecls d a b t) arg0 arg1)
    | _ => none

def LargeForLess (p : ℕ) : Prop := ∀ w ∈ divisionLessWidths d a b t, 2 ^ (w + 2) < p

def LargeForProduct (p : ℕ) : Prop :=
  2 ^ ((toVar d a).adjustedNa + (toVar d b).adjustedNa) < p

variable {d a b t}

theorem pnType_varObj_self (name : Suffix) (template : Arg Name) :
    (pnType t name template d).varObj (.sub t name) = ⟨.int, (toVar d template).adjustedNa, 0⟩ := by
  simp [pnType]

theorem pnType_varObj_of_ne {name name' : Suffix} (template : Arg Name) (h : name' ≠ name) :
    (pnType t name template d).varObj (.sub t name') = d.varObj (.sub t name') := by
  simp [pnType, h]

theorem toVar_pnType {c : Arg Name} (hc : c.Outside t) (name : Suffix) (template : Arg Name) :
    toVar (pnType t name template d) c = toVar d c := by
  cases c with
  | const k => rfl
  | var x =>
    have hne : x ≠ .sub t name := fun h => hc x rfl (h ▸ Name.below_sub (Name.below_self t))
    simp [pnType, toVar, hne]

theorem toVar_divideDecls {c : Arg Name} (hc : c.Outside t) :
    toVar (divideDecls d a b t) c = toVar d c := by
  simp only [divideDecls, toVar_pnType hc]

/-- The variables the generator declares are signed and as wide as the operands. -/
theorem varObj_divideDecls (hb : b.Outside t) :
    let d' := divideDecls d a b t
    d'.varObj (.sub t .Q) = ⟨.int, (toVar d a).adjustedNa, 0⟩ ∧
      d'.varObj (.sub t .R) = ⟨.int, (toVar d b).adjustedNa, 0⟩ ∧
      d'.varObj (.sub t .Absr) = ⟨.int, (toVar d b).adjustedNa, 0⟩ ∧
      d'.varObj (.sub t .Absb) = ⟨.int, (toVar d b).adjustedNa, 0⟩ := by
  have hR : (pnType t .R b (pnType t .Q a d)).varObj (.sub t .R) =
      ⟨.int, (toVar d b).adjustedNa, 0⟩ := by
    rw [pnType_varObj_self, toVar_pnType hb]
  refine ⟨?_, ?_, ?_, ?_⟩
  · simp only [divideDecls, pnType_varObj_of_ne _ (show Suffix.Q ≠ .Absb by decide),
      pnType_varObj_of_ne _ (show Suffix.Q ≠ .Absr by decide),
      pnType_varObj_of_ne _ (show Suffix.Q ≠ .R by decide), pnType_varObj_self]
  · simp only [divideDecls, pnType_varObj_of_ne _ (show Suffix.R ≠ .Absb by decide),
      pnType_varObj_of_ne _ (show Suffix.R ≠ .Absr by decide), hR]
  · simp only [divideDecls, pnType_varObj_of_ne _ (show Suffix.Absr ≠ .Absb by decide),
      pnType_varObj_self, toVar_var, hR]
    rfl
  · simp only [divideDecls, pnType_varObj_self, toVar_pnType hb]

/-- The widths of the nested comparisons: with the literal `0`, and of the absolute values. -/
theorem lessWidth_divideDecls (ha : a.Outside t) (hb : b.Outside t) (hna : (toVar d a).nb = 0)
    (hnb : (toVar d b).nb = 0) :
    let d' := divideDecls d a b t
    let wa := (toVar d a).adjustedNa
    let wb := (toVar d b).adjustedNa
    lessWidth d' a (.const 0) = max wa 2 ∧ lessWidth d' b (.const 0) = max wb 2 ∧
      lessWidth d' (.var (.sub t .Q)) (.const 0) = max wa 2 ∧
      lessWidth d' (.var (.sub t .R)) (.const 0) = max wb 2 ∧
      lessWidth d' (.var (.sub t .Absr)) (.var (.sub t .Absb)) = wb + 1 := by
  obtain ⟨hQ, hR, hAr, hAb⟩ := varObj_divideDecls (d := d) (a := a) hb
  have h0 : ∀ d : Decls, toVar d (.const 0) = ⟨.int, 2, 0⟩ := fun _ => rfl
  refine ⟨?_, ?_, ?_, ?_, ?_⟩
  · simp [lessWidth, getBitsSignedDifference, toVar_divideDecls ha, h0, hna, VarObj.adjustedNa]
  · simp [lessWidth, getBitsSignedDifference, toVar_divideDecls hb, h0, hnb, VarObj.adjustedNa]
  · simp [lessWidth, getBitsSignedDifference, hQ, h0, VarObj.adjustedNa]
  · simp [lessWidth, getBitsSignedDifference, hR, h0, VarObj.adjustedNa]
  · simp [lessWidth, getBitsSignedDifference, hAr, hAb, VarObj.adjustedNa]

end

/-! ## Soundness -/

@[simp] theorem eval_minusTwice {R : Type} [CommRing R] (z : Name → R) (a : Arg Name) :
    (minusTwice a).eval z = -2 * a.eval z := by
  cases a with
  | var x => simp [minusTwice, Term.eval]
  | const c => by_cases h : c = 0 <;> simp [minusTwice, h, Term.eval]

structure DivisionWires {R : Type} [CommRing R] (z : Name → R) (d : Decls) (a b : Arg Name)
    (op : DivOp) (t : Name) (x y : R) : Prop where
  bnon0 : NotEqualWires z y 0 (.sub t .Bnon0)
  rless0 : LessWires z (lessWidth d (.var (.sub t .R)) (.const 0)) (z (.sub t .R)) 0
    (.sub t .Rless0)
  rnon0 : NotEqualWires z (z (.sub t .R)) 0 (.sub t .Rnon0)
  bless0 : LessWires z (lessWidth d b (.const 0)) y 0 (.sub t .Bless0)
  aless0 : LessWires z (lessWidth d a (.const 0)) x 0 (.sub t .Aless0)
  qless0 : LessWires z (lessWidth d (.var (.sub t .Q)) (.const 0)) (z (.sub t .Q)) 0
    (.sub t .Qless0)
  absr : z (.sub t .Rless0) * (-2 * z (.sub t .R)) + (z (.sub t .R) - z (.sub t .Absr)) = 0
  absb : z (.sub t .Bless0) * (-2 * y) + (y - z (.sub t .Absb)) = 0
  absLess : LessWires z (lessWidth d (.var (.sub t .Absr)) (.var (.sub t .Absb)))
    (z (.sub t .Absr)) (z (.sub t .Absb)) (.sub t .Absrlessabsb)
  atbnon0 : z (.sub t .Bnon0) * x + (0 - z (.sub t .ATBnon0)) = 0
  equation : y * z (.sub t .Q) + (z (.sub t .R) - z (.sub t .ATBnon0)) = 0
  bound : z (.sub t .Bnon0) * (1 - z (.sub t .Absrlessabsb)) = 0
  sign : z (.sub t .Rnon0) * (z (.sub t .Rless0) - z (.sub t .Aless0)) = 0
  output : z (op.wire t) - z t = 0

section
variable {d : Decls} {a b : Arg Name} {op : DivOp} {t : Name}

theorem divisionAsBasicConstraints_eq (ha : a.Outside t) (hb : b.Outside t)
    (hna : (toVar d a).nb = 0) (hnb : (toVar d b).nb = 0) :
    divisionAsBasicConstraints (divideDecls d a b t) a op b t =
      some (toBasicConstraintsLines (divideDecls d a b t) (divisionLines a b t) ++
        divisionChecks b t ++ (divisionOutput op t).toBasicConstraints (divideDecls d a b t)) := by
  simp [divisionAsBasicConstraints, toVar_divideDecls ha, toVar_divideDecls hb, hna, hnb]

theorem satisfies_division {R : Type} [CommRing R] (z : Name → R) (ha : a.Outside t)
    (hb : b.Outside t) (hna : (toVar d a).nb = 0) (hnb : (toVar d b).nb = 0) :
    Satisfies z (toBasicConstraintsLines (divideDecls d a b t) (divisionLines a b t) ++
        divisionChecks b t ++ (divisionOutput op t).toBasicConstraints (divideDecls d a b t)) ↔
      DivisionWires z (divideDecls d a b t) a b op t (a.eval z) (b.eval z) := by
  obtain ⟨hQ, hR, hAr, hAb⟩ := varObj_divideDecls (d := d) (a := a) hb
  have h0 : (toVar (divideDecls d a b t) (.const 0)).nb = 0 := rfl
  have hQ0 : (toVar (divideDecls d a b t) (.var (.sub t .Q))).nb = 0 := by rw [toVar_var, hQ]
  have hR0 : (toVar (divideDecls d a b t) (.var (.sub t .R))).nb = 0 := by rw [toVar_var, hR]
  have hAr0 : (toVar (divideDecls d a b t) (.var (.sub t .Absr))).nb = 0 := by rw [toVar_var, hAr]
  have hAb0 : (toVar (divideDecls d a b t) (.var (.sub t .Absb))).nb = 0 := by rw [toVar_var, hAb]
  have ha0 : (toVar (divideDecls d a b t) a).nb = 0 := by rw [toVar_divideDecls ha, hna]
  have hb0 : (toVar (divideDecls d a b t) b).nb = 0 := by rw [toVar_divideDecls hb, hnb]
  simp only [toBasicConstraintsLines, divisionLines, divisionOutput, List.flatMap_cons,
    List.flatMap_nil,
    List.append_nil, SpecLine.toBasicConstraints, satisfies_append, satisfies_notEqual,
    lessThanAsBasicConstraints_eq hR0 h0, lessThanAsBasicConstraints_eq hb0 h0,
    lessThanAsBasicConstraints_eq ha0 h0, lessThanAsBasicConstraints_eq hQ0 h0,
    lessThanAsBasicConstraints_eq hAr0 hAb0, satisfies_lessThanI, satisfies_cons, satisfies_nil,
    divisionChecks, Line.eval_mk, Poly.eval_some, Poly.eval_none, Poly.eval_minus, Sum.eval_sum,
    Sum.eval_sub, Sum.eval, eval_minusTwice, eval_lineAB, Arg.eval_var, Arg.eval_const,
    Int.cast_zero, Int.cast_one, and_true, mul_zero, zero_add]
  constructor
  · rintro ⟨⟨⟨h1, h2, h3, h4, h5, h6, h7, h8, h9, h10⟩, h11, h12, h13⟩, h14⟩
    exact ⟨h1, h2, h3, h4, h5, h6, h7, h8, h9, h10, h11, h12, h13, h14⟩
  · rintro ⟨h1, h2, h3, h4, h5, h6, h7, h8, h9, h10, h11, h12, h13, h14⟩
    exact ⟨⟨⟨h1, h2, h3, h4, h5, h6, h7, h8, h9, h10⟩, h11, h12, h13⟩, h14⟩

end

/-- Quotient and remainder are determined by the equation, the bound and the sign. -/
theorem tdiv_tmod_of_eq {α β q r : ℤ} (hβ : β ≠ 0) (heq : β * q + r = α) (hr : |r| < |β|)
    (hsign : r ≠ 0 → (r < 0 ↔ α < 0)) : α.tdiv β = q ∧ α.tmod β = r := by
  have hnat : |β| = (β.natAbs : ℤ) := Int.abs_eq_natAbs β
  obtain ⟨hlo, hhi⟩ := abs_lt.mp hr
  rcases lt_or_ge α 0 with hα | hα
  · refine (Int.tdiv_tmod_unique' hα.le hβ).mpr ⟨by linarith, by linarith, ?_⟩
    by_contra hpos
    have := (hsign (by omega)).mpr hα
    omega
  · refine (Int.tdiv_tmod_unique hα hβ).mpr ⟨by linarith, ?_, by linarith⟩
    by_contra hneg
    have := (hsign (by omega)).mp (by omega)
    omega

section
variable {p : ℕ} {d : Decls} {a b : Arg Name} {op : DivOp} {t : Name} {α β : ℤ}

theorem largeForLess_iff (ha : a.Outside t) (hb : b.Outside t) (hna : (toVar d a).nb = 0)
    (hnb : (toVar d b).nb = 0) :
    LargeForLess d a b t p ↔ 2 ^ (max (toVar d a).adjustedNa 2 + 2) < p ∧
      2 ^ (max (toVar d b).adjustedNa 2 + 2) < p ∧ 2 ^ ((toVar d b).adjustedNa + 1 + 2) < p := by
  obtain ⟨hwa, hwb, hwq, hwr, habs⟩ := lessWidth_divideDecls ha hb hna hnb
  simp only [LargeForLess, divisionLessWidths, divisionLines, List.filterMap_cons,
    List.filterMap_nil, List.forall_mem_cons, hwa, hwb, hwq, hwr, habs]
  tauto

theorem lessValue_eq_one_iff [Fact p.Prime] {x y : ℤ} : lessValue (ZMod p) x y = 1 ↔ x < y := by
  unfold lessValue
  split <;> simp_all

/-- The absolute value that is computed with the sign bit. -/
private theorem abs_of_less {x s r : ZMod p} {m : ℤ} (hx : x = (m : ZMod p))
    (hs : s = lessValue (ZMod p) m 0) (h : s * (-2 * x) + (x - r) = 0) :
    r = ((|m| : ℤ) : ZMod p) := by
  have hr : r = s * (-2 * x) + x := by linear_combination -h
  rw [hr, hs, hx, lessValue]
  split
  · rename_i hneg
    rw [abs_of_neg hneg]
    push_cast
    ring
  · rename_i hneg
    rw [abs_of_nonneg (not_lt.mp hneg)]
    ring

/-- Nothing wraps around in the division equation. -/
private theorem abs_equation_lt {wa wb : ℕ} {q r : ℤ} (hwb : 1 ≤ wb) (hα : 2 * |α| ≤ 2 ^ wa)
    (hβ : 2 * |β| ≤ 2 ^ wb) (hq : |q| ≤ 2 ^ (max wa 2 - 1)) (hr : |r| < |β|)
    (hprod : 2 ^ (wa + wb) < p) (hless : 2 ^ (wb + 1 + 2) < p) :
    |β * q + r - α| < p := by
  have hA : (1 : ℤ) ≤ 2 ^ wa := one_le_pow₀ (by norm_num)
  have hB : (2 : ℤ) ≤ 2 ^ wb := by
    calc (2 : ℤ) = 2 ^ 1 := by norm_num
      _ ≤ 2 ^ wb := pow_le_pow_right₀ (by norm_num) hwb
  have hprod' : (2 : ℤ) ^ wa * 2 ^ wb < p := by
    rw [← pow_add]
    exact_mod_cast hprod
  have hless' : (2 : ℤ) ^ wb * 8 < p := by
    have : (2 : ℤ) ^ (wb + 1 + 2) < p := by exact_mod_cast hless
    calc (2 : ℤ) ^ wb * 8 = 2 ^ (wb + 1 + 2) := by ring
      _ < p := this
  have htri : |β * q + r - α| ≤ |β| * |q| + |r| + |α| := by
    calc |β * q + r - α| ≤ |β * q + r| + |α| := abs_sub _ _
      _ ≤ |β * q| + |r| + |α| := by gcongr; exact abs_add_le _ _
      _ = |β| * |q| + |r| + |α| := by rw [abs_mul]
  have hβ0 := abs_nonneg β
  rcases lt_or_ge wa 2 with hwa | hwa
  · have hq2 : |q| ≤ 2 := by simpa [max_eq_right hwa.le] using hq
    have hA2 : (2 : ℤ) ^ wa ≤ 2 := by
      calc (2 : ℤ) ^ wa ≤ 2 ^ 1 := pow_le_pow_right₀ (by norm_num) (by omega)
        _ = 2 := by norm_num
    nlinarith
  · have hq2 : 2 * |q| ≤ 2 ^ wa := by
      have hpow : (2 : ℤ) ^ wa = 2 * 2 ^ (wa - 1) := by
        rw [← pow_succ', Nat.sub_add_cancel (by omega)]
      rw [max_eq_left hwa] at hq
      linarith
    have hA4 : (4 : ℤ) ≤ 2 ^ wa := by
      calc (4 : ℤ) = 2 ^ 2 := by norm_num
        _ ≤ 2 ^ wa := pow_le_pow_right₀ (by norm_num) hwa
    have hmul : (2 * |β|) * (2 * |q|) ≤ 2 ^ wb * 2 ^ wa :=
      mul_le_mul hβ hq2 (by positivity) (by positivity)
    nlinarith

theorem IntOperand.two_abs_le {c : Arg Name} {x : ℤ} (h : IntOperand d c x) :
    2 * |x| ≤ 2 ^ (toVar d c).adjustedNa := by
  obtain ⟨h1, h2⟩ := h.inRange.signed
  have := abs_le.mpr ⟨h1, h2.le⟩
  rwa [abs_mul, abs_two] at this

/-- A comparison with the literal `0` has a width of at least two. -/
theorem abs_le_of_two_abs_le {w : ℕ} {x : ℤ} (h : 2 * |x| ≤ 2 ^ w) : |x| ≤ 2 ^ (max w 2 - 1) := by
  have hpow : (2 : ℤ) ^ (max w 2) = 2 * 2 ^ (max w 2 - 1) := by
    rw [← pow_succ', Nat.sub_add_cancel (by omega)]
  have hmono : (2 : ℤ) ^ w ≤ 2 ^ (max w 2) := pow_le_pow_right₀ (by norm_num) (le_max_left _ _)
  linarith

/-- With a nonzero divisor the target is the C result. -/
theorem DivisionWires.output_eq [Fact p.Prime] {z : Name → ZMod p} (ha : a.Outside t)
    (hb : b.Outside t) (hα : IntOperand d a α) (hβ : IntOperand d b β)
    (hless : LargeForLess d a b t p) (hprod : LargeForProduct d a b p) (hβ0 : β ≠ 0)
    (h : DivisionWires z (divideDecls d a b t) a b op t (α : ZMod p) (β : ZMod p)) :
    z t = (op.apply α β : ZMod p) := by
  obtain ⟨hwa, hwb, hwq, hwr, habs⟩ := lessWidth_divideDecls ha hb hα.nb hβ.nb
  obtain ⟨hpa, hpb, hpabs⟩ := (largeForLess_iff ha hb hα.nb hβ.nb).mp hless
  have hα2 := hα.two_abs_le
  have hβ2 := hβ.two_abs_le
  set wa := (toVar d a).adjustedNa
  set wb := (toVar d b).adjustedNa with hwbdef
  obtain ⟨h1, h2, h3, h4, h5, h6, h7, h8, h9, h10, h11, h12, h13, h14⟩ := h
  rw [hwr] at h2
  rw [hwb] at h4
  rw [hwa] at h5
  rw [hwq] at h6
  rw [habs] at h9
  have hp3 : 3 < p := by
    have : 2 ^ 2 ≤ 2 ^ (wb + 1 + 2) := Nat.pow_le_pow_right (by norm_num) (by omega)
    omega
  have hwb1 : 1 ≤ wb := by
    by_contra hw
    have hw0 : wb = 0 := by omega
    rw [hw0] at hβ2
    have := abs_pos.mpr hβ0
    omega
  have hpβ : |β| < p := by
    have : (2 : ℤ) ^ wb < p := by
      have : 2 ^ wb ≤ 2 ^ (wb + 1 + 2) := Nat.pow_le_pow_right (by norm_num) (by omega)
      exact_mod_cast (by omega : 2 ^ wb < p)
    linarith [abs_nonneg β]
  -- quotient and remainder are small integers
  obtain ⟨r, hr, hrw, hrless⟩ := h2.exists_int hp3
  obtain ⟨q, hq, hqw, -⟩ := h6.exists_int hp3
  have hbless : z (.sub t .Bless0) = lessValue (ZMod p) β 0 :=
    LessWires.output_eq hpb (by simpa using abs_le_of_two_abs_le hβ2) (by simpa using h4)
  have haless : z (.sub t .Aless0) = lessValue (ZMod p) α 0 :=
    LessWires.output_eq hpa (by simpa using abs_le_of_two_abs_le hα2) (by simpa using h5)
  have hbnon : z (.sub t .Bnon0) = 1 := by
    rw [h1.output_eq, if_neg (Residue.cast_ne_zero hpβ hβ0)]
  have hAr : z (.sub t .Absr) = ((|r| : ℤ) : ZMod p) := abs_of_less hr hrless h7
  have hAb : z (.sub t .Absb) = ((|β| : ℤ) : ZMod p) := abs_of_less rfl hbless h8
  have hrβ : |r| < |β| := by
    have hout := h12
    rw [hbnon, one_mul, sub_eq_zero] at hout
    have hwidth : |(|r|) - (|β|)| ≤ 2 ^ (wb + 1 - 1) := by
      have hmono : (2 : ℤ) ^ (max wb 2 - 1) ≤ 2 ^ (wb + 1 - 1) :=
        pow_le_pow_right₀ (by norm_num) (by omega)
      rw [Nat.add_sub_cancel] at hmono ⊢
      rw [abs_le]
      constructor <;> linarith [abs_nonneg r, abs_nonneg β]
    rw [hAr, hAb] at h9
    rw [LessWires.output_eq hpabs hwidth h9] at hout
    exact lessValue_eq_one_iff.mp hout.symm
  have hpr : |r| < p := hrβ.trans hpβ
  have heq : β * q + r = α := by
    have hat : z (.sub t .ATBnon0) = (α : ZMod p) := by
      rw [hbnon] at h10
      linear_combination -h10
    rw [hq, hr, hat] at h11
    have hz : ((β * q + r - α : ℤ) : ZMod p) = 0 := by
      push_cast
      linear_combination h11
    have := Residue.eq_zero_of_cast_eq_zero
      (abs_equation_lt hwb1 hα2 hβ2 hqw hrβ hprod hpabs) hz
    linarith
  have hsign : r ≠ 0 → (r < 0 ↔ α < 0) := by
    intro hr0
    have hrnon : z (.sub t .Rnon0) = 1 := by
      rw [h3.output_eq, hr, if_neg (Residue.cast_ne_zero hpr hr0)]
    rw [hrnon, one_mul, hrless, haless, sub_eq_zero] at h13
    rw [← lessValue_eq_one_iff (p := p), h13, lessValue_eq_one_iff]
  obtain ⟨hquot, hrem⟩ := tdiv_tmod_of_eq hβ0 heq hrβ hsign
  rw [← sub_eq_zero.mp h14]
  cases op with
  | quotient => simp [DivOp.wire, DivOp.apply, hq, hquot]
  | remainder => simp [DivOp.wire, DivOp.apply, hr, hrem]

end

/-! ## The prover's assignment -/

section
variable {p : ℕ} {d : Decls} {a b : Arg Name} {op : DivOp} {t : Name}

def divisionMain (a b : Arg Name) (t o : Name) : Prop :=
  o = t ∨ (∃ s, o = .sub t s) ∨ o ∈ a.vars ∨ o ∈ b.vars

private theorem not_divisionMain (ha : a.Outside t) (hb : b.Outside t) (s s' : Suffix) :
    ¬ divisionMain a b t (.sub (.sub t s) s') := by
  have hbelow : t.Below (.sub (.sub t s) s') := Name.below_sub (Name.below_sub (Name.below_self t))
  have hvars : ∀ c : Arg Name, c.Outside t → Name.sub (.sub t s) s' ∉ c.vars := by
    intro c hc hmem
    cases c with
    | const k => simp [Arg.vars] at hmem
    | var x =>
      obtain rfl : Name.sub (.sub t s) s' = x := by simpa [Arg.vars] using hmem
      exact hc _ rfl hbelow
  rintro (h | ⟨s'', h⟩ | h | h)
  · have := congrArg sizeOf h
    simp at this
    omega
  · exact Name.sub_ne_self t s (Name.sub.inj h).1
  · exact hvars a ha h
  · exact hvars b hb h

@[simp] theorem vars_minusTwice (a : Arg Name) : (minusTwice a).vars = a.vars := by
  cases a with
  | var x => rfl
  | const c => by_cases h : c = 0 <;> simp [minusTwice, h, Term.vars]

@[simp] theorem depth_minusTwice (a : Arg Name) : (minusTwice a).depth = 0 := by
  cases a with
  | var x => rfl
  | const c => by_cases h : c = 0 <;> simp [minusTwice, h, Term.depth]

private theorem operand_ne (ha : a.Outside t) {x : Name} (hx : x ∈ a.vars) (s : Suffix) :
    x ≠ t ∧ x ≠ .sub t s := by
  cases a with
  | const k => simp [Arg.vars] at hx
  | var y =>
    obtain rfl : x = y := by simpa [Arg.vars] using hx
    exact ⟨fun h => ha x rfl (h ▸ Name.below_self _),
      fun h => ha x rfl (h ▸ Name.below_sub (Name.below_self t))⟩

theorem divisionLines_wf (op : DivOp) (ha : a.Outside t) (hb : b.Outside t) :
    Spec.WF (divisionMain a b t) (divisionLines a b t ++ [divisionOutput op t]) := by
  have hself : divisionMain a b t t := .inl rfl
  have hmain : ∀ s, divisionMain a b t (.sub t s) := fun s => .inr (.inl ⟨s, rfl⟩)
  have hamain : ∀ x ∈ a.vars, divisionMain a b t x := fun x hx => .inr (.inr (.inl hx))
  have hbmain : ∀ x ∈ b.vars, divisionMain a b t x := fun x hx => .inr (.inr (.inr hx))
  have hasub : ∀ s, Name.sub t s ∉ a.vars := fun s hx => (operand_ne ha hx s).2 rfl
  have hbsub : ∀ s, Name.sub t s ∉ b.vars := fun s hx => (operand_ne hb hx s).2 rfl
  have hat : t ∉ a.vars := fun hx => (operand_ne ha hx .Q).1 rfl
  have hbt : t ∉ b.vars := fun hx => (operand_ne hb hx .Q).1 rfl
  have haux := not_divisionMain ha hb
  have hA : ∀ s, ∀ x ∈ a.vars, divisionMain a b t x ∧ ¬ x = .sub t s :=
    fun s x hx => ⟨hamain x hx, (operand_ne ha hx s).2⟩
  have hB : ∀ s, ∀ x ∈ b.vars, divisionMain a b t x ∧ ¬ x = .sub t s :=
    fun s x hx => ⟨hbmain x hx, (operand_ne hb hx s).2⟩
  constructor
  · cases op <;>
      simp [divisionLines, divisionOutput, DivOp.wire, SpecLine.WF, Sum.vars, Sum.depth, polyCalls,
        hself, hmain, haux] <;>
      exact ⟨hB _, hB _, hA _, hB _, hA _⟩
  · cases op <;>
      simp [divisionLines, divisionOutput, DivOp.wire, SpecLine.target, SpecLine.operands, Sum.vars,
        hasub, hbsub, hat, hbt]

/-- Quotient and remainder as the prover leaves them. -/
def proverRemainder (α β : ℤ) : ℤ := if β = 0 then 0 else α.tmod β

theorem computeBinary_vals (f : ℚ → ℚ → ℚ) (y : Name) (s : Prover) {x₁ x₂ : ℚ}
    (h₁ : a.eval s.vals = x₁) (h₂ : b.eval s.vals = x₂) :
    (computeBinary f (.var y) a b s).vals =
        (if x₂ ≠ 0 then Function.update s.vals y (f x₁ x₂) else s.vals) ∧
      (computeBinary f (.var y) a b s).trueRam = s.trueRam := by
  subst h₁ h₂
  by_cases h0 : b.eval s.vals = 0 <;> rcases a with c₀ | x₀ <;> rcases b with c₁ | x₁ <;>
    simp_all [computeBinary]

theorem Arg.Outside.eval_update {R : Type} [IntCast R] (ha : a.Outside t) (v : Name → R)
    (s : Suffix) (w : R) : a.eval (Function.update v (.sub t s) w) = a.eval v :=
  a.eval_congr fun _ hx => Function.update_of_ne (operand_ne ha hx s).2 _ _

theorem Arg.Outside.eval_update_target {R : Type} [IntCast R] (ha : a.Outside t) (v : Name → R)
    (w : R) : a.eval (Function.update v t w) = a.eval v :=
  a.eval_congr fun _ hx => Function.update_of_ne (operand_ne ha hx .Q).1 _ _

/-- Numbers for quotient and remainder that the comparisons of the gadget can take. -/
structure DivisionFits (p : ℕ) (d : Decls) (a b : Arg Name) (β q r : ℤ) : Prop where
  quotient : |q| ≤ 2 ^ (max (toVar d a).adjustedNa 2 - 1)
  remainder : |r| ≤ 2 ^ (max (toVar d b).adjustedNa 2 - 1)
  difference : |(|r|) - (|β|)| ≤ 2 ^ (toVar d b).adjustedNa
  divisor_lt : |β| < p
  remainder_lt : |r| < p

/-- The absolute value computed with a sign bit. -/
theorem lessValue_mul_add (x : ℤ) : lessValue ℤ x 0 * (-2 * x) + x = |x| := by
  unfold lessValue
  split
  · rename_i hneg
    rw [abs_of_neg hneg]
    ring
  · rename_i hneg
    rw [abs_of_nonneg (not_lt.mp hneg)]
    ring

theorem abs_proverRemainder_lt (α : ℤ) {β : ℤ} (hβ : β ≠ 0) : |proverRemainder α β| < |β| := by
  rw [proverRemainder, if_neg hβ, Int.abs_eq_natAbs, Int.abs_eq_natAbs, Int.natAbs_tmod]
  exact_mod_cast Nat.mod_lt _ (by omega)

section
variable {v : Name → ℤ} {α β q r : ℤ} (ha : a.Outside t) (hb : b.Outside t)
include ha hb

/-- The division commands: a zero divisor leaves both results `0`. -/
theorem divide_exec {s : Prover} (hs : s.Agrees (divisionMain a b t) v) (hα : a.eval v = α)
    (hβ : b.eval v = β) (hQ : v (.sub t .Q) = 0) (hR : v (.sub t .R) = 0) :
    (execAll p [.divideI (.var (.sub t .Q)) a b, .modI (.var (.sub t .R)) a b] s).Agrees
      (divisionMain a b t)
      (Function.update (Function.update v (.sub t .Q) (α.tdiv β)) (.sub t .R)
        (proverRemainder α β)) := by
  have hx : a.eval s.vals = (α : ℚ) := by
    rw [hs.eval_arg fun x hx => .inr (.inr (.inl hx)), hα]
  have hy : b.eval s.vals = (β : ℚ) := by
    rw [hs.eval_arg fun x hx => .inr (.inr (.inr hx)), hβ]
  have hQ0 : s.vals (.sub t .Q) = 0 := by rw [hs _ (.inr (.inl ⟨_, rfl⟩)), hQ, Int.cast_zero]
  have hR0 : s.vals (.sub t .R) = 0 := by rw [hs _ (.inr (.inl ⟨_, rfl⟩)), hR, Int.cast_zero]
  have h1 : ((Cmd.divideI (.var (.sub t .Q)) a b).exec p s).vals =
      Function.update s.vals (.sub t .Q) ((α.tdiv β : ℤ) : ℚ) := by
    simp only [Cmd.exec, (computeBinary_vals _ _ s hx hy).1]
    by_cases hβ0 : β = 0
    · simp [hβ0, ← hQ0]
    · simp [hβ0]
  have hx' : a.eval ((Cmd.divideI (.var (.sub t .Q)) a b).exec p s).vals = (α : ℚ) := by
    rw [h1, ha.eval_update, hx]
  have hy' : b.eval ((Cmd.divideI (.var (.sub t .Q)) a b).exec p s).vals = (β : ℚ) := by
    rw [h1, hb.eval_update, hy]
  have h2 : (execAll p [.divideI (.var (.sub t .Q)) a b, .modI (.var (.sub t .R)) a b] s).vals =
      Function.update (Function.update s.vals (.sub t .Q) ((α.tdiv β : ℤ) : ℚ)) (.sub t .R)
        ((proverRemainder α β : ℤ) : ℚ) := by
    simp only [execAll_cons, execAll_nil]
    generalize (Cmd.divideI (.var (.sub t .Q)) a b).exec p s = s₁ at h1 hx' hy'
    rw [Cmd.exec, (computeBinary_vals _ _ _ hx' hy').1, h1]
    by_cases hβ0 : β = 0
    · have hupd : Function.update (Function.update s.vals (.sub t .Q) ((α.tdiv β : ℤ) : ℚ))
          (.sub t .R) 0 = Function.update s.vals (.sub t .Q) ((α.tdiv β : ℤ) : ℚ) := by
        rw [Function.update_eq_self_iff, Function.update_of_ne (by simp), hR0]
      simp [hβ0, proverRemainder] at hupd ⊢
      exact hupd.symm
    · simp [hβ0, proverRemainder]
  intro o ho
  rw [h2]
  by_cases hoR : o = .sub t .R
  · simp [hoR]
  · by_cases hoQ : o = .sub t .Q
    · simp [hoQ]
    · simp [hoR, hoQ, hs o ho]

/-- The values the lines give to the variables that are constrained further. -/
theorem divisionLines_interp (hva : a.eval v = α) (hvb : b.eval v = β) (hq : v (.sub t .Q) = q)
    (hr : v (.sub t .R) = r) :
    let v' := interpAll v (divisionLines a b t ++ [divisionOutput op t])
    v' (.sub t .Q) = q ∧ v' (.sub t .R) = r ∧ v' (.sub t .Bnon0) = (if β = 0 then 0 else 1) ∧
      v' (.sub t .Rless0) = lessValue ℤ r 0 ∧ v' (.sub t .Rnon0) = (if r = 0 then 0 else 1) ∧
      v' (.sub t .Aless0) = lessValue ℤ α 0 ∧
      v' (.sub t .Absrlessabsb) = lessValue ℤ |r| |β| ∧
      v' (.sub t .ATBnon0) = (if β = 0 then 0 else α) ∧
      v' t = (match op with
        | .quotient => q
        | .remainder => r) ∧
      a.eval v' = α ∧ b.eval v' = β := by
  simp only [divisionLines, divisionOutput, List.cons_append, List.nil_append, interpAll_cons,
    interpAll_nil, SpecLine.interp, ha.eval_update, hb.eval_update, ha.eval_update_target,
    hb.eval_update_target, Poly.eval_some, Poly.eval_none, Sum.eval, Sum.eval_sum,
    eval_minusTwice, hva, hvb, Arg.eval_var, Arg.eval_const]
  simp only [ne_eq, reduceCtorEq, not_false_eq_true, Function.update_of_ne, Function.update_self,
    Name.sub.injEq, and_false, Name.sub_ne_self, hq, hr, lessValue_mul_add,
    Int.cast_zero, mul_zero, zero_add, add_zero, true_and, and_true]
  refine ⟨by split <;> simp, ?_⟩
  cases op <;> simp [DivOp.wire, hq, hr]

variable (hα : IntOperand d a α) (hβ : IntOperand d b β)
include hα hβ

theorem divisionLines_fits (hca : ¬ DistinctConstants a (.const 0))
    (hcb : ¬ DistinctConstants b (.const 0)) (hfit : DivisionFits p d a b β q r)
    (hva : a.eval v = α) (hvb : b.eval v = β) (hq : v (.sub t .Q) = q) (hr : v (.sub t .R) = r) :
    Spec.Fits (divideDecls d a b t) p v (divisionLines a b t ++ [divisionOutput op t]) := by
  obtain ⟨hwa, hwb, hwq, hwr, habs⟩ := lessWidth_divideDecls ha hb hα.nb hβ.nb
  obtain ⟨hQ, hR, hAr, hAb⟩ := varObj_divideDecls (d := d) (a := a) hb
  have h0 : (toVar (divideDecls d a b t) (.const 0)).nb = 0 := rfl
  simp only [divisionLines, divisionOutput, List.cons_append, List.nil_append, Spec.Fits,
    SpecLine.Fits, SpecLine.interp, h0, hwa, hwb, hwq, hwr, habs, toVar_divideDecls ha,
    toVar_divideDecls hb, hα.nb, hβ.nb, toVar_var, hQ, hR, hAr, hAb, not_distinctConstants_var,
    hca, hcb, ha.eval_update, hb.eval_update, hva, hvb, Arg.eval_var, Arg.eval_const]
  simp only [Poly.eval_some, Sum.eval, Sum.eval_sum, eval_minusTwice, Arg.eval_var,
    hb.eval_update, hvb]
  simp only [ne_eq, reduceCtorEq, not_false_eq_true, Function.update_of_ne, Function.update_self,
    Name.sub.injEq, and_false, hq, hr, lessValue_mul_add, Int.cast_id, sub_zero, true_and, and_true]
  exact ⟨hfit.divisor_lt, hfit.remainder, hfit.remainder_lt, abs_le_of_two_abs_le hβ.two_abs_le,
    abs_le_of_two_abs_le hα.two_abs_le, hfit.quotient, hfit.difference⟩

/-- What the prover computes for quotient and remainder fits. -/
theorem divisionFits_prover (hless : LargeForLess d a b t p) :
    DivisionFits p d a b β (α.tdiv β) (proverRemainder α β) := by
  obtain ⟨-, -, hp⟩ := (largeForLess_iff ha hb hα.nb hβ.nb).mp hless
  have hα2 := hα.two_abs_le
  have hβ2 := hβ.two_abs_le
  set w := (toVar d b).adjustedNa
  have hpow : (2 : ℤ) ^ w < p := by
    have : 2 ^ w ≤ 2 ^ (w + 1 + 2) := Nat.pow_le_pow_right (by norm_num) (by omega)
    exact_mod_cast (by omega : 2 ^ w < p)
  have hq : |α.tdiv β| ≤ |α| := by
    rw [Int.abs_eq_natAbs, Int.abs_eq_natAbs]
    exact_mod_cast Int.natAbs_tdiv_le_natAbs α β
  have hr : |proverRemainder α β| ≤ |β| := by
    by_cases hβ0 : β = 0
    · simp [proverRemainder, hβ0]
    · exact (abs_proverRemainder_lt α hβ0).le
  have hβ0 := abs_nonneg β
  have hr0 := abs_nonneg (proverRemainder α β)
  refine ⟨abs_le_of_two_abs_le (by linarith), abs_le_of_two_abs_le (by linarith), ?_, by linarith,
    by linarith⟩
  rw [abs_le]
  constructor <;> linarith

variable [Fact p.Prime]

/-- From numbers for quotient and remainder that fit the comparisons, satisfy the equation modulo
the prime and have the right size and sign, the worksheet computes a satisfying assignment. -/
theorem division_exec (op : DivOp) (hca : ¬ DistinctConstants a (.const 0))
    (hcb : ¬ DistinctConstants b (.const 0)) (hfit : DivisionFits p d a b β q r)
    (heq : ((β * q + (r - if β = 0 then 0 else α) : ℤ) : ZMod p) = 0) (hbound : β ≠ 0 → |r| < |β|)
    (hsign : r ≠ 0 → (r < 0 ↔ α < 0)) {s : Prover} (hs : s.Agrees (divisionMain a b t) v)
    (hva : a.eval v = α) (hvb : b.eval v = β) (hq : v (.sub t .Q) = q) (hr : v (.sub t .R) = r) :
    ∃ cmds, generateComputationLines (divideDecls d a b t)
        (divisionLines a b t ++ [divisionOutput op t]) = some cmds ∧
      ∃ z, z = (execAll p cmds s).witness p ∧
        DivisionWires z (divideDecls d a b t) a b op t (a.eval z) (b.eval z) ∧
        a.eval z = (α : ZMod p) ∧ b.eval z = (β : ZMod p) ∧
        z t = ((match op with
          | .quotient => q
          | .remainder => r : ℤ) : ZMod p) := by
  obtain ⟨cmds, hgen, hexec⟩ := Spec.exec (divisionLines_wf op ha hb) hs
    (divisionLines_fits ha hb hα hβ hca hcb hfit hva hvb hq hr)
  obtain ⟨h1, h2, h3, h4, h5, h6, h7, h8, h9, h10, h11⟩ :=
    divisionLines_interp (v := v) ha hb hva hvb hq hr
  have hz : ∀ o, divisionMain a b t o → (execAll p cmds s).witness p o =
      (interpAll v (divisionLines a b t ++ [divisionOutput op t]) o : ZMod p) :=
    fun o ho => by simp [Prover.witness, hexec.agrees o ho]
  have hsub : ∀ sfx, divisionMain a b t (.sub t sfx) := fun sfx => .inr (.inl ⟨sfx, rfl⟩)
  have hza := hexec.agrees.witness_arg p (a := a) fun x hx => .inr (.inr (.inl hx))
  have hzb := hexec.agrees.witness_arg p (a := b) fun x hx => .inr (.inr (.inr hx))
  rw [h10] at hza
  rw [h11] at hzb
  refine ⟨cmds, hgen, _, rfl, ?_, hza, hzb, by rw [hz t (.inl rfl), h9]⟩
  have hsat := hexec.satisfies
  simp only [toBasicConstraintsLines, List.flatMap_append, List.flatMap_cons, List.flatMap_nil,
    List.append_nil, satisfies_append] at hsat
  rw [← satisfies_division _ ha hb hα.nb hβ.nb, satisfies_append, satisfies_append]
  refine ⟨⟨hsat.1, ?_⟩, hsat.2⟩
  simp only [divisionChecks, satisfies_cons, satisfies_nil, Line.eval_mk, Poly.eval_some,
    Sum.eval_sum, Sum.eval_sub, eval_lineAB, Arg.eval_var, Arg.eval_const, hzb, hz _ (hsub _),
    h1, h2, h3, h4, h5, h6, h7, h8]
  refine ⟨?_, ?_, ?_, trivial⟩
  · push_cast at heq ⊢
    exact heq
  · by_cases hβ0 : β = 0
    · simp [hβ0]
    · simp [hβ0, lessValue, hbound hβ0]
  · by_cases hr0 : r = 0
    · simp [hr0]
    · simp [hr0, lessValue, hsign hr0]

/-- The worksheet of a division computes a satisfying assignment, a zero divisor included. -/
theorem divide_complete (hca : ¬ DistinctConstants a (.const 0))
    (hcb : ¬ DistinctConstants b (.const 0)) (hless : LargeForLess d a b t p) {s : Prover}
    (hsa : a.eval s.vals = (α : ℚ)) (hsb : b.eval s.vals = (β : ℚ))
    (hzero : ∀ o, t.Below o → s.vals o = 0) :
    ∃ cmds, generateComputationDivide d a op b t = some cmds ∧
      DivisionWires ((execAll p cmds s).witness p) (divideDecls d a b t) a b op t
        (a.eval ((execAll p cmds s).witness p)) (b.eval ((execAll p cmds s).witness p)) := by
  have hnum : ∀ {c : Arg Name} {x : ℤ}, c.eval s.vals = (x : ℚ) →
      (∀ o ∈ c.vars, s.vals o = ((s.vals o).num : ℚ)) ∧ c.eval (fun o => (s.vals o).num) = x := by
    intro c x hc
    cases c with
    | const k => simpa using hc
    | var o =>
      have ho : s.vals o = (x : ℚ) := hc
      simp [ho]
  have hs : s.Agrees (divisionMain a b t) fun o => (s.vals o).num := by
    rintro o (rfl | ⟨sfx, rfl⟩ | ho | ho)
    · simp [hzero _ (Name.below_self _)]
    · simp [hzero _ (Name.below_sub (Name.below_self t))]
    · exact (hnum hsa).1 o ho
    · exact (hnum hsb).1 o ho
  have hbelow : ∀ sfx, (s.vals (.sub t sfx)).num = 0 := fun sfx => by
    simp [hzero _ (Name.below_sub (Name.below_self t))]
  have hs' := divide_exec (p := p) ha hb hs (hnum hsa).2 (hnum hsb).2 (hbelow .Q) (hbelow .R)
  have heq : β * α.tdiv β + (proverRemainder α β - if β = 0 then 0 else α) = 0 := by
    unfold proverRemainder
    split
    · rename_i hβ0
      simp [hβ0]
    · linarith [Int.tmod_add_mul_tdiv α β]
  have hsign : proverRemainder α β ≠ 0 → (proverRemainder α β < 0 ↔ α < 0) := by
    unfold proverRemainder
    split
    · simp
    · intro hr
      rcases lt_or_ge α 0 with hα0 | hα0
      · have := Int.tmod_nonneg β (by omega : 0 ≤ -α)
        rw [Int.neg_tmod] at this
        omega
      · have := Int.tmod_nonneg β hα0
        omega
  obtain ⟨cmds, hgen, z, rfl, hwires, -⟩ := division_exec ha hb hα hβ op hca hcb
    (divisionFits_prover ha hb hα hβ hless) (by rw [heq, Int.cast_zero])
    (abs_proverRemainder_lt α) hsign hs'
    (by rw [ha.eval_update, ha.eval_update, (hnum hsa).2])
    (by rw [hb.eval_update, hb.eval_update, (hnum hsb).2]) (by simp) (by simp)
  rw [generateComputationLines_append] at hgen
  simp only [generateComputationLines, Option.bind_eq_some_iff, Option.map_eq_some_iff,
    Option.bind_eq_bind, Option.pure_def, Option.some.injEq] at hgen
  obtain ⟨lines, hlines, output, ⟨out, hout, rest, rfl, rfl⟩, rfl⟩ := hgen
  refine ⟨[.divideI (.var (.sub t .Q)) a b, .modI (.var (.sub t .R)) a b] ++ lines ++ out, ?_, ?_⟩
  · simp [generateComputationDivide, hα.nb, hβ.nb, hlines, hout]
  · simpa only [execAll_append, List.append_nil] using hwires

end

variable [Fact p.Prime]

/-- In a field large enough for the products of divisor and quotient, the division gadget computes
the C quotient or remainder, and the prover's assignment satisfies it. -/
theorem division_sound_and_complete {α β : ℤ} (ha : a.Outside t) (hb : b.Outside t)
    (hα : IntOperand d a α) (hβ : IntOperand d b β) (hless : LargeForLess d a b t p)
    (hprod : LargeForProduct d a b p) :
    ∃ lines, divisionAsBasicConstraints (divideDecls d a b t) a op b t = some lines ∧
      (β ≠ 0 → ∀ z : Name → ZMod p, a.eval z = (α : ZMod p) → b.eval z = (β : ZMod p) →
        Satisfies z lines → z t = (op.apply α β : ZMod p)) ∧
      (¬ DistinctConstants a (.const 0) → ¬ DistinctConstants b (.const 0) →
        ∀ s : Prover, a.eval s.vals = (α : ℚ) → b.eval s.vals = (β : ℚ) →
        (∀ o, t.Below o → s.vals o = 0) →
        ∃ cmds, generateComputationDivide d a op b t = some cmds ∧
          Satisfies ((execAll p cmds s).witness p) lines) := by
  refine ⟨_, divisionAsBasicConstraints_eq ha hb hα.nb hβ.nb, ?_, ?_⟩
  · intro hβ0 z hza hzb hsat
    rw [satisfies_division z ha hb hα.nb hβ.nb, hza, hzb] at hsat
    exact hsat.output_eq ha hb hα hβ hless hprod hβ0
  · intro hca hcb s hsa hsb hzero
    obtain ⟨cmds, hgen, hwires⟩ :=
      divide_complete (p := p) ha hb hα hβ hca hcb hless hsa hsb hzero
    exact ⟨cmds, hgen, (satisfies_division _ ha hb hα.nb hβ.nb).mpr hwires⟩

end

theorem outside_spec {s s' : String} (h : s' ≠ s) : Arg.Outside (.spec s) (.var (.spec s')) := by
  rintro x ⟨⟩ (hx : Name.spec s' = .spec s)
  exact h (Name.spec.inj hx)

/-- The most negative dividend, divided by `-1`. -/
theorem division_min_by_neg_one :
    let x : Arg Name := .var (.spec "x")
    let y : Arg Name := .var (.spec "y")
    ∃ lines, divisionAsBasicConstraints (divideDecls (intDecls 8) x y (.spec "t")) x .quotient y
        (.spec "t") = some lines ∧
      (∀ z : Name → ZMod 65537, x.eval z = ((-128 : ℤ) : ZMod 65537) →
        y.eval z = ((-1 : ℤ) : ZMod 65537) → Satisfies z lines →
        z (.spec "t") = ((128 : ℤ) : ZMod 65537)) ∧
      ∀ s : Prover, x.eval s.vals = ((-128 : ℤ) : ℚ) → y.eval s.vals = ((-1 : ℤ) : ℚ) →
        (∀ o, (Name.spec "t").Below o → s.vals o = 0) →
        ∃ cmds, generateComputationDivide (intDecls 8) x .quotient y (.spec "t") = some cmds ∧
          Satisfies ((execAll 65537 cmds s).witness 65537) lines := by
  intro x y
  have : Fact (Nat.Prime 65537) := ⟨by norm_num⟩
  have hx : IntOperand (intDecls 8) x (-128) := ⟨rfl, by decide, by decide⟩
  have hy : IntOperand (intDecls 8) y (-1) := ⟨rfl, by decide, by decide⟩
  have hox : x.Outside (.spec "t") := outside_spec (by decide)
  have hoy : y.Outside (.spec "t") := outside_spec (by decide)
  obtain ⟨lines, hlines, hsound, hcomplete⟩ := division_sound_and_complete
    (p := 65537) hox hoy hx hy ((largeForLess_iff hox hoy rfl rfl).mpr (by decide))
    (by unfold LargeForProduct; decide)
  exact ⟨lines, hlines, hsound (by decide),
    hcomplete (not_distinctConstants_var _ _) (not_distinctConstants_var _ _)⟩

/-- With signed operands of eight bits and a prime that is just large enough for the comparisons,
`5 / 100` can be given the result `20`: the product of divisor and quotient wraps around. -/
theorem division_wraps_around :
    let x : Arg Name := .var (.spec "x")
    let y : Arg Name := .var (.spec "y")
    IntOperand (intDecls 8) x 5 ∧ IntOperand (intDecls 8) y 100 ∧
      LargeForLess (intDecls 8) x y (.spec "t") 2053 ∧
      ∃ lines, divisionAsBasicConstraints (divideDecls (intDecls 8) x y (.spec "t")) x .quotient y
          (.spec "t") = some lines ∧
        ∃ z : Name → ZMod 2053, x.eval z = ((5 : ℤ) : ZMod 2053) ∧
          y.eval z = ((100 : ℤ) : ZMod 2053) ∧ Satisfies z lines ∧
          z (.spec "t") ≠ ((DivOp.quotient.apply 5 100 : ℤ) : ZMod 2053) := by
  intro x y
  have heq : ((100 * 20 + (58 - if (100 : ℤ) = 0 then 0 else 5) : ℤ) : ZMod 2053) = 0 := by decide
  have hne : ((20 : ℤ) : ZMod 2053) ≠ ((DivOp.quotient.apply 5 100 : ℤ) : ZMod 2053) := by decide
  have : Fact (Nat.Prime 2053) := ⟨by norm_num⟩
  have hx : IntOperand (intDecls 8) x 5 := ⟨rfl, by decide, by decide⟩
  have hy : IntOperand (intDecls 8) y 100 := ⟨rfl, by decide, by decide⟩
  have hox : x.Outside (.spec "t") := outside_spec (by decide)
  have hoy : y.Outside (.spec "t") := outside_spec (by decide)
  let v : Name → ℤ := fun o =>
    if o = .spec "x" then 5 else if o = .spec "y" then 100
    else if o = .sub (.spec "t") .Q then 20 else if o = .sub (.spec "t") .R then 58 else 0
  obtain ⟨cmds, -, z, -, hwires, hzx, hzy, hzt⟩ := division_exec (p := 2053) (q := 20)
    (r := 58) (s := ⟨fun o => v o, 0, 0, fun _ => none⟩) (v := v) hox hoy hx hy .quotient
    (not_distinctConstants_var _ _) (not_distinctConstants_var _ _)
    ⟨by decide, by decide, by decide, by decide, by decide⟩ heq (by decide)
    (by decide) (fun _ _ => rfl) rfl rfl rfl rfl
  refine ⟨hx, hy, (largeForLess_iff hox hoy rfl rfl).mpr (by decide), _,
    divisionAsBasicConstraints_eq hox hoy rfl rfl, z, hzx, hzy,
    (satisfies_division z hox hoy rfl rfl).mpr hwires, ?_⟩
  rw [hzt]
  exact hne

end Pequin
