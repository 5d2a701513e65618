import Mathlib.Tactic.FieldSimp
import Pequin.Frontend.NormalForm

/-!
# Expressions as polynomials

`toPolynomialExpression` turns a tree of sums, differences and products into a polynomial. An
expression that is a constant, or a variable multiplied by `1` or added to `0`, is recognised
before.

Constants are fractions whose denominator is a power of two. They are not reduced, but `isZero`,
`isOne`, sums and products depend on their value only, so that the constants of polynomials are
rational numbers.
-/

namespace Pequin

namespace Frontend

/-! ## Constants -/

structure FloatConstant where
  num : ℤ
  den : ℤ
  pot : ∃ k : ℕ, den = 2 ^ k

namespace FloatConstant

def value (c : FloatConstant) : ℚ := c.num / c.den

def ZERO : FloatConstant := ⟨0, 1, 0, rfl⟩

def ONE : FloatConstant := ⟨1, 1, 0, rfl⟩

def NEG_ONE : FloatConstant := ⟨-1, 1, 0, rfl⟩

def isZero (c : FloatConstant) : Bool := c.num = 0

def isOne (c : FloatConstant) : Bool := c.num = c.den

def isNegOne (c : FloatConstant) : Bool := -c.num = c.den

/-- The three constants of the class stand for themselves. -/
def valueOf (c : FloatConstant) : FloatConstant :=
  if c.isOne then ONE else if c.isZero then ZERO else if c.isNegOne then NEG_ONE else c

def multiply (a b : FloatConstant) : FloatConstant :=
  if a.isZero then ZERO
  else if b.isZero then ZERO
  else if b.isOne then a
  else if a.isOne then b
  else valueOf ⟨a.num * b.num, a.den * b.den, by
    obtain ⟨k, hk⟩ := a.pot
    obtain ⟨l, hl⟩ := b.pot
    exact ⟨k + l, by rw [hk, hl, pow_add]⟩⟩

/-- The sum has the greater denominator. -/
def add (a b : FloatConstant) : FloatConstant :=
  if a.isZero then b
  else if b.isZero then a
  else valueOf ⟨(a.num * b.den).tdiv (min a.den b.den) + (a.den * b.num).tdiv (min a.den b.den),
    max a.den b.den, by
      rcases max_choice a.den b.den with h | h <;> rw [h]
      · exact a.pot
      · exact b.pot⟩

theorem den_pos (c : FloatConstant) : 0 < c.den := by
  obtain ⟨k, hk⟩ := c.pot
  rw [hk]
  positivity

theorem den_cast_ne_zero (c : FloatConstant) : (c.den : ℚ) ≠ 0 :=
  Int.cast_ne_zero.2 c.den_pos.ne'

@[simp] theorem value_ZERO : ZERO.value = 0 := by simp [value, ZERO]

@[simp] theorem value_ONE : ONE.value = 1 := by simp [value, ONE]

@[simp] theorem value_NEG_ONE : NEG_ONE.value = -1 := by simp [value, NEG_ONE]

variable {c : FloatConstant}

@[simp] theorem isZero_iff : c.isZero = true ↔ c.value = 0 := by
  simp [isZero, value, c.den_cast_ne_zero]

@[simp] theorem isOne_iff : c.isOne = true ↔ c.value = 1 := by
  rw [isOne, decide_eq_true_eq, value, div_eq_one_iff_eq c.den_cast_ne_zero, Int.cast_inj]

theorem isNegOne_iff : c.isNegOne = true ↔ c.value = -1 := by
  rw [isNegOne, decide_eq_true_eq, value, div_eq_iff c.den_cast_ne_zero, ← Int.cast_inj (α := ℚ),
    Int.cast_neg]
  constructor <;> intro h <;> linarith

@[simp] theorem value_valueOf (c : FloatConstant) : c.valueOf.value = c.value := by
  rw [valueOf]
  split
  · next h => rw [value_ONE, isOne_iff.1 h]
  · split
    · next h => rw [value_ZERO, isZero_iff.1 h]
    · split
      · next h => rw [value_NEG_ONE, isNegOne_iff.1 h]
      · rfl

@[simp] theorem value_multiply (a b : FloatConstant) :
    (a.multiply b).value = a.value * b.value := by
  rw [multiply]
  split
  · next h => rw [value_ZERO, isZero_iff.1 h, zero_mul]
  · split
    · next h => rw [value_ZERO, isZero_iff.1 h, mul_zero]
    · split
      · next h => rw [isOne_iff.1 h, mul_one]
      · split
        · next h => rw [isOne_iff.1 h, one_mul]
        · rw [value_valueOf, value, value, value]
          push_cast
          rw [mul_div_mul_comm]

/-- Of two powers of two the smaller one divides the greater one. -/
theorem den_dvd (a b : FloatConstant) (h : a.den ≤ b.den) : a.den ∣ b.den := by
  obtain ⟨k, hk⟩ := a.pot
  obtain ⟨l, hl⟩ := b.pot
  rw [hk, hl] at h ⊢
  exact pow_dvd_pow 2 ((pow_le_pow_iff_right₀ (by decide)).1 h)

/-- The sum of the numerators is exact because one denominator divides the other. -/
theorem value_sum (a b : FloatConstant) (h : a.den ≤ b.den) :
    (((a.num * b.den).tdiv a.den + (a.den * b.num).tdiv a.den : ℤ) : ℚ) / b.den =
      a.value + b.value := by
  obtain ⟨m, hm⟩ := den_dvd a b h
  have ha := a.den_pos.ne'
  have hb := b.den_cast_ne_zero
  have hfirst : (a.num * b.den).tdiv a.den = a.num * m := by
    rw [hm, mul_left_comm, Int.mul_tdiv_cancel_left _ ha]
  rw [hfirst, Int.mul_tdiv_cancel_left _ ha, value, value]
  rw [hm] at hb ⊢
  push_cast at hb ⊢
  have hm0 : (m : ℚ) ≠ 0 := right_ne_zero_of_mul hb
  have ha0 : (a.den : ℚ) ≠ 0 := left_ne_zero_of_mul hb
  field_simp

@[simp] theorem value_add (a b : FloatConstant) : (a.add b).value = a.value + b.value := by
  rw [add]
  split
  · next h => rw [isZero_iff.1 h, zero_add]
  · split
    · next h => rw [isZero_iff.1 h, add_zero]
    · rw [value_valueOf, value]
      rcases le_total a.den b.den with hle | hle
      · simp only [min_eq_left hle, max_eq_right hle]
        exact value_sum a b hle
      · simp only [min_eq_right hle, max_eq_left hle]
        rw [add_comm a.value, ← value_sum b a hle, add_comm, mul_comm b.num, mul_comm b.den]

end FloatConstant

/-! ## Expressions -/

inductive Expression where
  | const (c : FloatConstant)
  | lval (x : ℕ)
  | plus (left right : Expression)
  | minus (left right : Expression)
  | times (left right : Expression)
  | unaryMinus (middle : Expression)

def Expression.eval (z : ℕ → ℚ) : Expression → ℚ
  | .const c => c.value
  | .lval x => z x
  | .plus l r => l.eval z + r.eval z
  | .minus l r => l.eval z - r.eval z
  | .times l r => l.eval z * r.eval z
  | .unaryMinus e => -e.eval z

/-- The constants that variables were assigned, and the types of the variables. -/
structure FloatLookup where
  known : ℕ → Option FloatConstant
  type : ℕ → RestrictedIntType

def FloatLookup.toLookup (L : FloatLookup) : Lookup ℚ :=
  ⟨fun x => (L.known x).map FloatConstant.value, L.type⟩

/-- `PlusOperator.resolve`, where the operands are known to be the constants `lc` and `rc`, and the
conversion of what it returns is `ofConst`, `left` or `right`. -/
def plusResolve {α : Type} (ofConst : FloatConstant → Option α) (lc rc : Option FloatConstant)
    (left right : Option α) : Option α :=
  match lc, rc with
  | some a, some b => ofConst (a.add b)
  | some a, none => if a.isZero then right else none
  | none, some b => if b.isZero then left else none
  | none, none => none

def timesResolve {α : Type} (ofConst : FloatConstant → Option α) (lc rc : Option FloatConstant)
    (left right : Option α) : Option α :=
  match lc, rc with
  | some a, some b => ofConst (a.multiply b)
  | some a, none => if a.isOne then right else none
  | none, some b => if b.isOne then left else none
  | none, none => none

section
variable (L : FloatLookup)

/-- `FloatConstant.toFloatConstant`. A difference is resolved as the sum with the negated operand,
and a negation as the product with `-1`. -/
def toFloatConstant : Expression → Option FloatConstant
  | .const c => some c
  | .lval x => L.known x
  | .plus l r => plusResolve some (toFloatConstant l) (toFloatConstant r) (toFloatConstant l)
      (toFloatConstant r)
  | .minus l r =>
    let negated := timesResolve some (some .NEG_ONE) (toFloatConstant r) (some .NEG_ONE)
      (toFloatConstant r)
    plusResolve some (toFloatConstant l) negated (toFloatConstant l) negated
  | .times l r => timesResolve some (toFloatConstant l) (toFloatConstant r) (toFloatConstant l)
      (toFloatConstant r)
  | .unaryMinus e => timesResolve some (some .NEG_ONE) (toFloatConstant e) (some .NEG_ONE)
      (toFloatConstant e)

def toLvalExpression : Expression → Option ℕ
  | .const _ => none
  | .lval x => some x
  | .plus l r => plusResolve (fun _ => none) (toFloatConstant L l) (toFloatConstant L r)
      (toLvalExpression l) (toLvalExpression r)
  | .minus l r =>
    plusResolve (fun _ => none) (toFloatConstant L l) (toFloatConstant L (.unaryMinus r))
      (toLvalExpression l)
      (timesResolve (fun _ => none) (some .NEG_ONE) (toFloatConstant L r) none (toLvalExpression r))
  | .times l r => timesResolve (fun _ => none) (toFloatConstant L l) (toFloatConstant L r)
      (toLvalExpression l) (toLvalExpression r)
  | .unaryMinus e => timesResolve (fun _ => none) (some .NEG_ONE) (toFloatConstant L e) none
      (toLvalExpression e)

/-- The multiple of an operand is added. -/
def PolynomialExpression.addOperand (p : PolynomialExpression ℚ) (c : ℚ)
    (operand : PolynomialExpression ℚ) : PolynomialExpression ℚ :=
  p.addMultiplesOfTerm c (PolynomialTerm.one.addPoly L.toLookup operand)

/-- The polynomial of an expression that is neither a constant nor a variable is `otherwise`. -/
def fromLeaf (e : Expression) (otherwise : PolynomialExpression ℚ) : PolynomialExpression ℚ :=
  match toFloatConstant L e with
  | some c => PolynomialExpression.zero.addMultiplesOfTerm c.value .one
  | none =>
    match toLvalExpression L e with
    | some x => PolynomialExpression.zero.addMultiplesOfTerm 1
        (PolynomialTerm.one.addMonomer L.toLookup x)
    | none => otherwise

/-- `toPolynomialExpression`. On these trees it never fails. -/
def toPolynomialExpression : Expression → PolynomialExpression ℚ
  | .const c => fromLeaf L (.const c) .zero
  | .lval x => fromLeaf L (.lval x) .zero
  | .plus l r => fromLeaf L (.plus l r)
      ((PolynomialExpression.zero.addOperand L 1 (toPolynomialExpression l)).addOperand L 1
        (toPolynomialExpression r))
  | .minus l r => fromLeaf L (.minus l r)
      ((PolynomialExpression.zero.addOperand L 1 (toPolynomialExpression l)).addOperand L (-1)
        (toPolynomialExpression r))
  | .times l r => fromLeaf L (.times l r)
      (PolynomialExpression.zero.addMultiplesOfTerm 1
        ((PolynomialTerm.one.addPoly L.toLookup (toPolynomialExpression l)).addPoly L.toLookup
          (toPolynomialExpression r)))
  | .unaryMinus e => fromLeaf L (.unaryMinus e)
      (PolynomialExpression.zero.addOperand L (-1) (toPolynomialExpression e))

end

/-! ## Values -/

section
variable {L : FloatLookup} {z : ℕ → ℚ}

variable {α : Type} {ofConst : FloatConstant → Option α} {lc rc : Option FloatConstant}
  {left right : Option α}

theorem plusResolve_eq_some {v : α} (h : plusResolve ofConst lc rc left right = some v) :
    (∃ a b, lc = some a ∧ rc = some b ∧ ofConst (a.add b) = some v) ∨
      (∃ a, lc = some a ∧ a.value = 0 ∧ right = some v) ∨
      ∃ b, rc = some b ∧ b.value = 0 ∧ left = some v := by
  rw [plusResolve.eq_def] at h
  split at h
  · exact .inl ⟨_, _, rfl, rfl, h⟩
  · next a =>
    split at h
    · next ha => exact .inr (.inl ⟨a, rfl, FloatConstant.isZero_iff.1 ha, h⟩)
    · cases h
  · next b =>
    split at h
    · next hb => exact .inr (.inr ⟨b, rfl, FloatConstant.isZero_iff.1 hb, h⟩)
    · cases h
  · cases h

theorem timesResolve_eq_some {v : α} (h : timesResolve ofConst lc rc left right = some v) :
    (∃ a b, lc = some a ∧ rc = some b ∧ ofConst (a.multiply b) = some v) ∨
      (∃ a, lc = some a ∧ a.value = 1 ∧ right = some v) ∨
      ∃ b, rc = some b ∧ b.value = 1 ∧ left = some v := by
  rw [timesResolve.eq_def] at h
  split at h
  · exact .inl ⟨_, _, rfl, rfl, h⟩
  · next a =>
    split at h
    · next ha => exact .inr (.inl ⟨a, rfl, FloatConstant.isOne_iff.1 ha, h⟩)
    · cases h
  · next b =>
    split at h
    · next hb => exact .inr (.inr ⟨b, rfl, FloatConstant.isOne_iff.1 hb, h⟩)
    · cases h
  · cases h

section
variable {val : α → ℚ} (hofConst : ∀ c v, ofConst c = some v → val v = c.value) {l r : ℚ}
  (hlc : ∀ c, lc = some c → l = c.value) (hrc : ∀ c, rc = some c → r = c.value)
  (hleft : ∀ v, left = some v → l = val v) (hright : ∀ v, right = some v → r = val v) {v : α}
include hofConst hlc hrc hleft hright

/-- What is resolved has the value of the operation, if the conversions of the operands have
theirs. -/
theorem eval_plusResolve (h : plusResolve ofConst lc rc left right = some v) : l + r = val v := by
  rcases plusResolve_eq_some h with ⟨a, b, ha, hb, hv⟩ | ⟨a, ha, ha0, hv⟩ | ⟨b, hb, hb0, hv⟩
  · rw [hlc a ha, hrc b hb, hofConst _ v hv, FloatConstant.value_add]
  · rw [hlc a ha, ha0, zero_add, hright v hv]
  · rw [hrc b hb, hb0, add_zero, hleft v hv]

theorem eval_timesResolve (h : timesResolve ofConst lc rc left right = some v) : l * r = val v := by
  rcases timesResolve_eq_some h with ⟨a, b, ha, hb, hv⟩ | ⟨a, ha, ha1, hv⟩ | ⟨b, hb, hb1, hv⟩
  · rw [hlc a ha, hrc b hb, hofConst _ v hv, FloatConstant.value_multiply]
  · rw [hlc a ha, ha1, one_mul, hright v hv]
  · rw [hrc b hb, hb1, mul_one, hleft v hv]

end

theorem value_of_some_eq (c v : FloatConstant) (h : some c = some v) : v.value = c.value := by
  rw [Option.some.inj h]

theorem value_of_negOne_eq (c : FloatConstant) (h : some .NEG_ONE = some c) : -1 = c.value := by
  rw [← Option.some.inj h, FloatConstant.value_NEG_ONE]

/-- The conversion of a negation, which is the product with `-1`. -/
theorem eval_negated {val : α → ℚ} (hofConst : ∀ c v, ofConst c = some v → val v = c.value)
    {rc : Option FloatConstant} {r : ℚ} (hrc : ∀ c, rc = some c → r = c.value)
    (hleft : ∀ v, left = some v → -1 = val v) (hright : ∀ v, right = some v → r = val v) {v : α}
    (h : timesResolve ofConst (some .NEG_ONE) rc left right = some v) : -r = val v := by
  rw [← eval_timesResolve hofConst value_of_negOne_eq hrc hleft hright h, neg_one_mul]

theorem eval_toFloatConstant (hz : L.toLookup.Holds z) (e : Expression) :
    ∀ c, toFloatConstant L e = some c → e.eval z = c.value := by
  induction e with
  | const c => exact fun c' h => (value_of_some_eq c c' h).symm
  | lval x =>
    intro c h
    have hx : L.toLookup.const x = some c.value := by
      rw [FloatLookup.toLookup, ← Option.map_some (f := FloatConstant.value), ← h]
      rfl
    exact hz.const x _ hx
  | plus l r ihl ihr => exact fun c h => eval_plusResolve value_of_some_eq ihl ihr ihl ihr h
  | minus l r ihl ihr =>
    intro c h
    have hneg : ∀ c, timesResolve some (some .NEG_ONE) (toFloatConstant L r) (some .NEG_ONE)
        (toFloatConstant L r) = some c → -r.eval z = c.value :=
      fun c => eval_negated value_of_some_eq ihr value_of_negOne_eq ihr
    rw [Expression.eval, sub_eq_add_neg]
    exact eval_plusResolve value_of_some_eq ihl hneg ihl hneg h
  | times l r ihl ihr => exact fun c h => eval_timesResolve value_of_some_eq ihl ihr ihl ihr h
  | unaryMinus e ih => exact fun c h => eval_negated value_of_some_eq ih value_of_negOne_eq ih h

theorem eval_toLvalExpression (hz : L.toLookup.Holds z) (e : Expression) :
    ∀ x, toLvalExpression L e = some x → e.eval z = z x := by
  have hnone : ∀ (c : FloatConstant) (x : ℕ), (none : Option ℕ) = some x → z x = c.value := nofun
  have hleft : ∀ x, (none : Option ℕ) = some x → -1 = z x := nofun
  induction e with
  | const c => exact nofun
  | lval x => exact fun y h => congrArg z (Option.some.inj h)
  | plus l r ihl ihr =>
    exact fun x h => eval_plusResolve hnone (eval_toFloatConstant hz l)
      (eval_toFloatConstant hz r) ihl ihr h
  | minus l r ihl ihr =>
    intro x h
    rw [Expression.eval, sub_eq_add_neg]
    exact eval_plusResolve hnone (eval_toFloatConstant hz l)
      (eval_toFloatConstant hz (.unaryMinus r))
      ihl (fun y => eval_negated hnone (eval_toFloatConstant hz r) hleft ihr) h
  | times l r ihl ihr =>
    exact fun x h => eval_timesResolve hnone (eval_toFloatConstant hz l)
      (eval_toFloatConstant hz r) ihl
      ihr h
  | unaryMinus e ih =>
    exact fun x h => eval_negated hnone (eval_toFloatConstant hz e) hleft ih h

end

/-! ## The normal form -/

/-- The polynomial is well formed and in normal form. -/
structure PolynomialExpression.Converted (p : PolynomialExpression ℚ) : Prop where
  ok : p.Ok
  result : p.Result

namespace PolynomialExpression
variable (L : FloatLookup)

theorem converted_term {t : PolynomialTerm ℚ} (ht : t.Ok) (hsorted : ∀ q ∈ t.polyFactors, q.Sorted)
    (c : ℚ) : (zero.addMultiplesOfTerm c t).Converted :=
  ⟨ok_zero.addMultiplesOfTerm c ht, result_term hsorted c⟩

theorem Converted.addOperand {p q : PolynomialExpression ℚ} (hp : p.Ok) (hsorted : p.Sorted)
    (hq : q.Converted) (c : ℚ) : (p.addOperand L c q).Ok ∧ (p.addOperand L c q).Sorted :=
  ⟨hp.addMultiplesOfTerm c (PolynomialTerm.ok_one.addPoly L.toLookup hq.ok),
    hsorted.addResult L.toLookup hq.result hq.ok c⟩

theorem eval_addOperand {z : ℕ → ℚ} (hz : L.toLookup.Holds z) (p : PolynomialExpression ℚ)
    {q : PolynomialExpression ℚ} (hq : q.Ok) (c : ℚ) :
    (p.addOperand L c q).eval z = p.eval z + c * q.eval z := by
  rw [addOperand, eval_addMultiplesOfTerm, PolynomialTerm.eval_addPoly hz _ q hq,
    PolynomialTerm.eval_one, one_mul]
  rfl

end PolynomialExpression

section
variable (L : FloatLookup)

theorem converted_fromLeaf (e : Expression) {p : PolynomialExpression ℚ} (hp : p.Converted) :
    (fromLeaf L e p).Converted := by
  rw [fromLeaf]
  split
  · exact PolynomialExpression.converted_term PolynomialTerm.ok_one (List.forall_mem_nil _) _
  · split
    · exact PolynomialExpression.converted_term (PolynomialTerm.ok_one.addMonomer _ _)
        (List.forall_mem_nil _) _
    · exact hp

theorem converted_toPolynomialExpression (e : Expression) :
    (toPolynomialExpression L e).Converted := by
  have hzero : (PolynomialExpression.zero : PolynomialExpression ℚ).Converted :=
    ⟨PolynomialExpression.ok_zero, .inl PolynomialExpression.sorted_zero⟩
  have hsum : ∀ {p q : PolynomialExpression ℚ} (c : ℚ), p.Converted → q.Converted →
      ((PolynomialExpression.zero.addOperand L 1 p).addOperand L c q).Converted := by
    intro p q c hp hq
    obtain ⟨hok, hsorted⟩ := PolynomialExpression.Converted.addOperand L
      PolynomialExpression.ok_zero
      PolynomialExpression.sorted_zero hp 1
    obtain ⟨hok, hsorted⟩ := PolynomialExpression.Converted.addOperand L hok hsorted hq c
    exact ⟨hok, .inl hsorted⟩
  induction e with
  | const c => exact converted_fromLeaf L _ hzero
  | lval x => exact converted_fromLeaf L _ hzero
  | plus l r ihl ihr => exact converted_fromLeaf L _ (hsum 1 ihl ihr)
  | minus l r ihl ihr => exact converted_fromLeaf L _ (hsum (-1) ihl ihr)
  | times l r ihl ihr =>
    refine converted_fromLeaf L _ (PolynomialExpression.converted_term
      ((PolynomialTerm.ok_one.addPoly _ ihl.ok).addPoly _ ihr.ok) ?_ 1)
    exact PolynomialTerm.sorted_addPoly _
      (PolynomialTerm.sorted_addPoly _ (List.forall_mem_nil _) ihl.result ihl.ok) ihr.result ihr.ok
  | unaryMinus e ih =>
    obtain ⟨hok, hsorted⟩ := PolynomialExpression.Converted.addOperand L
      PolynomialExpression.ok_zero
      PolynomialExpression.sorted_zero ih (-1)
    exact converted_fromLeaf L _ ⟨hok, .inl hsorted⟩

variable {L} {z : ℕ → ℚ}

theorem eval_fromLeaf (hz : L.toLookup.Holds z) (e : Expression) {p : PolynomialExpression ℚ}
    (hp : toFloatConstant L e = none → toLvalExpression L e = none → p.eval z = e.eval z) :
    (fromLeaf L e p).eval z = e.eval z := by
  rw [fromLeaf]
  split
  · next c hc =>
    rw [PolynomialExpression.eval_addMultiplesOfTerm, PolynomialExpression.eval_zero,
      PolynomialTerm.eval_one, zero_add, mul_one, eval_toFloatConstant hz e c hc]
    rfl
  · next hc =>
    split
    · next x hx =>
      rw [PolynomialExpression.eval_addMultiplesOfTerm, PolynomialTerm.eval_addMonomer hz,
        PolynomialExpression.eval_zero, PolynomialTerm.eval_one, zero_add, map_one, one_mul,
        one_mul, eval_toLvalExpression hz e x hx]
    · next hx => exact hp hc hx

/-- The polynomial of an expression has its value. -/
theorem eval_toPolynomialExpression (hz : L.toLookup.Holds z) (e : Expression) :
    (toPolynomialExpression L e).eval z = e.eval z := by
  have hok := fun e => (converted_toPolynomialExpression L e).ok
  induction e with
  | const c => exact eval_fromLeaf hz _ nofun
  | lval x => exact eval_fromLeaf hz _ nofun
  | plus l r ihl ihr =>
    refine eval_fromLeaf hz _ fun _ _ => ?_
    rw [PolynomialExpression.eval_addOperand L hz _ (hok r),
      PolynomialExpression.eval_addOperand L hz _
      (hok l), PolynomialExpression.eval_zero, ihl, ihr, zero_add, one_mul, one_mul,
      Expression.eval]
  | minus l r ihl ihr =>
    refine eval_fromLeaf hz _ fun _ _ => ?_
    rw [PolynomialExpression.eval_addOperand L hz _ (hok r),
      PolynomialExpression.eval_addOperand L hz _
      (hok l), PolynomialExpression.eval_zero, ihl, ihr, zero_add, one_mul, neg_one_mul,
      Expression.eval, sub_eq_add_neg]
  | times l r ihl ihr =>
    refine eval_fromLeaf hz _ fun _ _ => ?_
    rw [PolynomialExpression.eval_addMultiplesOfTerm, PolynomialTerm.eval_addPoly hz _ _ (hok r),
      PolynomialTerm.eval_addPoly hz _ _ (hok l), PolynomialTerm.eval_one,
      PolynomialExpression.eval_zero,
      ihl, ihr, map_one, zero_add, one_mul, one_mul, Expression.eval]
  | unaryMinus e ih =>
    refine eval_fromLeaf hz _ fun _ _ => ?_
    rw [PolynomialExpression.eval_addOperand L hz _ (hok e), PolynomialExpression.eval_zero, ih,
      zero_add, neg_one_mul, Expression.eval]

end

/-- The polynomial of an expression has its value under every assignment that agrees with the types
and the constants of the variables; its terms are strictly sorted, no two of them have the same
factors, and no constant is zero. -/
theorem toPolynomialExpression_normalForm (L : FloatLookup) (e : Expression) :
    (∀ z, L.toLookup.Holds z → (toPolynomialExpression L e).eval z = e.eval z) ∧
      (toPolynomialExpression L e).terms.Pairwise (fun t u => t.compareTo u = .lt) ∧
      (toPolynomialExpression L e).terms.Pairwise (fun t u => ¬ t.SameFactors u) ∧
      ∀ t ∈ (toPolynomialExpression L e).terms, t.constant ≠ 0 := by
  have hconv := converted_toPolynomialExpression L e
  exact ⟨fun z hz => eval_toPolynomialExpression hz e, hconv.result.strict, hconv.result.factors,
    hconv.ok.constant_ne_zero⟩

/-- No variable is known to be constant, and all are Booleans. -/
def booleanLookup : FloatLookup := ⟨fun _ => none, fun _ => .boolean⟩

/-- The polynomial of `b * b - b / 2` is `1 / 2` for the Boolean `b = 1`. -/
theorem toPolynomialExpression_half_boolean :
    (toPolynomialExpression booleanLookup
      (.minus (.times (.lval 0) (.lval 0)) (.times (.const ⟨1, 2, 1, rfl⟩) (.lval 0)))).eval
        (fun _ => (1 : ℚ)) = 1 / 2 := by
  have hholds : booleanLookup.toLookup.Holds fun _ => (1 : ℚ) :=
    ⟨fun x c h => (by cases h), fun _ _ => .inr rfl⟩
  rw [(toPolynomialExpression_normalForm booleanLookup _).1 _ hholds]
  norm_num [Expression.eval, FloatConstant.value]

end Frontend

end Pequin
