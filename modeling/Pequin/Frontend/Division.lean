import Pequin.Frontend.Types

/-!
# Types of quotients and remainders

`DivisionOperator` takes the type of a remainder from the divisor and the type of a quotient from
the dividend, and adds or removes the sign. The interval of a constant has no other value than the
constant, which is not what a remainder by it or a quotient of it is.
-/

namespace Pequin

namespace Frontend

namespace DivisionOperator

inductive Mode where
  | remainder
  | quotient
  deriving DecidableEq

def addOrRemoveSign (t : RestrictedIntType) (shouldSign : Bool) : RestrictedIntType :=
  if t.isSigned then (if shouldSign then t else .uint (t.getBits - 1))
  else (if shouldSign then .int (t.getBits + 1) else t)

def getType (mode : Mode) (dividend divisor : RestrictedIntType) : RestrictedIntType :=
  match mode with
  | .remainder => addOrRemoveSign divisor dividend.isSigned
  | .quotient => addOrRemoveSign dividend (dividend.isSigned || divisor.isSigned)

/-- The type that `inlineOp` gives to the remainder by a constant. -/
def inlineRemainderType (dividend : RestrictedIntType) (divisor : ℤ) : RestrictedIntType :=
  addOrRemoveSign (constType divisor) dividend.isSigned

def Mode.apply : Mode → ℤ → ℤ → ℤ
  | .remainder, a, b => a.tmod b
  | .quotient, a, b => a.tdiv b

/-! ## The types of operands -/

/-- An operand of a declared type, or a constant. -/
inductive Operand where
  | int (n : ℕ) (pos : 1 ≤ n)
  | uint (n : ℕ) (pos : 1 ≤ n)
  | const (c : ℤ)

def Operand.type : Operand → RestrictedIntType
  | .int n _ => .int n
  | .uint n _ => .uint n
  | .const c => constType c

/-- The results of the C operators lie in the types, for all values of the operands. -/
structure TypesSound (dividend divisor : Operand) : Prop where
  result (mode : Mode) : ∀ a ∈ dividend.type, ∀ b ∈ divisor.type, b ≠ 0 →
    mode.apply a b ∈ getType mode dividend.type divisor.type
  inlined (c : ℤ) : divisor = .const c → 2 ≤ c → ∀ a ∈ dividend.type,
    a.tmod c ∈ inlineRemainderType dividend.type c

/-- A remainder by a constant has room if the sign of the type changes. -/
def RemainderFits (dividend : Operand) : Operand → Prop
  | .const c => (2 ≤ c → dividend.type.isSigned = true) ∧ (c < 0 → dividend.type.isSigned = false)
  | _ => True

/-- A quotient of a constant has room if the sign of the type changes, and otherwise if the divisor
cannot be other than `1`; the least value of a signed type must not be divided by `-1`. -/
def QuotientFits (divisor : Operand) : Operand → Prop
  | .const c => c = 0 ∨ c = 1 ∨ (2 ≤ c ∧ divisor.type.isSigned = true) ∨
      ∀ b ∈ divisor.type, b = 0 ∨ b = 1
  | .int _ _ => -1 ∉ divisor.type
  | .uint _ _ => True

/-! ## Adding and removing a sign -/

section
variable {t : RestrictedIntType} {v x : ℤ}

theorem addOrRemoveSign_self {sign : Bool} (ht : t.isSigned = sign) :
    addOrRemoveSign t sign = t := by
  subst ht
  cases h : t.isSigned <;> simp [addOrRemoveSign, h]

theorem mem_addSign (ht : t.isSigned = false) (hv : v ∈ t) (hx : x.natAbs ≤ v) :
    x ∈ addOrRemoveSign t true := by
  have hmax := (RestrictedIntType.mem_bounds hv).2
  simp only [RestrictedIntType.getMaxInt, ht, Bool.false_eq_true, if_false] at hmax
  simp only [addOrRemoveSign, ht, Bool.false_eq_true, if_false, if_true, RestrictedIntType.mem_int,
    Nat.add_sub_cancel]
  omega

theorem mem_removeSign (ht : t.isSigned = true) (hv : v ∈ t) (h0 : 0 ≤ x) (hx : x < v.natAbs) :
    x ∈ addOrRemoveSign t false := by
  obtain ⟨hmin, hmax⟩ := RestrictedIntType.mem_bounds hv
  simp only [RestrictedIntType.getMinInt, RestrictedIntType.getMaxInt, ht, if_true] at hmin hmax
  have hlt : x < 2 ^ (t.getBits - 1) := by omega
  simp only [addOrRemoveSign, ht, if_true, Bool.false_eq_true, if_false]
  -- the length `0` is made `1`
  refine ⟨h0, ?_⟩
  have hmono : (2 : ℤ) ^ (t.getBits - 1) ≤ 2 ^ max (t.getBits - 1) 1 :=
    pow_le_pow_right₀ (by decide) (le_max_left _ _)
  simp only [RestrictedIntType.uint, RestrictedIntType.getInterval]
  omega

end

/-! ## Remainders -/

theorem natAbs_tmod_lt (a : ℤ) {b : ℤ} (hb : b ≠ 0) : (a.tmod b).natAbs < b.natAbs := by
  rw [Int.natAbs_tmod]
  exact Nat.mod_lt _ (Int.natAbs_pos.2 hb)

theorem constType_of_neg {c : ℤ} (hc : c < 0) : constType c = .signed (.point c) := by
  rw [constType, if_neg (by omega), dif_neg (by omega)]

theorem constType_of_two_le {c : ℤ} (hc : 2 ≤ c) :
    constType c = .unsigned (.point c) (show 0 ≤ c by omega) := by
  rw [constType, if_neg (by omega), dif_pos (by omega)]

theorem constType_bit {c : ℤ} (hc : c = 0 ∨ c = 1) : constType c = .boolean := if_pos hc.symm

/-- A constant is negative, one of `0` and `1`, or at least `2`. -/
theorem const_cases (c : ℤ) : c < 0 ∨ (c = 0 ∨ c = 1) ∨ 2 ≤ c := by omega

variable {dividend divisor : Operand}

theorem remainder_mem (hfits : RemainderFits dividend divisor) {a b : ℤ} (ha : a ∈ dividend.type)
    (hb : b ∈ divisor.type) (hb0 : b ≠ 0) :
    a.tmod b ∈ getType .remainder dividend.type divisor.type := by
  have hlt := natAbs_tmod_lt a hb0
  simp only [getType]
  cases hsign : dividend.type.isSigned with
  | false =>
    have hr : 0 ≤ a.tmod b := Int.tmod_nonneg _ (RestrictedIntType.nonneg_of_mem hsign ha)
    cases hdiv : divisor.type.isSigned with
    | true => exact mem_removeSign hdiv hb hr (by omega)
    | false =>
      have hbn := RestrictedIntType.nonneg_of_mem hdiv hb
      rw [addOrRemoveSign_self hdiv]
      cases divisor with
      | int n pos => cases hdiv
      | uint n pos =>
        simp only [Operand.type, RestrictedIntType.mem_uint pos] at hb ⊢
        omega
      | const c =>
        rcases const_cases c with hc | hc | hc
        · rw [Operand.type, constType_of_neg hc] at hdiv
          cases hdiv
        · simp only [Operand.type, constType_bit hc, RestrictedIntType.mem_boolean] at hb ⊢
          omega
        · rw [hfits.1 hc] at hsign
          cases hsign
  | true =>
    cases hdiv : divisor.type.isSigned with
    | false =>
      have hbn := RestrictedIntType.nonneg_of_mem hdiv hb
      exact mem_addSign hdiv hb (by omega)
    | true =>
      rw [addOrRemoveSign_self hdiv]
      cases divisor with
      | int n pos =>
        simp only [Operand.type, RestrictedIntType.mem_int] at hb ⊢
        omega
      | uint n pos => cases hdiv
      | const c =>
        rcases const_cases c with hc | hc | hc
        · rw [hfits.2 hc] at hsign
          cases hsign
        · rw [Operand.type, constType_bit hc] at hdiv
          cases hdiv
        · rw [Operand.type, constType_of_two_le hc] at hdiv
          cases hdiv

/-- The quotient by a number other than `-1` is less than `2 ^ k` if the dividend is a signed number
of `k + 1` bits. -/
theorem tdiv_lt_two_pow {a b : ℤ} {k : ℕ} (hmin : -2 ^ k ≤ a) (hmax : a < 2 ^ k) (hb : b ≠ -1) :
    -2 ^ k ≤ a.tdiv b ∧ a.tdiv b < 2 ^ k := by
  have hpow := two_pow_pos k
  by_cases hlarge : 2 ≤ b.natAbs
  · have hhalf : (a.tdiv b).natAbs ≤ a.natAbs / 2 := by
      rw [Int.natAbs_tdiv]
      exact Nat.div_le_div_left hlarge (by decide)
    omega
  · obtain rfl | rfl : b = 0 ∨ b = 1 := by omega
    · rw [Int.tdiv_zero]
      omega
    · rw [Int.tdiv_one]
      exact ⟨hmin, hmax⟩

theorem quotient_mem (hfits : QuotientFits divisor dividend) {a b : ℤ} (ha : a ∈ dividend.type)
    (hb : b ∈ divisor.type) (hb0 : b ≠ 0) :
    a.tdiv b ∈ getType .quotient dividend.type divisor.type := by
  have hle := Int.natAbs_tdiv_le_natAbs a b
  simp only [getType]
  cases hsign : dividend.type.isSigned with
  | false =>
    have han := RestrictedIntType.nonneg_of_mem hsign ha
    cases hdiv : divisor.type.isSigned with
    | true => exact mem_addSign hsign ha (by omega)
    | false =>
      have hq : 0 ≤ a.tdiv b := Int.tdiv_nonneg han (RestrictedIntType.nonneg_of_mem hdiv hb)
      rw [Bool.or_false, addOrRemoveSign_self hsign]
      cases dividend with
      | int n pos => cases hsign
      | uint n pos =>
        simp only [Operand.type, RestrictedIntType.mem_uint pos] at ha ⊢
        omega
      | const c =>
        have hone : (∀ b ∈ divisor.type, b = 0 ∨ b = 1) → a.tdiv b ∈ (Operand.const c).type := by
          intro h
          rw [(h b hb).resolve_left hb0, Int.tdiv_one]
          exact ha
        have hbit : c = 0 ∨ c = 1 → a.tdiv b ∈ (Operand.const c).type := by
          intro hc
          simp only [Operand.type, constType_bit hc, RestrictedIntType.mem_boolean] at ha ⊢
          omega
        rcases hfits with hc | hc | ⟨-, hsigned⟩ | h
        · exact hbit (.inl hc)
        · exact hbit (.inr hc)
        · rw [hdiv] at hsigned
          cases hsigned
        · exact hone h
  | true =>
    rw [Bool.true_or, addOrRemoveSign_self hsign]
    cases dividend with
    | int n pos =>
      have hne : b ≠ -1 := fun h => hfits (h ▸ hb)
      simp only [Operand.type, RestrictedIntType.mem_int] at ha ⊢
      exact tdiv_lt_two_pow ha.1 ha.2 hne
    | uint n pos => cases hsign
    | const c =>
      have hneg : c < 0 := by
        rcases const_cases c with hc | hc | hc
        · exact hc
        · rw [Operand.type, constType_bit hc] at hsign
          cases hsign
        · rw [Operand.type, constType_of_two_le hc] at hsign
          cases hsign
      have hone : ∀ b ∈ divisor.type, b = 0 ∨ b = 1 :=
        hfits.elim (by omega) (·.elim (by omega) (·.elim (by omega) id))
      rw [(hone b hb).resolve_left hb0, Int.tdiv_one]
      exact ha

/-! ## Where the types have no room -/

theorem exists_mem (t : RestrictedIntType) : ∃ v, v ∈ t :=
  ⟨t.getInterval.lower, le_rfl, t.getInterval.lower_le_upper⟩

/-- Only the divisor `1` leaves a number as it is. -/
theorem eq_one_of_tdiv_eq {a b : ℤ} (ha : a ≠ 0) (h : a.tdiv b = a) : b = 1 := by
  have habs : a.natAbs / b.natAbs = a.natAbs := by
    have := Int.natAbs_tdiv a b
    rw [h] at this
    exact this.symm
  have hone : b.natAbs = 1 := (Nat.div_eq_self.1 habs).resolve_left (Int.natAbs_ne_zero.2 ha)
  rcases Int.natAbs_eq_iff.1 hone with hb | hb
  · exact hb
  · rw [hb, Int.tdiv_neg, Nat.cast_one, Int.tdiv_one] at h
    omega

theorem TypesSound.remainderFits (h : TypesSound dividend divisor) :
    RemainderFits dividend divisor := by
  cases divisor with
  | int n pos | uint n pos => trivial
  | const c =>
    obtain ⟨a, ha⟩ := exists_mem dividend.type
    have hlt : c ≠ 0 → a.tmod c ≠ c := fun hc heq => by
      have := natAbs_tmod_lt a hc
      omega
    have hmem : c ≠ 0 → a.tmod c ∈ addOrRemoveSign (constType c) dividend.type.isSigned :=
      h.result .remainder a ha c (mem_constType c)
    constructor
    · intro hc
      by_contra hsign
      rw [constType_of_two_le hc, addOrRemoveSign_self (Bool.not_eq_true _ ▸ hsign).symm] at hmem
      exact hlt (by omega) (IntConstantInterval.mem_point.1 (hmem (by omega)))
    · intro hc
      by_contra hsign
      rw [constType_of_neg hc, addOrRemoveSign_self (Bool.not_eq_false _ ▸ hsign).symm] at hmem
      exact hlt (by omega) (IntConstantInterval.mem_point.1 (hmem (by omega)))

theorem TypesSound.quotientFits (h : TypesSound dividend divisor) :
    QuotientFits divisor dividend := by
  cases dividend with
  | uint n pos => trivial
  | int n pos =>
    intro hb
    have hpow := two_pow_pos (n - 1)
    have hmin : -2 ^ (n - 1) ∈ RestrictedIntType.int n := RestrictedIntType.mem_int.2
      ⟨le_rfl, by omega⟩
    have hmem : (-2 ^ (n - 1) : ℤ).tdiv (-1) ∈ addOrRemoveSign (.int n) true :=
      h.result .quotient _ hmin _ hb (by decide)
    have hself : addOrRemoveSign (.int n) true = .int n := addOrRemoveSign_self rfl
    rw [hself, RestrictedIntType.mem_int, Int.tdiv_neg, Int.tdiv_one, neg_neg] at hmem
    omega
  | const c =>
    -- without a change of the sign the quotient has to be the constant
    have hone : c ≠ 0 → addOrRemoveSign (constType c)
      ((constType c).isSigned || divisor.type.isSigned) =
        constType c → (∀ v, v ∈ constType c → v = c) → ∀ b ∈ divisor.type, b = 0 ∨ b = 1 := by
      intro hc heq hpoint b hb
      by_contra hne
      have hmem : c.tdiv b ∈ addOrRemoveSign (constType c) _ :=
        h.result .quotient c (mem_constType c) b hb (by omega)
      exact hne (.inr (eq_one_of_tdiv_eq hc (hpoint _ (heq ▸ hmem))))
    rcases const_cases c with hc | hc | hc
    · rw [constType_of_neg hc] at hone
      exact .inr (.inr (.inr (hone (by omega) (addOrRemoveSign_self rfl)
        fun v => IntConstantInterval.mem_point.1)))
    · exact hc.imp_right .inl
    · cases hsign : divisor.type.isSigned with
      | true => exact .inr (.inr (.inl ⟨hc, hsign⟩))
      | false =>
        rw [constType_of_two_le hc, hsign] at hone
        exact .inr (.inr (.inr (hone (by omega) (addOrRemoveSign_self rfl)
          fun v => IntConstantInterval.mem_point.1)))

/-- The types of quotient and remainder are right just where constants and `-1` leave room. -/
theorem typesSound_iff (dividend divisor : Operand) :
    TypesSound dividend divisor ↔ RemainderFits dividend divisor ∧
      QuotientFits divisor dividend := by
  constructor
  · exact fun h => ⟨h.remainderFits, h.quotientFits⟩
  · rintro ⟨hr, hq⟩
    refine ⟨fun mode a ha b hb hb0 => ?_, fun c hc hc2 a ha => ?_⟩
    · cases mode with
      | remainder => exact remainder_mem hr ha hb hb0
      | quotient => exact quotient_mem hq ha hb hb0
    · subst hc
      exact remainder_mem hr ha (mem_constType c) (by omega)

/-- `7 % 5` is `2`, and the type of the remainder has the value `5` only. -/
theorem remainder_of_seven_by_five :
    (7 : ℤ) ∈ (Operand.uint 32 (by decide)).type ∧ (5 : ℤ) ∈ (Operand.const 5).type ∧
      ¬ TypesSound (.uint 32 (by decide)) (.const 5) := by
  refine ⟨by decide, by decide, fun h => ?_⟩
  have := h.inlined 5 rfl (by decide) 7 (by decide)
  revert this
  decide

end DivisionOperator

end Frontend

end Pequin
