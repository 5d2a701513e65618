import Mathlib.Algebra.Order.BigOperators.Group.List
import Pequin.Frontend.Cast
import Pequin.Frontend.Recorded

/-!
# The inferred type of a polynomial

`PolynomialExpression.getType` has three ways to find an interval. With one to ten Boolean inputs it
evaluates the polynomial for all values of them and unites the types; otherwise, up to four terms
are added as intervals; otherwise the types of all terms that were inserted are united, and the
union is multiplied by the number of terms.

The type of a term is the product of the types of its factors, where a factor of `BooleanType` does
not change the type of the others. So it is the type of the term unless a Boolean factor is `0`.
Substitution leaves no Boolean factor, and the union of the third way contains `0`; the second way
is not right for more than ten Boolean inputs.
-/

namespace Pequin

namespace Frontend

/-! ## The code -/

def intervalType (i : IntConstantInterval) : RestrictedIntType :=
  if h : i.lower < 0 then .signed i else .unsigned i (not_lt.1 h)

def unionTypes : List RestrictedIntType → Option RestrictedIntType
  | [] => none
  | t :: ts => some (ts.foldl .looseUnion t)

/-- All ways to replace the given variables by `0` and `1`. -/
def substitutions : List ℕ → List (ℕ → Option ℤ)
  | [] => [fun _ => none]
  | x :: xs => [0, 1].flatMap fun v => (substitutions xs).map fun σ => Function.update σ x (some v)

section
variable (L : Lookup ℤ)

mutual
def PolynomialTerm.booleanInputs : PolynomialTerm ℤ → List ℕ
  | .mk _ ms ps _ => ms.filter L.isBoolean ++ PolynomialTerm.booleanInputsOfPolys ps

def PolynomialTerm.booleanInputsOfPolys : List (PolynomialExpression ℤ) → List ℕ
  | [] => []
  | p :: ps => p.booleanInputs ++ PolynomialTerm.booleanInputsOfPolys ps

/-- The Boolean inputs of all terms that were inserted. -/
def PolynomialExpression.booleanInputs : PolynomialExpression ℤ → List ℕ
  | .mk _ added => PolynomialExpression.booleanInputsOfTerms added

def PolynomialExpression.booleanInputsOfTerms : List (PolynomialTerm ℤ) → List ℕ
  | [] => []
  | t :: ts => t.booleanInputs ++ PolynomialExpression.booleanInputsOfTerms ts
end

/-- The variables of a term, replaced or kept. -/
def PolynomialTerm.evaluateMonomers (σ : ℕ → Option ℤ) :
    PolynomialTerm ℤ → List ℕ → PolynomialTerm ℤ
  | t, [] => t
  | t, m :: ms =>
    match σ m with
    | some v => PolynomialTerm.evaluateMonomers σ (t.addConst v) ms
    | none => PolynomialTerm.evaluateMonomers σ (t.addMonomer L m) ms

mutual
def PolynomialTerm.evaluate (σ : ℕ → Option ℤ) : PolynomialTerm ℤ → PolynomialTerm ℤ
  | .mk c ms ps _ =>
    (PolynomialTerm.evaluatePolys σ (PolynomialTerm.evaluateMonomers L σ .one ms) ps).addConst c

def PolynomialTerm.evaluatePolys (σ : ℕ → Option ℤ) (t : PolynomialTerm ℤ) :
    List (PolynomialExpression ℤ) → PolynomialTerm ℤ
  | [] => t
  | p :: ps => PolynomialTerm.evaluatePolys σ (t.addPoly L (p.evaluate σ)) ps

/-- `evaluate`: the terms are added up anew, and the copy forgets those that cancelled. -/
def PolynomialExpression.evaluate (σ : ℕ → Option ℤ) : PolynomialExpression ℤ → PolynomialExpression
  ℤ | .mk ts _ => (PolynomialExpression.evaluateTerms σ .zero ts).duplicate

def PolynomialExpression.evaluateTerms (σ : ℕ → Option ℤ) (p : PolynomialExpression ℤ) :
    List (PolynomialTerm ℤ) → PolynomialExpression ℤ
  | [] => p
  | t :: ts => PolynomialExpression.evaluateTerms σ (p.addMultiplesOfTerm 1 (t.evaluate σ)) ts
end

section
variable (substitution : PolynomialExpression ℤ → Option RestrictedIntType)

mutual
/-- The type of a term, given what substitution finds for polynomials. -/
def PolynomialTerm.getTypeWith : PolynomialTerm ℤ → RestrictedIntType
  | .mk c ms ps _ => PolynomialTerm.multiplyPolys ((ms.map L.type).foldl .multiplyTypes
      (constType c)) ps

def PolynomialTerm.multiplyPolys (toRet : RestrictedIntType) :
    List (PolynomialExpression ℤ) → RestrictedIntType
  | [] => toRet
  | p :: ps => PolynomialTerm.multiplyPolys (toRet.multiplyTypes p.getTypeWith) ps

def PolynomialExpression.getTypeWith : PolynomialExpression ℤ → RestrictedIntType
  | .mk ts added =>
    match substitution (.mk ts added) with
    | some exactType => exactType
    | none =>
      if ts.length ≤ 4 then intervalType (PolynomialExpression.sumIntervals (.point 0) ts)
      else .sumTypes ts.length (PolynomialExpression.componentType added)

/-- `getTypeByIntervalArithmetic`. -/
def PolynomialExpression.sumIntervals (ici : IntConstantInterval) :
    List (PolynomialTerm ℤ) → IntConstantInterval
  | [] => ici
  | t :: ts => PolynomialExpression.sumIntervals (ici.add t.getTypeWith.getInterval) ts

/-- What `TermsList.add` has made of the types of the inserted terms. -/
def PolynomialExpression.componentType : List (PolynomialTerm ℤ) → RestrictedIntType
  | [] => .boolean
  | e :: added => (PolynomialExpression.componentType added).looseUnion e.getTypeWith
end

end

/-- The inputs are found in no particular order. After a substitution there are no Boolean inputs,
so a depth of `1` is enough. -/
def getTypeByBooleanSubstitution : (depth : ℕ) → PolynomialExpression ℤ → Option RestrictedIntType
  | 0, _ => none
  | depth + 1, p =>
    let inputs := (p.booleanInputs L).dedup
    if inputs.length = 0 then none
    else if 10 < inputs.length then none
    else unionTypes ((substitutions inputs).map fun σ =>
      (p.evaluate L σ).getTypeWith L (getTypeByBooleanSubstitution depth))

def PolynomialTerm.getType (depth : ℕ) (t : PolynomialTerm ℤ) : RestrictedIntType :=
  t.getTypeWith L (getTypeByBooleanSubstitution L depth)

def PolynomialExpression.getType (depth : ℕ) (p : PolynomialExpression ℤ) : RestrictedIntType :=
  p.getTypeWith L (getTypeByBooleanSubstitution L depth)

end

/-! ## Products -/

/-- A value of a type that may be a factor: the rule for `BooleanType` is right for it. -/
structure IsFactor (v : ℤ) (T : RestrictedIntType) : Prop where
  mem : v ∈ T
  eq_one : T = .boolean → v = 1

theorem IsFactor.multiply {v w : ℤ} {T U : RestrictedIntType} (hv : IsFactor v T)
    (hw : IsFactor w U) : IsFactor (v * w) (T.multiplyTypes U) where
  mem := RestrictedIntType.mem_multiplyTypes hv.mem hw.mem (fun h => .inl (hv.eq_one h))
    fun h => .inl (hw.eq_one h)
  eq_one h := by
    rw [RestrictedIntType.multiplyTypes.eq_def] at h
    split at h
    · rw [hv.eq_one rfl, hw.eq_one h, one_mul]
    · rw [hv.eq_one h, hw.eq_one rfl, one_mul]
    · split at h <;> cases h

theorem IsFactor.foldl {ι : Type} {value : ι → ℤ} {type : ι → RestrictedIntType} {l : List ι}
    (h : ∀ i ∈ l, IsFactor (value i) (type i)) {v : ℤ} {T : RestrictedIntType} (hv : IsFactor v T) :
    IsFactor (v * (l.map value).prod) ((l.map type).foldl .multiplyTypes T) := by
  induction l generalizing v T with
  | nil => simpa using hv
  | cons i l ih =>
    obtain ⟨hi, hl⟩ := List.forall_mem_cons.1 h
    rw [List.map_cons, List.map_cons, List.prod_cons, List.foldl_cons, ← mul_assoc]
    exact ih hl (hv.multiply hi)

theorem isFactor_const {c : ℤ} (hc : c ≠ 0) : IsFactor c (constType c) where
  mem := mem_constType c
  eq_one h := (RestrictedIntType.mem_boolean.1 (h ▸ mem_constType c)).resolve_left hc

section
variable {L : Lookup ℤ} {z : ℕ → ℤ} {substitution : PolynomialExpression ℤ →
  Option RestrictedIntType}

theorem PolynomialTerm.multiplyPolys_eq (T : RestrictedIntType)
    (ps : List (PolynomialExpression ℤ)) : PolynomialTerm.multiplyPolys L substitution T ps =
      (ps.map fun p => p.getTypeWith L substitution).foldl .multiplyTypes T := by
  induction ps generalizing T with
  | nil => rfl
  | cons p ps ih => rw [PolynomialTerm.multiplyPolys, ih, List.map_cons, List.foldl_cons]

/-- The type of a term is right unless one of the Boolean factors is `0`. -/
theorem PolynomialTerm.isFactor_getTypeWith {t : PolynomialTerm ℤ} (hc : t.constant ≠ 0)
    (hms : ∀ m ∈ t.monomerFactors, IsFactor (z m) (L.type m))
    (hps : ∀ q ∈ t.polyFactors, IsFactor (q.eval z) (q.getTypeWith L substitution)) :
    IsFactor (t.eval z) (t.getTypeWith L substitution) := by
  cases t with
  | mk c ms ps d =>
    rw [PolynomialTerm.getTypeWith, PolynomialTerm.multiplyPolys_eq,
      PolynomialTerm.eval_mk, ← mul_assoc]
    exact IsFactor.foldl hps (IsFactor.foldl hms (isFactor_const hc))

/-- If a term is not zero, none of its factors is. -/
theorem PolynomialTerm.mem_getTypeWith_of_ne_zero {t : PolynomialTerm ℤ} (hz : ∀ x, z x ∈ L.type x)
    (hps : ∀ q ∈ t.polyFactors, IsFactor (q.eval z) (q.getTypeWith L substitution))
    (hne : t.eval z ≠ 0) : t.eval z ∈ t.getTypeWith L substitution := by
  have hfactors : t.constant ≠ 0 ∧ ∀ m ∈ t.monomerFactors, z m ≠ 0 := by
    cases t with
    | mk c ms ps d =>
      rw [PolynomialTerm.eval_mk] at hne
      have hms := left_ne_zero_of_mul (right_ne_zero_of_mul hne)
      exact ⟨left_ne_zero_of_mul hne, fun m hm h0 =>
        hms (List.prod_eq_zero (List.mem_map.2 ⟨m, hm, h0⟩))⟩
  refine (PolynomialTerm.isFactor_getTypeWith hfactors.1 (fun m hm => ⟨hz m, fun hb => ?_⟩) hps).mem
  exact (RestrictedIntType.mem_boolean.1 (hb ▸ hz m)).resolve_left (hfactors.2 m hm)

/-! ## Sums -/

variable {v : ℤ}

theorem mem_intervalType {i : IntConstantInterval} (h : v ∈ i) : v ∈ intervalType i := by
  rw [intervalType]
  split <;> exact h

theorem mem_sumIntervals {ts : List (PolynomialTerm ℤ)}
    (h : ∀ t ∈ ts, t.eval z ∈ t.getTypeWith L substitution) {ici : IntConstantInterval}
    (hv : v ∈ ici) :
    v + (ts.map fun t => t.eval z).sum ∈ PolynomialExpression.sumIntervals L
      substitution ici ts := by
  induction ts generalizing v ici with
  | nil => simpa [PolynomialExpression.sumIntervals] using hv
  | cons t ts ih =>
    obtain ⟨ht, hts⟩ := List.forall_mem_cons.1 h
    rw [PolynomialExpression.sumIntervals, List.map_cons, List.sum_cons, ← add_assoc]
    exact ih hts (IntConstantInterval.mem_add hv ht)

theorem zero_mem_componentType (added : List (PolynomialTerm ℤ)) :
    0 ∈ PolynomialExpression.componentType L substitution added := by
  induction added with
  | nil => exact RestrictedIntType.mem_boolean.2 (.inl rfl)
  | cons e added ih => exact RestrictedIntType.mem_looseUnion (.inl ih)

theorem mem_componentType {added : List (PolynomialTerm ℤ)} {e : PolynomialTerm ℤ} (he : e ∈ added)
    (hv : v ∈ e.getTypeWith L substitution) :
    v ∈ PolynomialExpression.componentType L substitution added := by
  induction added with
  | nil => cases he
  | cons e' added ih =>
    rcases List.mem_cons.1 he with rfl | he
    · exact RestrictedIntType.mem_looseUnion (.inr hv)
    · exact RestrictedIntType.mem_looseUnion (.inl (ih he))

theorem sum_mem_addNtimes {vs : List ℤ} {i : IntConstantInterval} (h : ∀ v ∈ vs, v ∈ i) :
    vs.sum ∈ i.addNtimes vs.length := by
  have hlower : vs.length • i.lower ≤ vs.sum := List.card_nsmul_le_sum vs _ fun v hv => (h v hv).1
  have hupper : vs.sum ≤ vs.length • i.upper := List.sum_le_card_nsmul vs _ fun v hv => (h v hv).2
  rw [nsmul_eq_mul, mul_comm] at hlower hupper
  exact ⟨hlower, hupper⟩

/-- The second and the third way: the third one needs the types of terms that are not zero only. -/
theorem PolynomialExpression.mem_getTypeWith {p : PolynomialExpression ℤ} (hsub : substitution p =
    none) (hadded : ∀ t ∈ p.terms, t ∈ p.added)
    (hne : ∀ t ∈ p.terms, t.eval z ≠ 0 → t.eval z ∈ t.getTypeWith L substitution)
    (hfew : p.terms.length ≤ 4 → ∀ t ∈ p.terms, t.eval z ∈ t.getTypeWith L substitution) :
    p.eval z ∈ p.getTypeWith L substitution := by
  rw [PolynomialExpression.eval_eq]
  cases p with
  | mk ts added =>
    rw [PolynomialExpression.getTypeWith, hsub]
    dsimp only
    split
    · next hlen =>
      rw [← zero_add (List.sum _)]
      exact mem_intervalType (mem_sumIntervals (hfew hlen) (IntConstantInterval.mem_point.2 rfl))
    · next hlen =>
      have hmem : ∀ v ∈ ts.map fun t => t.eval z,
          v ∈ (PolynomialExpression.componentType L substitution added).getInterval := by
        intro v hv
        obtain ⟨t, ht, rfl⟩ := List.mem_map.1 hv
        rcases eq_or_ne (t.eval z) 0 with h0 | h0
        · rw [h0]
          exact zero_mem_componentType added
        · exact mem_componentType (hadded t ht) (hne t ht h0)
      have hsum := sum_mem_addNtimes hmem
      rw [List.length_map] at hsum
      rw [RestrictedIntType.mem_iff, RestrictedIntType.getInterval_sumTypes (by omega)]
      exact hsum

theorem RestrictedIntType.looseUnion_ne_boolean {a b : RestrictedIntType} (ha : a ≠ .boolean)
    (hb : b ≠ .boolean) : a.looseUnion b ≠ .boolean := by
  rw [RestrictedIntType.looseUnion]
  split
  · exact hb
  · split
    · exact ha
    · split <;> simp

variable {ts : List RestrictedIntType}

theorem unionTypes_ne_boolean (h : ∀ t ∈ ts, t ≠ .boolean) {T : RestrictedIntType}
    (hT : unionTypes ts = some T) : T ≠ .boolean := by
  cases ts with
  | nil => cases hT
  | cons t ts =>
    obtain ⟨ht, hts⟩ := List.forall_mem_cons.1 h
    obtain rfl := Option.some.inj hT
    clear hT h
    induction ts generalizing t with
    | nil => exact ht
    | cons u ts ih =>
      obtain ⟨hu, hts⟩ := List.forall_mem_cons.1 hts
      exact ih _ (RestrictedIntType.looseUnion_ne_boolean ht hu) hts

theorem mem_foldl_looseUnion {T : RestrictedIntType} (h : v ∈ T ∨ ∃ t ∈ ts, v ∈ t) :
    v ∈ ts.foldl .looseUnion T := by
  induction ts generalizing T with
  | nil => simpa using h
  | cons t ts ih =>
    refine ih ?_
    rcases h with h | ⟨u, hu, h⟩
    · exact .inl (RestrictedIntType.mem_looseUnion (.inl h))
    · rcases List.mem_cons.1 hu with rfl | hu
      · exact .inl (RestrictedIntType.mem_looseUnion (.inr h))
      · exact .inr ⟨u, hu, h⟩

theorem mem_unionTypes {t : RestrictedIntType} (ht : t ∈ ts) (hv : v ∈ t) :
    ∃ T, unionTypes ts = some T ∧ v ∈ T := by
  cases ts with
  | nil => cases ht
  | cons u ts =>
    refine ⟨_, rfl, mem_foldl_looseUnion ?_⟩
    rcases List.mem_cons.1 ht with rfl | ht
    · exact .inl hv
    · exact .inr ⟨t, ht, hv⟩

/-- A polynomial has never `BooleanType` itself. -/
theorem PolynomialExpression.getTypeWith_ne_boolean
    (h : ∀ q T, substitution q = some T → T ≠ .boolean) (p : PolynomialExpression ℤ) :
    p.getTypeWith L substitution ≠ .boolean := by
  cases p with
  | mk ts added =>
    rw [PolynomialExpression.getTypeWith]
    split
    · next T hT => exact h _ T hT
    · split
      · rw [intervalType]
        split <;> simp
      · next hlen =>
        rw [RestrictedIntType.sumTypes, if_neg (by omega), if_neg (by omega)]
        split <;> simp

end

/-! ## Boolean inputs -/

section
variable {L : Lookup ℤ} {P : ℕ → Prop}

theorem PolynomialTerm.mem_booleanInputs {t : PolynomialTerm ℤ} {x : ℕ} :
    x ∈ t.booleanInputs L ↔
      x ∈ t.monomerFactors ∧ L.isBoolean x ∨ ∃ q ∈ t.polyFactors, x ∈ q.booleanInputs L := by
  have hpolys : ∀ ps : List (PolynomialExpression ℤ),
      x ∈ PolynomialTerm.booleanInputsOfPolys L ps ↔ ∃ q ∈ ps, x ∈ q.booleanInputs L := by
    intro ps
    induction ps with
    | nil => simp [PolynomialTerm.booleanInputsOfPolys]
    | cons p ps ih => simp [PolynomialTerm.booleanInputsOfPolys, ih]
  cases t with
  | mk c ms ps d =>
    rw [PolynomialTerm.booleanInputs, List.mem_append, List.mem_filter, hpolys]
    rfl

variable {p : PolynomialExpression ℤ}

theorem PolynomialExpression.mem_booleanInputs {x : ℕ} :
    x ∈ p.booleanInputs L ↔ ∃ t ∈ p.added, x ∈ t.booleanInputs L := by
  cases p with
  | mk ts added =>
    rw [PolynomialExpression.booleanInputs, PolynomialExpression.added]
    induction added with
    | nil => simp [PolynomialExpression.booleanInputsOfTerms]
    | cons t added ih => simp [PolynomialExpression.booleanInputsOfTerms, ih]

/-- A Boolean variable anywhere in a polynomial is recorded as an input. -/
theorem PolynomialExpression.Over.booleanInputs (h : p.Over P) {S : ℕ → Prop}
    (hS : ∀ x ∈ p.booleanInputs L, S x) : p.Over fun x => L.isBoolean x → S x := by
  induction h with
  | @mk ts added mem_added monomers polys ih =>
    have hinput : ∀ t ∈ added, ∀ x ∈ t.booleanInputs L, S x := fun t ht x hx =>
      hS x (PolynomialExpression.mem_booleanInputs.2 ⟨t, ht, hx⟩)
    refine .mk mem_added (fun t ht m hm hb => ?_) fun t ht q hq => ih t ht q hq fun x hx => ?_
    · exact hinput t ht m (PolynomialTerm.mem_booleanInputs.2 (.inl ⟨hm, hb⟩))
    · exact hinput t ht x (PolynomialTerm.mem_booleanInputs.2 (.inr ⟨q, hq, hx⟩))

theorem PolynomialExpression.Over.isBoolean_of_mem (h : p.Over P) :
    ∀ x ∈ p.booleanInputs L, L.isBoolean x := by
  induction h with
  | @mk ts added mem_added monomers polys ih =>
    intro x hx
    obtain ⟨t, ht, hx⟩ := PolynomialExpression.mem_booleanInputs.1 hx
    rcases PolynomialTerm.mem_booleanInputs.1 hx with ⟨-, hb⟩ | ⟨q, hq, hx⟩
    · exact hb
    · exact ih t ht q hq x hx

theorem PolynomialExpression.Over.booleanInputs_eq_nil (h : p.Over fun x => ¬ L.isBoolean x) :
    p.booleanInputs L = [] := by
  refine List.eq_nil_iff_forall_not_mem.2 ?_
  induction h with
  | @mk ts added mem_added monomers polys ih =>
    intro x hx
    obtain ⟨t, ht, hx⟩ := PolynomialExpression.mem_booleanInputs.1 hx
    rcases PolynomialTerm.mem_booleanInputs.1 hx with ⟨hm, hb⟩ | ⟨q, hq, hx⟩
    · exact monomers t ht x hm hb
    · exact ih t ht q hq x hx

variable {z : ℕ → ℤ} {substitution : PolynomialExpression ℤ → Option RestrictedIntType}

/-- Without Boolean inputs the type is right. -/
theorem PolynomialExpression.Over.isFactor_getTypeWith (h : p.Over fun x => ¬ L.isBoolean x)
    (hok : p.Ok) (hz : ∀ x, z x ∈ L.type x)
    (hnone : ∀ q, q.booleanInputs L = [] → substitution q = none)
    (hne : ∀ q T, substitution q = some T → T ≠ .boolean) :
    IsFactor (p.eval z) (p.getTypeWith L substitution) := by
  refine ⟨?_, fun hb => absurd hb (getTypeWith_ne_boolean hne p)⟩
  have hempty := hnone p h.booleanInputs_eq_nil
  induction h with
  | @mk ts added mem_added monomers polys ih =>
    have hterm : ∀ t ∈ ts, t.eval z ∈ t.getTypeWith L substitution := by
      intro t ht
      have hadded := mem_added t ht
      have htok := hok.terms_ok t ht
      refine (PolynomialTerm.isFactor_getTypeWith (hok.constant_ne_zero t ht)
        (fun m hm => ⟨hz m, ?_⟩)
        fun q hq => ⟨?_, fun hb => absurd hb (getTypeWith_ne_boolean hne q)⟩).mem
      · intro hb
        exact absurd (by rw [Lookup.isBoolean, hb]; decide) (monomers t hadded m hm)
      · exact ih t hadded q hq (htok.polysOk q hq).1
          (hnone q (polys t hadded q hq).booleanInputs_eq_nil)
    exact mem_getTypeWith hempty mem_added (fun t ht _ => hterm t ht) fun _ => hterm

end

/-! ## Substitution -/

section
variable {L : Lookup ℤ} {σ : ℕ → Option ℤ} {P Q : ℕ → Prop}

theorem PolynomialTerm.Ok.evaluateMonomers {t : PolynomialTerm ℤ} (ht : t.Ok) (ms : List ℕ) :
    (t.evaluateMonomers L σ ms).Ok := by
  induction ms generalizing t with
  | nil => exact ht
  | cons m ms ih =>
    rw [PolynomialTerm.evaluateMonomers]
    split
    · exact ih (ht.addConst _)
    · exact ih (ht.addMonomer L m)

theorem PolynomialTerm.Over.evaluateMonomers {t : PolynomialTerm ℤ} (ht : t.Over P) {ms : List ℕ}
    (hms : ∀ m ∈ ms, σ m = none → P m) : (t.evaluateMonomers L σ ms).Over P := by
  induction ms generalizing t with
  | nil => exact ht
  | cons m ms ih =>
    obtain ⟨hm, hms⟩ := List.forall_mem_cons.1 hms
    rw [PolynomialTerm.evaluateMonomers]
    split
    · exact ih (ht.addConst _) hms
    · next hnone => exact ih (ht.addMonomer L (hm hnone)) hms

mutual
theorem PolynomialTerm.Ok.evaluate : {t : PolynomialTerm ℤ} → t.Ok → (t.evaluate L σ).Ok
  | .mk _ ms ps _, h =>
    (PolynomialTerm.Ok.evaluatePolys (PolynomialTerm.ok_one.evaluateMonomers ms) ps
      fun q hq => (h.polysOk q hq).1).addConst _

theorem PolynomialTerm.Ok.evaluatePolys : {t : PolynomialTerm ℤ} → t.Ok →
    (ps : List (PolynomialExpression ℤ)) → (∀ q ∈ ps, q.Ok) → (t.evaluatePolys L σ ps).Ok
  | _, ht, [], _ => ht
  | _, ht, _ :: ps, hps =>
    PolynomialTerm.Ok.evaluatePolys
      (ht.addPoly L (PolynomialExpression.Ok.evaluate (List.forall_mem_cons.1 hps).1)) ps
      (List.forall_mem_cons.1 hps).2

theorem PolynomialExpression.Ok.evaluate : {p : PolynomialExpression ℤ} → p.Ok → (p.evaluate L σ).Ok
  | .mk ts _, h =>
    (PolynomialExpression.Ok.evaluateTerms PolynomialExpression.ok_zero ts h.terms_ok).duplicate

theorem PolynomialExpression.Ok.evaluateTerms : {p : PolynomialExpression ℤ} → p.Ok →
    (ts : List (PolynomialTerm ℤ)) → (∀ t ∈ ts, t.Ok) → (p.evaluateTerms L σ ts).Ok
  | _, hp, [], _ => hp
  | _, hp, _ :: ts, hts =>
    PolynomialExpression.Ok.evaluateTerms
      (hp.addMultiplesOfTerm 1 (PolynomialTerm.Ok.evaluate (List.forall_mem_cons.1 hts).1)) ts
      (List.forall_mem_cons.1 hts).2
end

mutual
/-- The variables that are left are among those that are not replaced. -/
theorem PolynomialTerm.Over.evaluate (hPQ : ∀ x, Q x → σ x = none → P x) :
    {t : PolynomialTerm ℤ} → t.Over Q → (t.evaluate L σ).Over P
  | .mk _ _ ps _, h =>
    (PolynomialTerm.Over.evaluatePolys hPQ
      (PolynomialTerm.over_one.evaluateMonomers fun m hm => hPQ m (h.monomers m hm)) ps
      h.polys).addConst _

theorem PolynomialTerm.Over.evaluatePolys (hPQ : ∀ x, Q x → σ x = none → P x) :
    {t : PolynomialTerm ℤ} → t.Over P → (ps : List (PolynomialExpression ℤ)) →
    (∀ q ∈ ps, q.Over Q) → (t.evaluatePolys L σ ps).Over P
  | _, ht, [], _ => ht
  | _, ht, _ :: ps, hps =>
    PolynomialTerm.Over.evaluatePolys hPQ
      (ht.addPoly L (PolynomialExpression.Over.evaluate hPQ (List.forall_mem_cons.1 hps).1)) ps
      (List.forall_mem_cons.1 hps).2

theorem PolynomialExpression.Over.evaluate (hPQ : ∀ x, Q x → σ x = none → P x) :
    {p : PolynomialExpression ℤ} → p.Over Q → (p.evaluate L σ).Over P
  | .mk ts _, h =>
    (PolynomialExpression.Over.evaluateTerms hPQ PolynomialExpression.over_zero ts
      h.terms).duplicate

theorem PolynomialExpression.Over.evaluateTerms (hPQ : ∀ x, Q x → σ x = none → P x) :
    {p : PolynomialExpression ℤ} → p.Over P → (ts : List (PolynomialTerm ℤ)) →
    (∀ t ∈ ts, t.Over Q) → (p.evaluateTerms L σ ts).Over P
  | _, hp, [], _ => hp
  | _, hp, _ :: ts, hts =>
    PolynomialExpression.Over.evaluateTerms hPQ
      (hp.addMultiplesOfTerm 1 (PolynomialTerm.Over.evaluate hPQ (List.forall_mem_cons.1 hts).1)) ts
      (List.forall_mem_cons.1 hts).2
end

variable {z : ℕ → ℤ}

theorem PolynomialTerm.eval_evaluateMonomers (hL : L.Holds z) (hσ : ∀ x v, σ x = some v → z x = v)
    (t : PolynomialTerm ℤ) (ms : List ℕ) :
    (t.evaluateMonomers L σ ms).eval z = t.eval z * (ms.map z).prod := by
  induction ms generalizing t with
  | nil => rw [PolynomialTerm.evaluateMonomers, List.map_nil, List.prod_nil, mul_one]
  | cons m ms ih =>
    rw [PolynomialTerm.evaluateMonomers, List.map_cons, List.prod_cons, ← mul_assoc]
    split
    · next v hv =>
      rw [ih, PolynomialTerm.eval_addConst, hσ m v hv]
      rfl
    · rw [ih, PolynomialTerm.eval_addMonomer hL]

mutual
theorem PolynomialTerm.eval_evaluate (hL : L.Holds z) (hσ : ∀ x v, σ x = some v → z x = v) :
    {t : PolynomialTerm ℤ} → t.Ok → (t.evaluate L σ).eval z = t.eval z
  | .mk c ms ps d, h => by
    rw [PolynomialTerm.evaluate, PolynomialTerm.eval_addConst,
      PolynomialTerm.eval_evaluatePolys hL hσ _ ps fun q hq => (h.polysOk q hq).1,
      PolynomialTerm.eval_evaluateMonomers hL hσ, PolynomialTerm.eval_one, one_mul,
      PolynomialTerm.eval_mk, mul_comm]

theorem PolynomialTerm.eval_evaluatePolys (hL : L.Holds z) (hσ : ∀ x v, σ x = some v → z x = v) :
    (t : PolynomialTerm ℤ) → (ps : List (PolynomialExpression ℤ)) → (∀ q ∈ ps, q.Ok) →
    (t.evaluatePolys L σ ps).eval z = t.eval z * (ps.map fun p => p.eval z).prod
  | t, [], _ => by rw [PolynomialTerm.evaluatePolys, List.map_nil, List.prod_nil, mul_one]
  | t, p :: ps, hps => by
    obtain ⟨hp, hps⟩ := List.forall_mem_cons.1 hps
    rw [PolynomialTerm.evaluatePolys, PolynomialTerm.eval_evaluatePolys hL hσ _ ps hps,
      PolynomialTerm.eval_addPoly hL _ _ hp.evaluate, PolynomialExpression.eval_evaluate hL hσ hp,
      List.map_cons, List.prod_cons, mul_assoc]

/-- Replacing variables by their values does not change the value. -/
theorem PolynomialExpression.eval_evaluate (hL : L.Holds z) (hσ : ∀ x v, σ x = some v → z x = v) :
    {p : PolynomialExpression ℤ} → p.Ok → (p.evaluate L σ).eval z = p.eval z
  | .mk ts added, h => by
    rw [PolynomialExpression.evaluate, PolynomialExpression.eval_duplicate,
      PolynomialExpression.eval_evaluateTerms hL hσ _ ts h.terms_ok, PolynomialExpression.eval_zero,
      zero_add, PolynomialExpression.eval_eq]
    rfl

theorem PolynomialExpression.eval_evaluateTerms (hL : L.Holds z)
    (hσ : ∀ x v, σ x = some v → z x = v) : (p : PolynomialExpression ℤ) →
    (ts : List (PolynomialTerm ℤ)) → (∀ t ∈ ts, t.Ok) →
    (p.evaluateTerms L σ ts).eval z = p.eval z + (ts.map fun t => t.eval z).sum
  | p, [], _ => by rw [PolynomialExpression.evaluateTerms, List.map_nil, List.sum_nil, add_zero]
  | p, t :: ts, hts => by
    obtain ⟨ht, hts⟩ := List.forall_mem_cons.1 hts
    rw [PolynomialExpression.evaluateTerms, PolynomialExpression.eval_evaluateTerms hL hσ _ ts hts,
      PolynomialExpression.eval_addMultiplesOfTerm, PolynomialTerm.eval_evaluate hL hσ ht, map_one,
      one_mul, List.map_cons, List.sum_cons, add_assoc]
end

end

/-! ## The types are right -/

theorem exists_substitution {z : ℕ → ℤ} {xs : List ℕ} (h : ∀ x ∈ xs, z x = 0 ∨ z x = 1) :
    ∃ σ ∈ substitutions xs, (∀ x v, σ x = some v → z x = v) ∧ ∀ x ∈ xs, σ x ≠ none := by
  induction xs with
  | nil => exact ⟨_, List.mem_singleton.2 rfl, nofun, List.forall_mem_nil _⟩
  | cons y xs ih =>
    obtain ⟨hy, hxs⟩ := List.forall_mem_cons.1 h
    obtain ⟨σ, hσ, hagree, hall⟩ := ih hxs
    refine ⟨Function.update σ y (some (z y)), ?_, fun x v hv => ?_, fun x hx => ?_⟩
    · refine List.mem_flatMap.2 ⟨z y, ?_, List.mem_map.2 ⟨σ, hσ, rfl⟩⟩
      rcases hy with hy | hy <;> simp [hy]
    · rcases eq_or_ne x y with rfl | hxy
      · rw [Function.update_self] at hv
        exact Option.some.inj hv
      · rw [Function.update_of_ne hxy] at hv
        exact hagree x v hv
    · rcases eq_or_ne x y with rfl | hxy
      · rw [Function.update_self]
        exact Option.some_ne_none _
      · rw [Function.update_of_ne hxy]
        exact hall x ((List.mem_cons.1 hx).resolve_left hxy)

section
variable {L : Lookup ℤ}

theorem getTypeByBooleanSubstitution_of_nil {p : PolynomialExpression ℤ} (h : p.booleanInputs L =
    []) (depth : ℕ) : getTypeByBooleanSubstitution L depth p = none := by
  cases depth with
  | zero => rfl
  | succ depth =>
    rw [getTypeByBooleanSubstitution, h]
    rfl

theorem getTypeByBooleanSubstitution_ne_boolean (depth : ℕ) (p : PolynomialExpression ℤ)
    (T : RestrictedIntType) (h : getTypeByBooleanSubstitution L depth p = some T) :
      T ≠ .boolean := by
  induction depth generalizing p T with
  | zero => cases h
  | succ depth ih =>
    simp only [getTypeByBooleanSubstitution] at h
    split at h
    · cases h
    · split at h
      · cases h
      · refine unionTypes_ne_boolean (fun t ht => ?_) h
        obtain ⟨σ, -, rfl⟩ := List.mem_map.1 ht
        exact PolynomialExpression.getTypeWith_ne_boolean ih _

variable {z : ℕ → ℤ} {P : ℕ → Prop}

/-- The types of a polynomial are right: there are at most ten Boolean inputs; or the nested
polynomials are, and there are more than four terms or the type of each term with a Boolean factor
contains `0`. -/
inductive PolynomialExpression.Safe (L : Lookup ℤ) (depth : ℕ) : PolynomialExpression ℤ → Prop
  | few {p} : (p.booleanInputs L).dedup.length ≤ 10 → Safe L depth p
  | many {p} : 4 < p.terms.length → (∀ t ∈ p.terms, ∀ q ∈ t.polyFactors, Safe L depth q) →
      Safe L depth p
  | zero {p} : (∀ t ∈ p.terms, 0 ∈ t.getType L depth ∨ ∀ m ∈ t.monomerFactors, L.type m ≠ .boolean)
      → (∀ t ∈ p.terms, ∀ q ∈ t.polyFactors, Safe L depth q) → Safe L depth p

section
variable {p : PolynomialExpression ℤ} (hok : p.Ok) (hover : p.Over P) (hL : L.Holds z)
  (hz : ∀ x, z x ∈ L.type x)
include hok hover hL hz

/-- With at most ten Boolean inputs the type is right. -/
theorem PolynomialExpression.mem_getType_of_few (depth : ℕ)
    (hfew : (p.booleanInputs L).dedup.length ≤ 10) : p.eval z ∈ p.getType L (depth + 1) := by
  rcases Nat.eq_zero_or_pos (p.booleanInputs L).dedup.length with h0 | hpos
  · have hnil : p.booleanInputs L = [] := by
      rwa [List.length_eq_zero_iff, List.dedup_eq_nil] at h0
    have hnot : p.Over fun x => ¬ L.isBoolean x := by
      refine PolynomialExpression.Over.booleanInputs hover fun x hx => ?_
      rw [hnil] at hx
      cases hx
    exact (hnot.isFactor_getTypeWith hok hz
      (fun q hq => getTypeByBooleanSubstitution_of_nil hq _)
      (getTypeByBooleanSubstitution_ne_boolean _)).mem
  · -- the substitution by the values of the inputs leaves no Boolean variable
    have hbits : ∀ x ∈ (p.booleanInputs L).dedup, z x = 0 ∨ z x = 1 := fun x hx =>
      hL.boolean x (hover.isBoolean_of_mem x (List.mem_dedup.1 hx))
    obtain ⟨σ, hσ, hagree, hall⟩ := exists_substitution hbits
    have hnot : (p.evaluate L σ).Over fun x => ¬ L.isBoolean x := by
      have hinputs := hover.booleanInputs (L := L) (S := fun x => σ x ≠ none) fun x hx =>
        hall x (List.mem_dedup.2 hx)
      exact hinputs.evaluate fun x hx hnone hb => hx hb hnone
    have hmem := (hnot.isFactor_getTypeWith hok.evaluate hz
      (fun q hq => getTypeByBooleanSubstitution_of_nil hq depth)
      (getTypeByBooleanSubstitution_ne_boolean depth)).mem
    rw [PolynomialExpression.eval_evaluate hL hagree hok] at hmem
    have hmap : (p.evaluate L σ).getTypeWith L (getTypeByBooleanSubstitution L depth) ∈
        (substitutions (p.booleanInputs L).dedup).map fun σ =>
          (p.evaluate L σ).getTypeWith L (getTypeByBooleanSubstitution L depth) :=
      List.mem_map.2 ⟨σ, hσ, rfl⟩
    obtain ⟨T, hT, hv⟩ := mem_unionTypes hmap hmem
    have hsub : getTypeByBooleanSubstitution L (depth + 1) p = some T := by
      simp only [getTypeByBooleanSubstitution]
      rw [if_neg (by omega), if_neg (by omega), hT]
    cases p with
    | mk ts added =>
      rw [PolynomialExpression.getType, PolynomialExpression.getTypeWith, hsub]
      exact hv

/-- A step of the induction: what is nested has the right type. -/
theorem PolynomialExpression.mem_getType_of_nested {depth : ℕ}
    (hnested : ∀ t ∈ p.terms, ∀ q ∈ t.polyFactors, q.eval z ∈ q.getType L (depth + 1))
    (hzero : p.terms.length ≤ 4 → ∀ t ∈ p.terms,
      0 ∈ t.getType L (depth + 1) ∨ ∀ m ∈ t.monomerFactors, L.type m ≠ .boolean) :
    p.eval z ∈ p.getType L (depth + 1) := by
  rcases Nat.lt_or_ge 10 (p.booleanInputs L).dedup.length with hmany | hfew
  · have hsub : getTypeByBooleanSubstitution L (depth + 1) p = none := by
      simp only [getTypeByBooleanSubstitution]
      rw [if_neg (by omega), if_pos hmany]
    have hfactor : ∀ t ∈ p.terms, ∀ q ∈ t.polyFactors, IsFactor (q.eval z)
      (q.getType L (depth + 1)) :=
      fun t ht q hq => ⟨hnested t ht q hq, fun hb =>
        absurd hb (getTypeWith_ne_boolean (getTypeByBooleanSubstitution_ne_boolean (depth + 1)) q)⟩
    have hterm : ∀ t ∈ p.terms, t.eval z ≠ 0 → t.eval z ∈ t.getType L (depth + 1) := fun t ht h0 =>
      PolynomialTerm.mem_getTypeWith_of_ne_zero hz (hfactor t ht) h0
    refine mem_getTypeWith hsub hover.mem_added hterm fun hlen t ht => ?_
    rcases hzero hlen t ht with hmem | hnot
    · rcases eq_or_ne (t.eval z) 0 with h0 | h0
      · rw [h0]
        exact hmem
      · exact hterm t ht h0
    · exact (PolynomialTerm.isFactor_getTypeWith (hok.constant_ne_zero t ht)
        (fun m hm => ⟨hz m, fun hb => absurd hb (hnot m hm)⟩) (hfactor t ht)).mem
  · exact mem_getType_of_few hok hover hL hz depth hfew

end

theorem PolynomialExpression.Safe.mem_getType {p : PolynomialExpression ℤ} {depth : ℕ}
    (h : p.Safe L (depth + 1)) (hok : p.Ok) (hover : p.Over P) (hL : L.Holds z)
    (hz : ∀ x, z x ∈ L.type x) : p.eval z ∈ p.getType L (depth + 1) := by
  induction h with
  | few hfew => exact mem_getType_of_few hok hover hL hz depth hfew
  | many hlen _ ih =>
    refine mem_getType_of_nested hok hover hL hz (fun t ht q hq => ?_) fun hle => by omega
    exact ih t ht q hq ((hok.terms_ok t ht).polysOk q hq).1 ((hover.terms t ht).polys q hq)
  | zero hzero _ ih =>
    refine mem_getType_of_nested hok hover hL hz (fun t ht q hq => ?_) fun _ => hzero
    exact ih t ht q hq ((hok.terms_ok t ht).polysOk q hq).1 ((hover.terms t ht).polys q hq)

end

/-! ## Polynomials of bit strings -/

/-- A polynomial, or the polynomial that a bit string becomes, whose type is cut to its encoding. -/
inductive TypedPolynomial where
  | plain (p : PolynomialExpression ℤ)
  | ofBits (bs : BitString)

namespace TypedPolynomial

variable (L : Lookup ℤ)

def polynomial : TypedPolynomial → PolynomialExpression ℤ
  | plain p => p
  | ofBits bs => bs.toPolynomial L

def targetType (bs : BitString) : RestrictedIntType :=
  if bs.encoding.isSigned then .int bs.encoding.getBits else .uint bs.encoding.getBits

def getType (depth : ℕ) : TypedPolynomial → Option RestrictedIntType
  | plain p => some (p.getType L depth)
  | ofBits bs => (targetType bs).looseIntersect ((bs.toPolynomial L).getType L depth)

/-- The polynomial was built by the code; the bits of a bit string are Boolean variables. -/
def WellFormed : TypedPolynomial → Prop
  | plain p => p.Ok ∧ p.Over fun _ => True
  | ofBits bs => ∀ x, .lval x ∈ bs.bits → L.isBoolean x

end TypedPolynomial

section
variable {L : Lookup ℤ} {z : ℕ → ℤ} {P : ℕ → Prop}

theorem PolynomialTerm.Over.addBit {t : PolynomialTerm ℤ} (h : t.Over fun _ => True) (b : Bit) :
    (t.addBit L b).Over fun _ => True := by
  cases b with
  | const b => exact h.addConst _
  | lval x =>
    rw [PolynomialTerm.addBit, PolynomialTerm.addLval]
    split
    · exact h.addConst _
    · exact h.addMonomer L trivial

theorem PolynomialTerm.Ok.addBit {t : PolynomialTerm ℤ} (h : t.Ok) (b : Bit) :
    (t.addBit L b).Ok := by
  cases b with
  | const b => exact h.addConst _
  | lval x => exact h.addLval L x

theorem wellFormed_addBits (signed : Bool) {pe : PolynomialExpression ℤ} (hok : pe.Ok)
    (hover : pe.Over fun _ => True) (pot : ℤ) (bs : List Bit) :
    (addBits L signed pe pot bs).Ok ∧ (addBits L signed pe pot bs).Over fun _ => True := by
  induction bs generalizing pe pot with
  | nil => exact ⟨hok, hover⟩
  | cons b bs ih =>
    have hstep : ∀ c, (pe.addMultiplesOfTerm c (PolynomialTerm.one.addBit L b)).Ok ∧
        (pe.addMultiplesOfTerm c (PolynomialTerm.one.addBit L b)).Over fun _ => True := fun c =>
      ⟨hok.addMultiplesOfTerm c (PolynomialTerm.ok_one.addBit b),
        hover.addMultiplesOfTerm c (PolynomialTerm.over_one.addBit b)⟩
    cases bs with
    | nil => exact hstep _
    | cons c bs => exact ih (hstep pot).1 (hstep pot).2 (2 * pot)

/-- A bit string of Boolean variables is a number of its encoding. -/
theorem eval_mem_targetType {bs : BitString} (hbits : ∀ x, .lval x ∈ bs.bits → L.isBoolean x)
    (hL : L.Holds z) : (bs.toPolynomial L).eval z ∈ TypedPolynomial.targetType bs := by
  have hbits : TwosComplement.Bits (bs.bits.map (Bit.eval z)) := by
    intro v hv
    obtain ⟨b, hb, rfl⟩ := List.mem_map.1 hv
    cases b with
    | const b => cases b with
      | false => exact .inl rfl
      | true => exact .inr rfl
    | lval x => exact hL.boolean x (hbits x hb)
  rw [BitString.eval_toPolynomial hL]
  exact @CStyleCast.Target.value_mem
    ⟨bs.encoding.isSigned, bs.encoding.getBits, bs.encoding.getBits_pos⟩ _ hbits
    (by rw [List.length_map, bs.length_bits])

/-- The inferred type of a safe polynomial contains its value, whenever the variables have values of
their types. -/
theorem TypedPolynomial.eval_mem_getType {e : TypedPolynomial} (hwf : e.WellFormed L) {depth : ℕ}
    (hsafe : (e.polynomial L).Safe L (depth + 1)) (hL : L.Holds z) (hz : ∀ x, z x ∈ L.type x) :
    ∃ T, e.getType L (depth + 1) = some T ∧ (e.polynomial L).eval z ∈ T := by
  cases e with
  | plain p => exact ⟨_, rfl, hsafe.mem_getType hwf.1 hwf.2 hL hz⟩
  | ofBits bs =>
    have hbuilt := wellFormed_addBits (L := L) bs.encoding.isSigned PolynomialExpression.ok_zero
      PolynomialExpression.over_zero 1 bs.bits
    exact RestrictedIntType.mem_looseIntersect (eval_mem_targetType hwf hL)
      (hsafe.mem_getType hbuilt.1 hbuilt.2 hL hz)

end

/-- All variables are Boolean, and none is known. -/
def allBoolean : Lookup ℤ := ⟨fun _ => none, fun _ => .boolean⟩

/-- `5` times the product of the first `n` variables. -/
def fiveTimes (n : ℕ) : PolynomialExpression ℤ :=
  PolynomialExpression.zero.addMultiplesOfTerm 5
    ((List.range n).foldl (PolynomialTerm.addLval allBoolean) .one)

theorem wellFormed_fiveTimes (n : ℕ) : (fiveTimes n).Ok ∧ (fiveTimes n).Over fun _ => True := by
  have hfold : ∀ (xs : List ℕ) (t : PolynomialTerm ℤ), t.Ok → t.Over (fun _ => True) →
      (xs.foldl (PolynomialTerm.addLval allBoolean) t).Ok ∧
        (xs.foldl (PolynomialTerm.addLval allBoolean) t).Over fun _ => True := by
    intro xs
    induction xs with
    | nil => exact fun t hok hover => ⟨hok, hover⟩
    | cons x xs ih => exact fun t hok hover => ih _ (hok.addLval _ x) (hover.addMonomer _ trivial)
  have ht := hfold (List.range n) .one PolynomialTerm.ok_one PolynomialTerm.over_one
  exact ⟨PolynomialExpression.ok_zero.addMultiplesOfTerm 5 ht.1,
    PolynomialExpression.over_zero.addMultiplesOfTerm 5 ht.2⟩

theorem allBoolean_holds : allBoolean.Holds fun _ => (0 : ℤ) := ⟨nofun, fun _ _ => .inl rfl⟩

/-- The type of the product of ten variables is right. -/
theorem fiveTimes_ten_mem : ∃ T,
    (TypedPolynomial.plain (fiveTimes 10)).getType allBoolean 1 = some T ∧
      (fiveTimes 10).eval (fun _ => (0 : ℤ)) ∈ T :=
  TypedPolynomial.eval_mem_getType (e := .plain (fiveTimes 10)) (wellFormed_fiveTimes 10)
    (.few (by decide)) allBoolean_holds fun _ => RestrictedIntType.mem_boolean.2 (.inl rfl)

/-- The product of eleven Boolean variables and `5` has the type `5 .. 5`. -/
theorem fiveTimes_eleven_not_mem :
    ((fiveTimes 11).Ok ∧ (fiveTimes 11).Over fun _ => True) ∧
      (∀ depth, ((fiveTimes 11).getType allBoolean depth).getInterval = ⟨5, 5, Int.le_refl 5⟩) ∧
      (fiveTimes 11).eval (fun _ => (0 : ℤ)) = 0 := by
  refine ⟨wellFormed_fiveTimes 11, fun depth => ?_, by decide⟩
  cases depth with
  | zero => rfl
  | succ depth => rfl

end Frontend

end Pequin
