import Pequin.Frontend.Polynomial

/-!
# Factors

`addFactor` multiplies a term by a constant, by a variable or by a polynomial. Variables that are
known to be constant are replaced, a polynomial with one term is taken apart, and a Boolean that
occurs twice is left out once. The stored degree is computed anew, from the degrees that the nested
polynomials store.
-/

namespace Pequin

namespace Frontend

/-! ## The code -/

/-- What the compiler knows of a variable: the constant that it was assigned, if any, and its
type. -/
structure Lookup (κ : Type) where
  const : ℕ → Option κ
  type : ℕ → RestrictedIntType

variable {κ : Type}

def Lookup.isBoolean (L : Lookup κ) (x : ℕ) : Bool := (L.type x).isSubType .boolean

/-- An assignment agrees with what the compiler knows. -/
structure Lookup.Holds [CommRing κ] {R : Type} [CommRing R] [Algebra κ R] (L : Lookup κ)
    (z : ℕ → R) : Prop where
  const : ∀ x c, L.const x = some c → z x = algebraMap κ R c
  boolean : ∀ x, L.isBoolean x → z x = 0 ∨ z x = 1

/-- Nothing is known of the variables but that they are integers. -/
def intLookup : Lookup ℤ := ⟨fun _ => none, fun _ => .int 32⟩

theorem intLookup_holds {R : Type} [CommRing R] (z : ℕ → R) : intLookup.Holds z :=
  ⟨nofun, fun _ h => absurd h (by decide : ¬ (RestrictedIntType.int 32).isSubType .boolean)⟩

variable [CommRing κ] [LinearOrder κ] (L : Lookup κ)

/-- The loop of `simplifyProduct`: a Boolean that equals the one before it is left out. -/
def dropRepeated : Option ℕ → List ℕ → List ℕ
  | _, [] => []
  | currentMatch, x :: xs =>
    if currentMatch = some x then
      if L.isBoolean x then dropRepeated currentMatch xs else x :: dropRepeated currentMatch xs
    else x :: dropRepeated (some x) xs

def sortMonomers (ms : List ℕ) : List ℕ := ms.insertionSort (· ≤ ·)

def sortPolys (ps : List (PolynomialExpression κ)) : List (PolynomialExpression κ) :=
  ps.insertionSort fun p q => p.compareTo q ≠ .gt

def PolynomialTerm.simplifyProduct : PolynomialTerm κ → PolynomialTerm κ
  | .mk c ms ps _ =>
    .mk c (dropRepeated L none ms) ps
      ((dropRepeated L none ms).length + (ps.map PolynomialExpression.degree).sum)

def PolynomialTerm.addConst : PolynomialTerm κ → κ → PolynomialTerm κ
  | .mk c ms ps d, c' => .mk (c * c') ms ps d

def PolynomialTerm.addMonomer : PolynomialTerm κ → ℕ → PolynomialTerm κ
  | .mk c ms ps d, x => PolynomialTerm.simplifyProduct L (.mk c (sortMonomers (ms ++ [x])) ps d)

def PolynomialTerm.addLval (t : PolynomialTerm κ) (x : ℕ) : PolynomialTerm κ :=
  match L.const x with
  | some c => t.addConst c
  | none => t.addMonomer L x

/-- `FloatConstant.toFloatConstant` of a polynomial, through `inline`. -/
def PolynomialExpression.toConst (p : PolynomialExpression κ) : Option κ :=
  match p.terms with
  | [] => some 0
  | [.mk c ms ps d] =>
    if d = 0 then some c
    else if ps = [] ∧ d = 1 ∧ c = 1 then ms.head?.bind L.const
    else none
  | _ => none

mutual
/-- `addFactor` of a polynomial: the factors of a single term are added one by one. -/
def PolynomialTerm.addPoly (t : PolynomialTerm κ) : PolynomialExpression κ → PolynomialTerm κ
  | .mk ts added =>
    match PolynomialExpression.toConst L (.mk ts added) with
    | some c => t.addConst c
    | none => PolynomialTerm.addTerms t (.mk ts added) ts
termination_by structural p => p

def PolynomialTerm.addTerms (t : PolynomialTerm κ) (p : PolynomialExpression κ) :
    List (PolynomialTerm κ) → PolynomialTerm κ
  | [] => t.withConstant 0
  | [u] => PolynomialTerm.addFactorsOf t u
  | _ :: _ :: _ =>
    match t with
    | .mk c ms ps d => PolynomialTerm.simplifyProduct L (.mk c ms (sortPolys (ps ++ [p])) d)
termination_by structural ts => ts

def PolynomialTerm.addFactorsOf : PolynomialTerm κ → PolynomialTerm κ → PolynomialTerm κ
  | .mk c ms ps d, .mk c' ms' ps' _ =>
    match PolynomialTerm.addPolys (.mk (c * c') (ms ++ ms') ps d) ps' with
    | .mk c ms ps d => PolynomialTerm.simplifyProduct L (.mk c (sortMonomers ms) (sortPolys ps) d)
termination_by structural _ u => u

def PolynomialTerm.addPolys (t : PolynomialTerm κ) :
    List (PolynomialExpression κ) → PolynomialTerm κ
  | [] => t
  | p :: ps => PolynomialTerm.addPolys (PolynomialTerm.addPoly t p) ps
termination_by structural ps => ps
end

/-! ## Shapes

A term that was built by the code counts each of its factors in its degree, and a polynomial that is
a factor has at least two terms. A term of a polynomial is not the multiple of a single polynomial,
and at most one term is a constant. -/

/-- A term is the multiple of a single polynomial. -/
def PolynomialTerm.IsSum (t : PolynomialTerm κ) : Prop :=
  t.monomerFactors = [] ∧ t.polyFactors.length = 1

mutual
inductive PolynomialTerm.Ok : PolynomialTerm κ → Prop where
  | mk {c : κ} {ms : List ℕ} {ps : List (PolynomialExpression κ)} {d : ℕ} (polys : ∀ q ∈ ps, q.Ok)
    (sums : ∀ q ∈ ps, 2 ≤ q.terms.length) (le_degree : ms.length + ps.length ≤ d)
    (degree_eq : ps = [] → d = ms.length) : PolynomialTerm.Ok (.mk c ms ps d)

inductive PolynomialExpression.Ok : PolynomialExpression κ → Prop where
  | mk {ts added : List (PolynomialTerm κ)} (terms : ∀ t ∈ ts, t.Ok)
    (nonzero : ∀ t ∈ ts, t.constant ≠ 0)
    (not_sum : ∀ t ∈ ts, ¬ t.IsSum)
    (sorted : ts.Pairwise fun t u => u.degree ≤ t.degree)
    (constants : ts.countP (fun t => t.degree = 0) ≤ 1)
    (le_degree : ∀ t ∈ ts, t.degree ≤ (PolynomialExpression.mk ts added).degree) :
    PolynomialExpression.Ok (.mk ts added)
end

namespace PolynomialExpression

variable {p : PolynomialExpression κ}
omit [LinearOrder κ]

theorem ok_zero : (zero : PolynomialExpression κ).Ok :=
  .mk (by simp) (by simp) (by simp) .nil (by simp) (by simp)

theorem Ok.terms_ok (h : p.Ok) : ∀ t ∈ p.terms, t.Ok := by
  cases h with
  | mk terms nonzero not_sum sorted constants le_degree => exact terms

theorem Ok.constant_ne_zero (h : p.Ok) : ∀ t ∈ p.terms, t.constant ≠ 0 := by
  cases h with
  | mk terms nonzero not_sum sorted constants le_degree => exact nonzero

/-- A sum of two terms is not a constant. -/
theorem Ok.one_le_degree {p : PolynomialExpression κ} (h : p.Ok) (hlen : 2 ≤ p.terms.length) :
    1 ≤ p.degree := by
  cases h with
  | @mk ts added terms nonzero not_sum sorted constants le_degree =>
    by_contra hlt
    have hall : ts.countP (fun t => t.degree = 0) = ts.length :=
      List.countP_eq_length.2 fun t ht => by
        have := le_degree t ht
        simp only [decide_eq_true_eq]
        omega
    simp only [PolynomialExpression.terms] at hlen
    omega

end PolynomialExpression

namespace PolynomialTerm

section
variable {t : PolynomialTerm κ}
omit [LinearOrder κ]

theorem Ok.le_degree (h : t.Ok) : t.monomerFactors.length + t.polyFactors.length ≤ t.degree := by
  cases h with
  | mk polys sums le_degree degree_eq => exact le_degree

theorem Ok.degree_eq (h : t.Ok) (hps : t.polyFactors = []) :
    t.degree = t.monomerFactors.length := by
  cases h with
  | mk polys sums le_degree degree_eq => exact degree_eq hps

theorem ok_one : (one : PolynomialTerm κ).Ok := .mk (by simp) (by simp) (by simp) (by simp)

theorem Ok.withConstant (h : t.Ok) (c : κ) : (t.withConstant c).Ok := by
  cases h with
  | mk polys sums le_degree degree_eq => exact .mk polys sums le_degree degree_eq

theorem Ok.addConst (h : t.Ok) (c : κ) : (t.addConst c).Ok := by
  cases h with
  | mk polys sums le_degree degree_eq => exact .mk polys sums le_degree degree_eq

/-- The nested polynomials of a term are sums. -/
def PolysOk (t : PolynomialTerm κ) : Prop := ∀ q ∈ t.polyFactors, q.Ok ∧ 2 ≤ q.terms.length

theorem Ok.polysOk (h : t.Ok) : t.PolysOk := by
  cases h with
  | mk polys sums le_degree degree_eq => exact fun q hq => ⟨polys q hq, sums q hq⟩

theorem PolysOk.addConst (h : t.PolysOk) (c : κ) : (t.addConst c).PolysOk := by
  cases t with
  | mk => exact h

theorem PolysOk.withConstant (h : t.PolysOk) (c : κ) : (t.withConstant c).PolysOk := by
  cases t with
  | mk => exact h

theorem PolysOk.simplifyProduct (h : t.PolysOk) : (t.simplifyProduct L).Ok := by
  cases t with
  | mk c ms ps d =>
    have hsum : ps.length ≤ (ps.map PolynomialExpression.degree).sum := by
      rw [← List.length_map PolynomialExpression.degree]
      refine List.length_le_sum_of_one_le _ fun d hd => ?_
      obtain ⟨q, hq, rfl⟩ := List.mem_map.1 hd
      exact (h q hq).1.one_le_degree (h q hq).2
    refine .mk (fun q hq => (h q hq).1) (fun q hq => (h q hq).2) (Nat.add_le_add_left hsum _) ?_
    rintro rfl
    rfl

theorem Ok.addMonomer (h : t.Ok) (x : ℕ) : (t.addMonomer L x).Ok := by
  cases t with
  | mk c ms ps d =>
    have hpolys : (PolynomialTerm.mk c (sortMonomers (ms ++ [x])) ps d).PolysOk := h.polysOk
    exact hpolys.simplifyProduct L

theorem Ok.addLval (h : t.Ok) (x : ℕ) : (t.addLval L x).Ok := by
  rw [PolynomialTerm.addLval]
  split
  · exact h.addConst _
  · exact h.addMonomer L x

omit [CommRing κ]

@[simp] theorem constant_withConstant (t : PolynomialTerm κ) (c : κ) :
    (t.withConstant c).constant = c := by
  cases t with
  | mk => rfl

@[simp] theorem degree_withConstant (t : PolynomialTerm κ) (c : κ) :
    (t.withConstant c).degree = t.degree := by
  cases t with
  | mk => rfl

theorem isSum_withConstant {t : PolynomialTerm κ} {c : κ} : (t.withConstant c).IsSum ↔ t.IsSum := by
  cases t with
  | mk => rfl

end

section
omit [CommRing κ]

theorem degree_le_of_compareTo_gt {t u : PolynomialTerm κ} (h : t.compareTo u = .gt) :
    t.degree ≤ u.degree := by
  cases t with
  | mk c ms ps d =>
    cases u with
    | mk c' ms' ps' d' =>
      rw [compareTo, Ordering.then_eq_gt, Nat.compare_eq_gt, Nat.compare_eq_eq] at h
      simp only [degree]
      omega

theorem degree_le_of_compareTo_ne_gt {t u : PolynomialTerm κ} (h : t.compareTo u ≠ .gt) :
    u.degree ≤ t.degree := by
  cases t with
  | mk c ms ps d =>
    cases u with
    | mk c' ms' ps' d' =>
      rw [compareTo, Ne, Ordering.then_eq_gt, Nat.compare_eq_gt, Nat.compare_eq_eq] at h
      simp only [degree]
      omega

theorem length_duplicatePolys (ps : List (PolynomialExpression κ)) :
    (duplicatePolys ps).length = ps.length := by
  induction ps with
  | nil => rfl
  | cons p ps ih => rw [duplicatePolys, List.length_cons, ih, List.length_cons]

@[simp] theorem degree_duplicate (t : PolynomialTerm κ) : t.duplicate.degree = t.degree := by
  cases t with
  | mk => rfl

@[simp] theorem constant_duplicate (t : PolynomialTerm κ) : t.duplicate.constant = t.constant := by
  cases t with
  | mk => rfl

theorem isSum_duplicate {t : PolynomialTerm κ} : t.duplicate.IsSum ↔ t.IsSum := by
  cases t with
  | mk c ms ps d =>
    simp only [IsSum, duplicate, monomerFactors, polyFactors, length_duplicatePolys]

end

theorem PolysOk.sortPolys {ps : List (PolynomialExpression κ)}
    (h : ∀ q ∈ ps, q.Ok ∧ 2 ≤ q.terms.length) :
    ∀ q ∈ sortPolys ps, q.Ok ∧ 2 ≤ q.terms.length :=
  fun q hq => h q ((List.perm_insertionSort _ ps).mem_iff.1 hq)

end PolynomialTerm

namespace PolynomialExpression

section
omit [CommRing κ]

@[simp] theorem degree_add (p : PolynomialExpression κ) (e : PolynomialTerm κ) :
    (p.add e).degree = max e.degree p.degree := by
  cases p with
  | mk ts added => rfl

@[simp] theorem degree_remove (p : PolynomialExpression κ) (t : PolynomialTerm κ) :
    (p.remove t).degree = p.degree := by
  cases p with
  | mk ts added => rfl

theorem insertTerm_sorted {e : PolynomialTerm κ} {ts : List (PolynomialTerm κ)}
    (h : ts.Pairwise fun t u => u.degree ≤ t.degree) :
    (insertTerm e ts).Pairwise fun t u => u.degree ≤ t.degree := by
  induction ts with
  | nil => exact List.pairwise_singleton _ _
  | cons t ts ih =>
    obtain ⟨hhead, htail⟩ := List.pairwise_cons.1 h
    rw [insertTerm]
    split
    · next hgt =>
      have hle : t.degree ≤ e.degree := PolynomialTerm.degree_le_of_compareTo_gt hgt
      refine List.pairwise_cons.2 ⟨fun u hu => ?_, h⟩
      rcases List.mem_cons.1 hu with rfl | hu
      · exact hle
      · exact (hhead u hu).trans hle
    · next hgt =>
      refine List.pairwise_cons.2 ⟨fun u hu => ?_, ih htail⟩
      rcases List.mem_cons.1 ((insertTerm_perm e ts).mem_iff.1 hu) with rfl | hu
      · exact PolynomialTerm.degree_le_of_compareTo_ne_gt hgt
      · exact hhead u hu

theorem length_addDuplicates (p : PolynomialExpression κ)
    (ts : List (PolynomialTerm κ)) : (p.addDuplicates ts).terms.length =
      p.terms.length + ts.length := by
  induction ts generalizing p with
  | nil => rfl
  | cons t ts ih =>
    rw [addDuplicates, ih, (p.add_perm _).length_eq, List.length_cons,
      List.length_cons]
    omega

theorem length_duplicate (p : PolynomialExpression κ) :
    p.duplicate.terms.length = p.terms.length := by
  cases p with
  | mk ts added =>
    rw [duplicate, length_addDuplicates]
    exact Nat.zero_add _

end

variable {p : PolynomialExpression κ}

/-- A term that is not a sum can be inserted, a constant only if there is none. -/
theorem Ok.add (h : p.Ok) {e : PolynomialTerm κ} (he : e.Ok) (hnz : e.constant ≠ 0)
    (hsum : ¬ e.IsSum) (hconst : e.degree = 0 → p.terms.countP (fun t => t.degree = 0) = 0) :
    (p.add e).Ok := by
  cases h with
  | @mk ts added terms nonzero not_sum sorted constants le_degree =>
    have hmem : ∀ {P : PolynomialTerm κ → Prop}, P e → (∀ t ∈ ts, P t) →
      ∀ t ∈ insertTerm e ts, P t := by
      intro P hPe hP t ht
      rcases List.mem_cons.1 ((insertTerm_perm e ts).mem_iff.1 ht) with rfl | ht
      · exact hPe
      · exact hP t ht
    refine .mk (hmem he terms) (hmem hnz nonzero) (hmem hsum not_sum)
      (insertTerm_sorted sorted) ?_ ?_
    · rw [(insertTerm_perm e ts).countP_eq, List.countP_cons]
      simp only [PolynomialExpression.terms] at hconst
      split
      · next h0 => rw [hconst (of_decide_eq_true h0)]
      · exact constants
    · have hdeg : (PolynomialExpression.mk (insertTerm e ts) (e :: added)).degree =
          max e.degree (PolynomialExpression.mk ts added).degree := rfl
      rw [hdeg]
      exact hmem (le_max_left _ _) fun t ht => (le_degree t ht).trans (le_max_right _ _)

theorem Ok.remove (h : p.Ok) (t : PolynomialTerm κ) : (p.remove t).Ok := by
  cases h with
  | @mk ts added terms nonzero not_sum sorted constants le_degree =>
    have hsub := List.eraseP_sublist (p := fun u => decide (u.compareTo t = .eq)) (l := ts)
    exact .mk (fun u hu => terms u (hsub.subset hu)) (fun u hu => nonzero u (hsub.subset hu))
      (fun u hu => not_sum u (hsub.subset hu)) (sorted.sublist hsub)
        (hsub.countP_le.trans constants) fun u hu => le_degree u (hsub.subset hu)

end PolynomialExpression

/-! ## The operations keep the shapes -/

mutual
theorem PolynomialTerm.Ok.duplicate : {t : PolynomialTerm κ} → t.Ok → t.duplicate.Ok
  | .mk c ms ps d, h => by
    have hps := PolynomialTerm.polysOk_duplicatePolys ps h.polysOk
    refine .mk (fun q hq => (hps q hq).1) (fun q hq => (hps q hq).2) ?_ fun hnil => ?_
    · rw [PolynomialTerm.length_duplicatePolys]
      exact h.le_degree
    · refine h.degree_eq (List.length_eq_zero_iff.1 ?_)
      rw [← PolynomialTerm.length_duplicatePolys]
      exact List.length_eq_zero_iff.2 hnil

theorem PolynomialTerm.polysOk_duplicatePolys : (ps : List (PolynomialExpression κ)) →
    (∀ q ∈ ps, q.Ok ∧ 2 ≤ q.terms.length) →
    ∀ q ∈ PolynomialTerm.duplicatePolys ps, q.Ok ∧ 2 ≤ q.terms.length
  | [], _ => by simp [PolynomialTerm.duplicatePolys]
  | p :: ps, h => by
    rw [PolynomialTerm.duplicatePolys]
    obtain ⟨hp, hps⟩ := List.forall_mem_cons.1 h
    refine List.forall_mem_cons.2 ⟨⟨hp.1.duplicate, ?_⟩,
      PolynomialTerm.polysOk_duplicatePolys ps hps⟩
    rw [p.length_duplicate]
    exact hp.2

theorem PolynomialExpression.Ok.duplicate : {p : PolynomialExpression κ} → p.Ok → p.duplicate.Ok
  | .mk ts added, h => by
    cases h with
    | mk terms nonzero not_sum sorted constants le_degree =>
      refine PolynomialExpression.ok_addDuplicates .zero ts
        PolynomialExpression.ok_zero terms nonzero
        not_sum ?_
      exact (Nat.zero_add _).trans_le constants

theorem PolynomialExpression.ok_addDuplicates : (p : PolynomialExpression κ) →
    (ts : List (PolynomialTerm κ)) → p.Ok → (∀ t ∈ ts, t.Ok) → (∀ t ∈ ts, t.constant ≠ 0) →
    (∀ t ∈ ts, ¬ t.IsSum) →
    p.terms.countP (fun t => t.degree = 0) + ts.countP (fun t => t.degree = 0) ≤ 1 →
    (p.addDuplicates ts).Ok
  | p, [], hp, _, _, _, _ => hp
  | p, t :: ts, hp, hts, hnz, hsum, hcount => by
    obtain ⟨ht, hts⟩ := List.forall_mem_cons.1 hts
    obtain ⟨hnt, hnz⟩ := List.forall_mem_cons.1 hnz
    obtain ⟨hst, hsum⟩ := List.forall_mem_cons.1 hsum
    rw [List.countP_cons] at hcount
    have hadd : (p.add t.duplicate).Ok := by
      refine hp.add ht.duplicate (t.constant_duplicate ▸ hnt)
        (fun hs => hst (PolynomialTerm.isSum_duplicate.1 hs))
        fun h0 => ?_
      rw [PolynomialTerm.degree_duplicate] at h0
      rw [if_pos (decide_eq_true h0)] at hcount
      omega
    refine PolynomialExpression.ok_addDuplicates _ ts hadd hts hnz hsum ?_
    rw [(p.add_perm _).countP_eq, List.countP_cons, PolynomialTerm.degree_duplicate]
    omega
end

/-- Constants compare equal. -/
theorem PolynomialTerm.Ok.compareTo_constant {t u : PolynomialTerm κ} (ht : t.Ok) (hu : u.Ok)
    (ht0 : t.degree = 0) (hu0 : u.degree = 0) : u.compareTo t = .eq := by
  have htf := ht.le_degree
  have huf := hu.le_degree
  cases t with
  | mk c ms ps d =>
    cases u with
    | mk c' ms' ps' d' =>
      simp only [degree, monomerFactors, polyFactors] at ht0 hu0 htf huf
      obtain rfl : ms = [] := List.length_eq_zero_iff.1 (by omega)
      obtain rfl : ps = [] := List.length_eq_zero_iff.1 (by omega)
      obtain rfl : ms' = [] := List.length_eq_zero_iff.1 (by omega)
      obtain rfl : ps' = [] := List.length_eq_zero_iff.1 (by omega)
      subst ht0 hu0
      rfl

theorem PolynomialExpression.Ok.addTerm {p : PolynomialExpression κ} (hp : p.Ok)
    {t : PolynomialTerm κ} (ht : t.Ok) (hsum : ¬ t.IsSum) (c : κ) : (p.addTerm c t).Ok := by
  have hconstants : p.terms.countP (fun t => t.degree = 0) ≤ 1 := by
    cases hp with
    | mk terms nonzero not_sum sorted constants le_degree => exact constants
  have hnot : ∀ u ∈ p.terms, ¬ u.IsSum := by
    cases hp with
    | mk terms nonzero not_sum sorted constants le_degree => exact not_sum
  rw [PolynomialExpression.addTerm]
  split
  · exact hp
  · next hc =>
    split
    · next u hu =>
      have hperm := remove_perm hu
      have hmem : u ∈ p.terms := hperm.mem_iff.2 List.mem_cons_self
      split
      · exact hp.remove t
      · next hne =>
        refine (hp.remove t).add ((hp.terms_ok u hmem).duplicate.withConstant _)
          (by rwa [PolynomialTerm.constant_withConstant]) ?_ fun h0 => ?_
        · rw [PolynomialTerm.isSum_withConstant, PolynomialTerm.isSum_duplicate]
          exact hnot u hmem
        · rw [PolynomialTerm.degree_withConstant, PolynomialTerm.degree_duplicate] at h0
          rw [hperm.countP_eq, List.countP_cons, if_pos (decide_eq_true h0)] at hconstants
          omega
    · next hnone =>
      refine hp.add (ht.duplicate.withConstant c) (by rwa [PolynomialTerm.constant_withConstant]) ?_
        fun h0 => ?_
      · rw [PolynomialTerm.isSum_withConstant, PolynomialTerm.isSum_duplicate]
        exact hsum
      · rw [PolynomialTerm.degree_withConstant, PolynomialTerm.degree_duplicate] at h0
        rw [PolynomialExpression.floor, List.find?_eq_none] at hnone
        refine List.countP_eq_zero.2 fun u hu hu0 => hnone u hu (decide_eq_true ?_)
        exact ht.compareTo_constant (hp.terms_ok u hu) h0 (of_decide_eq_true hu0)

mutual
theorem PolynomialExpression.Ok.addMultiplesOfTerm : {p : PolynomialExpression κ} → p.Ok → (c : κ) →
    {t : PolynomialTerm κ} → t.Ok → (p.addMultiplesOfTerm c t).Ok
  | p, hp, c, .mk c' [] [q] d, ht =>
    hp.addMultiplesOfPoly (c * c') (ht.polysOk q List.mem_cons_self).1
  | p, hp, c, .mk c' [] [] d, ht | p, hp, c, .mk c' (m :: ms) ps d, ht
  | p, hp, c, .mk c' [] (q :: q' :: ps) d, ht => by
    rw [PolynomialExpression.addMultiplesOfTerm]
    · exact hp.addTerm ht (by simp [PolynomialTerm.IsSum, PolynomialTerm.monomerFactors,
        PolynomialTerm.polyFactors]) _
    · simp

theorem PolynomialExpression.Ok.addMultiplesOfPoly : {p : PolynomialExpression κ} → p.Ok → (c : κ) →
    {q : PolynomialExpression κ} → q.Ok → (p.addMultiplesOfPoly c q).Ok
  | _, hp, c, .mk _ _, hq => hp.addMultiplesOfTerms c hq.terms_ok

theorem PolynomialExpression.Ok.addMultiplesOfTerms : {p : PolynomialExpression κ} → p.Ok →
    (c : κ) → {ts : List (PolynomialTerm κ)} → (∀ t ∈ ts, t.Ok) → (p.addMultiplesOfTerms c ts).Ok
  | _, hp, _, [], _ => hp
  | _, hp, c, _ :: _, hts =>
    (hp.addMultiplesOfTerm c (List.forall_mem_cons.1 hts).1).addMultiplesOfTerms c
      (List.forall_mem_cons.1 hts).2
end

namespace PolynomialTerm

variable {t : PolynomialTerm κ}

mutual
theorem ok_addPoly : (t : PolynomialTerm κ) → (p : PolynomialExpression κ) → t.PolysOk → p.Ok →
    (t.addPoly L p).PolysOk ∧ (t.Ok → (t.addPoly L p).Ok)
  | t, .mk ts added, ht, hp => by
    rw [addPoly]
    split
    · exact ⟨ht.addConst _, fun h => h.addConst _⟩
    · exact ok_addTerms t (.mk ts added) ts ht hp rfl

theorem ok_addTerms : (t : PolynomialTerm κ) → (p : PolynomialExpression κ) →
    (ts : List (PolynomialTerm κ)) →
    t.PolysOk → p.Ok → p.terms = ts → (t.addTerms L p ts).PolysOk ∧ (t.Ok → (t.addTerms L p ts).Ok)
  | t, p, [], ht, hp, hts => ⟨ht.withConstant 0, fun h => h.withConstant 0⟩
  | t, p, [u], ht, hp, hts => by
    have hok := ok_addFactorsOf t u ht (hp.terms_ok u (hts ▸ List.mem_cons_self)).polysOk
    exact ⟨hok.polysOk, fun _ => hok⟩
  | .mk c ms ps d, p, u :: v :: ts, ht, hp, hts => by
    have hpolys : (PolynomialTerm.mk c ms (sortPolys (ps ++ [p])) d).PolysOk :=
      PolysOk.sortPolys
        (List.forall_mem_append.2 ⟨ht, List.forall_mem_singleton.2 ⟨hp, by simp [hts]⟩⟩)
    exact ⟨(hpolys.simplifyProduct L).polysOk, fun _ => hpolys.simplifyProduct L⟩

theorem ok_addFactorsOf : (t u : PolynomialTerm κ) → t.PolysOk → u.PolysOk → (t.addFactorsOf L u).Ok
  | .mk c ms ps d, .mk c' ms' ps' d', ht, hu => by
    have hpolys := polysOk_addPolys (.mk (c * c') (ms ++ ms') ps d) ps' ht fun q hq => (hu q hq).1
    rw [addFactorsOf]
    split
    next c ms ps d heq =>
      rw [heq] at hpolys
      have hsorted : (PolynomialTerm.mk c (sortMonomers ms) (sortPolys ps) d).PolysOk :=
        PolysOk.sortPolys hpolys
      exact hsorted.simplifyProduct L

theorem polysOk_addPolys : (t : PolynomialTerm κ) → (ps : List (PolynomialExpression κ)) →
    t.PolysOk → (∀ q ∈ ps, q.Ok) → (t.addPolys L ps).PolysOk
  | _, [], ht, _ => ht
  | t, p :: ps, ht, hps =>
    polysOk_addPolys (t.addPoly L p) ps (ok_addPoly t p ht (List.forall_mem_cons.1 hps).1).1
      (List.forall_mem_cons.1 hps).2
end

theorem Ok.addPoly (ht : t.Ok) {p : PolynomialExpression κ} (hp : p.Ok) :
    (t.addPoly L p).Ok := (ok_addPoly L t p ht.polysOk hp).2 ht

end PolynomialTerm

/-! ## Values -/

section
variable {L} {R : Type} [CommRing R] [Algebra κ R] {z : ℕ → R}

section
omit [LinearOrder κ]

theorem Lookup.Holds.mul_self (h : L.Holds z) {x : ℕ} (hx : L.isBoolean x) : z x * z x = z x := by
  rcases h.boolean x hx with h0 | h1
  · rw [h0, mul_zero]
  · rw [h1, mul_one]

/-- The factor that was kept last absorbs those that are left out. -/
theorem prod_dropRepeated (h : L.Holds z) (cur : Option ℕ) (ms : List ℕ) :
    cur.elim 1 z * ((dropRepeated L cur ms).map z).prod = cur.elim 1 z * (ms.map z).prod := by
  induction ms generalizing cur with
  | nil => rfl
  | cons x xs ih =>
    rw [dropRepeated, List.map_cons, List.prod_cons]
    split
    · next heq =>
      have ih := ih cur
      subst heq
      rw [Option.elim_some] at ih ⊢
      split
      · next hx => rw [ih, ← mul_assoc, h.mul_self hx]
      · rw [List.map_cons, List.prod_cons, ih]
    · have ih := ih (some x)
      rw [Option.elim_some] at ih
      rw [List.map_cons, List.prod_cons, ih]

namespace PolynomialTerm

theorem eval_simplifyProduct (h : L.Holds z) (t : PolynomialTerm κ) :
    (t.simplifyProduct L).eval z = t.eval z := by
  cases t with
  | mk c ms ps d =>
    have hms := prod_dropRepeated h none ms
    rw [Option.elim_none, one_mul, one_mul] at hms
    rw [simplifyProduct, eval_mk, eval_mk, hms]

@[simp] theorem eval_addConst (t : PolynomialTerm κ) (c : κ) :
    (t.addConst c).eval z = t.eval z * algebraMap κ R c := by
  cases t with
  | mk c' ms ps d =>
    rw [addConst, eval_mk, eval_mk, map_mul]
    ring

theorem prod_sortMonomers (ms : List ℕ) : ((sortMonomers ms).map z).prod = (ms.map z).prod :=
  ((List.perm_insertionSort _ ms).map z).prod_eq

theorem eval_addMonomer (h : L.Holds z) (t : PolynomialTerm κ) (x : ℕ) :
    (t.addMonomer L x).eval z = t.eval z * z x := by
  cases t with
  | mk c ms ps d =>
    rw [addMonomer, eval_simplifyProduct h, eval_mk, eval_mk, prod_sortMonomers, List.map_append,
      List.prod_append, List.map_singleton, List.prod_singleton]
    ring

theorem eval_addLval (h : L.Holds z) (t : PolynomialTerm κ) (x : ℕ) :
    (t.addLval L x).eval z = t.eval z * z x := by
  rw [addLval]
  split
  · next c hc => rw [eval_addConst, h.const x c hc]
  · exact eval_addMonomer h t x

end PolynomialTerm

end

theorem PolynomialTerm.prod_sortPolys (ps : List (PolynomialExpression κ)) :
    ((sortPolys ps).map fun p => p.eval z).prod = (ps.map fun p => p.eval z).prod :=
  ((List.perm_insertionSort _ ps).map _).prod_eq

theorem PolynomialExpression.eval_toConst (h : L.Holds z) {p : PolynomialExpression κ} (hp : p.Ok)
    {c : κ} (hc : p.toConst L = some c) : p.eval z = algebraMap κ R c := by
  rw [eval_eq]
  rw [toConst] at hc
  split at hc
  · next hts =>
    obtain rfl := Option.some.inj hc
    rw [hts, List.map_nil, List.sum_nil, map_zero]
  · next c' ms ps d hts =>
    have ht : (PolynomialTerm.mk c' ms ps d).Ok := hp.terms_ok _ (hts ▸ List.mem_cons_self)
    have hle := ht.le_degree
    simp only [PolynomialTerm.monomerFactors, PolynomialTerm.polyFactors, PolynomialTerm.degree]
      at hle
    rw [hts, List.map_singleton, List.sum_singleton, PolynomialTerm.eval_mk]
    split at hc
    · obtain rfl := Option.some.inj hc
      obtain rfl : ms = [] := List.length_eq_zero_iff.1 (by omega)
      obtain rfl : ps = [] := List.length_eq_zero_iff.1 (by omega)
      simp
    · split at hc
      · next hvar =>
        obtain ⟨rfl, rfl, rfl⟩ := hvar
        obtain ⟨x, rfl⟩ := List.length_eq_one_iff.1 (ht.degree_eq rfl).symm
        rw [List.head?_cons, Option.bind_some] at hc
        simp [h.const x c hc]
      · cases hc
  · cases hc

namespace PolynomialTerm

mutual
theorem eval_addPoly (h : L.Holds z) : (t : PolynomialTerm κ) → (p : PolynomialExpression κ) →
    p.Ok → (t.addPoly L p).eval z = t.eval z * p.eval z
  | t, .mk ts added, hp => by
    rw [addPoly]
    split
    · next c hc => rw [eval_addConst, PolynomialExpression.eval_toConst h hp hc]
    · exact eval_addTerms h t (.mk ts added) ts hp rfl

theorem eval_addTerms (h : L.Holds z) : (t : PolynomialTerm κ) → (p : PolynomialExpression κ) →
    (ts : List (PolynomialTerm κ)) → p.Ok → p.terms = ts →
    (t.addTerms L p ts).eval z = t.eval z * p.eval z
  | t, p, [], _, hts => by
    rw [addTerms, eval_withConstant, p.eval_eq, hts]
    simp
  | t, p, [u], hp, hts => by
    rw [addTerms, eval_addFactorsOf h t u (hp.terms_ok u (hts ▸ List.mem_cons_self)).polysOk,
      p.eval_eq, hts, List.map_singleton, List.sum_singleton]
  | .mk c ms ps d, p, _ :: _ :: _, _, _ => by
    rw [addTerms, eval_simplifyProduct h, eval_mk, eval_mk, prod_sortPolys, List.map_append,
      List.prod_append, List.map_singleton, List.prod_singleton]
    ring

theorem eval_addFactorsOf (h : L.Holds z) : (t u : PolynomialTerm κ) → u.PolysOk →
    (t.addFactorsOf L u).eval z = t.eval z * u.eval z
  | .mk c ms ps d, .mk c' ms' ps' d', hu => by
    have hval := eval_addPolys h (.mk (c * c') (ms ++ ms') ps d) ps' fun q hq => (hu q hq).1
    rw [addFactorsOf]
    split
    next c'' ms'' ps'' d'' heq =>
      rw [heq, eval_mk, eval_mk, List.map_append, List.prod_append, map_mul] at hval
      rw [eval_simplifyProduct h, eval_mk, prod_sortMonomers, prod_sortPolys,
        hval, eval_mk, eval_mk]
      ring

theorem eval_addPolys (h : L.Holds z) : (t : PolynomialTerm κ) →
    (ps : List (PolynomialExpression κ)) →
    (∀ q ∈ ps, q.Ok) → (t.addPolys L ps).eval z = t.eval z * (ps.map fun p => p.eval z).prod
  | t, [], _ => by rw [addPolys, List.map_nil, List.prod_nil, mul_one]
  | t, p :: ps, hps => by
    obtain ⟨hp, hps⟩ := List.forall_mem_cons.1 hps
    rw [addPolys, eval_addPolys h _ ps hps, eval_addPoly h t p hp, List.map_cons, List.prod_cons,
      mul_assoc]
end

end PolynomialTerm

end

end Frontend

end Pequin
