import Pequin.Frontend.Factors

/-!
# The variables of polynomials

What a `TermsList` records of its inputs covers its terms, since each term was inserted. The
predicate `Over` states this with a condition on the variables, of the polynomial and of all that is
nested in it, and the operations keep it.
-/

namespace Pequin

namespace Frontend

variable {κ : Type} {P : ℕ → Prop}

/-- The terms were inserted, and the variables of the inserted terms satisfy `P`. -/
inductive PolynomialExpression.Over (P : ℕ → Prop) : PolynomialExpression κ → Prop
  | mk {ts added : List (PolynomialTerm κ)} (mem_added : ∀ t ∈ ts, t ∈ added)
    (monomers : ∀ t ∈ added, ∀ m ∈ t.monomerFactors, P m)
    (polys : ∀ t ∈ added, ∀ q ∈ t.polyFactors, q.Over P) :
      PolynomialExpression.Over P (.mk ts added)

structure PolynomialTerm.Over (P : ℕ → Prop) (t : PolynomialTerm κ) : Prop where
  monomers : ∀ m ∈ t.monomerFactors, P m
  polys : ∀ q ∈ t.polyFactors, q.Over P

namespace PolynomialTerm

theorem over_one [One κ] : (one : PolynomialTerm κ).Over P :=
  ⟨List.forall_mem_nil _, List.forall_mem_nil _⟩

theorem Over.withConstant {t : PolynomialTerm κ} (h : t.Over P) (c : κ) :
    (t.withConstant c).Over P := by
  cases t with
  | mk => exact ⟨h.monomers, h.polys⟩

end PolynomialTerm

namespace PolynomialExpression

theorem over_zero : (zero : PolynomialExpression κ).Over P :=
  .mk (List.forall_mem_nil _) (List.forall_mem_nil _) (List.forall_mem_nil _)

variable {p : PolynomialExpression κ}

theorem Over.mem_added (h : p.Over P) : ∀ t ∈ p.terms, t ∈ p.added := by
  cases h with
  | mk mem_added monomers polys => exact mem_added

theorem Over.added (h : p.Over P) : ∀ t ∈ p.added, t.Over P := by
  cases h with
  | mk mem_added monomers polys => exact fun t ht => ⟨monomers t ht, polys t ht⟩

theorem Over.terms (h : p.Over P) : ∀ t ∈ p.terms, t.Over P :=
  fun t ht => h.added t (h.mem_added t ht)

theorem over_of_added {ts added : List (PolynomialTerm κ)} (hmem : ∀ t ∈ ts, t ∈ added)
    (hadded : ∀ t ∈ added, t.Over P) : (PolynomialExpression.mk ts added).Over P :=
  .mk hmem (fun t ht => (hadded t ht).monomers) fun t ht => (hadded t ht).polys

end PolynomialExpression

variable [LinearOrder κ]

namespace PolynomialExpression

theorem Over.add {p : PolynomialExpression κ} (h : p.Over P) {e : PolynomialTerm κ}
    (he : e.Over P) : (p.add e).Over P := by
  have hmem := h.mem_added
  have hadded := h.added
  cases p with
  | mk ts added =>
    refine over_of_added (fun t ht => ?_) (List.forall_mem_cons.2 ⟨he, hadded⟩)
    rcases List.mem_cons.1 ((insertTerm_perm e ts).mem_iff.1 ht) with rfl | ht
    · exact List.mem_cons_self
    · exact List.mem_cons_of_mem _ (hmem t ht)

theorem Over.remove {p : PolynomialExpression κ} (h : p.Over P) (t : PolynomialTerm κ) :
    (p.remove t).Over P := by
  have hmem := h.mem_added
  have hadded := h.added
  cases p with
  | mk ts added => exact over_of_added (fun u hu => hmem u (List.mem_of_mem_eraseP hu)) hadded

end PolynomialExpression

mutual
theorem PolynomialTerm.Over.duplicate : {t : PolynomialTerm κ} → t.Over P → t.duplicate.Over P
  | .mk _ _ ps _, h => ⟨h.monomers, PolynomialTerm.over_duplicatePolys ps h.polys⟩

theorem PolynomialTerm.over_duplicatePolys : (ps : List (PolynomialExpression κ)) →
    (∀ q ∈ ps, q.Over P) → ∀ q ∈ PolynomialTerm.duplicatePolys ps, q.Over P
  | [], _ => List.forall_mem_nil _
  | p :: ps, h => by
    obtain ⟨hp, hps⟩ := List.forall_mem_cons.1 h
    exact List.forall_mem_cons.2 ⟨PolynomialExpression.Over.duplicate hp,
      PolynomialTerm.over_duplicatePolys ps hps⟩

theorem PolynomialExpression.Over.duplicate : {p : PolynomialExpression κ} → p.Over P →
    p.duplicate.Over P
  | .mk ts _, h => PolynomialExpression.over_addDuplicates .zero ts
      PolynomialExpression.over_zero h.terms

theorem PolynomialExpression.over_addDuplicates : (p : PolynomialExpression κ) →
    (ts : List (PolynomialTerm κ)) → p.Over P → (∀ t ∈ ts, t.Over P) → (p.addDuplicates ts).Over P
  | _, [], hp, _ => hp
  | p, t :: ts, hp, hts =>
    PolynomialExpression.over_addDuplicates (p.add t.duplicate) ts
      (hp.add (PolynomialTerm.Over.duplicate (List.forall_mem_cons.1 hts).1))
      (List.forall_mem_cons.1 hts).2
end

variable [CommRing κ]

theorem PolynomialExpression.Over.addTerm {p : PolynomialExpression κ} (hp : p.Over P)
    {t : PolynomialTerm κ} (ht : t.Over P) (c : κ) : (p.addTerm c t).Over P := by
  rw [PolynomialExpression.addTerm]
  split
  · exact hp
  · split
    · next u hu =>
      have hmem : u ∈ p.terms := (remove_perm hu).mem_iff.2 List.mem_cons_self
      split
      · exact hp.remove t
      · exact (hp.remove t).add ((hp.terms u hmem).duplicate.withConstant _)
    · exact hp.add (ht.duplicate.withConstant c)

mutual
theorem PolynomialExpression.Over.addMultiplesOfTerm : {p : PolynomialExpression κ} → p.Over P →
    (c : κ) → {t : PolynomialTerm κ} → t.Over P → (p.addMultiplesOfTerm c t).Over P
  | _, hp, c, .mk c' [] [q] d, ht => hp.addMultiplesOfPoly (c * c') (ht.polys q List.mem_cons_self)
  | _, hp, c, .mk c' [] [] d, ht | _, hp, c, .mk c' (m :: ms) ps d, ht
  | _, hp, c, .mk c' [] (q :: q' :: ps) d, ht => by
    rw [PolynomialExpression.addMultiplesOfTerm]
    · exact hp.addTerm ht _
    · simp

theorem PolynomialExpression.Over.addMultiplesOfPoly : {p : PolynomialExpression κ} → p.Over P →
    (c : κ) → {q : PolynomialExpression κ} → q.Over P → (p.addMultiplesOfPoly c q).Over P
  | _, hp, c, .mk _ _, hq => hp.addMultiplesOfTerms c hq.terms

theorem PolynomialExpression.Over.addMultiplesOfTerms : {p : PolynomialExpression κ} → p.Over P →
    (c : κ) → {ts : List (PolynomialTerm κ)} → (∀ t ∈ ts, t.Over P) →
    (p.addMultiplesOfTerms c ts).Over P
  | _, hp, _, [], _ => hp
  | _, hp, c, _ :: _, hts =>
    (hp.addMultiplesOfTerm c (List.forall_mem_cons.1 hts).1).addMultiplesOfTerms c
      (List.forall_mem_cons.1 hts).2
end

variable (L : Lookup κ)

namespace PolynomialTerm

variable {t : PolynomialTerm κ}

section
omit [LinearOrder κ]

theorem Over.addConst (h : t.Over P) (c : κ) : (t.addConst c).Over P := by
  cases t with
  | mk => exact ⟨h.monomers, h.polys⟩

omit [CommRing κ]

theorem dropRepeated_subset (cur : Option ℕ) (ms : List ℕ) : dropRepeated L cur ms ⊆ ms := by
  induction ms generalizing cur with
  | nil => exact List.Subset.refl _
  | cons x ms ih =>
    rw [dropRepeated]
    split
    · split
      · exact List.subset_cons_of_subset x (ih cur)
      · exact List.cons_subset_cons x (ih cur)
    · exact List.cons_subset_cons x (ih _)

theorem Over.simplifyProduct (h : t.Over P) : (t.simplifyProduct L).Over P := by
  cases t with
  | mk c ms ps d => exact ⟨fun m hm => h.monomers m (dropRepeated_subset L none ms hm), h.polys⟩

theorem mem_sortMonomers {ms : List ℕ} (h : ∀ m ∈ ms, P m) : ∀ m ∈ sortMonomers ms, P m :=
  fun m hm => h m ((List.perm_insertionSort _ ms).mem_iff.1 hm)

theorem Over.addMonomer (h : t.Over P) {x : ℕ} (hx : P x) : (t.addMonomer L x).Over P := by
  cases t with
  | mk c ms ps d =>
    have hms := List.forall_mem_append.2 ⟨h.monomers, List.forall_mem_singleton.2 hx⟩
    have hsorted : (PolynomialTerm.mk c (sortMonomers (ms ++ [x])) ps d).Over P :=
      ⟨mem_sortMonomers hms, h.polys⟩
    exact hsorted.simplifyProduct L

end

omit [CommRing κ] in
theorem over_sortPolys {ps : List (PolynomialExpression κ)} (h : ∀ q ∈ ps, q.Over P) :
    ∀ q ∈ sortPolys ps, q.Over P :=
  fun q hq => h q ((List.perm_insertionSort _ ps).mem_iff.1 hq)

mutual
theorem Over.addPoly : {t : PolynomialTerm κ} → t.Over P → {p : PolynomialExpression κ} → p.Over P →
    (t.addPoly L p).Over P
  | t, ht, .mk ts added, hp => by
    rw [PolynomialTerm.addPoly]
    split
    · exact ht.addConst _
    · exact over_addTerms ht hp ts hp.terms

theorem over_addTerms : {t : PolynomialTerm κ} → t.Over P → {p : PolynomialExpression κ} →
    p.Over P → (ts : List (PolynomialTerm κ)) → (∀ u ∈ ts, u.Over P) → (t.addTerms L p ts).Over P
  | _, ht, _, _, [], _ => ht.withConstant 0
  | _, ht, _, _, [u], hts => over_addFactorsOf ht (hts u List.mem_cons_self)
  | .mk c ms ps d, ht, p, hp, _ :: _ :: _, _ => by
    have hps := List.forall_mem_append.2 ⟨ht.polys, List.forall_mem_singleton.2 hp⟩
    have hsorted : (PolynomialTerm.mk c ms (sortPolys (ps ++ [p])) d).Over P :=
      ⟨ht.monomers, over_sortPolys hps⟩
    exact hsorted.simplifyProduct L

theorem over_addFactorsOf : {t u : PolynomialTerm κ} → t.Over P → u.Over P →
    (t.addFactorsOf L u).Over P
  | .mk c ms ps d, .mk c' ms' ps' d', ht, hu => by
    have hstart : (PolynomialTerm.mk (c * c') (ms ++ ms') ps d).Over P :=
      ⟨List.forall_mem_append.2 ⟨ht.monomers, hu.monomers⟩, ht.polys⟩
    have hadded := over_addPolys hstart ps' hu.polys
    rw [addFactorsOf]
    split
    next c ms ps d heq =>
      rw [heq] at hadded
      have hsorted : (PolynomialTerm.mk c (sortMonomers ms) (sortPolys ps) d).Over P :=
        ⟨mem_sortMonomers hadded.monomers, over_sortPolys hadded.polys⟩
      exact hsorted.simplifyProduct L

theorem over_addPolys : {t : PolynomialTerm κ} → t.Over P → (ps : List (PolynomialExpression κ)) →
    (∀ q ∈ ps, q.Over P) → (t.addPolys L ps).Over P
  | _, ht, [], _ => ht
  | _, ht, _ :: ps, hps =>
    over_addPolys (ht.addPoly (List.forall_mem_cons.1 hps).1) ps (List.forall_mem_cons.1 hps).2
end

end PolynomialTerm

end Frontend

end Pequin
