import Pequin.Frontend.Order

/-!
# Normal forms

A term is normal if its factors are sorted and its stored degree is that of its factors, and a
polynomial is normal if its terms are, are strictly sorted, and have the stored degree. Nested
polynomials may have lost their degree when a term becomes the result of a product, but the next
`addFactor` computes it anew, from copies that are normal.
-/

namespace Pequin

namespace Frontend

variable {κ : Type}

/-! ## Factors without the stored degrees -/

mutual
def PolynomialTerm.renew : PolynomialTerm κ → PolynomialTerm κ
  | .mk c ms ps _ => .mk c ms (PolynomialTerm.renewPolys ps)
      (ms.length + ((PolynomialTerm.renewPolys ps).map PolynomialExpression.degree).sum)

def PolynomialTerm.renewPolys : List (PolynomialExpression κ) → List (PolynomialExpression κ)
  | [] => []
  | p :: ps => p.renew :: PolynomialTerm.renewPolys ps

def PolynomialExpression.renew : PolynomialExpression κ → PolynomialExpression κ
  | .mk ts _ => .mk (PolynomialExpression.renewTerms ts) (PolynomialExpression.renewTerms ts)

def PolynomialExpression.renewTerms : List (PolynomialTerm κ) → List (PolynomialTerm κ)
  | [] => []
  | t :: ts => t.renew :: PolynomialExpression.renewTerms ts
end

/-- Two terms have the same factors, in any order and whatever degrees are stored. -/
def PolynomialTerm.SameFactors (t u : PolynomialTerm κ) : Prop :=
  t.monomerFactors.Perm u.monomerFactors ∧
    (PolynomialTerm.renewPolys t.polyFactors).Perm (PolynomialTerm.renewPolys u.polyFactors)

theorem PolynomialTerm.renewPolys_eq (ps : List (PolynomialExpression κ)) :
    PolynomialTerm.renewPolys ps = ps.map PolynomialExpression.renew := by
  induction ps with
  | nil => rfl
  | cons p ps ih => rw [PolynomialTerm.renewPolys, ih, List.map_cons]

theorem PolynomialExpression.renewTerms_eq (ts : List (PolynomialTerm κ)) :
    PolynomialExpression.renewTerms ts = ts.map PolynomialTerm.renew := by
  induction ts with
  | nil => rfl
  | cons t ts ih => rw [PolynomialExpression.renewTerms, ih, List.map_cons]

theorem PolynomialTerm.duplicatePolys_eq [LinearOrder κ] (ps : List (PolynomialExpression κ)) :
    PolynomialTerm.duplicatePolys ps = ps.map PolynomialExpression.duplicate := by
  induction ps with
  | nil => rfl
  | cons p ps ih => rw [PolynomialTerm.duplicatePolys, ih, List.map_cons]

theorem PolynomialTerm.length_renewPolys (ps : List (PolynomialExpression κ)) :
    (PolynomialTerm.renewPolys ps).length = ps.length := by
  rw [renewPolys_eq, List.length_map]

theorem PolynomialExpression.length_renewTerms (ts : List (PolynomialTerm κ)) :
    (PolynomialExpression.renewTerms ts).length = ts.length := by
  rw [renewTerms_eq, List.length_map]

theorem PolynomialTerm.constant_renew (t : PolynomialTerm κ) : t.renew.constant = t.constant := by
  cases t with
  | mk => rfl

theorem dropRepeated_sublist (L : Lookup κ) (cur : Option ℕ) (ms : List ℕ) :
    (dropRepeated L cur ms).Sublist ms := by
  induction ms generalizing cur with
  | nil => exact .refl _
  | cons x xs ih =>
    rw [dropRepeated]
    split
    · split
      · exact (ih cur).cons x
      · exact (ih cur).cons_cons x
    · exact (ih (some x)).cons_cons x

variable [LinearOrder κ]

mutual
/-- Terms that compare equal have the same factors. -/
theorem PolynomialTerm.factors_of_compareTo : (t u : PolynomialTerm κ) → t.compareTo u = .eq →
    t.monomerFactors = u.monomerFactors ∧
      PolynomialTerm.renewPolys t.polyFactors = PolynomialTerm.renewPolys u.polyFactors
  | .mk c ms ps d, .mk c' ms' ps' d', h => by
    simp only [PolynomialTerm.compareTo, Ordering.then_eq_eq, Nat.compare_eq_eq] at h
    obtain ⟨-, hlen, hms, hplen, hps⟩ := h
    exact ⟨eq_of_compareMonomers hlen.symm hms,
      PolynomialTerm.renewPolys_of_compare ps ps' hplen.symm hps⟩

theorem PolynomialTerm.renewPolys_of_compare : (ps qs : List (PolynomialExpression κ)) →
    ps.length = qs.length → PolynomialTerm.comparePolys ps qs = .eq →
    PolynomialTerm.renewPolys ps = PolynomialTerm.renewPolys qs
  | [], [], _, _ => rfl
  | p :: ps, q :: qs, hlen, h => by
    rw [PolynomialTerm.comparePolys, Ordering.then_eq_eq] at h
    rw [PolynomialTerm.renewPolys, PolynomialTerm.renewPolys,
      PolynomialExpression.renew_of_compareTo p q h.1,
      PolynomialTerm.renewPolys_of_compare ps qs (Nat.succ.inj hlen) h.2]

theorem PolynomialExpression.renew_of_compareTo : (p q : PolynomialExpression κ) →
    p.compareTo q = .eq → p.renew = q.renew
  | .mk ts added, .mk ts' added', h => by
    simp only [PolynomialExpression.compareTo, Ordering.then_eq_eq, Nat.compare_eq_eq] at h
    rw [PolynomialExpression.renew, PolynomialExpression.renew,
      PolynomialExpression.renewTerms_of_compare ts ts' h.2.1.symm h.2.2]

theorem PolynomialExpression.renewTerms_of_compare : (ts us : List (PolynomialTerm κ)) →
    ts.length = us.length → PolynomialExpression.compareTerms ts us = .eq →
    PolynomialExpression.renewTerms ts = PolynomialExpression.renewTerms us
  | [], [], _, _ => rfl
  | .mk c ms ps d :: ts, .mk c' ms' ps' d' :: us, hlen, h => by
    simp only [PolynomialExpression.compareTerms, Ordering.then_eq_eq, compare_eq_iff_eq] at h
    obtain ⟨⟨hfac, hconst⟩, hrest⟩ := h
    obtain ⟨hms, hps⟩ := PolynomialTerm.factors_of_compareTo (.mk c ms ps d)
      (.mk c' ms' ps' d') hfac
    simp only [PolynomialTerm.monomerFactors, PolynomialTerm.polyFactors, PolynomialTerm.constant]
      at hms hps hconst
    rw [PolynomialExpression.renewTerms, PolynomialExpression.renewTerms, PolynomialTerm.renew,
      PolynomialTerm.renew, hms, hps, hconst,
      PolynomialExpression.renewTerms_of_compare ts us (Nat.succ.inj hlen) hrest]
end

/-! ## Normal terms and polynomials -/

mutual
inductive PolynomialTerm.Normal : PolynomialTerm κ → Prop where
  | mk {c : κ} {ms : List ℕ} {ps : List (PolynomialExpression κ)} {d : ℕ}
    (polys : ∀ q ∈ ps, q.Normal) (monomers_sorted : ms.Pairwise (· ≤ ·))
    (polys_sorted : ps.Pairwise fun p q => p.compareTo q ≠ .gt)
    (degree_eq : d = ms.length + (ps.map PolynomialExpression.degree).sum) :
    PolynomialTerm.Normal (.mk c ms ps d)

inductive PolynomialExpression.Normal : PolynomialExpression κ → Prop where
  | mk {ts added : List (PolynomialTerm κ)} (terms : ∀ t ∈ ts, t.Normal)
    (sorted : ts.Pairwise fun t u => t.compareTo u = .lt)
    (degree_eq : (PolynomialExpression.mk ts added).degree =
      (ts.map PolynomialTerm.degree).foldr max 0) :
    PolynomialExpression.Normal (.mk ts added)
end

/-- The terms are normal and strictly sorted; the stored degree may be that of terms that have
cancelled. -/
structure PolynomialExpression.Sorted (p : PolynomialExpression κ) : Prop where
  terms : ∀ t ∈ p.terms, t.Normal
  sorted : p.terms.Pairwise fun t u => t.compareTo u = .lt

theorem PolynomialExpression.Normal.toSorted {p : PolynomialExpression κ} (h : p.Normal) :
    p.Sorted := by
  cases h with
  | mk terms sorted degree_eq => exact ⟨terms, sorted⟩

variable {t : PolynomialTerm κ}

theorem PolynomialTerm.Normal.polys (h : t.Normal) : ∀ q ∈ t.polyFactors, q.Normal := by
  cases h with
  | mk polys monomers_sorted polys_sorted degree_eq => exact polys

mutual
theorem PolynomialTerm.Normal.degree_renew : {t : PolynomialTerm κ} → t.Normal →
    t.renew.degree = t.degree
  | .mk c ms ps d, h => by
    cases h with
    | mk polys monomers_sorted polys_sorted degree_eq =>
      rw [PolynomialTerm.renew, PolynomialTerm.degree, PolynomialTerm.degree, degree_eq,
        PolynomialTerm.map_degree_renewPolys polys]

theorem PolynomialTerm.map_degree_renewPolys : {ps : List (PolynomialExpression κ)} →
    (∀ q ∈ ps, q.Normal) → (PolynomialTerm.renewPolys ps).map PolynomialExpression.degree =
      ps.map PolynomialExpression.degree
  | [], _ => rfl
  | p :: ps, h => by
    obtain ⟨hp, hps⟩ := List.forall_mem_cons.1 h
    rw [PolynomialTerm.renewPolys, List.map_cons, List.map_cons, hp.degree_renew,
      PolynomialTerm.map_degree_renewPolys hps]

theorem PolynomialExpression.Normal.degree_renew : {p : PolynomialExpression κ} → p.Normal →
    p.renew.degree = p.degree
  | .mk ts added, h => by
    cases h with
    | mk terms sorted degree_eq =>
      rw [degree_eq, ← PolynomialExpression.map_degree_renewTerms terms]
      rfl

theorem PolynomialExpression.map_degree_renewTerms : {ts : List (PolynomialTerm κ)} →
    (∀ t ∈ ts, t.Normal) → (PolynomialExpression.renewTerms ts).map PolynomialTerm.degree =
      ts.map PolynomialTerm.degree
  | [], _ => rfl
  | t :: ts, h => by
    obtain ⟨ht, hts⟩ := List.forall_mem_cons.1 h
    rw [PolynomialExpression.renewTerms, List.map_cons, List.map_cons, ht.degree_renew,
      PolynomialExpression.map_degree_renewTerms hts]
end

mutual
/-- The order of normal terms is that of their factors. -/
theorem PolynomialTerm.Normal.compareTo_renew : {t u : PolynomialTerm κ} → t.Normal → u.Normal →
    t.renew.compareTo u.renew = t.compareTo u
  | .mk c ms ps d, .mk c' ms' ps' d', ht, hu => by
    have hd : (PolynomialTerm.mk c ms ps d).renew.degree = d := ht.degree_renew
    have hd' : (PolynomialTerm.mk c' ms' ps' d').renew.degree = d' := hu.degree_renew
    simp only [PolynomialTerm.renew, PolynomialTerm.degree] at hd hd'
    have hpolys := PolynomialTerm.comparePolys_renewPolys
      (show ∀ q ∈ ps, q.Normal from ht.polys) (show ∀ q ∈ ps', q.Normal from hu.polys)
    simp only [PolynomialTerm.renew, PolynomialTerm.compareTo, hd, hd',
      PolynomialTerm.length_renewPolys, hpolys]

theorem PolynomialTerm.comparePolys_renewPolys : {ps qs : List (PolynomialExpression κ)} →
    (∀ q ∈ ps, q.Normal) → (∀ q ∈ qs, q.Normal) →
    PolynomialTerm.comparePolys (PolynomialTerm.renewPolys ps) (PolynomialTerm.renewPolys qs) =
      PolynomialTerm.comparePolys ps qs
  | [], [], _, _ | [], _ :: _, _, _ | _ :: _, [], _, _ => rfl
  | p :: ps, q :: qs, h, h' => by
    obtain ⟨hp, hps⟩ := List.forall_mem_cons.1 h
    obtain ⟨hq, hqs⟩ := List.forall_mem_cons.1 h'
    rw [PolynomialTerm.renewPolys, PolynomialTerm.renewPolys, PolynomialTerm.comparePolys,
      PolynomialTerm.comparePolys, hp.compareTo_renew hq,
      PolynomialTerm.comparePolys_renewPolys hps hqs]

theorem PolynomialExpression.Normal.compareTo_renew : {p q : PolynomialExpression κ} → p.Normal →
    q.Normal → p.renew.compareTo q.renew = p.compareTo q
  | .mk ts added, .mk ts' added', hp, hq => by
    have hd := hp.degree_renew
    have hd' := hq.degree_renew
    simp only [PolynomialExpression.renew] at hd hd'
    have hterms := PolynomialExpression.compareTerms_renewTerms
      (show ∀ t ∈ ts, t.Normal from hp.toSorted.terms)
      (show ∀ t ∈ ts', t.Normal from hq.toSorted.terms)
    simp only [PolynomialExpression.renew, PolynomialExpression.compareTo, hd, hd',
      PolynomialExpression.length_renewTerms, hterms]

theorem PolynomialExpression.compareTerms_renewTerms : {ts us : List (PolynomialTerm κ)} →
    (∀ t ∈ ts, t.Normal) → (∀ t ∈ us, t.Normal) →
    PolynomialExpression.compareTerms (PolynomialExpression.renewTerms ts)
      (PolynomialExpression.renewTerms us) = PolynomialExpression.compareTerms ts us
  | [], [], _, _ | [], _ :: _, _, _ | _ :: _, [], _, _ => rfl
  | t :: ts, u :: us, h, h' => by
    obtain ⟨ht, hts⟩ := List.forall_mem_cons.1 h
    obtain ⟨hu, hus⟩ := List.forall_mem_cons.1 h'
    rw [PolynomialExpression.renewTerms, PolynomialExpression.renewTerms,
      PolynomialExpression.compareTerms, PolynomialExpression.compareTerms, ht.compareTo_renew hu,
      PolynomialTerm.constant_renew, PolynomialTerm.constant_renew,
      PolynomialExpression.compareTerms_renewTerms hts hus]
end

/-- The nested polynomials of normal terms are equal lists if they are the same in any order. -/
theorem PolynomialTerm.renewPolys_eq_of_perm {ps qs : List (PolynomialExpression κ)}
    (hps : ∀ q ∈ ps, q.Normal) (hqs : ∀ q ∈ qs, q.Normal)
    (hsorted : ps.Pairwise fun p q => p.compareTo q ≠ .gt)
    (hsorted' : qs.Pairwise fun p q => p.compareTo q ≠ .gt)
    (h : (PolynomialTerm.renewPolys ps).Perm (PolynomialTerm.renewPolys qs)) :
    PolynomialTerm.renewPolys ps = PolynomialTerm.renewPolys qs := by
  rw [renewPolys_eq, renewPolys_eq] at h ⊢
  have hpair : ∀ {rs : List (PolynomialExpression κ)}, (∀ q ∈ rs, q.Normal) →
      rs.Pairwise (fun p q => p.compareTo q ≠ .gt) →
      (rs.map PolynomialExpression.renew).Pairwise fun p q => p.compareTo q ≠ .gt := by
    intro rs hrs hrsorted
    rw [List.pairwise_map]
    exact hrsorted.imp_of_mem fun hp hq hle => by rwa [(hrs _ hp).compareTo_renew (hrs _ hq)]
  refine h.eq_of_pairwise ?_ (hpair hps hsorted) (hpair hqs hsorted')
  intro a b ha hb hab hba
  obtain ⟨p, hp, rfl⟩ := List.mem_map.1 ha
  obtain ⟨q, hq, rfl⟩ := List.mem_map.1 hb
  rw [(hps p hp).compareTo_renew (hqs q hq)] at hab
  rw [(hqs q hq).compareTo_renew (hps p hp), p.compareTo_swap q] at hba
  refine p.renew_of_compareTo q ?_
  cases hcmp : p.compareTo q with
  | eq => rfl
  | lt => rw [hcmp] at hba; exact absurd rfl hba
  | gt => exact absurd hcmp hab

theorem PolynomialTerm.comparePolys_self (ps : List (PolynomialExpression κ)) :
    PolynomialTerm.comparePolys ps ps = .eq :=
  Comparison.eq_of_eq_swap (comparePolys_swap ps ps)

/-- Normal terms with the same factors compare equal. -/
theorem PolynomialTerm.SameFactors.compareTo_eq {t u : PolynomialTerm κ} (h : t.SameFactors u)
    (ht : t.Normal) (hu : u.Normal) : t.compareTo u = .eq := by
  obtain ⟨hms, hps⟩ := h
  cases ht with
  | @mk c ms ps d polys monomers_sorted polys_sorted degree_eq =>
    cases hu with
    | @mk c' ms' ps' d' polys' monomers_sorted' polys_sorted' degree_eq' =>
      simp only [monomerFactors, polyFactors] at hms hps
      obtain rfl : ms = ms' := hms.eq_of_pairwise' monomers_sorted monomers_sorted'
      have hrenew := renewPolys_eq_of_perm polys polys' polys_sorted polys_sorted' hps
      have hlen : ps'.length = ps.length := by
        rw [← length_renewPolys, ← hrenew, length_renewPolys]
      have hd : d' = d := by
        rw [degree_eq, degree_eq', ← map_degree_renewPolys polys, ← map_degree_renewPolys polys',
          hrenew]
      have hcompare := comparePolys_renewPolys polys polys'
      rw [hrenew, comparePolys_self] at hcompare
      simp only [compareTo, Ordering.then_eq_eq, Nat.compare_eq_eq]
      exact ⟨hd, trivial, Comparison.eq_of_eq_swap (compareMonomers_swap ms ms),
        hlen, hcompare.symm⟩

/-! ## Insertion -/

namespace PolynomialExpression

variable {e : PolynomialTerm κ}

theorem insertTerm_last {ts : List (PolynomialTerm κ)} (h : ∀ t ∈ ts, t.compareTo e = .lt) :
    insertTerm e ts = ts ++ [e] := by
  induction ts with
  | nil => rfl
  | cons t ts ih =>
    obtain ⟨ht, hts⟩ := List.forall_mem_cons.1 h
    rw [insertTerm, ht, if_neg (by decide), ih hts, List.cons_append]

theorem insertTerm_strict {ts : List (PolynomialTerm κ)}
    (h : ts.Pairwise fun t u => t.compareTo u = .lt) (hne : ∀ t ∈ ts, t.compareTo e ≠ .eq) :
    (insertTerm e ts).Pairwise fun t u => t.compareTo u = .lt := by
  induction ts with
  | nil => exact List.pairwise_singleton _ _
  | cons t ts ih =>
    obtain ⟨hhead, htail⟩ := List.pairwise_cons.1 h
    obtain ⟨hnt, hnts⟩ := List.forall_mem_cons.1 hne
    rw [insertTerm]
    split
    · next hgt =>
      have het : e.compareTo t = .lt := by rw [t.compareTo_swap e, hgt]; rfl
      refine List.pairwise_cons.2 ⟨fun u hu => ?_, h⟩
      rcases List.mem_cons.1 hu with rfl | hu
      · exact het
      · exact (e.chain_compareTo t u).lt het (hhead u hu)
    · next hgt =>
      refine List.pairwise_cons.2 ⟨fun u hu => ?_, ih htail hnts⟩
      rcases List.mem_cons.1 ((insertTerm_perm e ts).mem_iff.1 hu) with rfl | hu
      · cases hcmp : t.compareTo u with
        | lt => rfl
        | eq => exact absurd hcmp hnt
        | gt => exact absurd hcmp hgt
      · exact hhead u hu

variable {p : PolynomialExpression κ}

theorem Sorted.add (h : p.Sorted) (he : e.Normal) (hne : ∀ t ∈ p.terms, t.compareTo e ≠ .eq) :
    (p.add e).Sorted := by
  refine ⟨fun t ht => ?_, ?_⟩
  · rcases List.mem_cons.1 ((p.add_perm e).mem_iff.1 ht) with rfl | ht
    · exact he
    · exact h.terms t ht
  · cases p with
    | mk ts added => exact insertTerm_strict h.sorted hne

theorem Sorted.remove (h : p.Sorted) (t : PolynomialTerm κ) : (p.remove t).Sorted := by
  cases p with
  | mk ts added =>
    exact ⟨fun u hu => h.terms u (List.mem_of_mem_eraseP hu), h.sorted.sublist List.eraseP_sublist⟩

/-- What is left differs from the term that was removed. -/
theorem Sorted.compareTo_removed (h : p.Sorted) {t u : PolynomialTerm κ} (hu : p.floor t = some u) :
    ∀ v ∈ (p.remove t).terms, v.compareTo u ≠ .eq := by
  have hsymm : ∀ {a b : PolynomialTerm κ}, a.compareTo b ≠ .eq → b.compareTo a ≠ .eq := by
    intro a b hab heq
    rw [a.compareTo_swap b, Ordering.swap_eq_eq] at heq
    exact hab heq
  have hne : p.terms.Pairwise fun a b => a.compareTo b ≠ .eq :=
    h.sorted.imp fun hlt heq => by rw [hlt] at heq; cases heq
  have hperm := (remove_perm hu).pairwise hne hsymm
  exact fun v hv => hsymm ((List.pairwise_cons.1 hperm).1 v hv)

theorem addDuplicates_eq (us added ts : List (PolynomialTerm κ))
    (h : (us ++ ts.map PolynomialTerm.duplicate).Pairwise fun t u => t.compareTo u = .lt) :
    addDuplicates (.mk us added) ts =
      .mk (us ++ ts.map PolynomialTerm.duplicate)
        ((ts.map PolynomialTerm.duplicate).reverse ++ added) := by
  induction ts generalizing us added with
  | nil => simp [addDuplicates]
  | cons t ts ih =>
    have hlast : ∀ u ∈ us, u.compareTo t.duplicate = .lt := fun u hu =>
      (List.pairwise_append.1 h).2.2 u hu _ List.mem_cons_self
    rw [List.map_cons, ← List.singleton_append, ← List.append_assoc] at h
    rw [addDuplicates, add, insertTerm_last hlast, ih _ _ h]
    simp

end PolynomialExpression

/-! ## Copies -/

/-- Normal terms with equal factors are compared with others in the same way. -/
theorem PolynomialTerm.Normal.compareTo_congr {t t' u u' : PolynomialTerm κ} (ht : t.Normal)
    (ht' : t'.Normal) (hu : u.Normal) (hu' : u'.Normal) (htt : t.renew = t'.renew)
    (huu : u.renew = u'.renew) : t.compareTo u = t'.compareTo u' := by
  rw [← ht.compareTo_renew hu, ← ht'.compareTo_renew hu', htt, huu]

theorem PolynomialExpression.Normal.compareTo_congr {p p' q q' : PolynomialExpression κ}
    (hp : p.Normal) (hp' : p'.Normal) (hq : q.Normal) (hq' : q'.Normal) (hpp : p.renew = p'.renew)
    (hqq : q.renew = q'.renew) : p.compareTo q = p'.compareTo q' := by
  rw [← hp.compareTo_renew hq, ← hp'.compareTo_renew hq', hpp, hqq]

theorem foldr_max_reverse (ds : List ℕ) : ds.reverse.foldr max 0 = ds.foldr max 0 :=
  (List.reverse_perm ds).foldr_eq 0

mutual
theorem PolynomialTerm.Normal.duplicate : {t : PolynomialTerm κ} → t.Normal →
    t.duplicate.Normal ∧ t.duplicate.renew = t.renew
  | .mk c ms ps d, h => by
    cases h with
    | mk polys monomers_sorted polys_sorted degree_eq =>
      have hps := PolynomialTerm.normal_duplicatePolys polys
      have hrenew : PolynomialTerm.renewPolys (PolynomialTerm.duplicatePolys ps) =
          PolynomialTerm.renewPolys ps := by
        rw [PolynomialTerm.duplicatePolys_eq, PolynomialTerm.renewPolys_eq, List.map_map,
          PolynomialTerm.renewPolys_eq]
        exact List.map_congr_left fun q hq => (hps q hq).2
      refine ⟨.mk ?_ monomers_sorted ?_ ?_, ?_⟩
      · rw [PolynomialTerm.duplicatePolys_eq]
        exact List.forall_mem_map.2 fun q hq => (hps q hq).1
      · rw [PolynomialTerm.duplicatePolys_eq, List.pairwise_map]
        refine polys_sorted.imp_of_mem fun hp hq hle => ?_
        rwa [(hps _ hp).1.compareTo_congr (polys _ hp) (hps _ hq).1 (polys _ hq) (hps _ hp).2
          (hps _ hq).2]
      · rw [degree_eq, ← PolynomialTerm.map_degree_renewPolys polys, ← hrenew,
          PolynomialTerm.map_degree_renewPolys]
        rw [PolynomialTerm.duplicatePolys_eq]
        exact List.forall_mem_map.2 fun q hq => (hps q hq).1
      · rw [PolynomialTerm.duplicate, PolynomialTerm.renew, PolynomialTerm.renew, hrenew]

theorem PolynomialTerm.normal_duplicatePolys : {ps : List (PolynomialExpression κ)} →
    (∀ q ∈ ps, q.Normal) → ∀ q ∈ ps, q.duplicate.Normal ∧ q.duplicate.renew = q.renew
  | [], _ => List.forall_mem_nil _
  | _ :: _, h => List.forall_mem_cons.2
    ⟨PolynomialExpression.normal_duplicate (List.forall_mem_cons.1 h).1.toSorted,
      PolynomialTerm.normal_duplicatePolys (List.forall_mem_cons.1 h).2⟩

/-- The copy has the degree of the terms that are left. -/
theorem PolynomialExpression.normal_duplicate : {p : PolynomialExpression κ} → p.Sorted →
    p.duplicate.Normal ∧ p.duplicate.renew = p.renew
  | .mk ts added, h => by
    have hts := PolynomialExpression.normal_duplicateTerms (show ∀ t ∈ ts, t.Normal from h.terms)
    have hsorted : (ts.map PolynomialTerm.duplicate).Pairwise fun t u => t.compareTo u = .lt := by
      rw [List.pairwise_map]
      refine h.sorted.imp_of_mem fun ht hu hlt => ?_
      rwa [(hts _ ht).1.compareTo_congr (h.terms _ ht) (hts _ hu).1 (h.terms _ hu) (hts _ ht).2
        (hts _ hu).2]
    have hdup : (PolynomialExpression.mk ts added).duplicate =
        .mk (ts.map PolynomialTerm.duplicate) (ts.map PolynomialTerm.duplicate).reverse := by
      rw [PolynomialExpression.duplicate, PolynomialExpression.zero,
        PolynomialExpression.addDuplicates_eq [] [] ts hsorted, List.nil_append, List.append_nil]
    rw [hdup]
    refine ⟨.mk (List.forall_mem_map.2 fun t ht => (hts t ht).1) hsorted ?_, ?_⟩
    · rw [PolynomialExpression.degree, PolynomialExpression.added, List.map_reverse,
        foldr_max_reverse]
    · have hrenew : PolynomialExpression.renewTerms (ts.map PolynomialTerm.duplicate) =
          PolynomialExpression.renewTerms ts := by
        rw [PolynomialExpression.renewTerms_eq, List.map_map, PolynomialExpression.renewTerms_eq]
        exact List.map_congr_left fun t ht => (hts t ht).2
      rw [PolynomialExpression.renew, PolynomialExpression.renew, hrenew]

theorem PolynomialExpression.normal_duplicateTerms : {ts : List (PolynomialTerm κ)} →
    (∀ t ∈ ts, t.Normal) → ∀ t ∈ ts, t.duplicate.Normal ∧ t.duplicate.renew = t.renew
  | [], _ => List.forall_mem_nil _
  | _ :: _, h => List.forall_mem_cons.2 ⟨(List.forall_mem_cons.1 h).1.duplicate,
      PolynomialExpression.normal_duplicateTerms (List.forall_mem_cons.1 h).2⟩
end

/-! ## Adding terms -/

theorem PolynomialTerm.Normal.withConstant (h : t.Normal) (c : κ) : (t.withConstant c).Normal := by
  cases h with
  | mk polys monomers_sorted polys_sorted degree_eq =>
    exact .mk polys monomers_sorted polys_sorted degree_eq

theorem PolynomialTerm.compareTo_withConstant (t u : PolynomialTerm κ) (c : κ) :
    t.compareTo (u.withConstant c) = t.compareTo u := by
  cases t with
  | mk => cases u with
    | mk => rfl

theorem PolynomialTerm.Normal.compareTo_copy {t u : PolynomialTerm κ} (ht : t.Normal)
    (hu : u.Normal) (c : κ) : t.compareTo (u.duplicate.withConstant c) = t.compareTo u := by
  rw [compareTo_withConstant]
  exact ht.compareTo_congr ht hu.duplicate.1 hu rfl hu.duplicate.2

theorem pairwise_sortMonomers (ms : List ℕ) : (sortMonomers ms).Pairwise (· ≤ ·) :=
  List.pairwise_insertionSort _ ms

theorem pairwise_sortPolys (ps : List (PolynomialExpression κ)) :
    (sortPolys ps).Pairwise fun p q => p.compareTo q ≠ .gt := by
  have : Std.Total fun p q : PolynomialExpression κ => p.compareTo q ≠ .gt := ⟨fun p q => by
    rw [p.compareTo_swap q]
    cases p.compareTo q with
    | lt | eq => exact .inl nofun
    | gt => exact .inr nofun⟩
  have : IsTrans (PolynomialExpression κ) fun p q => p.compareTo q ≠ .gt := ⟨fun p q r hpq hqr => by
    have hchain := p.chain_compareTo q r
    cases h : p.compareTo q with
    | eq => rwa [hchain.eq_left h]
    | lt =>
      cases h' : q.compareTo r with
      | eq => rwa [hchain.eq_right h']
      | lt => rw [hchain.lt h h']; nofun
      | gt => exact absurd h' hqr
    | gt => exact absurd h hpq⟩
  exact List.pairwise_insertionSort _ ps

theorem mem_sortPolys {ps : List (PolynomialExpression κ)} {p : PolynomialExpression κ} :
    p ∈ sortPolys ps ↔ p ∈ ps :=
  (List.perm_insertionSort _ ps).mem_iff

theorem PolynomialTerm.normal_simplifyProduct (L : Lookup κ) {c : κ} {ms : List ℕ}
    {ps : List (PolynomialExpression κ)} {d : ℕ} (hps : ∀ q ∈ ps, q.Normal)
    (hms : ms.Pairwise (· ≤ ·)) (hsorted : ps.Pairwise fun p q => p.compareTo q ≠ .gt) :
    (simplifyProduct L (.mk c ms ps d)).Normal :=
  .mk hps (hms.sublist (dropRepeated_sublist L none ms)) hsorted rfl

/-- What a conversion returns: the terms are normal and sorted, or there is one term, whose nested
polynomials are normal. -/
def PolynomialExpression.Result (p : PolynomialExpression κ) : Prop :=
  p.Sorted ∨ ∃ t, p.terms = [t] ∧ ∀ q ∈ t.polyFactors, q.Normal

namespace PolynomialExpression

variable {p : PolynomialExpression κ}

theorem Result.polys (h : p.Result) {u : PolynomialTerm κ} (hu : p.terms = [u]) :
    ∀ q ∈ u.polyFactors, q.Normal := by
  rcases h with h | ⟨t, ht, hpolys⟩
  · exact (h.terms u (hu ▸ List.mem_cons_self)).polys
  · obtain rfl : t = u := by rw [hu] at ht; exact (List.singleton_inj.1 ht).symm
    exact hpolys

theorem Result.sorted (h : p.Result) (hlen : 2 ≤ p.terms.length) : p.Sorted := by
  rcases h with h | ⟨t, ht, -⟩
  · exact h
  · rw [ht, List.length_singleton] at hlen
    omega

/-- The terms of a result are strictly sorted. -/
theorem Result.strict (h : p.Result) : p.terms.Pairwise fun t u => t.compareTo u = .lt := by
  rcases h with h | ⟨t, ht, -⟩
  · exact h.sorted
  · rw [ht]
    exact List.pairwise_singleton _ _

/-- No two terms of a result have the same factors. -/
theorem Result.factors (h : p.Result) : p.terms.Pairwise fun t u => ¬ t.SameFactors u := by
  rcases h with h | ⟨t, ht, -⟩
  · refine h.sorted.imp_of_mem fun ht hu hlt hsame => ?_
    rw [hsame.compareTo_eq (h.terms _ ht) (h.terms _ hu)] at hlt
    cases hlt
  · rw [ht]
    exact List.pairwise_singleton _ _

end PolynomialExpression

theorem PolynomialExpression.sorted_zero : (zero : PolynomialExpression κ).Sorted :=
  ⟨List.forall_mem_nil _, .nil⟩

variable [CommRing κ]

namespace PolynomialExpression

theorem Sorted.addTerm {p : PolynomialExpression κ} (hp : p.Sorted) {t : PolynomialTerm κ}
    (ht : t.Normal) (c : κ) : (p.addTerm c t).Sorted := by
  rw [PolynomialExpression.addTerm]
  split
  · exact hp
  · split
    · next u hu =>
      have hmem : u.Normal := hp.terms u ((remove_perm hu).mem_iff.2 List.mem_cons_self)
      split
      · exact hp.remove t
      · refine (hp.remove t).add (hmem.duplicate.1.withConstant _) fun v hv => ?_
        rw [((hp.remove t).terms v hv).compareTo_copy hmem]
        exact hp.compareTo_removed hu v hv
    · next hnone =>
      refine hp.add (ht.duplicate.1.withConstant c) fun v hv heq => ?_
      rw [(hp.terms v hv).compareTo_copy ht] at heq
      rw [floor, List.find?_eq_none] at hnone
      exact hnone v hv (decide_eq_true heq)

mutual
theorem Sorted.addMultiplesOfTerm : {p : PolynomialExpression κ} → p.Sorted → (c : κ) →
    {t : PolynomialTerm κ} → t.Normal → (p.addMultiplesOfTerm c t).Sorted
  | p, hp, c, .mk c' [] [q] d, ht =>
    hp.addMultiplesOfPoly (c * c') (ht.polys q List.mem_cons_self).toSorted
  | p, hp, c, .mk c' [] [] d, ht | p, hp, c, .mk c' (m :: ms) ps d, ht
  | p, hp, c, .mk c' [] (q :: q' :: ps) d, ht => by
    rw [PolynomialExpression.addMultiplesOfTerm]
    · exact hp.addTerm ht _
    · simp

theorem Sorted.addMultiplesOfPoly : {p : PolynomialExpression κ} → p.Sorted → (c : κ) →
    {q : PolynomialExpression κ} → q.Sorted → (p.addMultiplesOfPoly c q).Sorted
  | _, hp, c, .mk _ _, hq => hp.addMultiplesOfTerms c hq.terms

theorem Sorted.addMultiplesOfTerms : {p : PolynomialExpression κ} → p.Sorted → (c : κ) →
    {ts : List (PolynomialTerm κ)} → (∀ t ∈ ts, t.Normal) → (p.addMultiplesOfTerms c ts).Sorted
  | _, hp, _, [], _ => hp
  | _, hp, c, _ :: _, hts =>
    (hp.addMultiplesOfTerm c (List.forall_mem_cons.1 hts).1).addMultiplesOfTerms c
      (List.forall_mem_cons.1 hts).2
end

end PolynomialExpression

/-! ## Products -/

namespace PolynomialTerm

/-- A sum is a factor as it is. -/
theorem addPoly_sum (L : Lookup κ) (t : PolynomialTerm κ) {p : PolynomialExpression κ}
    (h : 2 ≤ p.terms.length) :
    t.addPoly L p =
      simplifyProduct L (.mk t.constant t.monomerFactors
        (sortPolys (t.polyFactors ++ [p])) t.degree) := by
  cases p with
  | mk ts added =>
    match ts, h with
    | .mk c ms ps d :: v :: ts, _ =>
      cases t with
      | mk => rfl

theorem polyFactors_addPolys (L : Lookup κ) {P : PolynomialExpression κ → Prop}
    (t : PolynomialTerm κ) (ps : List (PolynomialExpression κ)) (ht : ∀ q ∈ t.polyFactors, P q)
    (hps : ∀ q ∈ ps, P q ∧ 2 ≤ q.terms.length) : ∀ q ∈ (t.addPolys L ps).polyFactors, P q := by
  induction ps generalizing t with
  | nil => exact ht
  | cons p ps ih =>
    obtain ⟨hp, hps⟩ := List.forall_mem_cons.1 hps
    rw [addPolys]
    refine ih _ (fun q hq => ?_) hps
    rw [addPoly_sum L t hp.2] at hq
    rcases List.mem_append.1 (mem_sortPolys.1 hq) with hq | hq
    · exact ht q hq
    · rw [List.mem_singleton.1 hq]
      exact hp.1

/-- The factors of a term and of another one, sorted and with their degree. -/
theorem addFactorsOf_eq (L : Lookup κ) (t u : PolynomialTerm κ) :
    ∃ c ms ps d, t.addFactorsOf L u =
      simplifyProduct L (.mk c (sortMonomers ms) (sortPolys ps) d) ∧
      ∀ {P : PolynomialExpression κ → Prop}, (∀ q ∈ t.polyFactors, P q) →
        (∀ q ∈ u.polyFactors, P q ∧ 2 ≤ q.terms.length) → ∀ q ∈ ps, P q := by
  obtain ⟨c, ms, ps, d⟩ := t
  obtain ⟨c', ms', ps', d'⟩ := u
  have hpolys := fun {P} ht hu => @polyFactors_addPolys κ _ _ L P
    (.mk (c * c') (ms ++ ms') ps d) ps' ht hu
  rw [addFactorsOf]
  split
  next c'' ms'' ps'' d'' heq =>
    rw [heq] at hpolys
    exact ⟨c'', ms'', ps'', d'', rfl, hpolys⟩

end PolynomialTerm

section
variable (L : Lookup κ)

theorem PolynomialTerm.normal_addConst_one (c : κ) : (one.addConst c).Normal :=
  .mk (List.forall_mem_nil _) .nil .nil rfl

/-- A polynomial that is not a constant has a single term, whose factors are added, or it is a
factor. -/
theorem PolynomialTerm.addPoly_cases (t : PolynomialTerm κ) (p : PolynomialExpression κ) :
    (∃ c, t.addPoly L p = t.addConst c) ∨ (∃ u, p.terms = [u] ∧ t.addPoly L p = t.addFactorsOf L u)
      ∨ 2 ≤ p.terms.length := by
  obtain ⟨ts, added⟩ := p
  rw [addPoly]
  split
  · exact .inl ⟨_, rfl⟩
  · next hnone =>
    rcases ts with _ | ⟨u, _ | ⟨v, ts⟩⟩
    · cases hnone
    · exact .inr (.inl ⟨u, rfl, rfl⟩)
    · exact .inr (.inr (Nat.le_add_left _ _))

/-- Adding a multiple of a result keeps the terms normal and sorted. -/
theorem PolynomialExpression.Sorted.addResult {p q : PolynomialExpression κ} (hp : p.Sorted)
    (hq : q.Result) (hok : q.Ok) (c : κ) :
    (p.addMultiplesOfTerm c (PolynomialTerm.one.addPoly L q)).Sorted := by
  rcases PolynomialTerm.one.addPoly_cases L q with ⟨c', hc⟩ | ⟨u, hu, hadd⟩ | hlen
  · rw [hc]
    exact hp.addMultiplesOfTerm c (PolynomialTerm.normal_addConst_one c')
  · obtain ⟨c', ms, ps, d, heq, hps⟩ := PolynomialTerm.addFactorsOf_eq L .one u
    have hpolys := (hok.terms_ok u (hu ▸ List.mem_cons_self)).polysOk
    rw [hadd, heq]
    refine hp.addMultiplesOfTerm c (PolynomialTerm.normal_simplifyProduct L (fun r hr => ?_)
      (pairwise_sortMonomers ms) (pairwise_sortPolys ps))
    exact hps (List.forall_mem_nil _) (fun r hr => ⟨hq.polys hu r hr, (hpolys r hr).2⟩) r
      (mem_sortPolys.1 hr)
  · have hsum : PolynomialTerm.one.addPoly L q = .mk 1 [] [q] (0 + (q.degree + 0)) :=
      PolynomialTerm.addPoly_sum L .one hlen
    rw [hsum, PolynomialExpression.addMultiplesOfTerm]
    exact hp.addMultiplesOfPoly _ (hq.sorted hlen)

/-- The nested polynomials of a product of results are sorted. -/
theorem PolynomialTerm.sorted_addPoly {t : PolynomialTerm κ} (ht : ∀ q ∈ t.polyFactors, q.Sorted)
    {p : PolynomialExpression κ} (hp : p.Result) (hok : p.Ok) :
    ∀ q ∈ (t.addPoly L p).polyFactors, q.Sorted := by
  rcases t.addPoly_cases L p with ⟨c, hc⟩ | ⟨u, hu, hadd⟩ | hlen
  · rw [hc]
    cases t with
    | mk => exact ht
  · obtain ⟨c', ms, ps, d, heq, hps⟩ := addFactorsOf_eq L t u
    have hpolys := (hok.terms_ok u (hu ▸ List.mem_cons_self)).polysOk
    rw [hadd, heq]
    intro q hq
    exact hps ht (fun r hr => ⟨(hp.polys hu r hr).toSorted, (hpolys r hr).2⟩) q (mem_sortPolys.1 hq)
  · rw [addPoly_sum L t hlen]
    intro q hq
    rcases List.mem_append.1 (mem_sortPolys.1 hq) with hq | hq
    · exact ht q hq
    · rw [List.mem_singleton.1 hq]
      exact hp.sorted hlen

end

/-- A term alone is a result if its nested polynomials are sorted: the copy of each is normal. -/
theorem PolynomialExpression.result_term (h : ∀ q ∈ t.polyFactors, q.Sorted) (c : κ) :
    (zero.addMultiplesOfTerm c t).Result := by
  have hterm : ∀ c' : κ, (zero.addTerm c' t).Result := by
    intro c'
    rw [addTerm]
    split
    · exact .inl sorted_zero
    · refine .inr ⟨t.duplicate.withConstant c', rfl, ?_⟩
      cases t with
      | mk c ms ps d =>
        intro q hq
        rw [PolynomialTerm.duplicate, PolynomialTerm.withConstant, PolynomialTerm.polyFactors,
          PolynomialTerm.duplicatePolys_eq] at hq
        obtain ⟨r, hr, rfl⟩ := List.mem_map.1 hq
        exact (normal_duplicate (h r hr)).1
  obtain ⟨c', _ | ⟨m, ms⟩, _ | ⟨q, _ | ⟨q', ps⟩⟩, d⟩ := t
  case nil.cons.nil => exact .inl (sorted_zero.addMultiplesOfPoly _ (h q List.mem_cons_self))
  all_goals
    rw [addMultiplesOfTerm]
    · exact hterm _
    · simp

end Frontend

end Pequin
