import Pequin.Frontend.Factors
import Pequin.Lib.Comparison

/-!
# The order of terms

`compareTo` compares stored degrees first, and the stored degree of a polynomial is not that of its
terms after some of them have cancelled. The comparison is a preorder all the same. Terms that
compare equal have the same factors, and the converse holds where the stored degrees are current.
-/

namespace Pequin

namespace Frontend

open Comparison

variable {κ : Type} [LinearOrder κ]

/-! ## A preorder -/

theorem compareMonomers_swap (xs ys : List ℕ) :
    compareMonomers ys xs = (compareMonomers xs ys).swap := by
  induction xs generalizing ys with
  | nil => cases ys <;> rfl
  | cons x xs ih =>
    cases ys with
    | nil => rfl
    | cons y ys => rw [compareMonomers, compareMonomers, Ordering.swap_then, ← ih, Nat.compare_swap]

theorem chain_compareMonomers (xs ys zs : List ℕ) (h : xs.length = ys.length)
    (h' : ys.length = zs.length) :
    Chain (compareMonomers xs ys) (compareMonomers ys zs) (compareMonomers xs zs) := by
  induction xs generalizing ys zs with
  | nil =>
    obtain rfl := List.length_eq_zero_iff.1 h.symm
    obtain rfl := List.length_eq_zero_iff.1 h'.symm
    exact ⟨fun _ => rfl, fun _ => rfl, nofun, nofun⟩
  | cons x xs ih =>
    match ys, zs with
    | y :: ys, z :: zs =>
      exact (chain_compare x y z).append fun _ _ => ih ys zs (Nat.succ.inj h) (Nat.succ.inj h')

mutual
theorem PolynomialTerm.compareTo_swap : (t u : PolynomialTerm κ) →
    u.compareTo t = (t.compareTo u).swap
  | .mk c ms ps d, .mk c' ms' ps' d' => by
    simp only [PolynomialTerm.compareTo, Ordering.swap_then, Nat.compare_swap,
      ← compareMonomers_swap, ← PolynomialTerm.comparePolys_swap ps ps']

theorem PolynomialTerm.comparePolys_swap : (ps qs : List (PolynomialExpression κ)) →
    PolynomialTerm.comparePolys qs ps = (PolynomialTerm.comparePolys ps qs).swap
  | [], [] | [], _ :: _ | _ :: _, [] => rfl
  | p :: ps, q :: qs => by
    rw [PolynomialTerm.comparePolys, PolynomialTerm.comparePolys, Ordering.swap_then,
      ← p.compareTo_swap, ← PolynomialTerm.comparePolys_swap ps qs]

theorem PolynomialExpression.compareTo_swap : (p q : PolynomialExpression κ) →
    q.compareTo p = (p.compareTo q).swap
  | .mk ts added, .mk ts' added' => by
    simp only [PolynomialExpression.compareTo, Ordering.swap_then, Nat.compare_swap,
      ← PolynomialExpression.compareTerms_swap ts ts']

theorem PolynomialExpression.compareTerms_swap : (ts us : List (PolynomialTerm κ)) →
    PolynomialExpression.compareTerms us ts = (PolynomialExpression.compareTerms ts us).swap
  | [], [] | [], _ :: _ | _ :: _, [] => rfl
  | t :: ts, u :: us => by
    have hconst : compare u.constant t.constant = (compare t.constant u.constant).swap :=
      Std.OrientedCmp.eq_swap
    rw [PolynomialExpression.compareTerms, PolynomialExpression.compareTerms, Ordering.swap_then,
      Ordering.swap_then, ← t.compareTo_swap, ← hconst,
        ← PolynomialExpression.compareTerms_swap ts us]
end

mutual
theorem PolynomialTerm.chain_compareTo : (t u v : PolynomialTerm κ) →
    Chain (t.compareTo u) (u.compareTo v) (t.compareTo v)
  | .mk c ms ps d, .mk c' ms' ps' d', .mk c'' ms'' ps'' d'' => by
    simp only [PolynomialTerm.compareTo]
    refine (chain_compare d'' d' d).symm.append fun _ _ =>
      (chain_compare ms''.length ms'.length ms.length).symm.append fun h h' =>
        (chain_compareMonomers ms ms' ms'' (Nat.compare_eq_eq.1 h).symm
          (Nat.compare_eq_eq.1 h').symm).append fun _ _ =>
            (chain_compare ps''.length ps'.length ps.length).symm.append fun h h' => ?_
    exact PolynomialTerm.chain_comparePolys ps ps' ps'' (Nat.compare_eq_eq.1 h).symm
      (Nat.compare_eq_eq.1 h').symm

theorem PolynomialTerm.chain_comparePolys : (ps qs rs : List (PolynomialExpression κ)) →
    ps.length = qs.length → qs.length = rs.length →
    Chain (PolynomialTerm.comparePolys ps qs) (PolynomialTerm.comparePolys qs rs)
      (PolynomialTerm.comparePolys ps rs)
  | [], [], [], _, _ => ⟨fun _ => rfl, fun _ => rfl, nofun, nofun⟩
  | p :: ps, q :: qs, r :: rs, h, h' =>
    (p.chain_compareTo q r).append fun _ _ =>
      PolynomialTerm.chain_comparePolys ps qs rs (Nat.succ.inj h) (Nat.succ.inj h')

theorem PolynomialExpression.chain_compareTo : (p q r : PolynomialExpression κ) →
    Chain (p.compareTo q) (q.compareTo r) (p.compareTo r)
  | .mk ts added, .mk ts' added', .mk ts'' added'' => by
    simp only [PolynomialExpression.compareTo]
    refine (chain_compare _ _ _).symm.append fun _ _ =>
      (chain_compare ts''.length ts'.length ts.length).symm.append fun h h' => ?_
    exact PolynomialExpression.chain_compareTerms ts ts' ts'' (Nat.compare_eq_eq.1 h).symm
      (Nat.compare_eq_eq.1 h').symm

theorem PolynomialExpression.chain_compareTerms : (ts us vs : List (PolynomialTerm κ)) →
    ts.length = us.length → us.length = vs.length →
    Chain (PolynomialExpression.compareTerms ts us) (PolynomialExpression.compareTerms us vs)
      (PolynomialExpression.compareTerms ts vs)
  | [], [], [], _, _ => ⟨fun _ => rfl, fun _ => rfl, nofun, nofun⟩
  | t :: ts, u :: us, v :: vs, h, h' =>
    ((t.chain_compareTo u v).append fun _ _ => chain_compare _ _ _).append fun _ _ =>
      PolynomialExpression.chain_compareTerms ts us vs (Nat.succ.inj h) (Nat.succ.inj h')
end

end Frontend

end Pequin
