import Mathlib.Algebra.Algebra.Basic
import Mathlib.Algebra.BigOperators.Ring.List
import Mathlib.Data.List.Sort
import Pequin.Frontend.Types

/-!
# Polynomials

A `PolynomialExpression` is a sorted list of terms, and a `PolynomialTerm` is the product of a
constant in `κ`, of variables and of nested polynomials. A variable is named by the line of the
circuit that assigns it.

What a `TermsList` keeps up to date on each insertion, the degree, the Boolean inputs and the type
of a term, is not undone when a term cancels. The model keeps the terms that were inserted, `added`,
and these are functions of it. Equal terms are looked up from left to right where the code, on the
same sorted list, uses binary search.
-/

namespace Pequin

namespace Frontend

mutual
inductive PolynomialTerm (κ : Type) where
  | mk (constant : κ) (monomerFactors : List ℕ) (polyFactors : List (PolynomialExpression κ))
    (degree : ℕ)

inductive PolynomialExpression (κ : Type) where
  | mk (terms added : List (PolynomialTerm κ))
end

variable {κ : Type}

namespace PolynomialTerm

def constant : PolynomialTerm κ → κ
  | .mk c _ _ _ => c

def monomerFactors : PolynomialTerm κ → List ℕ
  | .mk _ ms _ _ => ms

def polyFactors : PolynomialTerm κ → List (PolynomialExpression κ)
  | .mk _ _ ps _ => ps

def degree : PolynomialTerm κ → ℕ
  | .mk _ _ _ d => d

def one [One κ] : PolynomialTerm κ := .mk 1 [] [] 0

def withConstant : PolynomialTerm κ → κ → PolynomialTerm κ
  | .mk _ ms ps d, c => .mk c ms ps d

end PolynomialTerm

namespace PolynomialExpression

def terms : PolynomialExpression κ → List (PolynomialTerm κ)
  | .mk ts _ => ts

def added : PolynomialExpression κ → List (PolynomialTerm κ)
  | .mk _ added => added

def zero : PolynomialExpression κ := .mk [] []

def degree (p : PolynomialExpression κ) : ℕ := (p.added.map PolynomialTerm.degree).foldr max 0

end PolynomialExpression

/-! ## Values -/

section
variable [CommRing κ] {R : Type} [CommRing R] [Algebra κ R] (z : ℕ → R)

mutual
def PolynomialTerm.eval : PolynomialTerm κ → R
  | .mk c ms ps _ => algebraMap κ R c * (ms.map z).prod * PolynomialTerm.evalPolys ps

def PolynomialTerm.evalPolys : List (PolynomialExpression κ) → R
  | [] => 1
  | p :: ps => p.eval * PolynomialTerm.evalPolys ps

def PolynomialExpression.eval : PolynomialExpression κ → R
  | .mk ts _ => PolynomialExpression.evalTerms ts

def PolynomialExpression.evalTerms : List (PolynomialTerm κ) → R
  | [] => 0
  | t :: ts => t.eval + PolynomialExpression.evalTerms ts
end

theorem PolynomialTerm.evalPolys_eq (ps : List (PolynomialExpression κ)) :
    PolynomialTerm.evalPolys z ps = (ps.map fun p => p.eval z).prod := by
  induction ps with
  | nil => rfl
  | cons p ps ih => rw [PolynomialTerm.evalPolys, ih, List.map_cons, List.prod_cons]

theorem PolynomialExpression.evalTerms_eq (ts : List (PolynomialTerm κ)) :
    PolynomialExpression.evalTerms z ts = (ts.map fun t => t.eval z).sum := by
  induction ts with
  | nil => rfl
  | cons t ts ih => rw [PolynomialExpression.evalTerms, ih, List.map_cons, List.sum_cons]

theorem PolynomialTerm.eval_mk (c : κ) (ms : List ℕ) (ps : List (PolynomialExpression κ)) (d : ℕ) :
    (PolynomialTerm.mk c ms ps d).eval z =
      algebraMap κ R c * ((ms.map z).prod * (ps.map fun p => p.eval z).prod) := by
  rw [PolynomialTerm.eval, PolynomialTerm.evalPolys_eq, mul_assoc]

theorem PolynomialExpression.eval_eq (p : PolynomialExpression κ) :
    p.eval z = (p.terms.map fun t => t.eval z).sum := by
  cases p with
  | mk ts added => rw [PolynomialExpression.eval, PolynomialExpression.evalTerms_eq]; rfl

@[simp] theorem PolynomialExpression.eval_zero : (zero : PolynomialExpression κ).eval z = 0 := rfl

@[simp] theorem PolynomialTerm.eval_one : (one : PolynomialTerm κ).eval z = 1 := by
  simp [PolynomialTerm.one, PolynomialTerm.eval_mk]

/-- The value of the factors other than the constant. -/
def PolynomialTerm.evalFactors (t : PolynomialTerm κ) : R :=
  (t.monomerFactors.map z).prod * (t.polyFactors.map fun p => p.eval z).prod

theorem PolynomialTerm.eval_eq (t : PolynomialTerm κ) : t.eval z = algebraMap κ R t.constant *
    t.evalFactors z := by
  cases t with
  | mk c ms ps d => exact PolynomialTerm.eval_mk z c ms ps d

@[simp] theorem PolynomialTerm.eval_withConstant (t : PolynomialTerm κ) (c : κ) :
    (t.withConstant c).eval z = algebraMap κ R c * t.evalFactors z := by
  cases t with
  | mk => exact PolynomialTerm.eval_mk z _ _ _ _

end

/-! ## The order of terms and polynomials -/

/-- The first difference of two lists of the same length. -/
def compareMonomers : List ℕ → List ℕ → Ordering
  | x :: xs, y :: ys => (compare x y).then (compareMonomers xs ys)
  | _, _ => .eq

section
variable [LinearOrder κ]

mutual
/-- Terms of high degree and terms with many factors come first. -/
def PolynomialTerm.compareTo : PolynomialTerm κ → PolynomialTerm κ → Ordering
  | .mk _ ms ps d, .mk _ ms' ps' d' =>
    (compare d' d).then ((compare ms'.length ms.length).then ((compareMonomers ms ms').then
      ((compare ps'.length ps.length).then (PolynomialTerm.comparePolys ps ps'))))
termination_by structural t => t

def PolynomialTerm.comparePolys :
    List (PolynomialExpression κ) → List (PolynomialExpression κ) → Ordering
  | p :: ps, q :: qs => (p.compareTo q).then (PolynomialTerm.comparePolys ps qs)
  | _, _ => .eq
termination_by structural ps => ps

def PolynomialExpression.compareTo : PolynomialExpression κ → PolynomialExpression κ → Ordering
  | .mk ts added, .mk ts' added' =>
    (compare (PolynomialExpression.mk ts' added').degree
      (PolynomialExpression.mk ts added).degree).then
      ((compare ts'.length ts.length).then (PolynomialExpression.compareTerms ts ts'))
termination_by structural p => p

def PolynomialExpression.compareTerms : List (PolynomialTerm κ) → List (PolynomialTerm κ) → Ordering
  | t :: ts, u :: us =>
    ((t.compareTo u).then (compare t.constant u.constant)).then
      (PolynomialExpression.compareTerms ts us)
  | _, _ => .eq
termination_by structural ts => ts
end

end

theorem eq_of_compareMonomers : ∀ {xs ys : List ℕ}, xs.length = ys.length →
    compareMonomers xs ys = .eq → xs = ys
  | [], [], _, _ => rfl
  | x :: xs, y :: ys, hlen, h => by
    rw [compareMonomers, Ordering.then_eq_eq] at h
    rw [Nat.compare_eq_eq.1 h.1, eq_of_compareMonomers (Nat.succ.inj hlen) h.2]

section
variable [CommRing κ] [LinearOrder κ] {R : Type} [CommRing R] [Algebra κ R] (z : ℕ → R)

mutual
/-- Terms that compare equal differ in the constant only. -/
theorem PolynomialTerm.evalFactors_of_compareTo : (t u : PolynomialTerm κ) → t.compareTo u = .eq →
    t.evalFactors z = u.evalFactors z
  | .mk c ms ps d, .mk c' ms' ps' d', h => by
    simp only [PolynomialTerm.compareTo, Ordering.then_eq_eq, Nat.compare_eq_eq] at h
    obtain ⟨-, hlen, hms, hplen, hps⟩ := h
    have hmap := PolynomialTerm.map_eval_of_comparePolys ps ps' hplen.symm hps
    simp only [PolynomialTerm.evalFactors, PolynomialTerm.monomerFactors,
      PolynomialTerm.polyFactors, eq_of_compareMonomers hlen.symm hms, hmap]

theorem PolynomialTerm.map_eval_of_comparePolys : (ps qs : List (PolynomialExpression κ)) →
    ps.length = qs.length → PolynomialTerm.comparePolys ps qs = .eq →
    (ps.map fun p => p.eval z) = qs.map fun p => p.eval z
  | [], [], _, _ => rfl
  | p :: ps, q :: qs, hlen, h => by
    rw [PolynomialTerm.comparePolys, Ordering.then_eq_eq] at h
    rw [List.map_cons, List.map_cons, PolynomialExpression.eval_of_compareTo p q h.1,
      PolynomialTerm.map_eval_of_comparePolys ps qs (Nat.succ.inj hlen) h.2]

theorem PolynomialExpression.eval_of_compareTo : (p q : PolynomialExpression κ) →
    p.compareTo q = .eq → p.eval z = q.eval z
  | .mk ts added, .mk ts' added', h => by
    simp only [PolynomialExpression.compareTo, Ordering.then_eq_eq, Nat.compare_eq_eq] at h
    rw [PolynomialExpression.eval_eq, PolynomialExpression.eval_eq, PolynomialExpression.terms,
      PolynomialExpression.terms, PolynomialExpression.map_eval_of_compareTerms ts
        ts' h.2.1.symm h.2.2]

theorem PolynomialExpression.map_eval_of_compareTerms : (ts us : List (PolynomialTerm κ)) →
    ts.length = us.length → PolynomialExpression.compareTerms ts us = .eq →
    (ts.map fun t => t.eval z) = us.map fun t => t.eval z
  | [], [], _, _ => rfl
  | t :: ts, u :: us, hlen, h => by
    simp only [PolynomialExpression.compareTerms, Ordering.then_eq_eq, compare_eq_iff_eq] at h
    obtain ⟨⟨hfac, hconst⟩, hrest⟩ := h
    rw [List.map_cons, List.map_cons, PolynomialTerm.eval_eq, PolynomialTerm.eval_eq, hconst,
      PolynomialTerm.evalFactors_of_compareTo t u hfac,
      PolynomialExpression.map_eval_of_compareTerms ts us (Nat.succ.inj hlen) hrest]
end

end

/-! ## Adding terms -/

section
variable [LinearOrder κ]

namespace PolynomialExpression

/-- The place of a term is before the first greater one. -/
def insertTerm (e : PolynomialTerm κ) : List (PolynomialTerm κ) → List (PolynomialTerm κ)
  | [] => [e]
  | t :: ts => if t.compareTo e = .gt then e :: t :: ts else t :: insertTerm e ts

def add : PolynomialExpression κ → PolynomialTerm κ → PolynomialExpression κ
  | .mk ts added, e => .mk (insertTerm e ts) (e :: added)

/-- `TermsList.floor`: the term that compares equal to a term. -/
def floor (p : PolynomialExpression κ) (t : PolynomialTerm κ) : Option (PolynomialTerm κ) :=
  p.terms.find? fun u => u.compareTo t = .eq

/-- `TermsList.remove`, of the term that `floor` finds. -/
def remove : PolynomialExpression κ → PolynomialTerm κ → PolynomialExpression κ
  | .mk ts added, t => .mk (ts.eraseP fun u => u.compareTo t = .eq) added

end PolynomialExpression

mutual
/-- The copy has the stored degree, and the nested polynomials forget terms that cancelled. -/
def PolynomialTerm.duplicate : PolynomialTerm κ → PolynomialTerm κ
  | .mk c ms ps d => .mk c ms (PolynomialTerm.duplicatePolys ps) d

def PolynomialTerm.duplicatePolys : List (PolynomialExpression κ) → List (PolynomialExpression κ)
  | [] => []
  | p :: ps => p.duplicate :: PolynomialTerm.duplicatePolys ps

def PolynomialExpression.duplicate : PolynomialExpression κ → PolynomialExpression κ
  | .mk ts _ => PolynomialExpression.addDuplicates .zero ts

def PolynomialExpression.addDuplicates (p : PolynomialExpression κ) :
    List (PolynomialTerm κ) → PolynomialExpression κ
  | [] => p
  | t :: ts => PolynomialExpression.addDuplicates (p.add t.duplicate) ts
end

namespace PolynomialExpression

theorem insertTerm_perm (e : PolynomialTerm κ) (ts : List (PolynomialTerm κ)) :
    (insertTerm e ts).Perm (e :: ts) := by
  induction ts with
  | nil => exact .refl _
  | cons t ts ih =>
    rw [insertTerm]
    split
    · exact .refl _
    · exact (ih.cons t).trans (.swap e t ts)

theorem add_perm (p : PolynomialExpression κ) (e : PolynomialTerm κ) :
    (p.add e).terms.Perm (e :: p.terms) := by
  cases p with
  | mk ts added => exact insertTerm_perm e ts

theorem compareTo_of_floor {p : PolynomialExpression κ} {t u : PolynomialTerm κ}
    (h : p.floor t = some u) : u.compareTo t = .eq := by
  rw [floor] at h
  simpa using List.find?_some h

theorem remove_perm {p : PolynomialExpression κ} {t u : PolynomialTerm κ} (h : p.floor t = some u) :
    p.terms.Perm (u :: (p.remove t).terms) := by
  cases p with
  | mk ts added =>
    simp only [floor, remove, terms] at h ⊢
    induction ts with
    | nil => cases h
    | cons v ts ih =>
      rw [List.find?_cons] at h
      rw [List.eraseP_cons]
      cases hv : decide (v.compareTo t = .eq) with
      | true =>
        rw [hv] at h
        obtain rfl : v = u := Option.some.inj h
        exact .refl _
      | false =>
        rw [hv] at h
        exact ((ih h).cons v).trans (.swap u v _)

end PolynomialExpression

variable [CommRing κ]

/-- The last step of `addMultiplesOfTerm`, for a term that is not a sum. -/
def PolynomialExpression.addTerm (p : PolynomialExpression κ) (preMultiply : κ)
    (t : PolynomialTerm κ) : PolynomialExpression κ :=
  if preMultiply = 0 then p
  else match p.floor t with
    | some u =>
      if preMultiply + u.constant = 0 then p.remove t
      else (p.remove t).add (u.duplicate.withConstant (preMultiply + u.constant))
    | none => p.add (t.duplicate.withConstant preMultiply)

mutual
/-- A term that is a multiple of one polynomial is added as the terms of that polynomial. -/
def PolynomialExpression.addMultiplesOfTerm (p : PolynomialExpression κ) (multiple : κ) :
    PolynomialTerm κ → PolynomialExpression κ
  | .mk c [] [q] _ => PolynomialExpression.addMultiplesOfPoly p (multiple * c) q
  | .mk c ms ps d => p.addTerm (multiple * c) (.mk c ms ps d)

def PolynomialExpression.addMultiplesOfPoly (p : PolynomialExpression κ) (multiple : κ) :
    PolynomialExpression κ → PolynomialExpression κ
  | .mk ts _ => PolynomialExpression.addMultiplesOfTerms p multiple ts

def PolynomialExpression.addMultiplesOfTerms (p : PolynomialExpression κ) (multiple : κ) :
    List (PolynomialTerm κ) → PolynomialExpression κ
  | [] => p
  | t :: ts =>
    PolynomialExpression.addMultiplesOfTerms (p.addMultiplesOfTerm multiple t) multiple ts
end

section
variable {R : Type} [CommRing R] [Algebra κ R] (z : ℕ → R)

@[simp] theorem PolynomialExpression.eval_add (p : PolynomialExpression κ) (e : PolynomialTerm κ) :
    (p.add e).eval z = p.eval z + e.eval z := by
  rw [eval_eq, ((p.add_perm e).map _).sum_eq, List.map_cons, List.sum_cons, eval_eq, add_comm]

/-- Removing a term takes its value away. -/
theorem PolynomialExpression.eval_remove {p : PolynomialExpression κ} {t u : PolynomialTerm κ}
    (h : p.floor t = some u) : (p.remove t).eval z = p.eval z - u.eval z := by
  rw [p.eval_eq, ((remove_perm h).map _).sum_eq, List.map_cons, List.sum_cons, ← eval_eq,
    add_sub_cancel_left]

mutual
@[simp] theorem PolynomialTerm.eval_duplicate : (t : PolynomialTerm κ) →
    t.duplicate.eval z = t.eval z
  | .mk c ms ps d => by
    rw [PolynomialTerm.duplicate, PolynomialTerm.eval_mk, PolynomialTerm.eval_mk,
      PolynomialTerm.map_eval_duplicatePolys ps]

theorem PolynomialTerm.map_eval_duplicatePolys : (ps : List (PolynomialExpression κ)) →
    (PolynomialTerm.duplicatePolys ps).map (fun p => p.eval z) = ps.map fun p => p.eval z
  | [] => rfl
  | p :: ps => by
    rw [PolynomialTerm.duplicatePolys, List.map_cons, List.map_cons, p.eval_duplicate,
      PolynomialTerm.map_eval_duplicatePolys ps]

@[simp] theorem PolynomialExpression.eval_duplicate : (p : PolynomialExpression κ) →
    p.duplicate.eval z = p.eval z
  | .mk ts _ => by
    rw [PolynomialExpression.duplicate, PolynomialExpression.eval_addDuplicates,
      PolynomialExpression.eval_zero, zero_add, PolynomialExpression.eval_eq]
    rfl

theorem PolynomialExpression.eval_addDuplicates : (p : PolynomialExpression κ) →
    (ts : List (PolynomialTerm κ)) →
    (p.addDuplicates ts).eval z = p.eval z + (ts.map fun t => t.eval z).sum
  | p, [] => by simp [PolynomialExpression.addDuplicates]
  | p, t :: ts => by
    rw [PolynomialExpression.addDuplicates, PolynomialExpression.eval_addDuplicates _ ts,
      PolynomialExpression.eval_add,
      t.eval_duplicate, List.map_cons, List.sum_cons, add_assoc]
end

theorem PolynomialTerm.eval_duplicate_withConstant (t : PolynomialTerm κ) (c : κ) :
    (t.duplicate.withConstant c).eval z = algebraMap κ R c * t.evalFactors z := by
  cases t with
  | mk c' ms ps d =>
    rw [duplicate, withConstant, eval_mk, map_eval_duplicatePolys]
    rfl

theorem PolynomialExpression.eval_addTerm (p : PolynomialExpression κ) (c : κ)
    (t : PolynomialTerm κ) :
    (p.addTerm c t).eval z = p.eval z + algebraMap κ R c * t.evalFactors z := by
  rw [addTerm]
  split
  · next hc => rw [hc, map_zero, zero_mul, add_zero]
  · split
    · next u hu =>
      have hfac : u.evalFactors z = t.evalFactors z :=
        u.evalFactors_of_compareTo z t (compareTo_of_floor hu)
      have hsum : algebraMap κ R (c + u.constant) * u.evalFactors z =
          algebraMap κ R c * t.evalFactors z + u.eval z := by
        rw [u.eval_eq, hfac, map_add, add_mul]
      split
      · next h0 =>
        rw [h0, map_zero, zero_mul] at hsum
        rw [eval_remove z hu, sub_eq_add_neg, eq_neg_of_add_eq_zero_left hsum.symm]
      · rw [eval_add, eval_remove z hu, PolynomialTerm.eval_duplicate_withConstant, hsum]
        ring
    · rw [eval_add, PolynomialTerm.eval_duplicate_withConstant]

mutual
@[simp] theorem PolynomialExpression.eval_addMultiplesOfTerm :
    (p : PolynomialExpression κ) → (c : κ) →
    (t : PolynomialTerm κ) → (p.addMultiplesOfTerm c t).eval z =
    p.eval z + algebraMap κ R c * t.eval z
  | p, c, .mk c' [] [q] d => by
    rw [PolynomialExpression.addMultiplesOfTerm, PolynomialExpression.eval_addMultiplesOfPoly p _ q,
      PolynomialTerm.eval_mk]
    simp [mul_assoc]
  | p, c, .mk c' [] [] d | p, c, .mk c' (m :: ms) ps d | p, c, .mk c' [] (q :: q' :: ps) d => by
    rw [PolynomialExpression.addMultiplesOfTerm, PolynomialExpression.eval_addTerm,
      PolynomialTerm.eval_eq, map_mul, mul_assoc]
    · rfl
    · simp

theorem PolynomialExpression.eval_addMultiplesOfPoly : (p : PolynomialExpression κ) → (c : κ) →
    (q : PolynomialExpression κ) → (p.addMultiplesOfPoly c q).eval z =
    p.eval z + algebraMap κ R c * q.eval z
  | p, c, .mk ts added => by
    rw [PolynomialExpression.addMultiplesOfPoly, PolynomialExpression.eval_addMultiplesOfTerms p c
      ts, PolynomialExpression.eval_eq z (.mk ts added)]
    rfl

theorem PolynomialExpression.eval_addMultiplesOfTerms : (p : PolynomialExpression κ) → (c : κ) →
    (ts : List (PolynomialTerm κ)) →
    (p.addMultiplesOfTerms c ts).eval z = p.eval z + algebraMap κ R c *
    (ts.map fun t => t.eval z).sum
  | p, c, [] => by simp [PolynomialExpression.addMultiplesOfTerms]
  | p, c, t :: ts => by
    rw [PolynomialExpression.addMultiplesOfTerms,
      PolynomialExpression.eval_addMultiplesOfTerms _ c ts,
      PolynomialExpression.eval_addMultiplesOfTerm p c t, List.map_cons, List.sum_cons, mul_add,
      add_assoc]
end

end

end

end Frontend

end Pequin
