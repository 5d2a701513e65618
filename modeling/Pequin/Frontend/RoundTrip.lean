import Pequin.Frontend.Circuit

/-!
# Reading what was printed

`parsePoly` and the value of a constraint are two readers of the same text. What a reader must do on
each word for the text of a polynomial to have the value of the polynomial is stated once, as
`Denotes`.
-/

namespace Pequin

namespace Frontend

open Bracket

/-- A frame of the reader stands for the sum `s` of the terms that are complete, the product `p` of
the factors of the current term, and whether there are any. -/
structure Denotes {F R : Type} [CommRing R] (r : Reader (Word ℕ) F) (z : ℕ → R) where
  holds : F → R → R → Bool → Prop
  init : holds r.init 0 1 false
  int {f : F} {s p : R} {b : Bool} (c : ℤ) : holds f s p b →
    holds (r.flat f (.int c)) s (p * c) true
  name {f : F} {s p : R} {b : Bool} (x : ℕ) :
    holds f s p b → holds (r.flat f (.name x)) s (p * z x) true
  star {f : F} {s p : R} {b : Bool} : holds f s p b → holds (r.flat f .star) s p b
  minus {f : F} {s p : R} : holds f s p false → holds (r.flat f .minus) s (p * (-1)) false
  plus {f : F} {s p : R} : holds f s p true → holds (r.flat f .plus) (s + p) 1 false
  group {f g : F} {s p s' p' : R} {b : Bool} :
    holds f s p b → holds g s' p' true → holds (r.group f g) s (p * (s' + p')) true
  empty {f : F} {s p : R} {b : Bool} : holds f s p b → holds (r.group f r.init) s (p * 0) true

namespace Denotes
variable {F R : Type} [CommRing R] {r : Reader (Word ℕ) F} {z : ℕ → R} (d : Denotes r z)

/-- A node that multiplies the current term by `v`. -/
def Factor (n : Node (Word ℕ)) (v : R) : Prop :=
  ∀ {f : F} {s p : R} {b : Bool}, d.holds f s p b → d.holds (r.evalNode f n) s (p * v) true

theorem intersperse {ns : List (Node (Word ℕ))} {vs : List R} (h : List.Forall₂ d.Factor ns vs)
    (hne : ns ≠ []) {f : F} {s p : R} {b : Bool} (hf : d.holds f s p b) :
    d.holds (r.eval f (ns.intersperse (.flat .star))) s (p * vs.prod) true := by
  induction h generalizing f p b with
  | nil => exact absurd rfl hne
  | @cons n v ns vs hn hns ih =>
    cases hns with
    | nil => simpa [Reader.eval] using hn hf
    | @cons n' v' ns vs hn' hns =>
      have htail := ih (List.cons_ne_nil _ _) (d.star (hn hf))
      simpa [Reader.eval, Reader.evalNode, mul_assoc] using htail

/-- The constant is read before the factors, or alone. -/
theorem constant (c : ℤ) (noFactors : Bool) {f : F} {s p : R} (hf : d.holds f s p false) :
    ∃ b, d.holds (r.eval f (constantNodes c noFactors)) s (p * c) b ∧
      (noFactors = true → b = true) := by
  cases noFactors with
  | true => exact ⟨true, d.int c hf, fun _ => rfl⟩
  | false =>
    simp only [constantNodes, Bool.false_eq_true, if_false, false_implies, and_true]
    split
    · next h => exact ⟨false, by simpa [h] using hf⟩
    · split
      · next h =>
        refine ⟨false, ?_⟩
        rw [h, Int.cast_neg, Int.cast_one]
        exact d.minus hf
      · exact ⟨true, d.star (d.int c hf)⟩

/-- What a reader does with the text of a sum, from a frame with no current term. -/
def Sums (ns : List (Node (Word ℕ))) (v : R) : Prop :=
  ∀ {f : F} {s : R}, d.holds f s 1 false →
    ∃ s' p', d.holds (r.eval f ns) s' p' true ∧ s' + p' = s + v

/-- The text of a sum in parentheses. -/
theorem group_sums {ns : List (Node (Word ℕ))} {v : R} (h : d.Sums ns v) :
    d.Factor (.group ns) v := by
  intro f s p b hf
  obtain ⟨s', p', hin, heq⟩ := h d.init
  rw [zero_add] at heq
  rw [← heq]
  exact d.group hf hin

theorem group_nil : d.Factor (.group []) 0 := fun hf => d.empty hf

mutual
/-- Reading the text of a term multiplies the current term by its value. -/
theorem term : (t : PolynomialTerm ℤ) → (f : F) → (s p : R) → d.holds f s p false →
    d.holds (r.eval f t.nodes) s (p * t.eval z) true
  | .mk c ms ps deg, f, s, p, hf => by
    obtain ⟨b, hb, hseen⟩ := d.constant c (ms.isEmpty && ps.isEmpty) hf
    rw [PolynomialTerm.nodes, Reader.eval_append, PolynomialTerm.eval_mk, ← mul_assoc,
      ← List.prod_append]
    have hms : List.Forall₂ d.Factor (ms.map fun x => Node.flat (Word.name x)) (ms.map z) := by
      rw [List.forall₂_map_left_iff, List.forall₂_map_right_iff]
      exact List.forall₂_same.2 fun x _ => d.name x
    have hfactors := List.rel_append hms (groups ps)
    by_cases hnone : (ms.isEmpty && ps.isEmpty) = true
    · obtain ⟨rfl, rfl⟩ : ms = [] ∧ ps = [] := by simpa using hnone
      rw [hseen hnone] at hb
      simpa [PolynomialTerm.groups] using hb
    · refine d.intersperse hfactors (fun hnil => hnone ?_) hb
      have hlen := hfactors.length_eq
      rw [hnil] at hlen
      simpa using hlen.symm

theorem groups : (ps : List (PolynomialExpression ℤ)) →
    List.Forall₂ d.Factor (PolynomialTerm.groups ps) (ps.map fun p => p.eval z)
  | [] => .nil
  | p :: ps => .cons (poly p) (groups ps)

/-- The text of a polynomial in parentheses. -/
theorem poly : (p : PolynomialExpression ℤ) → d.Factor (.group p.nodes) (p.eval z)
  | .mk ts added => by
    rw [PolynomialExpression.eval_eq]
    by_cases hts : ts = []
    · subst hts
      exact d.group_nil
    · exact d.group_sums fun hf => sum ts hts _ _ hf

theorem sum : (ts : List (PolynomialTerm ℤ)) → ts ≠ [] → (f : F) → (s : R) → d.holds f s 1 false →
    ∃ s' p', d.holds (r.eval f (PolynomialExpression.sumNodes ts)) s' p' true ∧
      s' + p' = s + (ts.map fun t => t.eval z).sum
  | [], hne, _, _, _ => absurd rfl hne
  | [t], _, f, s, hf => ⟨s, _, term t f s 1 hf, by simp⟩
  | t :: u :: ts, _, f, s, hf => by
    obtain ⟨s', p', h, heq⟩ := sum (u :: ts) (List.cons_ne_nil _ _) _ _ (d.plus (term t f s 1 hf))
    refine ⟨s', p', ?_, ?_⟩
    · rw [PolynomialExpression.sumNodes, Reader.eval_append]
      exact h
    · rw [heq, one_mul, List.map_cons (a := t), List.sum_cons, add_assoc]
end

/-- The text of a product and of the remaining terms. -/
theorem body {product : List (Node (Word ℕ))} {v : R} (rest : List (PolynomialTerm ℤ))
    (h : ∀ {f : F} {s p : R} {b : Bool}, d.holds f s p b →
      d.holds (r.eval f product) s (p * v) true) :
    d.Sums (bodyNodes product rest) (v + (rest.map fun t => t.eval z).sum) := by
  intro f s hf
  have hrest := d.poly (.mk rest []) (d.plus (h hf))
  rw [PolynomialExpression.eval_eq, PolynomialExpression.terms, one_mul, one_mul] at hrest
  refine ⟨s + v, (rest.map fun t => t.eval z).sum, ?_, add_assoc _ _ _⟩
  rw [bodyNodes, Reader.eval_append]
  exact hrest

/-- The text of a whole polynomial leaves its value. -/
theorem whole {body : List (Node (Word ℕ))} {v : R} (h : d.Sums body v) :
    d.holds (r.eval r.init [.flat (.int 1), .flat .star, .group body]) 0 v true := by
  have hwhole := d.group_sums h (d.star (d.int 1 d.init))
  rwa [Int.cast_one, one_mul, one_mul] at hwhole

end Denotes

/-! ## The two readers -/

/-- Arithmetic is what it says. -/
def arithmeticDenotes {R : Type} [CommRing R] (z : ℕ → R) : Denotes (arithmetic z) z where
  holds f s p b := f = ⟨s, p, b⟩
  init := rfl
  int c h := by subst h; rfl
  name x h := by subst h; rfl
  star h := h
  minus {f s p} h := by
    subst h
    rw [mul_neg_one]
    rfl
  plus h := by subst h; rfl
  group h h' := by subst h h'; rfl
  empty h := by subst h; rfl

section
variable (K : Known) {R : Type} [CommRing R] {z : ℕ → R}

theorem PolynomialTerm.eval_addParsed (hz : K.Holds z) (t : PolynomialTerm ℤ) (x : ℕ) :
    (t.addParsed K x).eval z = t.eval z * z x := by
  rw [addParsed]
  split
  · next c hc => rw [eval_addConst, hz.const x c hc]
  · rw [eval_addLval hz.toHolds, hz.copyOf]

theorem PolynomialTerm.Ok.addParsed {t : PolynomialTerm ℤ} (h : t.Ok) (x : ℕ) :
    (t.addParsed K x).Ok := by
  rw [PolynomialTerm.addParsed]
  split
  · exact h.addConst _
  · exact h.addLval _ _

/-- A frame of `parsePoly` whose polynomial and term have these values. -/
structure ParseFrame.Holds (z : ℕ → R) (f : ParseFrame) (s p : R) (b : Bool) : Prop where
  pe : f.pe.Ok
  term : f.term.Ok
  eval_pe : f.pe.eval z = s
  eval_term : f.term.eval z = p
  seen : b = true → f.isEmpty = false

theorem ParseFrame.Holds.result {f : ParseFrame} {s p : R} (h : f.Holds z s p true) :
    f.result.Ok ∧ f.result.eval z = s + p := by
  rw [ParseFrame.result, h.seen rfl, if_neg Bool.false_ne_true]
  refine ⟨h.pe.addMultiplesOfTerm 1 h.term, ?_⟩
  rw [PolynomialExpression.eval_addMultiplesOfTerm, h.eval_pe, h.eval_term, map_one, one_mul]

/-- The current term is multiplied. -/
theorem ParseFrame.Holds.factor {f : ParseFrame} {s p v : R} {b : Bool} (h : f.Holds z s p b)
    {t : PolynomialTerm ℤ} (ht : t.Ok) (hval : t.eval z = f.term.eval z * v) :
    ParseFrame.Holds z { f with term := t, isEmpty := false } s (p * v) true :=
  ⟨h.pe, ht, h.eval_pe, hval.trans (by rw [h.eval_term]), fun _ => rfl⟩

/-- `parsePoly` multiplies and adds polynomials of these values. -/
def parserDenotes (hz : K.Holds z) : Denotes (parser K) z where
  holds f := f.Holds z
  init := ⟨PolynomialExpression.ok_zero, PolynomialTerm.ok_one, rfl,
    PolynomialTerm.eval_one z, nofun⟩
  int c h := h.factor (h.term.addConst c) (PolynomialTerm.eval_addConst _ c)
  name x h := h.factor (h.term.addParsed K x) (PolynomialTerm.eval_addParsed K hz _ x)
  star h := h
  minus h :=
    ⟨h.pe, h.term.addConst (-1), h.eval_pe,
      (PolynomialTerm.eval_addConst _ _).trans (by rw [h.eval_term, map_neg, map_one]), nofun⟩
  plus h :=
    ⟨h.pe.addMultiplesOfTerm 1 h.term, PolynomialTerm.ok_one,
      (PolynomialExpression.eval_addMultiplesOfTerm z _ _ _).trans
        (by rw [h.eval_pe, h.eval_term, map_one, one_mul]),
      PolynomialTerm.eval_one z, nofun⟩
  group h h' := h.factor (h.term.addPoly _ h'.result.1)
    ((PolynomialTerm.eval_addPoly hz.toHolds _ _ h'.result.1).trans (by rw [h'.result.2]))
  empty h := h.factor (h.term.addPoly _ PolynomialExpression.ok_zero)
    (PolynomialTerm.eval_addPoly hz.toHolds _ _ PolynomialExpression.ok_zero)

theorem parsePoly_append (s : List ParseFrame × ParseFrame) (text : Text ℕ) (rest : CircuitText) :
    parsePoly K s (text.map (Symbol.map .arith) ++ rest) =
      ((parser K).run s text).bind fun s => parsePoly K s rest := by
  induction text generalizing s with
  | nil => rfl
  | cons c cs ih =>
    have hstep : parsePoly K s ((c :: cs).map (Symbol.map .arith) ++ rest) =
        ((parser K).step s c).bind fun s => parsePoly K s (cs.map (Symbol.map .arith) ++ rest) := by
      obtain ⟨below, f⟩ := s
      cases c <;> cases below <;> rfl
    rw [hstep, Reader.run]
    cases (parser K).step s c with
    | none => rfl
    | some s => exact ih s

/-- The polynomial of a circuit line is read up to the bracket. -/
theorem parsePoly_circuitText (ns : List (Node (Word ℕ))) (comment : List String) :
    parsePoly K ([], .init) (circuitText (listSymbols ns) comment) =
      some ((parser K).eval .init ns).result := by
  rw [circuitText, parsePoly_append, Reader.run_listSymbols, Option.bind_some, parsePoly]

end

/-! ## The product -/

namespace PolynomialTerm

/-- What stands in the parentheses of a product. -/
def factorNodes (t : PolynomialTerm ℤ) : List (List (Node (Word ℕ))) :=
  t.monomerFactors.map (fun x => [.flat (Word.name x)]) ++ t.polyFactors.map
    PolynomialExpression.nodes

theorem groups_eq (ps : List (PolynomialExpression ℤ)) : groups ps = ps.map fun p =>
    .group p.nodes := by
  induction ps with
  | nil => rfl
  | cons p ps ih => rw [groups, ih, List.map_cons]

theorem productNodes_eq (t : PolynomialTerm ℤ) :
    t.productNodes = (t.factorNodes.map Node.group).intersperse (.flat .star) := by
  rw [productNodes, factorNodes, groups_eq, List.map_append, List.map_map, List.map_map]
  rfl

theorem length_factorNodes (t : PolynomialTerm ℤ) :
    t.factorNodes.length = t.monomerFactors.length + t.polyFactors.length := by
  rw [factorNodes, List.length_append, List.length_map, List.length_map]

end PolynomialTerm

namespace Denotes
variable {F R : Type} [CommRing R] {r : Reader (Word ℕ) F} {z : ℕ → R} (d : Denotes r z)

theorem product (t : PolynomialTerm ℤ) (hne : t.factorNodes ≠ []) {f : F} {s p : R} {b : Bool}
    (hf : d.holds f s p b) : d.holds (r.eval f t.productNodes) s (p * t.evalFactors z) true := by
  have hms : List.Forall₂ d.Factor (t.monomerFactors.map fun x => Node.group [.flat (Word.name x)])
      (t.monomerFactors.map z) := by
    rw [List.forall₂_map_left_iff, List.forall₂_map_right_iff]
    refine List.forall₂_same.2 fun x _ => d.group_sums fun {f s} hf => ⟨s, z x, ?_, rfl⟩
    have hname := d.name x hf
    rwa [one_mul] at hname
  have hfactors := List.rel_append hms (d.groups t.polyFactors)
  rw [PolynomialTerm.evalFactors, ← List.prod_append]
  refine d.intersperse hfactors (fun hnil => hne ?_) hf
  have hlen := congrArg List.length hnil
  rw [PolynomialTerm.groups_eq] at hlen
  refine List.length_eq_zero_iff.1 ?_
  rw [t.length_factorNodes]
  simpa using hlen

theorem emptyProduct {f : F} {s p : R} {b : Bool} (hf : d.holds f s p b) :
    d.holds (r.eval f [.group [], .flat .star, .group []]) s (p * 0) true := by
  have hboth := d.group_nil (d.star (d.group_nil hf))
  rw [mul_zero] at hboth ⊢
  exact hboth

end Denotes

section
variable {R : Type} [CommRing R] (z : ℕ → R)

theorem PolynomialExpression.eval_scale (c : ℤ) (p : PolynomialExpression ℤ) :
    (p.scale c).eval z = c * p.eval z := by
  cases p with
  | mk ts added =>
    rw [eval_eq, eval_eq, scale, terms, terms, List.map_map, ← List.sum_map_mul_left]
    refine congrArg List.sum (List.map_congr_left fun t _ => ?_)
    rw [Function.comp_apply, PolynomialTerm.eval_withConstant, t.eval_eq, map_mul,
      eq_intCast, eq_intCast]
    ring

theorem prod_scaleFirst (c : ℤ) {n : ℕ} {ps : List (PolynomialExpression ℤ)}
    (h : n ∈ ps.map fun p => p.terms.length) :
    ((scaleFirst c n ps).map fun p => p.eval z).prod = c * (ps.map fun p => p.eval z).prod := by
  induction ps with
  | nil => cases h
  | cons p ps ih =>
    rw [scaleFirst]
    split
    · rw [List.map_cons, List.prod_cons, PolynomialExpression.eval_scale, List.map_cons,
        List.prod_cons, mul_assoc]
    · next hne =>
      have hmem := (List.mem_cons.1 h).resolve_left (Ne.symm hne)
      rw [List.map_cons, List.prod_cons, ih hmem, List.map_cons, List.prod_cons, mul_left_comm]

theorem length_scaleFirst (c : ℤ) (n : ℕ) (ps : List (PolynomialExpression ℤ)) :
    (scaleFirst c n ps).length = ps.length := by
  induction ps with
  | nil => rfl
  | cons p ps ih =>
    rw [scaleFirst]
    split
    · rfl
    · rw [List.length_cons, ih, List.length_cons]

theorem minTerms_mem (p : PolynomialExpression ℤ) (ps : List (PolynomialExpression ℤ)) :
    minTerms (p :: ps) ∈ (p :: ps).map fun p => p.terms.length := by
  obtain ⟨n, hn⟩ := Option.isSome_iff_exists.1
    (List.isSome_min?_of_mem (List.mem_map_of_mem (f := fun p => p.terms.length)
      (List.mem_cons_self (a := p) (l := ps))))
  rw [minTerms, hn]
  exact List.min?_mem hn

/-- A list of at most one variable has no repetition. -/
theorem dropRepeated_of_length_le_one (L : Lookup ℤ) {ms : List ℕ} (h : ms.length ≤ 1) :
    dropRepeated L none ms = ms := by
  match ms with
  | [] => rfl
  | [x] => rfl

end

namespace PolynomialTerm

def numFactors (t : PolynomialTerm ℤ) : ℕ := t.monomerFactors.length + t.polyFactors.length

/-- The term that takes a monomer with the constant has the value of both. -/
theorem eval_monomerPoly (L : Lookup ℤ) (c : ℤ) (x : ℕ) {R : Type} [CommRing R] (z : ℕ → R) :
    (PolynomialExpression.zero.addMultiplesOfTerm 1 ((one.addConst c).addMonomer L x)).eval z =
      c * z x := by
  have hterm : (one.addConst c).addMonomer L x = .mk (1 * c) [x] [] 1 := rfl
  rw [hterm, PolynomialExpression.eval_addMultiplesOfTerm, eval_mk]
  simp

/-- The unit form has the same number of factors, and their product is the value of the term. -/
theorem toUnitConstantForm_spec {L : Lookup ℤ} {t t' : PolynomialTerm ℤ}
    (hms : t.monomerFactors.length ≤ 2) (h : t.toUnitConstantForm L = some t') :
    t'.numFactors = t.numFactors ∧
      ∀ (R : Type) [CommRing R] (z : ℕ → R), t'.evalFactors z = t.eval z := by
  obtain ⟨c, ms, ps, d⟩ := t
  rw [toUnitConstantForm] at h
  split at h
  · next hc =>
    obtain rfl := Option.some.inj h
    refine ⟨rfl, fun R _ z => ?_⟩
    rw [eval_eq, constant, hc, map_one, one_mul]
  · split at h
    · cases h
    · cases ms with
      | cons x ms =>
        obtain rfl := Option.some.inj h
        simp only [monomerFactors, List.length_cons] at hms
        have hdrop : dropRepeated L none (sortMonomers ms) = sortMonomers ms :=
          dropRepeated_of_length_le_one L (by rw [sortMonomers, List.length_insertionSort]; omega)
        refine ⟨?_, fun R _ z => ?_⟩
        · simp only [numFactors, simplifyProduct, monomerFactors, polyFactors, hdrop]
          simp only [sortMonomers, sortPolys, List.length_insertionSort, List.length_append,
            List.length_cons, List.length_nil]
          omega
        · simp only [evalFactors, simplifyProduct, monomerFactors, polyFactors, hdrop,
            prod_sortMonomers, prod_sortPolys, List.map_append, List.prod_append, List.map_cons,
            List.map_nil, List.prod_cons, List.prod_nil, eval_monomerPoly, eval_mk, eq_intCast]
          ring
      | nil =>
        cases ps with
        | cons p ps =>
          obtain rfl := Option.some.inj h
          refine ⟨?_, fun R _ z => ?_⟩
          · simp only [numFactors, simplifyProduct, monomerFactors, polyFactors, dropRepeated,
              sortPolys, List.length_insertionSort, length_scaleFirst]
          · simp only [evalFactors, simplifyProduct, monomerFactors, polyFactors, dropRepeated,
              prod_sortPolys, prod_scaleFirst z c (minTerms_mem p ps), eval_mk, eq_intCast]
            ring
        | nil => cases h

theorem exists_toUnitConstantForm (L : Lookup ℤ) {t : PolynomialTerm ℤ} (hc : t.constant ≠ 0)
    (hfactors : t.numFactors ≠ 0) : ∃ t', t.toUnitConstantForm L = some t' := by
  obtain ⟨c, ms, ps, d⟩ := t
  rw [toUnitConstantForm]
  split
  · exact ⟨_, rfl⟩
  · rw [if_neg (show ¬ c = 0 from hc)]
    cases ms with
    | cons x ms => exact ⟨_, rfl⟩
    | nil =>
      cases ps with
      | cons p ps => exact ⟨_, rfl⟩
      | nil => exact absurd rfl hfactors

theorem numFactors_duplicate (t : PolynomialTerm ℤ) : t.duplicate.numFactors = t.numFactors := by
  obtain ⟨c, ms, ps, d⟩ := t
  simp only [numFactors, duplicate, monomerFactors, polyFactors, length_duplicatePolys]

/-- The degree of a term of degree at most `2` is the number of its factors. -/
theorem Ok.numFactors_eq {t : PolynomialTerm ℤ} (ht : t.Ok) (hsum : ¬ t.IsSum)
    (hdeg : t.degree ≤ 2) : t.numFactors = t.degree := by
  have hle := ht.le_degree
  have heq := ht.degree_eq
  obtain ⟨c, ms, ps, d⟩ := t
  simp only [IsSum, numFactors, monomerFactors, polyFactors, degree] at *
  cases ps with
  | nil => exact (heq rfl).symm
  | cons p ps =>
    cases ms with
    | nil =>
      simp only [List.length_cons, List.length_nil, true_and] at *
      omega
    | cons x ms =>
      simp only [List.length_cons] at *
      omega

end PolynomialTerm

/-! ## Simple expressions -/

section
variable {R : Type} [CommRing R] (z : ℕ → R)

def LvalConst.eval : LvalConst → R
  | .const c => c
  | .lval x => z x

def ParsedRhs.eval : ParsedRhs → R
  | .poly p => p.eval z
  | .plus a b => a.eval z + b.eval z
  | .times a b => a.eval z * b.eval z

theorem PolynomialTerm.eval_toLvalConst {t : PolynomialTerm ℤ} (ht : t.Ok) {a : LvalConst}
    (h : t.toLvalConst = some a) : a.eval z = t.eval z := by
  have hle := ht.le_degree
  obtain ⟨c, ms, ps, d⟩ := t
  simp only [monomerFactors, polyFactors, degree] at hle
  rw [toLvalConst.eq_def] at h
  rw [eval_mk]
  simp only at h
  split at h
  · obtain rfl := Option.some.inj h
    obtain rfl : ms = [] := List.length_eq_zero_iff.1 (by omega)
    obtain rfl : ps = [] := List.length_eq_zero_iff.1 (by omega)
    simp [LvalConst.eval]
  · split at h
    · next x =>
      split at h
      · next hc =>
        obtain rfl := Option.some.inj h
        simp [LvalConst.eval, hc]
      · cases h
    · cases h

/-- A simple expression has the value of the polynomial. -/
theorem eval_simplifyPoly {p : PolynomialExpression ℤ} (hp : p.Ok) :
    (simplifyPoly p).eval z = p.eval z := by
  have hok := hp.terms_ok
  have hval := p.eval_eq z
  rw [simplifyPoly]
  split
  · next t u hts =>
    rw [hts] at hok hval
    split
    · next a b ha hb =>
      rw [ParsedRhs.eval, PolynomialTerm.eval_toLvalConst z (hok t (by simp)) ha,
        PolynomialTerm.eval_toLvalConst z (hok u (by simp)) hb, hval]
      simp
    · rfl
  · next c ms d hts =>
    rw [hts] at hval
    split
    · next x =>
      split
      · simp [ParsedRhs.eval, LvalConst.eval, hval, PolynomialTerm.eval_mk]
      · rfl
    · next x y =>
      split
      · next h => simp [ParsedRhs.eval, LvalConst.eval, hval, PolynomialTerm.eval_mk, h.2]
      · rfl
    · rfl
  · rfl

end

end Frontend

end Pequin
