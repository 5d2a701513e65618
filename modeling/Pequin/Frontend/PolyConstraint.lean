import Pequin.Frontend.RoundTrip

/-!
# Constraints from the text of a polynomial

`compilePolyConstraint` copies the three parts of a polynomial and subtracts the target. It counts
words, and expects two parentheses for the product. The printer writes as many as the first term has
factors if the stored degree is `2`, and the stored degree stays `2` when the term of degree `2`
cancels. The text is turned into the right constraint unless that has happened.
-/

namespace Pequin

namespace Frontend

open Bracket

/-! ## Polynomials that the compiler builds -/

mutual
/-- A term that is made by `addFactor`, or that stands in a polynomial. What the compiler knows of
the variables may be different at each step. -/
inductive PolynomialTerm.Built : PolynomialTerm ℤ → Prop where
  | one : PolynomialTerm.one.Built
  | const {t : PolynomialTerm ℤ} (c : ℤ) : t.Built → (t.addConst c).Built
  | monomer {t : PolynomialTerm ℤ} (L : Lookup ℤ) (x : ℕ) : t.Built → (t.addMonomer L x).Built
  | lval {t : PolynomialTerm ℤ} (L : Lookup ℤ) (x : ℕ) : t.Built → (t.addLval L x).Built
  | poly {t : PolynomialTerm ℤ} (L : Lookup ℤ) {p : PolynomialExpression ℤ} :
    t.Built → p.Built → (t.addPoly L p).Built
  | mem {t : PolynomialTerm ℤ} {p : PolynomialExpression ℤ} : p.Built → t ∈ p.terms → t.Built

/-- A polynomial that is made by `addMultiplesOfTerm`, as those of the rules for sums, differences
and products are. -/
inductive PolynomialExpression.Built : PolynomialExpression ℤ → Prop where
  | zero : PolynomialExpression.zero.Built
  | addMultiplesOfTerm {p : PolynomialExpression ℤ} {t : PolynomialTerm ℤ} (c : ℤ) :
    p.Built → t.Built → (p.addMultiplesOfTerm c t).Built
  | duplicate {p : PolynomialExpression ℤ} : p.Built → p.duplicate.Built
end

mutual
theorem PolynomialTerm.Built.ok {t : PolynomialTerm ℤ} : t.Built → t.Ok
  | .one => PolynomialTerm.ok_one
  | .const c h => h.ok.addConst c
  | .monomer L x h => h.ok.addMonomer L x
  | .lval L x h => h.ok.addLval L x
  | .poly L h hp => h.ok.addPoly L hp.ok
  | .mem hp ht => hp.ok.terms_ok t ht

theorem PolynomialExpression.Built.ok {p : PolynomialExpression ℤ} : p.Built → p.Ok
  | .zero => PolynomialExpression.ok_zero
  | .addMultiplesOfTerm c hp ht => hp.ok.addMultiplesOfTerm c ht.ok
  | .duplicate hp => hp.ok.duplicate
end

/-! ## Copying the parts -/

section
variable {ν : Type} (varName : ℕ → ν)

theorem copy_part (ts : List (Node (Word ℕ))) (rest : CircuitText) :
    copy (getConstraintTerm varName) 0 ((listSymbols ts).map (Symbol.map .arith) ++ .closing ::
      rest) = some (listSymbols (mapNodes (renameWord varName) ts), rest) :=
  copy_group (g := getConstraintTerm varName) (l := .arith)
    (h := renameWord varName) (fun _ => rfl) ts rest

variable (comment : List String)

/-- Only the words of the comment are left. -/
theorem copy_comment :
    copy (getConstraintTerm varName) 0 (comment.map fun s => Symbol.flat (.comment s)) = none := by
  cases comment with
  | nil => rfl
  | cons s comment => rfl

variable (rest : List (PolynomialTerm ℤ))

/-- The words of a circuit line with a polynomial. -/
theorem circuitText_body (product : List (Node (Word ℕ))) :
    circuitText (listSymbols [.flat (.int 1), .flat .star, .group (bodyNodes product rest)]) comment
      = .flat (.arith (.int 1)) :: .flat (.arith .star) :: .opening ::
        ((listSymbols product).map (Symbol.map .arith) ++ .flat (.arith .plus) :: .opening ::
          ((listSymbols (PolynomialExpression.sumNodes rest)).map (Symbol.map .arith) ++
            .closing :: .closing :: .flat .bracket :: comment.map fun s =>
              .flat (.comment s))) := by
  simp [circuitText, bodyNodes, Symbol.map]

/-- The constraint `( A ) * ( B ) + ( C - V )`. -/
def constraintNodes (target : ℕ) (a b c : List (Node (Word ℕ))) : List (Node (Word ν)) :=
  mapNodes (renameWord varName) [.group a, .flat .star, .group b] ++
    [.flat .plus, .group (mapNodes (renameWord varName) c ++
      [.flat .minus, .flat (.name (varName target))])]

theorem compilePolyConstraint_product (target : ℕ) (a b : List (Node (Word ℕ))) :
    compilePolyConstraint varName target (circuitText (listSymbols [.flat (.int 1), .flat .star,
      .group (bodyNodes [.group a, .flat .star, .group b] rest)]) comment) =
      some (listSymbols (constraintNodes varName target a b
        (PolynomialExpression.sumNodes rest))) := by
  rw [circuitText_body]
  simp [compilePolyConstraint, skip, copy_part, constraintNodes, Symbol.map, mapNodes, Node.map,
    renameWord]

/-- With one parenthesis the scanner is past the bracket when it looks for the third part. -/
theorem compilePolyConstraint_one (target : ℕ) (a : List (Node (Word ℕ))) :
    compilePolyConstraint varName target (circuitText (listSymbols [.flat (.int 1), .flat .star,
      .group (bodyNodes [.group a] rest)]) comment) = none := by
  rw [circuitText_body]
  simp [compilePolyConstraint, skip, copy_part, copy_comment, Symbol.map]

/-- Without a parenthesis it is past the bracket when it looks for the second part. -/
theorem compilePolyConstraint_none (target : ℕ) :
    compilePolyConstraint varName target (circuitText (listSymbols [.flat (.int 1), .flat .star,
      .group (bodyNodes [] rest)]) comment) = none := by
  have hgroup := copy_part varName [.group (PolynomialExpression.sumNodes rest)]
    (.flat .bracket :: comment.map fun s => .flat (.comment s))
  rw [circuitText_body]
  simp only [listSymbols_group, listSymbols_nil, List.map_cons, List.map_append, List.append_assoc,
    List.cons_append, List.map_nil, List.nil_append, Symbol.map] at hgroup ⊢
  simp only [compilePolyConstraint, skip, Option.bind_eq_bind, Option.bind_some, hgroup]
  cases comment with
  | nil => rfl
  | cons s comment =>
    simp only [List.map_cons, Option.bind_some, copy_comment]
    rfl

end

/-! ## The value of the constraint -/

section
variable {ν R : Type} [CommRing R] (varName : ℕ → ν) (z : ν → R)

/-- Renaming the words is reading the values of the renamed variables. -/
theorem comap_arithmetic :
    (arithmetic z).comap (renameWord varName) = arithmetic fun x => z (varName x) := by
  have hread : ∀ f w, readWord z f (renameWord varName w) =
    readWord (fun x => z (varName x)) f w := by
    intro f w
    cases w <;> rfl
  simp only [Reader.comap, arithmetic, hread]

theorem eval_renamed (f : ValueFrame R) (ns : List (Node (Word ℕ))) :
    (arithmetic z).eval f (mapNodes (renameWord varName) ns) =
      (arithmetic fun x => z (varName x)).eval f ns := by
  rw [Reader.eval_mapNodes, comap_arithmetic]

/-- The target is subtracted from what was read, if a term is complete or none was begun. -/
theorem value_sub (f : ValueFrame R) (hf : f.seen = true ∨ f.term = 1) (y : ν) :
    ((arithmetic z).eval f [.flat .minus, .flat (.name y)]).value = f.value - z y := by
  obtain ⟨sum, term, seen⟩ := f
  rcases hf with rfl | rfl
  · exact (congrArg (_ + ·) (neg_one_mul _)).trans (sub_eq_add_neg _ _).symm
  · cases seen <;> exact (congrArg (_ + ·) (neg_one_mul _)).trans (sub_eq_add_neg _ _).symm

theorem value_rest (rest : List (PolynomialTerm ℤ)) (y : ν) :
    ((arithmetic z).eval .init (mapNodes (renameWord varName) (PolynomialExpression.sumNodes rest)
      ++ [.flat .minus, .flat (.name y)])).value =
      (rest.map fun t => t.eval fun x => z (varName x)).sum - z y := by
  rw [Reader.eval_append, eval_renamed]
  by_cases hrest : rest = []
  · subst hrest
    exact value_sub z .init (.inr rfl) y
  · obtain ⟨s, p, hframe, hsum⟩ :=
      (arithmeticDenotes fun x => z (varName x)).sum rest hrest .init 0 rfl
    rw [hframe, value_sub z _ (.inl rfl), ← zero_add (rest.map _).sum, ← hsum]
    rfl

theorem textValue_constraintNodes (target : ℕ) {a b : List (Node (Word ℕ))} {v : R}
    (rest : List (PolynomialTerm ℤ))
    (hproduct : (arithmetic fun x => z (varName x)).eval .init [.group a, .flat .star, .group b] =
      ⟨0, v, true⟩) :
    textValue z (listSymbols (constraintNodes varName target a b
      (PolynomialExpression.sumNodes rest))) =
      some (v + ((rest.map fun t => t.eval fun x => z (varName x)).sum - z (varName target))) := by
  rw [textValue_listSymbols, constraintNodes, Reader.eval_append, eval_renamed, hproduct,
    ← value_rest varName z rest (varName target)]
  refine congrArg some ?_
  show 0 + v + 1 * _ = _
  rw [zero_add, one_mul]
  rfl

end

/-! ## The round trip -/

/-- The text of the polynomial is read back as the polynomial, and the constraint made from it holds
just if the target has the value of the polynomial. -/
structure Transmits (text : Text ℕ) (p : PolynomialExpression ℤ) : Prop where
  reads (K : Known) (comment : List String) : ∃ e, parseRhs K (circuitText text comment) = some e ∧
    ∀ (R : Type) [CommRing R] (z : ℕ → R), K.Holds z → e.eval z = p.eval z
  constrains (ν : Type) (varName : ℕ → ν) (target : ℕ) (comment : List String) :
    ∃ line, compilePolyConstraint varName target (circuitText text comment) = some line ∧
      ∀ (R : Type) [CommRing R] (z : ν → R),
        textValue z line = some 0 ↔ z (varName target) = p.eval fun x => z (varName x)

/-- The polynomial is printed, and the text transmits it. -/
def RoundTrips (L : Lookup ℤ) (p : PolynomialExpression ℤ) : Prop :=
  ∃ text, p.toCircuit L = some text ∧ Transmits text p

variable {p : PolynomialExpression ℤ}

/-- A product of two factors and a sum of terms transmit a polynomial of that value. -/
theorem transmits_of_product (a b : List (Node (Word ℕ))) (rest : List (PolynomialTerm ℤ))
    (h : ∀ (R : Type) [CommRing R] (z : ℕ → R), ∃ v, p.eval z = v + (rest.map fun t => t.eval z).sum
      ∧ ∀ {F : Type} {r : Reader (Word ℕ) F} (d : Denotes r z) {f : F} {s q : R} {k : Bool},
        d.holds f s q k → d.holds (r.eval f [.group a, .flat .star, .group b]) s (q * v) true) :
    Transmits (listSymbols [.flat (.int 1), .flat .star,
      .group (bodyNodes [.group a, .flat .star, .group b] rest)]) p := by
  refine ⟨fun K comment => ?_, fun ν varName target comment => ?_⟩
  · refine ⟨_, by rw [parseRhs, parsePoly_circuitText, Option.map_some], fun R _ z hz => ?_⟩
    obtain ⟨v, hp, hproduct⟩ := h R z
    have hread := ((parserDenotes K hz).whole
      ((parserDenotes K hz).body rest (hproduct (parserDenotes K hz)))).result
    rw [zero_add, ← hp] at hread
    exact (eval_simplifyPoly z hread.1).trans hread.2
  · refine ⟨_, compilePolyConstraint_product varName comment rest target a b, fun R _ z => ?_⟩
    obtain ⟨v, hp, hproduct⟩ := h R fun x => z (varName x)
    have hframe := hproduct (arithmeticDenotes _) (f := .init) (k := false) rfl
    rw [one_mul] at hframe
    rw [textValue_constraintNodes varName z target rest hframe, hp, Option.some.injEq,
      ← add_sub_assoc, sub_eq_zero, eq_comm]

/-- Two factors are printed in two parentheses. -/
theorem PolynomialTerm.productNodes_of_two {t : PolynomialTerm ℤ} (h : t.numFactors = 2) :
    ∃ a b, t.productNodes = [.group a, .flat .star, .group b] := by
  obtain ⟨a, b, hab⟩ := List.length_eq_two.1 (t.length_factorNodes.trans h)
  exact ⟨a, b, by rw [productNodes_eq, hab]; rfl⟩

/-- The first term of a polynomial has the greatest degree. -/
theorem PolynomialExpression.Ok.head_degree (hp : p.Ok) {t : PolynomialTerm ℤ}
    {rest : List (PolynomialTerm ℤ)} (hts : p.terms = t :: rest) :
    (∀ u ∈ p.terms, u.degree ≤ t.degree) ∧ t.degree ≤ p.degree ∧ ¬ t.IsSum ∧ t.constant ≠ 0 := by
  have hmem : t ∈ p.terms := hts ▸ List.mem_cons_self
  cases hp with
  | mk terms nonzero not_sum sorted constants le_degree =>
    simp only [PolynomialExpression.terms] at hts hmem
    subst hts
    refine ⟨fun u hu => ?_, le_degree t hmem, not_sum t hmem, nonzero t hmem⟩
    rcases List.mem_cons.1 hu with rfl | hu
    · exact le_rfl
    · exact (List.pairwise_cons.1 sorted).1 u hu

/-- The stored degree `2` is that of a term. -/
def PolynomialExpression.DegreeStands (p : PolynomialExpression ℤ) : Prop :=
  p.degree = 2 → ∃ t ∈ p.terms, t.degree = 2

theorem PolynomialExpression.Ok.roundTrips (hp : p.Ok) (L : Lookup ℤ) (h : p.DegreeStands) :
    RoundTrips L p := by
  by_cases hdeg : p.degree = 2
  · obtain ⟨u, hu, hu2⟩ := h hdeg
    obtain ⟨t, rest, hts⟩ := List.exists_cons_of_ne_nil (List.ne_nil_of_mem hu)
    obtain ⟨hmax, hle, hsum, hconst⟩ := hp.head_degree hts
    have ht : t.Ok := hp.terms_ok t (hts ▸ List.mem_cons_self)
    have ht2 : t.degree = 2 := le_antisymm (hdeg ▸ hle) (hu2 ▸ hmax u hu)
    have hnum : t.duplicate.numFactors = 2 := by
      rw [t.numFactors_duplicate, ht.numFactors_eq hsum ht2.le, ht2]
    obtain ⟨t', ht'⟩ := PolynomialTerm.exists_toUnitConstantForm L
      (t.constant_duplicate.symm ▸ hconst) (hnum ▸ two_ne_zero)
    have hms : t.duplicate.monomerFactors.length ≤ 2 := hnum ▸ Nat.le_add_right _ _
    obtain ⟨hnum', hval⟩ := PolynomialTerm.toUnitConstantForm_spec hms ht'
    obtain ⟨a, b, hab⟩ := PolynomialTerm.productNodes_of_two (hnum'.trans hnum)
    refine ⟨_, ?_, transmits_of_product a b rest fun R _ z =>
      ⟨t.eval z, ?_, fun d _ _ _ _ hf => ?_⟩⟩
    · rw [PolynomialExpression.toCircuit, PolynomialExpression.parts, if_pos hdeg, hts]
      simp only [ht', Option.map_some, hab]
    · rw [p.eval_eq, hts, List.map_cons, List.sum_cons]
    · rw [← t.eval_duplicate z, ← hval R z, ← hab]
      refine d.product t' (fun hnil => ?_) hf
      have hlen := t'.length_factorNodes
      rw [hnil, ← PolynomialTerm.numFactors, hnum', hnum] at hlen
      cases hlen
  · refine ⟨_, ?_, transmits_of_product [] [] p.terms fun R _ z =>
      ⟨0, ?_, fun d _ _ _ _ hf => d.emptyProduct hf⟩⟩
    · rw [PolynomialExpression.toCircuit, PolynomialExpression.parts, if_neg hdeg, Option.map_some]
    · rw [zero_add, p.eval_eq]

/-- Without a term of degree `2` the text has no two parentheses. -/
theorem PolynomialExpression.Ok.not_roundTrips (hp : p.Ok) (L : Lookup ℤ) (hdeg : p.degree = 2)
    (hnone : ∀ t ∈ p.terms, t.degree ≠ 2) : ¬ RoundTrips L p := by
  rintro ⟨text, htext, htransmits⟩
  obtain ⟨line, hline, -⟩ := htransmits.constrains ℕ id 0 []
  rw [PolynomialExpression.toCircuit, PolynomialExpression.parts, if_pos hdeg] at htext
  cases hts : p.terms with
  | nil =>
    rw [hts] at htext
    cases htext
  | cons t rest =>
    obtain ⟨-, hle, hsum, -⟩ := hp.head_degree hts
    have hmem : t ∈ p.terms := hts ▸ List.mem_cons_self
    have hlt : t.degree ≤ 1 := by
      have := hnone t hmem
      omega
    have hnum : t.duplicate.numFactors ≤ 1 := by
      rw [t.numFactors_duplicate, (hp.terms_ok t hmem).numFactors_eq hsum (hlt.trans one_le_two)]
      exact hlt
    simp only [hts] at htext
    cases hunit : t.duplicate.toUnitConstantForm L with
    | none =>
      rw [hunit] at htext
      cases htext
    | some t' =>
      have hms : t.duplicate.monomerFactors.length ≤ 2 := by
        rw [PolynomialTerm.numFactors] at hnum
        omega
      have hlen : t'.factorNodes.length ≤ 1 := by
        rw [t'.length_factorNodes, ← PolynomialTerm.numFactors,
          (PolynomialTerm.toUnitConstantForm_spec hms hunit).1]
        exact hnum
      rw [hunit, Option.map_some, Option.map_some, t'.productNodes_eq] at htext
      obtain rfl := Option.some.inj htext
      rcases hnodes : t'.factorNodes with _ | ⟨a, _ | ⟨b, l⟩⟩
      · rw [hnodes] at hline
        cases (compilePolyConstraint_none id [] rest 0).symm.trans hline
      · rw [hnodes] at hline
        cases (compilePolyConstraint_one id [] rest 0 a).symm.trans hline
      · rw [hnodes] at hlen
        simp at hlen

/-- Printing, reading and the constraint agree on a polynomial just if its stored degree is `2` only
with a term of degree `2`. This does not depend on what other terms there are. -/
theorem roundTrips_iff (L : Lookup ℤ) {p : PolynomialExpression ℤ} (hp : p.Built) :
    RoundTrips L p ↔ p.DegreeStands := by
  constructor
  · intro h hdeg
    by_contra hnone
    exact hp.ok.not_roundTrips L hdeg (fun t ht h2 => hnone ⟨t, ht, h2⟩) h
  · exact hp.ok.roundTrips L

def productXY : PolynomialTerm ℤ :=
  (PolynomialTerm.one.addMonomer intLookup 1).addMonomer intLookup 2

theorem built_productXY : productXY.Built := .monomer _ _ (.monomer _ _ .one)

/-- The polynomial `x * y + 3`. -/
theorem roundTrips_product_add_three :
    RoundTrips intLookup
      ((PolynomialExpression.zero.addMultiplesOfTerm 1 productXY).addMultiplesOfTerm 3
      PolynomialTerm.one) :=
  (roundTrips_iff intLookup (.addMultiplesOfTerm 3 (.addMultiplesOfTerm 1 .zero built_productXY)
    .one)).2
    fun _ => by decide

def cancelled : PolynomialExpression ℤ :=
  ((PolynomialExpression.zero.addMultiplesOfTerm 1 productXY).addMultiplesOfTerm 1
    (PolynomialTerm.one.addMonomer intLookup 1)).addMultiplesOfTerm (-1) productXY

/-- It is `x`, but no constraint can be made from its text. -/
theorem cancelled_not_roundTrips :
    cancelled.Built ∧ (∀ t ∈ cancelled.terms, t.degree ≤ 1) ∧ ¬ RoundTrips intLookup cancelled := by
  have hbuilt : cancelled.Built :=
    .addMultiplesOfTerm (-1) (.addMultiplesOfTerm 1 (.addMultiplesOfTerm 1 .zero built_productXY)
      (.monomer _ _ .one)) built_productXY
  exact ⟨hbuilt, by decide, hbuilt.ok.not_roundTrips intLookup (by decide) (by decide)⟩

end Frontend

end Pequin
