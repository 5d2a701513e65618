import Pequin.Frontend.PolyConstraint

/-!
# Printing rational polynomials

Polynomials are objects: a factor of a term is a reference to another polynomial, and several terms
may refer to the same one. `toCircuit` prints a polynomial as `C1/D * ( P + ( Q ) )`, and to get rid
of the fractions in `P` and `Q` it first multiplies the constants of the polynomial, and those of
the polynomials nested in it, by common denominators. It does so in place, and nothing divides by
them again. The text is also the key of the optimizer's table of assignments.
-/

namespace Pequin

namespace Frontend

open Bracket

/-! ## The code -/

/-- A `FloatConstant` with any denominator, not in lowest terms. -/
structure RationalConstant where
  num : ℤ
  den : ℕ
  den_pos : 0 < den
  deriving DecidableEq

namespace RationalConstant

def ofInt (n : ℤ) : RationalConstant := ⟨n, 1, Nat.one_pos⟩

def valueOf (num : ℤ) (den : ℕ) (h : 0 < den) : RationalConstant :=
  if num = den then ofInt 1
  else if num = 0 then ofInt 0
  else if -num = den then ofInt (-1)
  else ⟨num, den, h⟩

def getDenominator (c : RationalConstant) : ℕ+ := ⟨c.den, c.den_pos⟩

def isZero (c : RationalConstant) : Bool := c.num == 0

def isOne (c : RationalConstant) : Bool := c.num == c.den

def multiply (c d : RationalConstant) : RationalConstant :=
  if c.isZero then ofInt 0
  else if d.isZero then ofInt 0
  else if d.isOne then c
  else if c.isOne then d
  else valueOf (c.num * d.num) (c.den * d.den) (Nat.mul_pos c.den_pos d.den_pos)

def value (c : RationalConstant) : ℚ := c.num / c.den

end RationalConstant

/-- A term of a polynomial object; `polyFactors` are references. -/
structure TermCell where
  constant : RationalConstant
  monomerFactors : List ℕ
  polyFactors : List ℕ
  degree : ℕ

/-- A polynomial object, with the degree that its `TermsList` has stored. -/
structure PolyCell where
  terms : List TermCell
  degree : ℕ

abbrev Heap := List PolyCell

/-- A positive number with a single bit. -/
def isPOT (n : ℕ) : Bool := n == 2 ^ n.log2

/-- `PolynomialTerm.removeFractionalConstants`: each nested polynomial is freed of fractions, and
the constant is divided by the denominator. -/
def TermCell.removeFractionalConstants (nested : Heap → ℕ → Option (Heap × ℕ+)) (heap : Heap)
    (constant : RationalConstant) : List ℕ → Option (Heap × RationalConstant)
  | [] => some (heap, constant)
  | f :: fs => do
    let (heap, denom) ← nested heap f
    removeFractionalConstants nested heap (constant.multiply (.valueOf 1 denom denom.pos)) fs

/-- The first loop over the terms. -/
def commonDenominator (nested : Heap → ℕ → Option (Heap × ℕ+)) (heap : Heap) (denomSum : ℕ+) :
    List TermCell → Option (Heap × List TermCell × ℕ+)
  | [] => some (heap, [], denomSum)
  | t :: ts => do
    let (heap, constant) ← TermCell.removeFractionalConstants nested heap t.constant t.polyFactors
    if isPOT constant.den then
      let (heap, ts, denomSum) ← commonDenominator nested heap
        (max denomSum constant.getDenominator) ts
      some (heap, { t with constant } :: ts, denomSum)
    else none

/-- The second loop over the terms. -/
def TermCell.scale (denomSum : ℕ) (t : TermCell) : TermCell :=
  { t with constant := .valueOf ((t.constant.num * denomSum).tdiv t.constant.den) 1 Nat.one_pos }

/-- `PolynomialExpression.removeFractionalConstants`. -/
def removeFractionalConstants : ℕ → Heap → ℕ → Option (Heap × ℕ+)
  | 0, _, _ => none
  | fuel + 1, heap, i => do
    let cell ← heap[i]?
    let (heap, ts, denomSum) ←
      commonDenominator (removeFractionalConstants fuel) heap 1 cell.terms
    some (heap.set i { cell with terms := ts.map (TermCell.scale denomSum) }, denomSum)

/-- The polynomial a reference stands for, with its constants read by `φ`. -/
def Heap.read {κ : Type} [One κ] (φ : RationalConstant → κ) (heap : Heap) :
    ℕ → ℕ → PolynomialExpression κ
  | 0, _ => .zero
  | fuel + 1, i =>
    match heap[i]? with
    | none => .zero
    | some cell =>
      .mk (cell.terms.map fun t =>
          .mk (φ t.constant) t.monomerFactors (t.polyFactors.map (read φ heap fuel)) t.degree)
        [.mk 1 [] [] cell.degree]

/-- The polynomial that is printed in the outer parentheses. -/
def Heap.numerators (heap : Heap) (i : ℕ) : PolynomialExpression ℤ :=
  heap.read RationalConstant.num (i + 1) i

/-- A printed polynomial: the denominator of the multiplier, and the text with the multiplier
`1`. -/
structure Printed where
  denominator : ℕ+
  text : Text ℕ
  deriving DecidableEq

/-- `PolynomialExpression.toCircuit`, with `removeFractions`. -/
def Heap.toCircuit (L : Lookup ℤ) (heap : Heap) (i : ℕ) : Option (Heap × Printed) := do
  let (heap, denom) ← removeFractionalConstants (i + 1) heap i
  let text ← (heap.numerators i).toCircuit L
  some (heap, ⟨denom, text⟩)

/-- The polynomials, the memo of the optimizer, and the variables that were assigned, with what. -/
structure PrintState where
  heap : Heap
  memo : List (Printed × ℕ)
  assigned : List (ℕ × ℕ)

inductive PrintCall where
  | toCircuit (i : ℕ)
  | toString (i : ℕ)
  | addAssignment (i x : ℕ)
  | getLvalFor (i : ℕ)
  | removeLvalFor (i : ℕ)

def PrintCall.target : PrintCall → ℕ
  | .toCircuit i | .toString i | .addAssignment i _ | .getLvalFor i | .removeLvalFor i => i

/-- What `Optimizer.getLvalFor` returns. -/
def PrintState.getLvalFor (L : Lookup ℤ) (s : PrintState) (i : ℕ) : Option ℕ := do
  let (_, key) ← s.heap.toCircuit L i
  s.memo.lookup key

def PrintState.step (L : Lookup ℤ) (s : PrintState) (call : PrintCall) : Option PrintState := do
  let (heap, key) ← s.heap.toCircuit L call.target
  match call with
  | .toCircuit _ | .toString _ | .getLvalFor _ => some { s with heap }
  | .addAssignment i x =>
    some ⟨heap, (key, x) :: s.memo.filter fun e => e.1 ≠ key, (i, x) :: s.assigned⟩
  | .removeLvalFor _ => some { s with heap, memo := s.memo.filter fun e => e.1 ≠ key }

def PrintState.run (L : Lookup ℤ) : List PrintCall → PrintState → Option PrintState
  | [], s => some s
  | call :: calls, s => do run L calls (← s.step L call)

/-! ## Texts and values

The text of a polynomial denotes it, unless the stored degree is `2` and there is no term but a
constant. -/

/-- The first term can be printed as a product if the stored degree says so. -/
def PolynomialExpression.Printable (p : PolynomialExpression ℤ) : Prop :=
  p.degree = 2 → ∃ t ∈ p.terms, t.degree ≠ 0

theorem textValue_bodyNodes {R : Type} [CommRing R] (z : ℕ → R) {product : List (Node (Word ℕ))}
    {v : R} (rest : List (PolynomialTerm ℤ))
    (h : ∀ {f : ValueFrame R} {s q : R} {b : Bool}, (arithmeticDenotes z).holds f s q b →
      (arithmeticDenotes z).holds ((arithmetic z).eval f product) s (q * v) true) :
    textValue z (listSymbols [.flat (.int 1), .flat .star, .group (bodyNodes product rest)]) =
      some (v + (rest.map fun t => t.eval z).sum) := by
  have hwhole : (arithmetic z).eval .init _ = _ :=
    (arithmeticDenotes z).whole ((arithmeticDenotes z).body rest h)
  rw [textValue_listSymbols, hwhole]
  exact congrArg some (zero_add _)

theorem PolynomialExpression.Ok.textValue_toCircuit {p : PolynomialExpression ℤ} (hp : p.Ok)
    (L : Lookup ℤ) (h : p.Printable) : ∃ text, p.toCircuit L = some text ∧
      ∀ (R : Type) [CommRing R] (z : ℕ → R), textValue z text = some (p.eval z) := by
  by_cases hdeg : p.degree = 2
  · obtain ⟨u, hu, hu0⟩ := h hdeg
    obtain ⟨t, rest, hts⟩ := List.exists_cons_of_ne_nil (List.ne_nil_of_mem hu)
    obtain ⟨hmax, hle, hsum, hconst⟩ := hp.head_degree hts
    have hnum : t.duplicate.numFactors = t.degree := by
      rw [t.numFactors_duplicate,
        (hp.terms_ok t (hts ▸ List.mem_cons_self)).numFactors_eq hsum (hdeg ▸ hle)]
    have hnum0 : t.duplicate.numFactors ≠ 0 := by
      have := hmax u hu
      omega
    obtain ⟨t', ht'⟩ := PolynomialTerm.exists_toUnitConstantForm L
      (t.constant_duplicate.symm ▸ hconst) hnum0
    have hms : t.duplicate.monomerFactors.length ≤ 2 :=
      (Nat.le_add_right _ _).trans (hnum.le.trans (hdeg ▸ hle))
    obtain ⟨hnum', hval⟩ := PolynomialTerm.toUnitConstantForm_spec hms ht'
    refine ⟨_, ?_, fun R _ z => (textValue_bodyNodes z rest fun hf =>
      (arithmeticDenotes z).product t' (fun hnil => ?_) hf).trans ?_⟩
    · rw [PolynomialExpression.toCircuit, PolynomialExpression.parts, if_pos hdeg, hts]
      simp only [ht', Option.map_some]
    · have hlen := t'.length_factorNodes
      rw [hnil, ← PolynomialTerm.numFactors, hnum'] at hlen
      exact hnum0 hlen.symm
    · rw [hval R z, t.eval_duplicate z, p.eval_eq, hts, List.map_cons, List.sum_cons]
  · refine ⟨_, ?_, fun R _ z => (textValue_bodyNodes z p.terms fun hf =>
      (arithmeticDenotes z).emptyProduct hf).trans ?_⟩
    · rw [PolynomialExpression.toCircuit, PolynomialExpression.parts, if_neg hdeg, Option.map_some]
    · rw [zero_add, p.eval_eq]

/-- A constant with the stored degree `2` is not printed, or printed as nothing. -/
theorem PolynomialExpression.Ok.printable {p : PolynomialExpression ℤ} (hp : p.Ok) {L : Lookup ℤ}
    {text : Text ℕ} (htext : p.toCircuit L = some text) {z : ℕ → ℚ}
    (hvalue : textValue z text = some (p.eval z)) : p.Printable := by
  intro hdeg
  by_contra hnone
  simp only [not_exists, not_and, not_not] at hnone
  rw [PolynomialExpression.toCircuit, PolynomialExpression.parts, if_pos hdeg] at htext
  cases hts : p.terms with
  | nil =>
    rw [hts] at htext
    cases htext
  | cons t rest =>
    have hrest : rest = [] := by
      have hcount : p.terms.countP (fun t => t.degree = 0) ≤ 1 := by
        cases hp with
        | mk terms nonzero not_sum sorted constants le_degree => exact constants
      rw [List.countP_eq_length.2 fun t ht => decide_eq_true (hnone t ht), hts] at hcount
      exact List.eq_nil_of_length_eq_zero (by simpa using hcount)
    subst hrest
    have hmem : t ∈ p.terms := hts ▸ List.mem_cons_self
    have hconst := (hp.head_degree hts).2.2.2
    have hle := (hp.terms_ok t hmem).le_degree
    rw [p.eval_eq] at hvalue
    rw [hnone t hmem] at hle
    obtain ⟨c, ms, ps, d⟩ := t
    simp only [PolynomialTerm.monomerFactors, PolynomialTerm.polyFactors, Nat.le_zero,
      Nat.add_eq_zero_iff, List.length_eq_zero_iff] at hle
    obtain ⟨rfl, rfl⟩ := hle
    simp only [hts, PolynomialTerm.duplicate, PolynomialTerm.toUnitConstantForm] at htext
    by_cases hc : c = 1
    · subst hc
      rw [if_pos rfl] at htext
      obtain rfl := Option.some.inj htext
      rw [textValue_listSymbols, hts] at hvalue
      have hread : (0 : ℚ) + 1 * ((1 : ℤ) : ℚ) * (0 + 1 * 0) = _ := Option.some.inj hvalue
      simp [PolynomialTerm.eval_mk] at hread
    · rw [if_neg hc, if_neg (show ¬ c = 0 from hconst)] at htext
      cases htext

/-! ## Values of polynomial objects -/

namespace Heap

/-- The polynomial with rational constants that a reference stands for. -/
def value (heap : Heap) (i : ℕ) (z : ℕ → ℚ) : ℚ :=
    (heap.read RationalConstant.value (i + 1) i).eval z

/-- Factors are older than the polynomials they are nested in. -/
def Acyclic (heap : Heap) : Prop :=
  ∀ (i : ℕ) (cell : PolyCell), heap[i]? = some cell → ∀ t ∈ cell.terms, ∀ f ∈ t.polyFactors, f < i

end Heap

/-- No constant of the polynomial has a denominator. -/
def PolyCell.Integral (cell : PolyCell) : Prop := ∀ t ∈ cell.terms, t.constant.den = 1

/-- No constant of the polynomial is zero. -/
def PolyCell.Nonzero (cell : PolyCell) : Prop := ∀ t ∈ cell.terms, t.constant.num ≠ 0

section
variable {κ : Type} [CommRing κ] (φ : RationalConstant → κ) {heap : Heap}

theorem Heap.read_congr {heap' : Heap} (hacyclic : heap.Acyclic) {i fuel fuel' : ℕ} (hi : i < fuel)
    (hi' : i < fuel') (h : ∀ j ≤ i, heap'[j]? = heap[j]?) :
    heap'.read φ fuel' i = heap.read φ fuel i := by
  induction fuel generalizing i fuel' with
  | zero => exact absurd hi (Nat.not_lt_zero i)
  | succ fuel ih =>
    obtain _ | fuel' := fuel'
    · exact absurd hi' (Nat.not_lt_zero i)
    rw [Heap.read, Heap.read, h i le_rfl]
    cases hcell : heap[i]? with
    | none => rfl
    | some cell =>
      refine congrArg (PolynomialExpression.mk · _) (List.map_congr_left fun t ht => ?_)
      refine congrArg (PolynomialTerm.mk _ _ · _) (List.map_congr_left fun f hf => ?_)
      have hlt := hacyclic i cell hcell t ht f hf
      exact ih (by omega) (by omega) fun j hj => h j (by omega)

/-- The value of a polynomial, from those of the polynomials nested in it. -/
theorem Heap.eval_read [Algebra κ ℚ] (hacyclic : heap.Acyclic) {i : ℕ} {cell : PolyCell}
    (hcell : heap[i]? = some cell) (z : ℕ → ℚ) : (heap.read φ (i + 1) i).eval z =
      (cell.terms.map fun t => algebraMap κ ℚ (φ t.constant) * ((t.monomerFactors.map z).prod *
        (t.polyFactors.map fun f => (heap.read φ (f + 1) f).eval z).prod)).sum := by
  rw [Heap.read, hcell, PolynomialExpression.eval_eq]
  simp only [PolynomialExpression.terms, List.map_map]
  refine congrArg List.sum (List.map_congr_left fun t ht => ?_)
  rw [Function.comp_apply, PolynomialTerm.eval_mk]
  have hfactors : t.polyFactors.map (heap.read φ i) = t.polyFactors.map fun f =>
    heap.read φ (f + 1) f :=
    List.map_congr_left fun f hf => Heap.read_congr φ hacyclic (Nat.lt_succ_self f)
      (hacyclic i cell hcell t ht f hf) fun _ _ => rfl
  rw [hfactors, List.map_map]
  rfl

end

/-! ## Removing the fractions of one polynomial -/

namespace RationalConstant

theorem valueOf_one (n : ℤ) : valueOf n 1 Nat.one_pos = ofInt n := by
  unfold valueOf
  split
  · next h => rw [h, Nat.cast_one]
  split
  · next h => rw [h]
  split
  · next h => rw [neg_eq_iff_eq_neg.1 h, Nat.cast_one]
  · rfl

theorem eq_ofInt {c : RationalConstant} (h : c.den = 1) : c = ofInt c.num := by
  obtain ⟨n, d, hd⟩ := c
  obtain rfl : d = 1 := h
  rfl

theorem value_ofInt (n : ℤ) : (ofInt n).value = n := by rw [value, ofInt, Nat.cast_one, div_one]

/-- A nested polynomial without fractions leaves the constant alone. -/
theorem multiply_valueOf_one {c : RationalConstant} (h : c.num ≠ 0) :
    c.multiply (valueOf 1 (1 : ℕ+) Nat.one_pos) = c := by
  have hzero : c.isZero = false := by simpa [isZero] using h
  have hone : valueOf 1 (1 : ℕ+) Nat.one_pos = ofInt 1 := valueOf_one 1
  rw [hone, multiply, hzero]
  rfl

end RationalConstant

theorem dvd_of_isPOT {m n : ℕ} (hm : isPOT m) (hn : isPOT n) (h : m ≤ n) : m ∣ n := by
  rw [isPOT, beq_iff_eq] at hm hn
  rw [hm, hn]
  refine Nat.pow_dvd_pow 2 ?_
  rw [hm, hn] at h
  exact (Nat.pow_le_pow_iff_right one_lt_two).1 h

/-- A denominator that divides the factor is cancelled. -/
theorem TermCell.value_scale {t : TermCell} {d : ℕ} (h : t.constant.den ∣ d) :
    (t.scale d).constant.value = d * t.constant.value := by
  obtain ⟨k, rfl⟩ := h
  have hden : (t.constant.den : ℤ) ≠ 0 := Nat.cast_ne_zero.2 t.constant.den_pos.ne'
  have hq : (t.constant.den : ℚ) ≠ 0 := Nat.cast_ne_zero.2 t.constant.den_pos.ne'
  have hdiv : (t.constant.num * (t.constant.den * k : ℕ)).tdiv t.constant.den =
    t.constant.num * k := by
    rw [Nat.cast_mul, mul_left_comm, Int.mul_tdiv_cancel_left _ hden]
  rw [TermCell.scale, hdiv, RationalConstant.valueOf_one, RationalConstant.value_ofInt,
    RationalConstant.value]
  push_cast
  rw [mul_right_comm, mul_div_cancel₀ _ hq]

theorem TermCell.scale_one {t : TermCell} (h : t.constant.den = 1) : t.scale 1 = t := by
  obtain ⟨c, ms, ps, d⟩ := t
  have hc : RationalConstant.valueOf ((c.num * (1 : ℕ)).tdiv c.den) 1 Nat.one_pos = c := by
    rw [show c.den = 1 from h, Nat.cast_one, mul_one, Int.tdiv_one, RationalConstant.valueOf_one]
    exact (RationalConstant.eq_ofInt h).symm
  exact congrArg (TermCell.mk · ms ps d) hc

section
variable {nested : Heap → ℕ → Option (Heap × ℕ+)} {heap : Heap}

/-- Nothing happens to the factors of a term. -/
theorem TermCell.removeFractionalConstants_eq {c : RationalConstant} (hc : c.num ≠ 0) {fs : List ℕ}
    (h : ∀ f ∈ fs, nested heap f = some (heap, 1)) :
    TermCell.removeFractionalConstants nested heap c fs = some (heap, c) := by
  induction fs with
  | nil => rfl
  | cons f fs ih =>
    rw [TermCell.removeFractionalConstants, h f List.mem_cons_self]
    refine Eq.trans ?_ (ih fun g hg => h g (List.mem_cons_of_mem f hg))
    exact congrArg (TermCell.removeFractionalConstants nested heap · fs)
      (RationalConstant.multiply_valueOf_one hc)

/-- The common denominator is a power of two, and the denominators divide it. -/
theorem commonDenominator_spec {ts : List TermCell} (hts : ∀ t ∈ ts, t.constant.num ≠ 0)
    (h : ∀ t ∈ ts, ∀ f ∈ t.polyFactors, nested heap f = some (heap, 1)) {d : ℕ+} (hd : isPOT d)
    {r : Heap × List TermCell × ℕ+} (hr : commonDenominator nested heap d ts = some r) :
    r.1 = heap ∧ r.2.1 = ts ∧ isPOT r.2.2 ∧ d ≤ r.2.2 ∧ ∀ t ∈ ts, t.constant.den ∣ r.2.2 := by
  induction ts generalizing d r with
  | nil =>
    obtain rfl := Option.some.inj hr
    exact ⟨rfl, rfl, hd, le_rfl, List.forall_mem_nil _⟩
  | cons t ts ih =>
    rw [commonDenominator, TermCell.removeFractionalConstants_eq (hts t List.mem_cons_self)
      (h t List.mem_cons_self)] at hr
    simp only [Option.bind_eq_bind, Option.bind_some] at hr
    split at hr
    · next hpot =>
      obtain ⟨r', hr', hr⟩ := Option.bind_eq_some_iff.1 hr
      obtain rfl := Option.some.inj hr
      have hmax : isPOT (max d t.constant.getDenominator : ℕ+) := by
        rcases max_choice d t.constant.getDenominator with h | h <;> rw [h]
        · exact hd
        · exact hpot
      obtain ⟨h1, h2, h3, h4, h5⟩ := ih (fun u hu => hts u (List.mem_cons_of_mem t hu))
        (fun u hu => h u (List.mem_cons_of_mem t hu)) hmax hr'
      refine ⟨h1, by rw [h2], h3, (le_max_left _ _).trans h4, List.forall_mem_cons.2 ⟨?_, h5⟩⟩
      exact dvd_of_isPOT hpot h3 ((le_max_right _ _).trans h4)
    · cases hr

/-- Without fractions there is nothing to remove. -/
theorem commonDenominator_one {ts : List TermCell} (hts : ∀ t ∈ ts, t.constant.num ≠ 0)
    (hint : ∀ t ∈ ts, t.constant.den = 1)
    (h : ∀ t ∈ ts, ∀ f ∈ t.polyFactors, nested heap f = some (heap, 1)) :
    commonDenominator nested heap 1 ts = some (heap, ts, 1) := by
  induction ts with
  | nil => rfl
  | cons t ts ih =>
    have hden := hint t List.mem_cons_self
    have hsame : max 1 t.constant.getDenominator = 1 := max_eq_left
      (PNat.coe_le_coe _ _ |>.1 hden.le)
    rw [commonDenominator, TermCell.removeFractionalConstants_eq (hts t List.mem_cons_self)
      (h t List.mem_cons_self)]
    simp only [Option.bind_eq_bind, Option.bind_some]
    rw [if_pos (by rw [hden]; rfl), hsame, ih (fun u hu => hts u (List.mem_cons_of_mem t hu))
      (fun u hu => hint u (List.mem_cons_of_mem t hu)) fun u hu => h u (List.mem_cons_of_mem t hu)]
    rfl

end

/-- The polynomials are built by the code: the factors of each are older, and its terms are in
order. -/
structure Heap.Ok (heap : Heap) : Prop where
  acyclic : heap.Acyclic
  numerators (i : ℕ) : i < heap.length → (heap.numerators i).Ok

section
variable {heap : Heap}

theorem Heap.lt_length_of_eq {i : ℕ} {cell : PolyCell} (h : heap[i]? = some cell) :
    i < heap.length :=
  (List.getElem?_eq_some_iff.1 h).1

theorem Heap.Ok.nonzero (hok : heap.Ok) {i : ℕ} {cell : PolyCell} (hcell : heap[i]? = some cell) :
    cell.Nonzero := by
  have h := hok.numerators i (Heap.lt_length_of_eq hcell)
  rw [Heap.numerators, Heap.read, hcell] at h
  cases h with
  | mk terms nonzero not_sum sorted constants le_degree =>
    exact fun t ht => nonzero _ (List.mem_map_of_mem ht)

/-- The polynomial and those nested in it have no fractions. -/
def Heap.IntegralTo (heap : Heap) (i : ℕ) : Prop :=
  ∀ j ≤ i, ∀ cell, heap[j]? = some cell → cell.Integral

/-- A polynomial without fractions is left alone. -/
theorem removeFractionalConstants_eq (hok : heap.Ok) {i fuel : ℕ} (hfuel : i < fuel)
    (hi : i < heap.length) (hint : heap.IntegralTo i) :
    removeFractionalConstants fuel heap i = some (heap, 1) := by
  induction fuel generalizing i with
  | zero => exact absurd hfuel (Nat.not_lt_zero i)
  | succ fuel ih =>
    have hcell : heap[i]? = some heap[i] := List.getElem?_eq_getElem hi
    have hnested : ∀ t ∈ heap[i].terms, ∀ f ∈ t.polyFactors,
        removeFractionalConstants fuel heap f = some (heap, 1) := by
      intro t ht f hf
      have hlt := hok.acyclic i _ hcell t ht f hf
      exact ih (by omega) (by omega) fun j hj => hint j (by omega)
    have hscale : heap[i].terms.map (TermCell.scale ((1 : ℕ+) : ℕ)) = heap[i].terms := by
      refine (List.map_congr_left fun t ht => ?_).trans (List.map_id _)
      exact TermCell.scale_one (hint i le_rfl _ hcell t ht)
    rw [removeFractionalConstants, hcell]
    simp only [Option.bind_eq_bind, Option.bind_some]
    rw [commonDenominator_one (hok.nonzero hcell) (hint i le_rfl _ hcell) hnested]
    simp only [Option.bind_some]
    rw [hscale]
    rw [List.set_getElem_self hi]

/-- Otherwise it is multiplied by the common denominator. -/
theorem removeFractionalConstants_spec (hok : heap.Ok) {i : ℕ} {cell : PolyCell}
    (hcell : heap[i]? = some cell) (hint : ∀ j < i, ∀ cell, heap[j]? = some cell → cell.Integral)
    {r : Heap × ℕ+} (hr : removeFractionalConstants (i + 1) heap i = some r) :
    (∀ t ∈ cell.terms, t.constant.den ∣ r.2) ∧ ∀ z, r.1.value i z = r.2 * heap.value i z := by
  have hi := Heap.lt_length_of_eq hcell
  have hlt : ∀ t ∈ cell.terms, ∀ f ∈ t.polyFactors, f < i := hok.acyclic i cell hcell
  have hnested : ∀ t ∈ cell.terms, ∀ f ∈ t.polyFactors,
      removeFractionalConstants i heap f = some (heap, 1) := fun t ht f hf =>
    removeFractionalConstants_eq hok (hlt t ht f hf) ((hlt t ht f hf).trans hi) fun j hj =>
      hint j (hj.trans_lt (hlt t ht f hf))
  rw [removeFractionalConstants, hcell] at hr
  simp only [Option.bind_eq_bind, Option.bind_some] at hr
  obtain ⟨⟨heap', ts, d⟩, hcommon, hset⟩ := Option.bind_eq_some_iff.1 hr
  obtain ⟨hheap, hts, -, -, hdvd⟩ := commonDenominator_spec (hok.nonzero hcell) hnested rfl hcommon
  dsimp only at hheap hts hdvd
  subst hheap hts
  obtain rfl := Option.some.inj hset
  refine ⟨hdvd, fun z => ?_⟩
  have hbelow : ∀ j < i, (heap'.set i ⟨cell.terms.map (TermCell.scale d), cell.degree⟩)[j]? =
    heap'[j]? :=
    fun j hj => List.getElem?_set_ne hj.ne'
  have hacyclic : Heap.Acyclic (heap'.set i ⟨cell.terms.map (TermCell.scale d), cell.degree⟩) := by
    intro j c hc t ht f hf
    by_cases hji : i = j
    · subst hji
      rw [List.getElem?_set_self hi] at hc
      obtain rfl := Option.some.inj hc
      obtain ⟨u, hu, rfl⟩ := List.mem_map.1 ht
      exact hlt u hu f hf
    · rw [List.getElem?_set_ne hji] at hc
      exact hok.acyclic j c hc t ht f hf
  rw [Heap.value, Heap.eval_read _ hacyclic (List.getElem?_set_self hi), Heap.value,
    Heap.eval_read _ hok.acyclic hcell, ← List.sum_map_mul_left, List.map_map]
  refine congrArg List.sum (List.map_congr_left fun t ht => ?_)
  have hfactors : ∀ f ∈ t.polyFactors, (Heap.read RationalConstant.value
      (heap'.set i ⟨cell.terms.map (TermCell.scale d), cell.degree⟩) (f + 1) f).eval z =
      (heap'.read RationalConstant.value (f + 1) f).eval z := fun f hf => by
    rw [Heap.read_congr _ hok.acyclic (Nat.lt_succ_self f) (Nat.lt_succ_self f) fun j hj =>
      hbelow j (hj.trans_lt (hlt t ht f hf))]
  simp only [Function.comp_apply, Algebra.algebraMap_self, RingHom.id_apply]
  rw [TermCell.value_scale (hdvd t ht), mul_assoc]
  rw [← List.map_congr_left hfactors]
  rfl

theorem Heap.eval_numerators (hok : heap.Ok) {i : ℕ} (hint : heap.IntegralTo i) (z : ℕ → ℚ) :
    (heap.numerators i).eval z = heap.value i z := by
  induction i using Nat.strong_induction_on with
  | _ i ih =>
    cases hcell : heap[i]? with
    | none => rw [Heap.numerators, Heap.value, Heap.read, Heap.read, hcell]; rfl
    | some cell =>
      rw [Heap.numerators, Heap.value, Heap.eval_read _ hok.acyclic hcell,
        Heap.eval_read _ hok.acyclic hcell]
      refine congrArg List.sum (List.map_congr_left fun t ht => ?_)
      have hconst : ((t.constant.num : ℤ) : ℚ) = t.constant.value := by
        rw [RationalConstant.value, hint i le_rfl cell hcell t ht, Nat.cast_one, div_one]
      have hfactors : ∀ f ∈ t.polyFactors, (heap.read RationalConstant.num (f + 1) f).eval z =
          (heap.read RationalConstant.value (f + 1) f).eval z := fun f hf =>
        have hlt := hok.acyclic i cell hcell t ht f hf
        ih f hlt fun j hj => hint j (hj.trans hlt.le)
      rw [eq_intCast, hconst, List.map_congr_left hfactors]
      rfl

end

/-! ## Printing as an effect -/

/-- The state after some calls. The polynomials have the values they had in `heap`. Each text, with
its multiplier, denotes its polynomial. A variable that is found was assigned from an expression of
the same value. -/
structure PrintState.Faithful (L : Lookup ℤ) (heap : Heap) (s : PrintState) : Prop where
  value (i : ℕ) (z : ℕ → ℚ) : i < heap.length → s.heap.value i z = heap.value i z
  print (i : ℕ) : i < heap.length → ∃ r, s.heap.toCircuit L i = some r ∧
    ∀ z, textValue z r.2.text = some (r.2.denominator * heap.value i z)
  memo (i x : ℕ) : i < heap.length → s.getLvalFor L i = some x →
    ∃ j, (j, x) ∈ s.assigned ∧ ∀ z, heap.value j z = heap.value i z

/-- Every sequence of calls, from the empty memo, ends in such a state. -/
def Heap.PrintsPure (L : Lookup ℤ) (heap : Heap) : Prop :=
  ∀ calls : List PrintCall, (∀ call ∈ calls, call.target < heap.length) →
    ∃ s, PrintState.run L calls ⟨heap, [], []⟩ = some s ∧ s.Faithful L heap

/-- No polynomial has a fraction, and each can be printed. -/
structure Heap.Integral (heap : Heap) : Prop where
  cells (i : ℕ) (cell : PolyCell) : heap[i]? = some cell → cell.Integral
  printable (i : ℕ) : i < heap.length → (heap.numerators i).Printable

section
variable {L : Lookup ℤ} {heap : Heap}

theorem Heap.Integral.toCircuit_eq (h : heap.Integral) (hok : heap.Ok) {i : ℕ}
    (hi : i < heap.length) : ∃ text, heap.toCircuit L i = some (heap, ⟨1, text⟩) ∧
      ∀ z : ℕ → ℚ, textValue z text = some (heap.value i z) := by
  obtain ⟨text, htext, hvalue⟩ := (hok.numerators i hi).textValue_toCircuit L (h.printable i hi)
  refine ⟨text, ?_, fun z => ?_⟩
  · rw [Heap.toCircuit, removeFractionalConstants_eq hok (Nat.lt_succ_self i) hi fun j _ =>
      h.cells j]
    simp only [Option.bind_eq_bind, Option.bind_some, htext]
  · rw [hvalue ℚ z, Heap.eval_numerators hok fun j _ => h.cells j]

/-- What holds between calls: the polynomials are the same, and the keys of the memo are the texts
of what was assigned. -/
structure PrintState.Keyed (L : Lookup ℤ) (heap : Heap) (s : PrintState) : Prop where
  heap_eq : s.heap = heap
  memo : ∀ e ∈ s.memo, ∃ j < heap.length, (j, e.2) ∈ s.assigned ∧ heap.toCircuit L j =
    some (heap, e.1)

theorem mem_of_lookup {α β : Type} [DecidableEq α] {a : α} {b : β} {l : List (α × β)}
    (h : l.lookup a = some b) : (a, b) ∈ l := by
  obtain ⟨l₁, l₂, rfl, -⟩ := List.lookup_eq_some_iff.1 h
  exact List.mem_append_right _ List.mem_cons_self

section
variable {s : PrintState} (hs : s.Keyed L heap) (h : heap.Integral) (hok : heap.Ok)
include hs h hok

theorem PrintState.Keyed.step {call : PrintCall} (hcall : call.target < heap.length) :
    ∃ s', s.step L call = some s' ∧ s'.Keyed L heap := by
  obtain ⟨text, hprint, -⟩ := h.toCircuit_eq (L := L) hok hcall
  obtain ⟨heap', memo, assigned⟩ := s
  obtain ⟨hheap, hmemo⟩ := hs
  obtain rfl : heap' = heap := hheap
  rw [PrintState.step, hprint]
  have hfilter : ∀ e ∈ memo.filter (fun e => e.1 ≠ ⟨1, text⟩), ∃ j < heap'.length,
      (j, e.2) ∈ assigned ∧ heap'.toCircuit L j = some (heap', e.1) := fun e he =>
    hmemo e (List.mem_of_mem_filter he)
  cases call with
  | toCircuit i => exact ⟨_, rfl, rfl, hmemo⟩
  | toString i => exact ⟨_, rfl, rfl, hmemo⟩
  | getLvalFor i => exact ⟨_, rfl, rfl, hmemo⟩
  | removeLvalFor i => exact ⟨_, rfl, rfl, hfilter⟩
  | addAssignment i x =>
    refine ⟨_, rfl, rfl, List.forall_mem_cons.2 ⟨⟨i, hcall, List.mem_cons_self, hprint⟩, fun e he =>
      ?_⟩⟩
    obtain ⟨j, hj, hmem, htext⟩ := hfilter e he
    exact ⟨j, hj, List.mem_cons_of_mem _ hmem, htext⟩

theorem PrintState.Keyed.run {calls : List PrintCall}
    (hcalls : ∀ call ∈ calls, call.target < heap.length) :
    ∃ s', PrintState.run L calls s = some s' ∧ s'.Keyed L heap := by
  induction calls generalizing s with
  | nil => exact ⟨s, rfl, hs⟩
  | cons call calls ih =>
    obtain ⟨hcall, hcalls⟩ := List.forall_mem_cons.1 hcalls
    obtain ⟨s₁, hstep, hs₁⟩ := hs.step h hok hcall
    obtain ⟨s₂, hrun, hs₂⟩ := ih hs₁ hcalls
    exact ⟨s₂, by rw [PrintState.run, hstep]; exact hrun, hs₂⟩

theorem PrintState.Keyed.faithful : s.Faithful L heap where
  value i z _ := by rw [hs.heap_eq]
  print i hi := by
    obtain ⟨text, hprint, hvalue⟩ := h.toCircuit_eq (L := L) hok hi
    exact ⟨_, hs.heap_eq ▸ hprint, fun z => by rw [hvalue z, PNat.one_coe, Nat.cast_one, one_mul]⟩
  memo i x hi hget := by
    obtain ⟨text, hprint, hvalue⟩ := h.toCircuit_eq (L := L) hok hi
    rw [PrintState.getLvalFor, hs.heap_eq, hprint] at hget
    obtain ⟨j, hj, hassigned, hkey⟩ := hs.memo _ (mem_of_lookup hget)
    refine ⟨j, hassigned, fun z => ?_⟩
    obtain ⟨text', hprint', hvalue'⟩ := h.toCircuit_eq (L := L) hok hj
    -- the texts are the same, so what they denote is
    obtain rfl : text' = text := by
      have heq := hprint'.symm.trans hkey
      simpa using heq
    exact Option.some.inj ((hvalue' z).symm.trans (hvalue z))

end

/-- One call multiplies a polynomial by its common denominator. -/
theorem Heap.PrintsPure.integral_cell (h : heap.PrintsPure L) (hok : heap.Ok)
    (hvanish : ∀ i cell, heap[i]? = some cell → ¬ cell.Integral → ∃ z, heap.value i z ≠ 0) (i : ℕ) :
    ∀ cell, heap[i]? = some cell → cell.Integral := by
  induction i using Nat.strong_induction_on with
  | _ i ih =>
    intro cell hcell
    by_contra hnot
    obtain ⟨z, hz⟩ := hvanish i cell hcell hnot
    have hi := Heap.lt_length_of_eq hcell
    obtain ⟨s, hrun, hfaithful⟩ := h [.toCircuit i] (List.forall_mem_singleton.2 hi)
    simp only [PrintState.run, PrintState.step, Heap.toCircuit, PrintCall.target,
      Option.bind_eq_bind, Option.bind_eq_some_iff] at hrun
    obtain ⟨s', ⟨r, ⟨r', hremove, text, -, hr⟩, hs'⟩, hs⟩ := hrun
    obtain rfl := Option.some.inj hs
    obtain rfl := Option.some.inj hs'
    obtain rfl := Option.some.inj hr
    obtain ⟨hdvd, hscaled⟩ := removeFractionalConstants_spec hok hcell ih hremove
    have hsame : (r'.2 : ℚ) * heap.value i z = heap.value i z :=
      (hscaled z).symm.trans (hfaithful.value i z hi)
    have hone : ((r'.2 : ℕ) : ℚ) = 1 := (mul_eq_right₀ hz).1 hsame
    refine hnot fun t ht => Nat.dvd_one.1 ?_
    rw [← Nat.cast_eq_one.1 hone]
    exact hdvd t ht

/-- Printing changes no polynomial just if there are no fractions to remove, and each polynomial
with the stored degree `2` has a term that is not a constant. A polynomial with fractions that is
zero everywhere is not considered: the change of its constants does not show. -/
theorem printsPure_iff (hok : heap.Ok)
    (hvanish : ∀ i cell, heap[i]? = some cell → ¬ cell.Integral → ∃ z, heap.value i z ≠ 0) :
    heap.PrintsPure L ↔ heap.Integral := by
  constructor
  · intro h
    have hcells := h.integral_cell hok hvanish
    refine ⟨hcells, fun i hi => ?_⟩
    obtain ⟨s, hrun, hfaithful⟩ := h [] (List.forall_mem_nil _)
    obtain rfl := Option.some.inj hrun
    obtain ⟨r, hprint, hvalue⟩ := hfaithful.print i hi
    rw [Heap.toCircuit, removeFractionalConstants_eq hok (Nat.lt_succ_self i) hi fun j _ =>
      hcells j]
      at hprint
    simp only [Option.bind_eq_bind, Option.bind_some, Option.bind_eq_some_iff] at hprint
    obtain ⟨text, htext, hr⟩ := hprint
    obtain rfl := Option.some.inj hr
    refine (hok.numerators i hi).printable htext (z := 0) ?_
    rw [hvalue 0, Heap.eval_numerators hok fun j _ => hcells j, PNat.one_coe, Nat.cast_one, one_mul]
  · intro h calls hcalls
    have hstart : PrintState.Keyed L heap ⟨heap, [], []⟩ := ⟨rfl, List.forall_mem_nil _⟩
    obtain ⟨s, hrun, hs⟩ := hstart.run h hok hcalls
    exact ⟨s, hrun, hs.faithful h hok⟩

end

/-- The polynomials `V1 + V2` and `3 * V3 * (V1 + V2)`. -/
def sharedSum : Heap :=
  [⟨[⟨.ofInt 1, [1], [], 1⟩, ⟨.ofInt 1, [2], [], 1⟩], 1⟩, ⟨[⟨.ofInt 3, [3], [0], 2⟩], 2⟩]

theorem ok_sharedSum : sharedSum.Ok where
  acyclic i cell hcell t ht f hf := by
    rcases i with _ | _ | i
    · obtain rfl := Option.some.inj hcell
      obtain rfl | ht := List.mem_cons.1 ht
      · cases hf
      · obtain rfl := List.mem_singleton.1 ht
        cases hf
    · obtain rfl := Option.some.inj hcell
      obtain rfl := List.mem_singleton.1 ht
      obtain rfl := List.mem_singleton.1 hf
      exact Nat.one_pos
    · cases hcell
  numerators i hi := by
    have hvar (x : ℕ) : (PolynomialTerm.mk (1 : ℤ) [x] [] 1).Ok :=
      .mk (by simp) (by simp) le_rfl fun _ => rfl
    have hsum : (sharedSum.numerators 0).Ok :=
      .mk (by simp [RationalConstant.ofInt, hvar])
        (by simp [RationalConstant.ofInt, PolynomialTerm.constant])
        (by simp [PolynomialTerm.IsSum, PolynomialTerm.monomerFactors])
        (by simp [PolynomialTerm.degree]) (by decide) (by decide)
    rcases i with _ | _ | i
    · exact hsum
    · exact .mk (by
          refine List.forall_mem_singleton.2 (.mk ?_ ?_ le_rfl (by simp))
          · exact List.forall_mem_singleton.2 hsum
          · exact List.forall_mem_singleton.2 le_rfl)
        (by simp [RationalConstant.ofInt, PolynomialTerm.constant])
        (by simp [PolynomialTerm.IsSum, PolynomialTerm.monomerFactors])
        (by simp) (by decide) (by decide)
    · exact absurd hi (Nat.not_lt.2 (Nat.le_add_left 2 i))

theorem integral_sharedSum : sharedSum.Integral where
  cells i cell hcell := by
    match i, hcell with
    | 0, rfl => exact List.forall_mem_cons.2 ⟨rfl, List.forall_mem_singleton.2 rfl⟩
    | 1, rfl => exact List.forall_mem_singleton.2 rfl
  printable i hi := by
    match i, hi with
    | 0, _ => exact nofun
    | 1, _ => exact fun _ => ⟨_, List.mem_singleton_self _, two_ne_zero⟩

theorem printsPure_sharedSum : sharedSum.PrintsPure intLookup :=
  (printsPure_iff ok_sharedSum fun i cell hcell hnot =>
    absurd (integral_sharedSum.cells i cell hcell) hnot).2 integral_sharedSum

/-- The polynomials `V1` and `1/2 * V1`. -/
def halfVar : Heap :=
  [⟨[⟨.ofInt 1, [1], [], 1⟩], 1⟩, ⟨[⟨⟨1, 2, Nat.two_pos⟩, [1], [], 1⟩], 1⟩]

/-- `1/2 * V1` is printed as a half of the text of `V1`, and is `V1` from then on. When it is
printed again, the variable that was assigned from `V1` is found for it. -/
theorem not_printsPure_halfVar : halfVar.Ok ∧ ¬ halfVar.PrintsPure intLookup := by
  refine ⟨⟨fun i cell hcell t ht f hf => ?_, fun i hi => ?_⟩, fun h => ?_⟩
  · match i, hcell with
    | 0, rfl =>
      obtain rfl := List.mem_singleton.1 ht
      cases hf
    | 1, rfl =>
      obtain rfl := List.mem_singleton.1 ht
      cases hf
  · have hvar : (PolynomialExpression.mk [.mk (1 : ℤ) [1] [] 1] [.mk 1 [] [] 1]).Ok :=
      .mk (List.forall_mem_singleton.2 (.mk nofun nofun le_rfl fun _ => rfl))
        (by simp [PolynomialTerm.constant])
        (by simp [PolynomialTerm.IsSum, PolynomialTerm.monomerFactors]) (by simp)
          (by decide) (by decide)
    match i, hi with
    | 0, _ => exact hvar
    | 1, _ => exact hvar
  · obtain ⟨s, hrun, hs⟩ := h [.addAssignment 0 7, .toCircuit 1] (by decide)
    have hget : (PrintState.run intLookup [.addAssignment 0 7, .toCircuit 1] ⟨halfVar, [], []⟩).bind
        (·.getLvalFor intLookup 1) = some 7 := by decide +kernel
    have hassigned : (PrintState.run intLookup [.addAssignment 0 7, .toCircuit 1]
        ⟨halfVar, [], []⟩).map (·.assigned) = some [(0, 7)] := by decide +kernel
    rw [hrun] at hget hassigned
    obtain ⟨j, hj, hvalue⟩ := hs.memo 1 7 (by decide) hget
    have hlist : s.assigned = [(0, 7)] := Option.some.inj hassigned
    rw [hlist, List.mem_singleton, Prod.mk.injEq] at hj
    obtain ⟨rfl, -⟩ := hj
    have hone := hvalue 1
    revert hone
    decide +kernel

end Frontend

end Pequin
