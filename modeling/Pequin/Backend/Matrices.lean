import Pequin.Backend.Rows
import Pequin.Backend.Spec

/-!
# The matrices of the basic constraints

The texts of the basic constraints are expanded, and `generate_zaatar_matrices` writes their rows,
numbered from `1` on, to the files of the three matrices. A vector satisfies the quadratic form of
the matrices modulo the prime exactly if the assignment that it stands for satisfies the
constraints.
-/

namespace Pequin

structure Matrices where
  a : List Entry
  b : List Entry
  c : List Entry

section
variable {ν : Type} [DecidableEq ν] (order : TextOrder ν) (N : Numbering ν)

def Factor.token : Factor ν → Token ν
  | .int c => .int c
  | .name x => .name x

/-- `" * ".join(term)` -/
def termText : List (Factor ν) → List (Token ν)
  | [] => []
  | f :: t => f.token :: t.flatMap fun f => [.star, f.token]

def expandPolynomialStr (tokens : List (Token ν)) : Option (List (Token ν) × List (Token ν)) := do
  let (expanded, tokens) ← expandPolynomial order tokens
  match expanded with
  | [] => some ([], tokens)
  | t :: ts => some (termText t ++ ts.flatMap fun t => .plus :: termText t, tokens)

def expandBasicConstraint (tokens : List (Token ν)) : Option (List (Token ν)) := do
  let (a, tokens) ← expandPolynomialStr order tokens
  let op :: tokens := tokens | none
  let (b, tokens) ← expandPolynomialStr order tokens
  let op' :: tokens := tokens | none
  let (c, _) ← expandPolynomialStr order tokens
  some (.lpar :: a ++ [.rpar, op, .lpar] ++ b ++ [.rpar, op', .lpar] ++ c ++ [.rpar])

/-- The loop over the basic constraints, from row `j` on. -/
def generateZaatarMatrices (j : ℕ) : List (List (Token ν)) → Option Matrices
  | [] => some ⟨[], [], []⟩
  | bc :: bcs => do
    let tokens ← expandBasicConstraint order bc
    let (A3, B3, C3) ← matrixRows order N j tokens
    let M ← generateZaatarMatrices (j + 1) bcs
    some ⟨A3 ++ M.a, B3 ++ M.b, C3 ++ M.c⟩

end

/-- The component `j` of the product of a matrix and a vector. -/
def component (M : List Entry) (w : ℕ → ℤ) (j : ℕ) : ℤ := dot (M.filter fun e => e.j = j) w

/-- The vector satisfies all rows modulo `p`. -/
def Matrices.QuadraticForm (M : Matrices) (p : ℕ) (w : ℕ → ℤ) : Prop :=
  ∀ j, (p : ℤ) ∣ component M.a w j * component M.b w j + component M.c w j

section
variable {M row : List Entry} {w : ℕ → ℤ} {j : ℕ}

theorem component_append : component (row ++ M) w j = component row w j + component M w j := by
  rw [component, List.filter_append, dot_append]
  rfl

theorem component_of_forall_ne (h : ∀ e ∈ M, e.j ≠ j) : component M w j = 0 := by
  rw [component, List.filter_eq_nil_iff.2 fun e he => by simpa using h e he]
  rfl

theorem component_of_forall_eq (h : ∀ e ∈ M, e.j = j) : component M w j = dot M w := by
  rw [component, List.filter_eq_self.2 fun e he => by simpa using h e he]

end

/-- All entries of the matrices are in rows from `j` on. -/
def Matrices.From (M : Matrices) (j : ℕ) : Prop := ∀ e ∈ M.a ++ M.b ++ M.c, j ≤ e.j

theorem Matrices.quadraticForm_append {M : Matrices} {a b c : List Entry} {j : ℕ}
    (hrow : ∀ e ∈ a ++ b ++ c, e.j = j) (hM : M.From (j + 1)) (p : ℕ) (w : ℕ → ℤ) :
    Matrices.QuadraticForm ⟨a ++ M.a, b ++ M.b, c ++ M.c⟩ p w ↔
      (p : ℤ) ∣ dot a w * dot b w + dot c w ∧ M.QuadraticForm p w := by
  simp only [List.mem_append, or_imp, forall_and] at hrow
  simp only [From, List.mem_append, or_imp, forall_and] at hM
  obtain ⟨⟨ha, hb⟩, hc⟩ := hrow
  obtain ⟨⟨hA, hB⟩, hC⟩ := hM
  have hne : ∀ {l : List Entry}, (∀ e ∈ l, j + 1 ≤ e.j) → component l w j = 0 :=
    fun h => component_of_forall_ne fun e he => Nat.ne_of_gt (h e he)
  have hother : ∀ {l : List Entry}, (∀ e ∈ l, e.j = j) → ∀ {k}, k ≠ j → component l w k = 0 :=
    fun h k hk => component_of_forall_ne fun e he => (h e he).trans_ne hk.symm
  have hj : (p : ℤ) ∣ component (a ++ M.a) w j * component (b ++ M.b) w j + component (c ++ M.c) w
      j ↔ (p : ℤ) ∣ dot a w * dot b w + dot c w := by
    simp only [component_append, hne hA, hne hB, hne hC, component_of_forall_eq ha,
      component_of_forall_eq hb, component_of_forall_eq hc, add_zero]
  refine ⟨fun h => ⟨hj.1 (h j), fun k => ?_⟩, fun h k => ?_⟩
  · rcases eq_or_ne k j with rfl | hk
    · rw [hne hA, hne hC, zero_mul, add_zero]
      exact dvd_zero _
    · simpa only [component_append, hother ha hk, hother hb hk, hother hc hk, zero_add] using h k
  · rcases eq_or_ne k j with rfl | hk
    · exact hj.2 h.1
    · simpa only [component_append, hother ha hk, hother hb hk, hother hc hk, zero_add] using h.2 k

/-! ## Expanded lines -/

section
variable {ν : Type}

theorem exists_term {t : List (Factor ν)} (ht : LinearTerm t) : ∃ u : Term ν, u.tokens = termText
    t ∧ u.ZeroLast ∧ ∀ z : ν → ℤ, u.eval z = termEval z t := by
  obtain ⟨c, hc, rfl | ⟨x, rfl⟩⟩ := ht
  · exact ⟨.const ⟨c, hc⟩ [], rfl, trivial, fun z => by simp [Term.eval, termEval, Factor.eval]⟩
  · exact ⟨.var [⟨c, hc⟩] x [], rfl, trivial, fun z => by simp [Term.eval, termEval, Factor.eval]⟩

theorem exists_sum (s : Sum ν) (hs : s.ZeroLast) {ts : List (List (Factor ν))}
    (hts : ∀ t ∈ ts, LinearTerm t) : ∃ s' : Sum ν,
      s'.tokens = s.tokens ++ (ts.flatMap fun t => .plus :: termText t) ∧ s'.ZeroLast ∧
        ∀ z : ν → ℤ, s'.eval z = s.eval z + termsEval z ts := by
  induction ts generalizing s with
  | nil => exact ⟨s, by simp, hs, fun z => by simp [termsEval]⟩
  | cons t ts ih =>
    obtain ⟨ht, hts⟩ := List.forall_mem_cons.1 hts
    obtain ⟨u, hu, hzero, hval⟩ := exists_term ht
    obtain ⟨s', htokens, hs', hval'⟩ := ih (.snoc s .plus u) ⟨hs, hzero⟩ hts
    refine ⟨s', ?_, hs', fun z => ?_⟩
    · simp [htokens, Sum.tokens, hu, Sign.tokens, Sign.plus]
    · rw [hval', Sum.eval, hval, Sign.apply_plus, add_assoc]
      rfl

variable [DecidableEq ν] (order : TextOrder ν)

theorem exists_expandPolynomialStr {q : Poly ν} (hq : ∀ s ∈ q, s.ZeroLast) (rest : List (Token ν)) :
    ∃ q' : Poly ν, expandPolynomialStr order (.lpar :: (q.tokens ++ .rpar :: rest)) =
      some (q'.tokens, rest) ∧ (∀ s ∈ q', s.ZeroLast) ∧ ∀ z : ν → ℤ, q'.eval z = q.eval z := by
  obtain ⟨ts, hts, hlin, hval⟩ := Poly.expand order hq rest
  rw [expandPolynomialStr, hts]
  cases ts with
  | nil => exact ⟨none, rfl, by simp, hval⟩
  | cons t ts =>
    obtain ⟨ht, hlin⟩ := List.forall_mem_cons.1 hlin
    obtain ⟨u, hu, hzero, huval⟩ := exists_term ht
    obtain ⟨s, htokens, hs, hsval⟩ := exists_sum (.first none u) hzero hlin
    refine ⟨some s, ?_, by simpa using hs, fun z => ?_⟩
    · rw [Poly.tokens, htokens, Sum.tokens, hu]
      rfl
    · rw [← hval, Poly.eval, hsval, Sum.eval, huval]
      rfl

/-- The expanded text is the text of a line with the same value. -/
theorem exists_expandBasicConstraint {l : Line ν} (hl : l.ZeroLast) : ∃ l' : Line ν,
    expandBasicConstraint order l.tokens = some l'.tokens ∧ l'.ZeroLast ∧
      ∀ z : ν → ℤ, l'.eval z = l.eval z := by
  obtain ⟨a, ha, ha', haval⟩ := exists_expandPolynomialStr order hl.1
    (.star :: .lpar :: (l.b.tokens ++ .rpar :: .plus :: .lpar :: (l.c.tokens ++ [.rpar])))
  obtain ⟨b, hb, hb', hbval⟩ := exists_expandPolynomialStr order hl.2.1
    (.plus :: .lpar :: (l.c.tokens ++ [.rpar]))
  obtain ⟨c, hc, hc', hcval⟩ := exists_expandPolynomialStr order hl.2.2 []
  refine ⟨⟨a, b, c⟩, ?_, ⟨ha', hb', hc'⟩, fun z => by simp only [Line.eval, haval, hbval, hcval]⟩
  rw [tokens_eq, expandBasicConstraint, ha]
  simp only [Option.bind_eq_bind, Option.bind_some, hb, hc]
  rfl

/-! ## All lines -/

variable (N : Numbering ν) (j : ℕ)

theorem quadraticForm_iff_dvd {ls : List (Line ν)} (hls : ∀ l ∈ ls, l.ZeroLast) :
    ∃ M, generateZaatarMatrices order N j (ls.map Line.tokens) = some M ∧ M.From j ∧
      ∀ p z w, N.IsVector z w → (M.QuadraticForm p w ↔ ∀ l ∈ ls, (p : ℤ) ∣ l.eval z) := by
  induction ls generalizing j with
  | nil => exact ⟨⟨[], [], []⟩, rfl, by simp [Matrices.From], fun p z w _ => by
      simp [Matrices.QuadraticForm, component, dot]⟩
  | cons l ls ih =>
    obtain ⟨hl, hls⟩ := List.forall_mem_cons.1 hls
    obtain ⟨l', hexpand, hl', heval⟩ := exists_expandBasicConstraint order hl
    obtain ⟨a, b, c, hrows, hj, hval⟩ := exists_matrixRows order N j hl'
    obtain ⟨M, hM, hfrom, hform⟩ := ih (j + 1) hls
    refine ⟨⟨a ++ M.a, b ++ M.b, c ++ M.c⟩, ?_, ?_, fun p z w h => ?_⟩
    · rw [List.map_cons, generateZaatarMatrices, hexpand, Option.bind_eq_bind,
        Option.bind_some, hrows, hM]
      rfl
    · intro e he
      have he : e ∈ a ++ b ++ c ∨ e ∈ M.a ++ M.b ++ M.c := by grind
      rcases he with he | he
      · exact (hj e he).ge
      · exact (Nat.le_succ j).trans (hfrom e he)
    · rw [Matrices.quadraticForm_append hj hfrom, hval z w h, heval, hform p z w h,
        List.forall_mem_cons]

/-- The matrices say what the constraints say. -/
theorem quadraticForm_iff_satisfies {ls : List (Line ν)} (hls : ∀ l ∈ ls, l.ZeroLast) :
    ∃ M, generateZaatarMatrices order N 1 (ls.map Line.tokens) = some M ∧
      ∀ (p : ℕ) (z : ν → ℤ), (∃ w, N.IsVector z w) ∧ ∀ w, N.IsVector z w →
        (M.QuadraticForm p w ↔ Satisfies (fun x => (z x : ZMod p)) ls) := by
  obtain ⟨M, hM, -, hform⟩ := quadraticForm_iff_dvd order N 1 hls
  refine ⟨M, hM, fun p z => ⟨N.exists_isVector z, fun w h => (hform p z w h).trans ?_⟩⟩
  refine forall₂_congr fun l _ => ?_
  have hcast : ∀ q : Poly ν, ((q.eval z : ℤ) : ZMod p) = q.eval fun x => (z x : ZMod p) :=
    fun q => Poly.map_eval (Int.castRingHom (ZMod p)) z q
  rw [← ZMod.intCast_zmod_eq_zero_iff_dvd, Line.eval, Int.cast_add, Int.cast_mul,
    hcast, hcast, hcast]
  rfl

end

/-- `( x ) * ( x ) + ( )`. -/
def squareLine : Line Bool :=
  ⟨some (.first none (.var [] true [])), some (.first none (.var [] true [])), none⟩

theorem quadraticForm_iff_satisfies_square : ∃ M, generateZaatarMatrices plainOrder twoColumns 1
      ([squareLine, differenceLine].map Line.tokens) = some M ∧
    ∀ p z, (∃ w, twoColumns.IsVector z w) ∧ ∀ w, twoColumns.IsVector z w →
      (M.QuadraticForm p w ↔ Satisfies (fun x => (z x : ZMod p)) [squareLine, differenceLine]) := by
  refine quadraticForm_iff_satisfies plainOrder twoColumns
    (List.forall_mem_cons.2 ⟨?_, List.forall_mem_singleton.2 differenceLine_zeroLast⟩)
  simp [squareLine, Line.ZeroLast, Sum.ZeroLast, Term.ZeroLast]

end Pequin
