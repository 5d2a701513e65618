import Pequin.Backend.Expand

/-!
# Rows of the QAP matrices

`generate_zaatar_matrices` reads the tokens of a basic constraint, expands its three parts,
renumbers the variables and writes the entries of one row of each of the matrices. Column `0` is the
constant `1`; the columns of the variables come next, then those of the inputs and outputs.
-/

namespace Pequin

variable {ν : Type}

/-- The name of a variable after renumbering: `V%d`, `I%d` or `O%d`. -/
inductive ColumnName where
  | V (i : ℕ)
  | I (i : ℕ)
  | O (i : ℕ)
  deriving DecidableEq, Repr

/-- The tables of variables. The numbers of the outputs start where those of the inputs end. -/
structure Numbering (ν : Type) where
  numVars : ℕ
  numInputs : ℕ
  numOutputs : ℕ
  toVar : ν → ColumnName
  toVar_injective : Function.Injective toVar
  shuffledIndices : ℕ → ℕ
  V_lt : ∀ x i, toVar x = .V i → i < numVars
  I_lt : ∀ x i, toVar x = .I i → i < numInputs
  O_lt : ∀ x i, toVar x = .O i → numInputs ≤ i ∧ i < numInputs + numOutputs
  shuffled_lt : ∀ i < numVars, shuffledIndices i < numVars
  shuffled_inj : ∀ i < numVars, ∀ k < numVars, shuffledIndices i = shuffledIndices k → i = k

def Numbering.convertVariableToIndex (N : Numbering ν) : ColumnName → ℕ
  | .V i => 1 + N.shuffledIndices i
  | .I i => 1 + N.numVars + i
  | .O i => 1 + N.numVars + i

def Numbering.column (N : Numbering ν) (x : ν) : ℕ := N.convertVariableToIndex (N.toVar x)

/-- `to_var` on a factor; a constant stays as it is. -/
def Numbering.renumber (N : Numbering ν) : Factor ν → Factor ColumnName
  | .int c => .int c
  | .name x => .name (N.toVar x)

section
variable [DecidableEq ν] (order : TextOrder ν) (N : Numbering ν)

/-- The number of nonzero terms and the terms; the empty sum is written as the constant `0`. -/
def expandPolynomialMatrixrow (tokens : List (Token ν)) :
    Option ((ℕ × List (List (Factor ColumnName))) × List (Token ν)) := do
  let (expanded, tokens) ← expandPolynomial order tokens
  let expanded := expanded.map fun term => term.map N.renumber
  if expanded = [] then some ((0, [[.int 0]]), tokens)
  else some ((expanded.length, expanded), tokens)

end

/-- An entry `%d %d %s` of a matrix. -/
structure Entry where
  i : ℕ
  j : ℕ
  coefficient : ℤ
  deriving DecidableEq, Repr

/-- The entry of a term; a constant `0` has none. A term with another shape raises an exception. -/
def Numbering.convertTerm (N : Numbering ν) (j : ℕ) :
    List (Factor ColumnName) → Option (List Entry)
  | [.int c] => some (if c = 0 then [] else [⟨0, j, c⟩])
  | [.int c, .name x] => some [⟨N.convertVariableToIndex x, j, c⟩]
  | _ => none

def convertToCompressedPolynomial (N : Numbering ν) (j : ℕ)
    (terms : List (List (Factor ColumnName))) : Option (List Entry) :=
  (terms.mapM (N.convertTerm j)).map List.flatten

/-- The rows `j` of the three matrices, written for the tokens of a basic constraint. -/
def matrixRows [DecidableEq ν] (order : TextOrder ν) (N : Numbering ν) (j : ℕ)
    (tokens : List (Token ν)) : Option (List Entry × List Entry × List Entry) := do
  let ((_, A2), tokens) ← expandPolynomialMatrixrow order N tokens
  let A3 ← convertToCompressedPolynomial N j A2
  let .star :: tokens := tokens | none
  let ((_, B2), tokens) ← expandPolynomialMatrixrow order N tokens
  let B3 ← convertToCompressedPolynomial N j B2
  let .plus :: tokens := tokens | none
  let ((_, C2), _) ← expandPolynomialMatrixrow order N tokens
  let C3 ← convertToCompressedPolynomial N j C2
  some (A3, B3, C3)

/-! ## Vectors -/

def dot (row : List Entry) (w : ℕ → ℤ) : ℤ := (row.map fun e => e.coefficient * w e.i).sum

structure Numbering.IsVector (N : Numbering ν) (z : ν → ℤ) (w : ℕ → ℤ) : Prop where
  one : w 0 = 1
  var : ∀ x, w (N.column x) = z x

theorem Numbering.column_pos (N : Numbering ν) (x : ν) : N.column x ≠ 0 := by
  unfold Numbering.column Numbering.convertVariableToIndex
  split <;> omega

/-- Different variables have different columns. -/
theorem Numbering.column_injective (N : Numbering ν) : Function.Injective N.column := by
  intro x y h
  apply N.toVar_injective
  unfold Numbering.column at h
  cases hx : N.toVar x with
  | V i =>
    have hi := N.V_lt x i hx
    have hi' := N.shuffled_lt i hi
    cases hy : N.toVar y with
    | V k =>
      rw [hx, hy] at h
      rw [N.shuffled_inj i hi k (N.V_lt y k hy) (Nat.add_left_cancel h)]
    | I k | O k =>
      rw [hx, hy] at h
      simp only [Numbering.convertVariableToIndex] at h
      omega
  | I i =>
    have hi := N.I_lt x i hx
    cases hy : N.toVar y with
    | V k =>
      have hk := N.shuffled_lt k (N.V_lt y k hy)
      rw [hx, hy] at h
      simp only [Numbering.convertVariableToIndex] at h
      omega
    | I k =>
      rw [hx, hy] at h
      rw [Nat.add_left_cancel h]
    | O k =>
      have hk := N.O_lt y k hy
      rw [hx, hy] at h
      have := Nat.add_left_cancel h
      omega
  | O i =>
    have hi := N.O_lt x i hx
    cases hy : N.toVar y with
    | V k =>
      have hk := N.shuffled_lt k (N.V_lt y k hy)
      rw [hx, hy] at h
      simp only [Numbering.convertVariableToIndex] at h
      omega
    | I k =>
      have hk := N.I_lt y k hy
      rw [hx, hy] at h
      have := Nat.add_left_cancel h
      omega
    | O k =>
      rw [hx, hy] at h
      rw [Nat.add_left_cancel h]

theorem Numbering.exists_isVector (N : Numbering ν) (z : ν → ℤ) : ∃ w, N.IsVector z w := by
  classical
  refine ⟨fun i => if h : ∃ x, N.column x = i then z h.choose else 1, ?_, fun x => ?_⟩
  · rw [dif_neg]
    rintro ⟨x, hx⟩
    exact N.column_pos x hx
  · have h : ∃ y, N.column y = N.column x := ⟨x, rfl⟩
    rw [dif_pos h, N.column_injective h.choose_spec]

/-! ## The value of a row -/

theorem convertTerm_dot (N : Numbering ν) (j : ℕ) {t : List (Factor ν)} (ht : LinearTerm t) :
    ∃ row, N.convertTerm j (t.map N.renumber) = some row ∧
      ∀ z w, N.IsVector z w → dot row w = termEval z t := by
  obtain ⟨c, hc, rfl | ⟨x, rfl⟩⟩ := ht
  · refine ⟨[⟨0, j, c⟩], ?_, fun z w h => ?_⟩
    · simp only [List.map_cons, List.map_nil, Numbering.renumber, Numbering.convertTerm, if_neg hc]
    · simp [dot, termEval, Factor.eval, h.one]
  · refine ⟨[⟨N.column x, j, c⟩], rfl, fun z w h => ?_⟩
    simp [dot, termEval, Factor.eval, h.var]

theorem dot_append (row row' : List Entry) (w : ℕ → ℤ) :
    dot (row ++ row') w = dot row w + dot row' w := by
  simp only [dot, List.map_append, List.sum_append]

theorem convertTerms_dot (N : Numbering ν) (j : ℕ) {ts : List (List (Factor ν))}
    (hts : ∀ t ∈ ts, LinearTerm t) :
    ∃ row, convertToCompressedPolynomial N j (ts.map fun t => t.map N.renumber) = some row ∧
      ∀ z w, N.IsVector z w → dot row w = termsEval z ts := by
  induction ts with
  | nil => exact ⟨[], rfl, fun _ _ _ => rfl⟩
  | cons t ts ih =>
    obtain ⟨row, hrow, hdot⟩ := convertTerm_dot N j (hts t List.mem_cons_self)
    obtain ⟨rows, hrows, hdots⟩ := ih fun t ht => hts t (List.mem_cons_of_mem _ ht)
    obtain ⟨rs, hrs, rfl⟩ := Option.map_eq_some_iff.1 hrows
    refine ⟨row ++ rs.flatten, ?_, fun z w h => ?_⟩
    · rw [convertToCompressedPolynomial, List.map_cons, List.mapM_cons, hrow, hrs]
      rfl
    · rw [dot_append, hdot z w h, hdots z w h]
      exact List.sum_cons.symm

section
variable [DecidableEq ν] (order : TextOrder ν) (N : Numbering ν)

/-- A part of a line is read and written as a row with its value. -/
theorem Poly.row {q : Poly ν} (hq : ∀ s ∈ q, s.ZeroLast) (j : ℕ) (rest : List (Token ν)) :
    ∃ n terms row, expandPolynomialMatrixrow order N (.lpar :: (q.tokens ++ .rpar :: rest)) =
        some ((n, terms), rest) ∧ convertToCompressedPolynomial N j terms = some row ∧
      ∀ z w, N.IsVector z w → dot row w = q.eval z := by
  obtain ⟨ts, hts, hlin, hval⟩ := Poly.expand order hq rest
  unfold expandPolynomialMatrixrow
  rw [hts]
  cases ts with
  | nil =>
    refine ⟨0, [[.int 0]], [], rfl, rfl, fun z w h => ?_⟩
    rw [← hval]
    rfl
  | cons t ts =>
    obtain ⟨row, hrow, hdot⟩ := convertTerms_dot N j hlin
    refine ⟨_, _, row, rfl, hrow, fun z w h => ?_⟩
    rw [hdot z w h, hval]

end

/-- In all parts of a line, a parenthesis that is zero is the last factor of its term. -/
def Line.ZeroLast (l : Line ν) : Prop :=
  (∀ s ∈ l.a, s.ZeroLast) ∧ (∀ s ∈ l.b, s.ZeroLast) ∧ ∀ s ∈ l.c, s.ZeroLast

section
variable {N : Numbering ν} {j : ℕ} {row : List Entry}

theorem row_of_convertTerm {t : List (Factor ColumnName)} (h : N.convertTerm j t = some row) :
    ∀ e ∈ row, e.j = j := by
  rw [Numbering.convertTerm.eq_def] at h
  split at h <;> grind

theorem row_of_convert {terms : List (List (Factor ColumnName))}
    (h : convertToCompressedPolynomial N j terms = some row) : ∀ e ∈ row, e.j = j := by
  obtain ⟨rows, hrows, rfl⟩ := Option.map_eq_some_iff.1 h
  clear h
  induction terms generalizing rows with
  | nil =>
    cases hrows
    simp
  | cons t terms ih =>
    simp only [List.mapM_cons, Option.bind_eq_bind, Option.bind_eq_some_iff] at hrows
    obtain ⟨row, hrow, rows, hrows, heq⟩ := hrows
    cases heq
    rw [List.flatten_cons]
    exact List.forall_mem_append.2 ⟨row_of_convertTerm hrow, ih rows hrows⟩

theorem tokens_eq (l : Line ν) : l.tokens = .lpar :: (l.a.tokens ++ .rpar :: .star :: .lpar ::
    (l.b.tokens ++ .rpar :: .plus :: .lpar :: (l.c.tokens ++ [.rpar]))) := by
  simp [Line.tokens]

end

section
variable [DecidableEq ν] (order : TextOrder ν) (N : Numbering ν) (j : ℕ)

/-- The entries are in row `j` and have the value of the line. -/
theorem exists_matrixRows {l : Line ν} (hl : l.ZeroLast) :
    ∃ a b c, matrixRows order N j l.tokens = some (a, b, c) ∧ (∀ e ∈ a ++ b ++ c, e.j = j) ∧
      ∀ z w, N.IsVector z w → dot a w * dot b w + dot c w = l.eval z := by
  obtain ⟨_, _, a, hta, ha, hadot⟩ := Poly.row order N hl.1 j
    (.star :: .lpar :: (l.b.tokens ++ .rpar :: .plus :: .lpar :: (l.c.tokens ++ [.rpar])))
  obtain ⟨_, _, b, htb, hb, hbdot⟩ := Poly.row order N hl.2.1 j
    (.plus :: .lpar :: (l.c.tokens ++ [.rpar]))
  obtain ⟨_, _, c, htc, hc, hcdot⟩ := Poly.row order N hl.2.2 j []
  refine ⟨a, b, c, ?_, ?_, fun z w h => by rw [hadot z w h, hbdot z w h, hcdot z w h, Line.eval]⟩
  · rw [tokens_eq, matrixRows, hta]
    simp only [Option.bind_eq_bind, Option.bind_some, ha, htb, hb, htc, hc]
  · exact List.forall_mem_append.2
      ⟨List.forall_mem_append.2 ⟨row_of_convert ha, row_of_convert hb⟩, row_of_convert hc⟩

/-- The rows have the value of the line. -/
theorem matrixRows_eval {l : Line ν} (hl : l.ZeroLast) :
    ∃ a b c, matrixRows order N j l.tokens = some (a, b, c) ∧ ∀ z : ν → ℤ,
      (∃ w, N.IsVector z w) ∧ ∀ w, N.IsVector z w → dot a w * dot b w + dot c w = l.eval z := by
  obtain ⟨a, b, c, hrows, -, hval⟩ := exists_matrixRows order N j hl
  exact ⟨a, b, c, hrows, fun z => ⟨N.exists_isVector z, hval z⟩⟩

end

/-- Texts and dictionaries in the order in which they come. -/
def plainOrder : TextOrder ν := ⟨id, fun l => List.Perm.refl l, id, fun l => List.Perm.refl l⟩

/-- One variable `true` and one input `false`. -/
def twoColumns : Numbering Bool where
  numVars := 1
  numInputs := 1
  numOutputs := 0
  toVar x := if x then .V 0 else .I 0
  toVar_injective x y h := by cases x <;> cases y <;> cases h <;> rfl
  shuffledIndices := id
  V_lt x i h := by cases x <;> cases h; exact Nat.one_pos
  I_lt x i h := by cases x <;> cases h; exact Nat.one_pos
  O_lt x i h := by cases x <;> cases h
  shuffled_lt _ h := h
  shuffled_inj _ _ _ _ h := h

/-- `( 2 * ( x - y ) * 3 ) * ( ) + ( y )`. -/
def differenceLine : Line Bool :=
  ⟨some (.first none (.paren [⟨2, by decide⟩]
      (.snoc (.first none (.var [] true [])) .minus (.var [] false [])) [⟨3, by decide⟩])),
    none, some (.first none (.var [] false []))⟩

theorem differenceLine_zeroLast : differenceLine.ZeroLast := by
  refine ⟨fun s hs => ?_, nofun, fun s hs => ?_⟩
  · cases hs
    exact ⟨⟨trivial, trivial⟩, .inr ⟨fun x => if x then 1 else 0, by decide⟩⟩
  · cases hs
    exact trivial

theorem matrixRows_differenceLine :
    differenceLine.ZeroLast ∧ ∃ a b c,
      matrixRows plainOrder twoColumns 1 differenceLine.tokens = some (a, b, c) ∧ ∀ z : Bool → ℤ,
        (∃ w, twoColumns.IsVector z w) ∧ ∀ w, twoColumns.IsVector z w →
          dot a w * dot b w + dot c w = differenceLine.eval z :=
  ⟨differenceLine_zeroLast, matrixRows_eval plainOrder twoColumns 1 differenceLine_zeroLast⟩

/-- `( ( 0 ) * 2 ) * ( 1 ) + ( )`. -/
def zeroFactorLine : Line Bool :=
  ⟨some (.first none (.paren [] (.first none .zero) [⟨2, by decide⟩])),
    some (.first none (.const ⟨1, by decide⟩ [])), none⟩

/-- The factor after the parenthesis starts the term anew. -/
theorem zeroFactorLine_rows :
    ∃ a b c, matrixRows plainOrder twoColumns 1 zeroFactorLine.tokens = some (a, b, c) ∧
      ∀ z w, twoColumns.IsVector z w →
        dot a w * dot b w + dot c w = 2 ∧ zeroFactorLine.eval z = 0 := by
  refine ⟨[⟨0, 1, 2⟩], [⟨0, 1, 1⟩], [], by decide, fun z w h => ⟨?_, ?_⟩⟩
  · simp [dot, h.one]
  · simp [zeroFactorLine, Sum.eval, Term.eval]

end Pequin
