import Pequin.Frontend.PolyConstraint

/-!
# If-conversion

Both branches of an `if` are executed in scopes of their own, and `IfStatement.expandMuxStatements`
then chooses, for each variable that existed before and was assigned in a branch, between the two
values. The choice `c ? t : f` is computed as `c * (t - f) + f`. If one of the values is such a
choice itself, and one of its values is the other value, the two are merged: the product of the
conditions chooses between the remaining two values. Products of conditions are looked up by their
text.

The intermediate results have names, too, that are made from the name of the variable. A name of
this kind may itself be one of the variables to choose for, and then it is overwritten.
-/

namespace Pequin

namespace Frontend

namespace IfStatement

/-! ## The code -/

inductive Temp where
  | negB
  | aMinB
  | mtAMinB
  | condProduct
  deriving DecidableEq

/-- The name of a variable of the program, or of an intermediate result that belongs to a name. -/
inductive Name where
  | var (s : String)
  | temp (goal : Name) (tempName : Temp)
  deriving DecidableEq

structure Mux where
  condition : ℕ
  valueTrue : ℕ
  valueFalse : ℕ

inductive Rhs where
  | negate (x : ℕ)
  | plus (x y : ℕ)
  | times (x y : ℕ)
  | poly (p : PolynomialExpression ℤ)
  | mux (m : Mux)
  | lval (x : ℕ)

/-- The variables of the current scope, with the line that was assigned last; the right sides of the
assignment of a line; the memo of the optimizer; and the statements so far. A name that was never
assigned is no variable. -/
structure State where
  vars : Name → Option ℕ
  rhs : ℕ → List Rhs
  memo : List (Text ℕ × ℕ)
  emitted : List (ℕ × Rhs)
  next : ℕ

/-- `toAssignmentStatements_NoChangeRef` of an assignment with alternative right sides. -/
def State.assign (st : State) (name : Name) (rhs : Rhs) (alternatives : List Rhs) : State where
  vars := Function.update st.vars name (some st.next)
  rhs := Function.update st.rhs st.next (rhs :: alternatives)
  memo := st.memo
  emitted := (st.next, rhs) :: st.emitted
  next := st.next + 1

/-- `MuxPolynomialExpression.toMuxExpression`, through the assignments of lines; a right side refers
to earlier lines. -/
def toMuxExpression (rhs : ℕ → List Rhs) : (fuel : ℕ) → ℕ → Option Mux
  | 0, _ => none
  | fuel + 1, x => (rhs x).findSome? fun
    | .mux m => some m
    | .lval y => toMuxExpression rhs fuel y
    | _ => none

section
variable (L : Lookup ℤ)

/-- The polynomial `c * (t - f) + f` of a choice. -/
def Mux.polynomial (m : Mux) : PolynomialExpression ℤ :=
  let aMinB := (PolynomialExpression.zero.addMultiplesOfTerm 1
    (PolynomialTerm.one.addLval L m.valueTrue))
    |>.addMultiplesOfTerm (-1) (PolynomialTerm.one.addLval L m.valueFalse)
  (PolynomialExpression.zero.addMultiplesOfTerm 1
      ((PolynomialTerm.one.addMonomer L m.condition).addPoly L aMinB))
    |>.addMultiplesOfTerm 1 (PolynomialTerm.one.addMonomer L m.valueFalse)

structure Literal where
  negated : Bool
  condition : ℕ

def oneMinus (x : ℕ) : PolynomialExpression ℤ :=
  (PolynomialExpression.zero.addMultiplesOfTerm 1 PolynomialTerm.one)
    |>.addMultiplesOfTerm (-1) (PolynomialTerm.one.addLval L x)

def addLiteral (t : PolynomialTerm ℤ) (l : Literal) : PolynomialTerm ℤ :=
  if l.negated then t.addPoly L (oneMinus L l.condition) else t.addLval L l.condition

/-- The product of two conditions, each of them negated or not. -/
def conditionProduct (l₁ l₂ : Literal) : PolynomialExpression ℤ :=
  PolynomialExpression.zero.addMultiplesOfTerm 1 (addLiteral L (addLiteral L .one l₁) l₂)

/-- The variable of an expression with the same text, or a new one. -/
def newLvalOrExisting (st : State) (expr : PolynomialExpression ℤ) (prefixForNewLval : Name) :
    Option (State × ℕ) :=
  (expr.toCircuit L).map fun text =>
    match st.memo.lookup text with
    | some existing => (st, existing)
    | none =>
      let st' := st.assign (.temp prefixForNewLval .condProduct) (.poly expr) []
      ({ st' with memo := (text, st.next) :: st.memo }, st.next)

/-- The condition `l₁ * l₂` of a merged choice. -/
def mergeConditions (st : State) (l₁ l₂ : Literal) (name : Name) (valueTrue valueFalse : ℕ) :
    Option (State × Mux) :=
  (newLvalOrExisting L st (conditionProduct L l₁ l₂) name).map fun r =>
    (r.1, ⟨r.2, valueTrue, valueFalse⟩)

end

/-- What the compiler is told and what it knows: whether to combine expressions, which lines are
referenced, and constants and types. -/
structure Settings where
  combineExpressions : Bool
  isReferenced : ℕ → Bool
  lookup : Lookup ℤ

variable (S : Settings)

/-- The choice that the assignment of a value is, if it may be merged. -/
def mergeable (st : State) (value : ℕ) : Option Mux :=
  if S.combineExpressions && !S.isReferenced value then toMuxExpression st.rhs
    st.next value else none

/-- The rules for a choice as the value of the condition `0`, and the choice without a rule. -/
def mergeFalse (st : State) (condition : ℕ) (name : Name) (valueTrue valueFalse : ℕ) :
    Option (State × Mux) :=
  match mergeable S st valueFalse with
  | some m =>
    if m.valueFalse = valueTrue then
      mergeConditions S.lookup st ⟨true, condition⟩ ⟨false, m.condition⟩ name m.valueTrue valueTrue
    else if m.valueTrue = valueTrue then
      mergeConditions S.lookup st ⟨true, condition⟩ ⟨true, m.condition⟩ name m.valueFalse valueTrue
    else some (st, ⟨condition, valueTrue, valueFalse⟩)
  | none => some (st, ⟨condition, valueTrue, valueFalse⟩)

/-- The rules for a choice as the value of the condition `1` go first. -/
def merge (st : State) (condition : ℕ) (name : Name) (valueTrue valueFalse : ℕ) :
    Option (State × Mux) :=
  match mergeable S st valueTrue with
  | some m =>
    if m.valueFalse = valueFalse then
      mergeConditions S.lookup st ⟨false, condition⟩ ⟨false, m.condition⟩ name
        m.valueTrue valueFalse
    else if m.valueTrue = valueFalse then
      mergeConditions S.lookup st ⟨false, condition⟩ ⟨true, m.condition⟩ name
        m.valueFalse valueFalse
    else mergeFalse S st condition name valueTrue valueFalse
  | none => mergeFalse S st condition name valueTrue valueFalse

def State.assignMux (st : State) (name : Name) (m : Mux) : State :=
  let st₁ := st.assign (.temp name .negB) (.negate m.valueFalse) []
  let st₂ := st₁.assign (.temp name .aMinB) (.plus st.next m.valueTrue) []
  let st₃ := st₂.assign (.temp name .mtAMinB) (.times m.condition st₁.next) []
  st₃.assign name (.plus st₂.next m.valueFalse) [.mux m]

/-- The variables that were assigned in a branch, with their lines. -/
abbrev Scope := List (Name × ℕ)

/-- One round of the loop over the variables. -/
def expandVariable (condition : ℕ) (thenScope elseScope : Scope) (st : State) (name : Name) :
    Option State :=
  match thenScope.lookup name, elseScope.lookup name, st.vars name with
  | some lvalInThen, some lvalInElse, _ => expand st name lvalInThen lvalInElse
  | some lvalInThen, none, some lvalBeforeIf => expand st name lvalInThen lvalBeforeIf
  | none, some lvalInElse, some lvalBeforeIf => expand st name lvalBeforeIf lvalInElse
  | _, _, _ => none
where
  expand (st : State) (name : Name) (valueTrue valueFalse : ℕ) : Option State :=
    (merge S st condition name valueTrue valueFalse).map fun r => r.1.assignMux name r.2

def put : List (ℕ × Name) → ℕ → Name → List (ℕ × Name)
  | [], line, name => [(line, name)]
  | (k, n) :: rest, line, name =>
    if line < k then (line, name) :: (k, n) :: rest
    else if line = k then (line, name) :: rest
    else (k, n) :: put rest line name

/-- The variables of a scope that satisfy `keep`, sorted by their lines. -/
def putAll (keep : Name → Bool) (sorted : List (ℕ × Name)) (scope : Scope) : List (ℕ × Name) :=
  scope.foldl (fun sorted e => if keep e.1 then put sorted e.2 e.1 else sorted) sorted

/-- `ConflictVariablesSorted`. -/
def conflictVariables (st : State) (thenScope elseScope : Scope) : List (ℕ × Name) :=
  let inThen := putAll (fun n => (st.vars n).isSome) [] thenScope
  putAll (fun n => (st.vars n).isSome && !(thenScope.map Prod.fst).contains n) inThen elseScope

def expandMuxStatements (condition : ℕ) (thenScope elseScope : Scope) (st : State) : Option State :=
  ((conflictVariables st thenScope elseScope).map Prod.snd).foldlM
    (expandVariable S condition thenScope elseScope) st

/-! ## Values -/

def IsBit (v : ℤ) : Prop := v = 0 ∨ v = 1

def Mux.eval (z : ℕ → ℤ) (m : Mux) : ℤ :=
  z m.condition * (z m.valueTrue - z m.valueFalse) + z m.valueFalse

def Literal.eval (z : ℕ → ℤ) (l : Literal) : ℤ :=
  if l.negated then 1 - z l.condition else z l.condition

def Rhs.eval (L : Lookup ℤ) (z : ℕ → ℤ) : Rhs → ℤ
  | .negate x => -1 * z x
  | .plus x y => z x + z y
  | .times x y => z x * z y
  | .poly p => p.eval z
  | .mux m => (m.polynomial L).eval z
  | .lval x => z x

def State.Holds (L : Lookup ℤ) (z : ℕ → ℤ) (st : State) : Prop :=
  ∀ e ∈ st.emitted, z e.1 = e.2.eval L z

/-- What is known of the lines is right: their right sides have their values, the conditions of
choices are bits, and the memo holds lines with the values of expressions of the given text. -/
structure State.Sound (L : Lookup ℤ) (z : ℕ → ℤ) (st : State) : Prop where
  rhs : ∀ x, ∀ r ∈ st.rhs x, z x = r.eval L z
  bit : ∀ x m, .mux m ∈ st.rhs x → IsBit (z m.condition)
  memo : ∀ e ∈ st.memo, ∃ p : PolynomialExpression ℤ, p.Ok ∧ p.DegreeStands ∧
    (∃ L', p.toCircuit L' = some e.1) ∧ z e.2 = p.eval z

section
variable {L : Lookup ℤ} {z : ℕ → ℤ}

theorem ok_oneMinus (x : ℕ) : (oneMinus L x).Ok :=
  (PolynomialExpression.ok_zero.addMultiplesOfTerm 1 PolynomialTerm.ok_one).addMultiplesOfTerm (-1)
    (PolynomialTerm.ok_one.addLval L x)

theorem eval_oneMinus (hL : L.Holds z) (x : ℕ) : (oneMinus L x).eval z = 1 - z x := by
  simp only [oneMinus, PolynomialExpression.eval_addMultiplesOfTerm, PolynomialExpression.eval_zero,
    PolynomialTerm.eval_one, PolynomialTerm.eval_addLval hL, map_one, map_neg]
  ring

theorem Mux.eval_polynomial (hL : L.Holds z) (m : Mux) : (m.polynomial L).eval z = m.eval z := by
  have hok := (PolynomialExpression.ok_zero.addMultiplesOfTerm 1
    (PolynomialTerm.ok_one.addLval L m.valueTrue)).addMultiplesOfTerm (-1)
    (PolynomialTerm.ok_one.addLval L m.valueFalse)
  simp only [Mux.polynomial, PolynomialExpression.eval_addMultiplesOfTerm,
    PolynomialExpression.eval_zero,
    PolynomialTerm.eval_addPoly hL _ _ hok, PolynomialTerm.eval_addMonomer hL,
    PolynomialTerm.eval_addLval hL, PolynomialTerm.eval_one, map_one, map_neg, Mux.eval]
  ring

variable {t : PolynomialTerm ℤ}

theorem ok_addLiteral (ht : t.Ok) (l : Literal) : (addLiteral L t l).Ok := by
  rw [addLiteral]
  split
  · exact ht.addPoly L (ok_oneMinus _)
  · exact ht.addLval L _

theorem eval_addLiteral (hL : L.Holds z) (t : PolynomialTerm ℤ) (l : Literal) :
    (addLiteral L t l).eval z = t.eval z * l.eval z := by
  rw [addLiteral, Literal.eval]
  split
  · rw [PolynomialTerm.eval_addPoly hL _ _ (ok_oneMinus _), eval_oneMinus hL]
  · rw [PolynomialTerm.eval_addLval hL]

theorem eval_conditionProduct (hL : L.Holds z) (l₁ l₂ : Literal) :
    (conditionProduct L l₁ l₂).eval z = l₁.eval z * l₂.eval z := by
  rw [conditionProduct, PolynomialExpression.eval_addMultiplesOfTerm, eval_addLiteral hL,
    eval_addLiteral hL, PolynomialTerm.eval_one, PolynomialExpression.eval_zero, map_one]
  ring

theorem ok_conditionProduct (l₁ l₂ : Literal) : (conditionProduct L l₁ l₂).Ok :=
  PolynomialExpression.ok_zero.addMultiplesOfTerm 1
    (ok_addLiteral (ok_addLiteral PolynomialTerm.ok_one l₁) l₂)

/-! ## Texts -/

/-- Polynomials that are printed as the same text have the same value. -/
theorem eval_eq_of_toCircuit_eq {p q : PolynomialExpression ℤ} (hp : p.Ok) (hq : q.Ok)
    (hps : p.DegreeStands) (hqs : q.DegreeStands) {L L' : Lookup ℤ} {text : Text ℕ}
    (hpt : p.toCircuit L = some text) (hqt : q.toCircuit L' = some text) (z : ℕ → ℤ) :
    p.eval z = q.eval z := by
  obtain ⟨text₁, htext₁, hp⟩ := hp.roundTrips L hps
  obtain ⟨text₂, htext₂, hq⟩ := hq.roundTrips L' hqs
  obtain rfl := Option.some.inj (htext₁.symm.trans hpt)
  obtain rfl := Option.some.inj (htext₂.symm.trans hqt)
  -- nothing is known to the reader, so it reads both for all values
  have hK : Known.Holds ⟨intLookup, id⟩ z := ⟨intLookup_holds z, fun _ => rfl⟩
  obtain ⟨e, he, heval⟩ := hp.reads ⟨intLookup, id⟩ []
  obtain ⟨e', he', heval'⟩ := hq.reads ⟨intLookup, id⟩ []
  obtain rfl := Option.some.inj (he.symm.trans he')
  exact (heval ℤ z hK).symm.trans (heval' ℤ z hK)

/-- A polynomial of degree `1` without nested polynomials, as `1 - c` is. -/
structure Flat (p : PolynomialExpression ℤ) : Prop where
  polys : ∀ t ∈ p.terms, t.polyFactors = []
  degrees : ∀ t ∈ p.terms, t.degree ≤ 1
  degree_le : p.degree ≤ 1

theorem flat_zero : Flat .zero := ⟨List.forall_mem_nil _, List.forall_mem_nil _, Nat.zero_le 1⟩

variable {p : PolynomialExpression ℤ}

theorem Flat.remove (h : Flat p) (t : PolynomialTerm ℤ) : Flat (p.remove t) := by
  have hsub : ∀ u ∈ (p.remove t).terms, u ∈ p.terms := by
    cases p with
    | mk ts added => exact fun u hu => List.mem_of_mem_eraseP hu
  refine ⟨fun u hu => h.polys u (hsub u hu), fun u hu => h.degrees u (hsub u hu), ?_⟩
  rw [PolynomialExpression.degree_remove]
  exact h.degree_le

theorem Flat.add (h : Flat p) {e : PolynomialTerm ℤ} (hpolys : e.polyFactors = [])
    (hdegree : e.degree ≤ 1) : Flat (p.add e) := by
  have hmem : ∀ u ∈ (p.add e).terms, u = e ∨ u ∈ p.terms := fun u hu =>
    List.mem_cons.1 ((p.add_perm e).mem_iff.1 hu)
  refine ⟨fun u hu => ?_, fun u hu => ?_, ?_⟩
  · rcases hmem u hu with rfl | hu
    · exact hpolys
    · exact h.polys u hu
  · rcases hmem u hu with rfl | hu
    · exact hdegree
    · exact h.degrees u hu
  · rw [PolynomialExpression.degree_add]
    exact max_le hdegree h.degree_le

theorem polyFactors_copy (h : t.polyFactors = []) (c : ℤ) :
    (t.duplicate.withConstant c).polyFactors = [] := by
  cases t with
  | mk c' ms ps d =>
    obtain rfl : ps = [] := h
    rfl

theorem Flat.addTerm (h : Flat p) (hpolys : t.polyFactors = []) (hdegree : t.degree ≤ 1) (c : ℤ) :
    Flat (p.addTerm c t) := by
  have hcopy : ∀ {q : PolynomialExpression ℤ}, Flat q → ∀ {u : PolynomialTerm ℤ}, u.polyFactors =
      [] → u.degree ≤ 1 → ∀ c, Flat (q.add (u.duplicate.withConstant c)) := by
    intro q hq u hu hd c
    refine hq.add (polyFactors_copy hu c) ?_
    rwa [PolynomialTerm.degree_withConstant, PolynomialTerm.degree_duplicate]
  rw [PolynomialExpression.addTerm]
  split
  · exact h
  · split
    · next u hu =>
      have hmem : u ∈ p.terms := (PolynomialExpression.remove_perm hu).mem_iff.2 List.mem_cons_self
      split
      · exact h.remove t
      · exact hcopy (h.remove t) (h.polys u hmem) (h.degrees u hmem) _
    · exact hcopy h hpolys hdegree c

theorem Flat.addMultiplesOfTerm (h : Flat p) (hpolys : t.polyFactors = []) (hdegree : t.degree ≤ 1)
    (c : ℤ) : Flat (p.addMultiplesOfTerm c t) := by
  cases t with
  | mk c' ms ps d =>
    obtain rfl : ps = [] := hpolys
    cases ms with
    | nil => exact h.addTerm rfl hdegree _
    | cons m ms => exact h.addTerm rfl hdegree _

theorem Flat.addMultiplesOfTerms (h : Flat p) (c : ℤ) {ts : List (PolynomialTerm ℤ)}
    (hpolys : ∀ t ∈ ts, t.polyFactors = []) (hdegrees : ∀ t ∈ ts, t.degree ≤ 1) :
    Flat (p.addMultiplesOfTerms c ts) := by
  induction ts generalizing p with
  | nil => exact h
  | cons t ts ih =>
    obtain ⟨ht, hts⟩ := List.forall_mem_cons.1 hpolys
    obtain ⟨hd, hds⟩ := List.forall_mem_cons.1 hdegrees
    exact ih (h.addMultiplesOfTerm ht hd c) hts hds

theorem flat_oneMinus (x : ℕ) : Flat (oneMinus L x) := by
  have hone : (PolynomialTerm.one : PolynomialTerm ℤ).degree ≤ 1 := Nat.zero_le 1
  have hflat := flat_zero.addMultiplesOfTerm (t := PolynomialTerm.one) rfl hone 1
  rw [oneMinus, PolynomialTerm.addLval]
  split
  · next c _ =>
    exact hflat.addMultiplesOfTerm (t := PolynomialTerm.one.addConst c) rfl (Nat.zero_le 1) _
  · exact hflat.addMultiplesOfTerm (t := PolynomialTerm.one.addMonomer L x) rfl le_rfl _

/-- The nested polynomials of a product of conditions. -/
def Linear (t : PolynomialTerm ℤ) : Prop := ∀ q ∈ t.polyFactors, Flat q

theorem Linear.addConst (h : Linear t) (c : ℤ) : Linear (t.addConst c) := by
  cases t with
  | mk => exact h

theorem Linear.addLval (h : Linear t) (x : ℕ) : Linear (t.addLval L x) := by
  rw [PolynomialTerm.addLval]
  split
  · exact h.addConst _
  · cases t with
    | mk => exact h

theorem mem_sortPolys {ps : List (PolynomialExpression ℤ)} (h : ∀ q ∈ ps, Flat q) :
    ∀ q ∈ sortPolys ps, Flat q :=
  fun q hq => h q ((List.perm_insertionSort _ ps).mem_iff.1 hq)

theorem Linear.addPoly (h : Linear t) (hp : Flat p) : Linear (t.addPoly L p) := by
  cases p with
  | mk ts added =>
    rw [PolynomialTerm.addPoly]
    split
    · exact h.addConst _
    · cases t with
      | mk c ms ps d =>
        rcases ts with _ | ⟨⟨c', ms', ps', d'⟩, _ | ⟨u, ts⟩⟩
        · exact h
        · obtain rfl : ps' = [] := hp.polys _ List.mem_cons_self
          exact mem_sortPolys h
        · exact mem_sortPolys (List.forall_mem_append.2 ⟨h, List.forall_mem_singleton.2 hp⟩)

theorem Linear.addLiteral (h : Linear t) (l : Literal) : Linear (addLiteral L t l) := by
  rw [IfStatement.addLiteral]
  split
  · exact h.addPoly (flat_oneMinus _)
  · exact h.addLval _

/-- The stored degree of a product of conditions is that of its term. -/
theorem Linear.degreeStands (h : Linear t) :
    (PolynomialExpression.zero.addMultiplesOfTerm 1 t).DegreeStands := by
  have hterm : ∀ c, (PolynomialExpression.zero.addTerm c t).DegreeStands := by
    intro c
    rw [PolynomialExpression.addTerm]
    split
    · exact fun h2 => absurd h2 (by decide)
    · intro h2
      exact ⟨_, List.mem_singleton.2 rfl, (max_eq_left (Nat.zero_le _)).symm.trans h2⟩
  obtain ⟨c, _ | ⟨m, ms⟩, _ | ⟨⟨ts, added⟩, _ | ⟨q, ps⟩⟩, d⟩ := t
  · exact hterm (1 * c)
  · -- the terms of a nested polynomial are added one by one
    have hq := h _ List.mem_cons_self
    have hflat := flat_zero.addMultiplesOfTerms (1 * c) hq.polys hq.degrees
    intro h2
    exact absurd (h2.symm.trans_le hflat.degree_le) (by decide)
  all_goals exact hterm (1 * c)

theorem degreeStands_conditionProduct (l₁ l₂ : Literal) :
    (conditionProduct L l₁ l₂).DegreeStands := by
  have hone : Linear .one := List.forall_mem_nil _
  exact ((hone.addLiteral l₁).addLiteral l₂).degreeStands

/-! ## One variable -/

/-- Statements and variables are only added, and other variables than `name` and its intermediate
results keep their lines. -/
structure Extends (name : Name) (st st' : State) : Prop where
  emitted : ∀ e ∈ st.emitted, e ∈ st'.emitted
  isSome : ∀ n, (st.vars n).isSome → (st'.vars n).isSome
  vars : ∀ n, n ≠ name → (∀ t, n ≠ .temp name t) → st'.vars n = st.vars n

theorem Extends.refl (name : Name) (st : State) : Extends name st st :=
  ⟨fun _ h => h, fun _ h => h, fun _ _ _ => rfl⟩

variable {name : Name}

theorem Extends.trans {st st' st'' : State} (h : Extends name st st') (h' : Extends name st' st'') :
    Extends name st st'' :=
  ⟨fun e he => h'.emitted e (h.emitted e he), fun n hn => h'.isSome n (h.isSome n hn),
    fun n hn ht => (h'.vars n hn ht).trans (h.vars n hn ht)⟩

theorem Extends.holds {st st' : State} (h : Extends name st st') (hst : st'.Holds L z) :
    st.Holds L z := fun e he => hst e (h.emitted e he)

theorem extends_assign {name n : Name} (hn : n = name ∨ ∃ t, n = .temp name t) (st : State)
    (r : Rhs) (rs : List Rhs) : Extends name st (st.assign n r rs) := by
  refine ⟨fun e he => List.mem_cons_of_mem _ he, fun m hm => ?_, fun m hm ht =>
    Function.update_of_ne ?_ _ _⟩
  · rcases eq_or_ne m n with rfl | hne
    · exact Option.isSome_iff_exists.2 ⟨_, Function.update_self _ _ _⟩
    · simp only [State.assign]
      rwa [Function.update_of_ne hne]
  · rcases hn with rfl | ⟨t, rfl⟩
    · exact hm
    · exact ht t

variable {st : State}

theorem mem_rhs_assign {r r' : Rhs} {rs : List Rhs} {x : ℕ} (h : r' ∈ (st.assign name r rs).rhs x) :
    x = st.next ∧ r' ∈ r :: rs ∨ r' ∈ st.rhs x := by
  simp only [State.assign] at h
  rcases eq_or_ne x st.next with rfl | hx
  · rw [Function.update_self] at h
    exact .inl ⟨rfl, h⟩
  · rw [Function.update_of_ne hx] at h
    exact .inr h

theorem State.Sound.assign (h : st.Sound L z) (name : Name) {r : Rhs} {rs : List Rhs}
    (hr : ∀ r' ∈ r :: rs, z st.next = r'.eval L z)
    (hbit : ∀ m, .mux m ∈ r :: rs → IsBit (z m.condition)) : (st.assign name r rs).Sound L z := by
  refine ⟨fun x r' hr' => ?_, fun x m hm => ?_, h.memo⟩
  · rcases mem_rhs_assign hr' with ⟨rfl, hmem⟩ | hmem
    · exact hr r' hmem
    · exact h.rhs x r' hmem
  · rcases mem_rhs_assign hm with ⟨rfl, hmem⟩ | hmem
    · exact hbit m hmem
    · exact h.bit x m hmem

/-- An assignment without alternatives has the value of its right side. -/
theorem State.Sound.assign_single (h : st.Sound L z) (name : Name) {r : Rhs}
    (hr : z st.next = r.eval L z) (hmux : ∀ m, r ≠ .mux m) : (st.assign name r []).Sound L z :=
  h.assign name (List.forall_mem_singleton.2 hr) fun m hm =>
    absurd (List.mem_singleton.1 hm).symm (hmux m)

/-- A choice that is found for a line has its value. -/
theorem State.Sound.toMuxExpression (h : st.Sound L z) (hL : L.Holds z) {fuel x : ℕ} {m : Mux}
    (hm : toMuxExpression st.rhs fuel x = some m) : z x = m.eval z ∧ IsBit (z m.condition) := by
  induction fuel generalizing x with
  | zero => cases hm
  | succ fuel ih =>
    obtain ⟨r, hr, hfound⟩ := List.exists_of_findSome?_eq_some hm
    cases r with
    | mux m' =>
      obtain rfl := Option.some.inj hfound
      exact ⟨(h.rhs x _ hr).trans (m'.eval_polynomial hL), h.bit x m' hr⟩
    | lval y =>
      obtain ⟨hval, hbit⟩ := ih hfound
      exact ⟨(h.rhs x _ hr).trans hval, hbit⟩
    | negate _ | plus _ _ | times _ _ | poly _ => cases hfound

theorem State.Sound.mergeable {S : Settings} (h : st.Sound S.lookup z) (hL : S.lookup.Holds z)
    {x : ℕ} {m : Mux} (hm : mergeable S st x = some m) :
    z x = m.eval z ∧ IsBit (z m.condition) := by
  rw [IfStatement.mergeable] at hm
  split at hm
  · exact h.toMuxExpression hL hm
  · cases hm

/-- A product of conditions is found, or computed. -/
theorem newLvalOrExisting_spec (st : State) (l₁ l₂ : Literal) (name : Name) :
    ∃ r, newLvalOrExisting L st (conditionProduct L l₁ l₂) name = some r ∧ Extends name st r.1 ∧
      (st.Sound L z → r.1.Holds L z →
        r.1.Sound L z ∧ z r.2 = (conditionProduct L l₁ l₂).eval z) := by
  have hok := ok_conditionProduct (L := L) l₁ l₂
  have hstands := degreeStands_conditionProduct (L := L) l₁ l₂
  obtain ⟨text, htext, -⟩ := hok.roundTrips L hstands
  rw [newLvalOrExisting, htext, Option.map_some]
  refine ⟨_, rfl, ?_⟩
  split
  · next existing hfound =>
    refine ⟨.refl _ _, fun hsound _ => ⟨hsound, ?_⟩⟩
    have hmem : (text, existing) ∈ st.memo := by
      obtain ⟨before, after, hmemo, -⟩ := List.lookup_eq_some_iff.1 hfound
      rw [hmemo]
      exact List.mem_append_right _ List.mem_cons_self
    obtain ⟨p, hp, hps, ⟨L', hpt⟩, hval⟩ := hsound.memo _ hmem
    exact hval.trans (eval_eq_of_toCircuit_eq hp hok hps hstands hpt htext z)
  · have hext : Extends name st
        (st.assign (.temp name .condProduct) (.poly (conditionProduct L l₁ l₂)) []) :=
      extends_assign (.inr ⟨_, rfl⟩) _ _ _
    refine ⟨⟨hext.emitted, hext.isSome, hext.vars⟩, fun hsound hholds => ?_⟩
    have hval : z st.next = (conditionProduct L l₁ l₂).eval z := hholds _ List.mem_cons_self
    have hassign := hsound.assign_single (.temp name .condProduct)
      (r := .poly (conditionProduct L l₁ l₂)) hval nofun
    refine ⟨⟨hassign.rhs, hassign.bit, List.forall_mem_cons.2 ⟨?_, hsound.memo⟩⟩, hval⟩
    exact ⟨_, hok, hstands, ⟨L, htext⟩, hval⟩

/-- What a way to make the choice of a variable has to give: a choice with the value `v`. -/
structure Chooses (L : Lookup ℤ) (z : ℕ → ℤ) (name : Name) (st : State) (v : ℤ) (r : State × Mux) :
    Prop where
  extends_ : Extends name st r.1
  sound : st.Sound L z → r.1.Holds L z → r.1.Sound L z ∧ IsBit (z r.2.condition) ∧ r.2.eval z = v

theorem isBit_literal {x : ℕ} (h : IsBit (z x)) (negated : Bool) :
    IsBit (Literal.eval z ⟨negated, x⟩) := by
  cases negated <;> rcases h with h | h <;> simp [Literal.eval, IsBit, h]

theorem IsBit.mul {v w : ℤ} (hv : IsBit v) (hw : IsBit w) : IsBit (v * w) := by
  rcases hv with rfl | rfl
  · exact .inl (zero_mul w)
  · rwa [one_mul]

/-- A merged choice, where `m` is the one that is merged. -/
theorem mergeConditions_spec (hL : L.Holds z) (st : State) {l₁ l₂ : Literal} {x y : ℕ} {v : ℤ}
    (hbit : IsBit (z l₁.condition))
    (hv : st.Sound L z → IsBit (z l₂.condition) ∧ l₁.eval z * l₂.eval z * (z x - z y) + z y = v) :
    ∃ r, mergeConditions L st l₁ l₂ name x y = some r ∧ Chooses L z name st v r := by
  obtain ⟨r, hr, hext, hspec⟩ := newLvalOrExisting_spec (L := L) (z := z) st l₁ l₂ name
  rw [mergeConditions, hr, Option.map_some]
  refine ⟨_, rfl, hext, fun hsound hholds => ?_⟩
  obtain ⟨hsound', hval⟩ := hspec hsound hholds
  obtain ⟨hbit', hv⟩ := hv hsound
  rw [eval_conditionProduct hL] at hval
  refine ⟨hsound', ?_, ?_⟩
  · dsimp only
    rw [hval]
    exact (isBit_literal hbit _).mul (isBit_literal hbit' _)
  · rw [Mux.eval, ← hv, ← hval]

theorem extends_assignMux (st : State) (name : Name) (m : Mux) :
    Extends name st (st.assignMux name m) :=
  (extends_assign (.inr ⟨.negB, rfl⟩) _ _ _).trans <|
    (extends_assign (.inr ⟨.aMinB, rfl⟩) _ _ _).trans <|
    (extends_assign (.inr ⟨.mtAMinB, rfl⟩) _ _ _).trans (extends_assign (.inl rfl) _ _ _)

/-- The last statement assigns the value of the choice. -/
theorem assignMux_spec (hL : L.Holds z) {st : State} (hsound : st.Sound L z) {name : Name} {m : Mux}
    (hbit : IsBit (z m.condition)) (hholds : (st.assignMux name m).Holds L z) :
    (st.assignMux name m).Sound L z ∧
      ∃ w, (st.assignMux name m).vars name = some w ∧ z w = m.eval z := by
  have hnegB : z st.next = -1 * z m.valueFalse := hholds (st.next, .negate m.valueFalse)
    (by simp [State.assignMux, State.assign])
  have haMinB : z (st.next + 1) = z st.next + z m.valueTrue :=
    hholds (st.next + 1, .plus st.next m.valueTrue) (by simp [State.assignMux, State.assign])
  have hmtAMinB : z (st.next + 2) = z m.condition * z (st.next + 1) :=
    hholds (st.next + 2, .times m.condition (st.next + 1)) (by simp [State.assignMux, State.assign])
  have hlast : z (st.next + 3) = z (st.next + 2) + z m.valueFalse :=
    hholds (st.next + 3, .plus (st.next + 2) m.valueFalse) (by simp [State.assignMux, State.assign])
  have hval : z (st.next + 3) = m.eval z := by
    rw [hlast, hmtAMinB, haMinB, hnegB, Mux.eval]
    ring
  have hsound₃ := ((hsound.assign_single (.temp name .negB) (r := .negate m.valueFalse) hnegB
    nofun).assign_single (.temp name .aMinB) (r := .plus st.next m.valueTrue) haMinB
      nofun).assign_single
    (.temp name .mtAMinB) (r := .times m.condition (st.next + 1)) hmtAMinB nofun
  refine ⟨hsound₃.assign name ?_ fun m' hm' => ?_, st.next + 3, Function.update_self _ _ _, hval⟩
  · refine List.forall_mem_cons.2 ⟨hlast, List.forall_mem_singleton.2 ?_⟩
    exact hval.trans (m.eval_polynomial hL).symm
  · rcases List.mem_cons.1 hm' with h | h
    · cases h
    · obtain ⟨⟩ := List.mem_singleton.1 h
      exact hbit

section
variable {S : Settings} {condition : ℕ}

/-- The value of the branch that is taken. -/
def taken (z : ℕ → ℤ) (condition valueTrue valueFalse : ℕ) : ℤ :=
  if z condition = 1 then z valueTrue else z valueFalse

variable {thenScope elseScope : Scope}

/-- The value that a variable with the line `before` should have after the `if`. -/
def afterIf (z : ℕ → ℤ) (condition : ℕ) (thenScope elseScope : Scope) (name : Name) (before : ℕ) :
    ℤ :=
  if z condition = 1 then z ((thenScope.lookup name).getD before)
  else z ((elseScope.lookup name).getD before)

/-- Nothing changes if a variable that has the value already is treated once more. -/
theorem afterIf_afterIf {name : Name} {before w : ℕ}
    (h : z w = afterIf z condition thenScope elseScope name before) :
    afterIf z condition thenScope elseScope name w =
      afterIf z condition thenScope elseScope name before := by
  by_cases hc : z condition = 1
  · simp only [afterIf, if_pos hc] at h ⊢
    cases hl : thenScope.lookup name with
    | none => rwa [hl] at h
    | some t => rfl
  · simp only [afterIf, if_neg hc] at h ⊢
    cases hl : elseScope.lookup name with
    | none => rwa [hl] at h
    | some t => rfl

section
variable (hL : S.lookup.Holds z) (hc : IsBit (z condition))
include hL hc

/-- A choice is merged with the one of a branch. -/
theorem merged_spec (st : State) {x a b : ℕ} {m : Mux} (hm : mergeable S st x = some m)
    {n₁ n₂ : Bool} {v : ℤ} (hv : z x = m.eval z → Literal.eval z ⟨n₁, condition⟩ *
      Literal.eval z ⟨n₂, m.condition⟩ * (z a - z b) + z b = v) :
    ∃ r, mergeConditions S.lookup st ⟨n₁, condition⟩ ⟨n₂, m.condition⟩ name a b = some r ∧
      Chooses S.lookup z name st v r := by
  refine mergeConditions_spec hL st hc fun hsound => ?_
  obtain ⟨hval, hbit⟩ := hsound.mergeable hL hm
  exact ⟨hbit, hv hval⟩

theorem mergeFalse_spec (st : State) (name : Name) (valueTrue valueFalse : ℕ) :
    ∃ r, mergeFalse S st condition name valueTrue valueFalse = some r ∧
      Chooses S.lookup z name st (taken z condition valueTrue valueFalse) r := by
  have hplain : Chooses S.lookup z name st (taken z condition valueTrue valueFalse)
      (st, ⟨condition, valueTrue, valueFalse⟩) := by
    refine ⟨.refl _ _, fun hsound _ => ⟨hsound, hc, ?_⟩⟩
    rcases hc with h | h <;> simp [Mux.eval, taken, h]
  rw [mergeFalse]
  split
  · next m hm =>
    split
    · next hf =>
      -- `c ? t : (c₂ ? x : t)` is `(1 - c) * c₂ ? x : t`
      refine merged_spec hL hc st hm fun hval => ?_
      rw [Mux.eval, hf] at hval
      rcases hc with h | h <;> simp [Literal.eval, taken, h, hval]
    · split
      · next ht =>
        -- `c ? t : (c₂ ? t : x)` is `(1 - c) * (1 - c₂) ? x : t`
        refine merged_spec hL hc st hm fun hval => ?_
        rw [Mux.eval, ht] at hval
        rcases hc with h | h
        · simp only [Literal.eval, taken, h, hval]
          norm_num
          ring
        · simp [Literal.eval, taken, h]
      · exact ⟨_, rfl, hplain⟩
  · exact ⟨_, rfl, hplain⟩

/-- Each of the rules has the value of the branch that is taken. -/
theorem merge_spec (st : State) (name : Name) (valueTrue valueFalse : ℕ) :
    ∃ r, merge S st condition name valueTrue valueFalse = some r ∧
      Chooses S.lookup z name st (taken z condition valueTrue valueFalse) r := by
  rw [merge]
  split
  · next m hm =>
    split
    · next hf =>
      -- `c ? (c₂ ? x : f) : f` is `c * c₂ ? x : f`
      refine merged_spec hL hc st hm fun hval => ?_
      rw [Mux.eval, hf] at hval
      rcases hc with h | h <;> simp [Literal.eval, taken, h, hval]
    · split
      · next ht =>
        -- `c ? (c₂ ? f : x) : f` is `c * (1 - c₂) ? x : f`
        refine merged_spec hL hc st hm fun hval => ?_
        rw [Mux.eval, ht] at hval
        rcases hc with h | h
        · simp [Literal.eval, taken, h]
        · simp only [Literal.eval, taken, h, hval]
          norm_num
          ring
      · exact mergeFalse_spec hL hc st name valueTrue valueFalse
  · exact mergeFalse_spec hL hc st name valueTrue valueFalse

theorem expand_spec (st : State) (name : Name) (valueTrue valueFalse : ℕ) :
    ∃ st', expandVariable.expand S condition st name valueTrue valueFalse = some st' ∧
      Extends name st st' ∧ (st.Sound S.lookup z → st'.Holds S.lookup z → st'.Sound S.lookup z ∧
        ∃ w, st'.vars name = some w ∧ z w = taken z condition valueTrue valueFalse) := by
  obtain ⟨r, hr, hext, hspec⟩ := merge_spec hL hc st name valueTrue valueFalse
  have hassign := extends_assignMux r.1 name r.2
  rw [expandVariable.expand, hr, Option.map_some]
  refine ⟨_, rfl, hext.trans hassign, fun hsound hholds => ?_⟩
  obtain ⟨hsound', hbit, hval⟩ := hspec hsound (hassign.holds hholds)
  rw [← hval]
  exact assignMux_spec hL hsound' hbit hholds

theorem expandVariable_spec {st : State} {name : Name}
    (hscope : (thenScope.lookup name).isSome ∨ (elseScope.lookup name).isSome) {before : ℕ}
    (hbefore : st.vars name = some before) :
    ∃ st', expandVariable S condition thenScope elseScope st name = some st' ∧ Extends name st st' ∧
      (st.Sound S.lookup z → st'.Holds S.lookup z → st'.Sound S.lookup z ∧
        ∃ w, st'.vars name = some w ∧ z w = afterIf z condition thenScope elseScope
          name before) := by
  rw [expandVariable, hbefore]
  cases hthen : thenScope.lookup name with
  | some t =>
    cases helse : elseScope.lookup name with
    | some e =>
      rw [afterIf, hthen, helse]
      exact expand_spec hL hc st name t e
    | none =>
      rw [afterIf, hthen, helse]
      exact expand_spec hL hc st name t before
  | none =>
    cases helse : elseScope.lookup name with
    | some e =>
      rw [afterIf, hthen, helse]
      exact expand_spec hL hc st name before e
    | none =>
      rw [hthen, helse] at hscope
      exact hscope.elim nofun nofun

/-! ## All variables -/

/-- The loop: a variable that is no intermediate result gets its value when it is treated, and keeps
its line otherwise. -/
theorem expandVariables_spec {names : List Name} {st : State}
    (hscope : ∀ n ∈ names, (thenScope.lookup n).isSome ∨ (elseScope.lookup n).isSome)
    (hvars : ∀ n ∈ names, (st.vars n).isSome) :
    ∃ st', names.foldlM (expandVariable S condition thenScope elseScope) st = some st' ∧
      (∀ e ∈ st.emitted, e ∈ st'.emitted) ∧
      (st.Sound S.lookup z → st'.Holds S.lookup z → st'.Sound S.lookup z ∧
        ∀ n before, st.vars n = some before → (∀ m ∈ names, ∀ t, n ≠ .temp m t) →
          (n ∉ names → st'.vars n = some before) ∧
          (n ∈ names → ∃ w, st'.vars n = some w ∧
            z w = afterIf z condition thenScope elseScope n before)) := by
  induction names generalizing st with
  | nil =>
    refine ⟨st, rfl, fun _ h => h, fun hsound _ =>
      ⟨hsound, fun n before hn _ => ⟨fun _ => hn, nofun⟩⟩⟩
  | cons m names ih =>
    obtain ⟨hscope₀, hscope⟩ := List.forall_mem_cons.1 hscope
    obtain ⟨hvars₀, hvars⟩ := List.forall_mem_cons.1 hvars
    obtain ⟨before₀, hbefore₀⟩ := Option.isSome_iff_exists.1 hvars₀
    obtain ⟨st₁, hst₁, hext, hspec⟩ := expandVariable_spec hL hc hscope₀ hbefore₀
    obtain ⟨st₂, hst₂, hemitted, hrest⟩ := ih hscope fun n hn => hext.isSome n (hvars n hn)
    refine ⟨st₂, ?_, fun e he => hemitted e (hext.emitted e he), fun hsound hholds => ?_⟩
    · rw [List.foldlM_cons, hst₁]
      exact hst₂
    obtain ⟨hsound₁, w, hw, hval⟩ := hspec hsound fun e he => hholds e (hemitted e he)
    obtain ⟨hsound₂, hnames⟩ := hrest hsound₁ hholds
    refine ⟨hsound₂, fun n before hn htemp => ?_⟩
    obtain ⟨htemp₀, htemps⟩ := List.forall_mem_cons.1 htemp
    rcases eq_or_ne n m with rfl | hne
    · obtain rfl : before₀ = before := Option.some.inj (hbefore₀.symm.trans hn)
      obtain ⟨hout, hin⟩ := hnames n w hw htemps
      refine ⟨fun h => absurd List.mem_cons_self h, fun _ => ?_⟩
      by_cases hmem : n ∈ names
      · rw [← afterIf_afterIf hval]
        exact hin hmem
      · exact ⟨w, hout hmem, hval⟩
    · obtain ⟨hout, hin⟩ := hnames n before ((hext.vars n hne htemp₀).trans hn) htemps
      exact ⟨fun h => hout fun hmem => h (List.mem_cons_of_mem _ hmem),
        fun h => hin ((List.mem_cons.1 h).resolve_left hne)⟩

end

variable {sorted : List (ℕ × Name)} {e : ℕ × Name}

theorem mem_put {line : ℕ} {name : Name} (h : e ∈ put sorted line name) :
    e = (line, name) ∨ e ∈ sorted := by
  induction sorted with
  | nil => exact .inl (List.mem_singleton.1 h)
  | cons kn rest ih =>
    rw [put] at h
    split at h
    · exact List.mem_cons.1 h
    · split at h
      · exact (List.mem_cons.1 h).imp_right (List.mem_cons_of_mem _)
      · rcases List.mem_cons.1 h with rfl | h
        · exact .inr List.mem_cons_self
        · exact (ih h).imp_right (List.mem_cons_of_mem _)

theorem put_mem (sorted : List (ℕ × Name)) (line : ℕ) (name : Name) :
    (line, name) ∈ put sorted line name := by
  induction sorted with
  | nil => exact List.mem_cons_self
  | cons kn rest ih =>
    rw [put]
    split
    · exact List.mem_cons_self
    · split
      · exact List.mem_cons_self
      · exact List.mem_cons_of_mem _ ih

/-- Another line is not replaced. -/
theorem put_mem_of_ne {line : ℕ} {name : Name} (he : e ∈ sorted) (hne : e.1 ≠ line) :
    e ∈ put sorted line name := by
  induction sorted with
  | nil => cases he
  | cons kn rest ih =>
    rw [put]
    split
    · exact List.mem_cons_of_mem _ he
    · split
      · next hk =>
        rcases List.mem_cons.1 he with rfl | he
        · exact absurd hk.symm hne
        · exact List.mem_cons_of_mem _ he
      · rcases List.mem_cons.1 he with rfl | he
        · exact List.mem_cons_self
        · exact List.mem_cons_of_mem _ (ih he)

theorem putAll_cons (keep : Name → Bool) (sorted : List (ℕ × Name)) (a : Name × ℕ) (scope : Scope) :
    putAll keep sorted (a :: scope) =
      putAll keep (if keep a.1 then put sorted a.2 a.1 else sorted) scope := rfl

variable {keep : Name → Bool} {scope : Scope}

theorem mem_putAll (h : e ∈ putAll keep sorted scope) :
    e ∈ sorted ∨ (e.2, e.1) ∈ scope ∧ keep e.2 := by
  induction scope generalizing sorted with
  | nil => exact .inl h
  | cons a scope ih =>
    rw [putAll_cons] at h
    rcases ih h with h | ⟨hmem, hkeep⟩
    · split at h
      · next hkeep =>
        rcases mem_put h with rfl | h
        · exact .inr ⟨List.mem_cons_self, hkeep⟩
        · exact .inl h
      · exact .inl h
    · exact .inr ⟨List.mem_cons_of_mem _ hmem, hkeep⟩

theorem putAll_mem_of_sorted (he : e ∈ sorted) (hline : e.1 ∉ scope.map Prod.snd) :
    e ∈ putAll keep sorted scope := by
  induction scope generalizing sorted with
  | nil => exact he
  | cons a scope ih =>
    rw [List.map_cons, List.mem_cons, not_or] at hline
    rw [putAll_cons]
    refine ih ?_ hline.2
    split
    · exact put_mem_of_ne he hline.1
    · exact he

/-- No variable is lost, since the lines are different. -/
theorem putAll_mem {name : Name} {line : ℕ} (hmem : (name, line) ∈ scope) (hkeep : keep name)
    (hlines : (scope.map Prod.snd).Nodup) : (line, name) ∈ putAll keep sorted scope := by
  induction scope generalizing sorted with
  | nil => cases hmem
  | cons a scope ih =>
    rw [List.map_cons, List.nodup_cons] at hlines
    rw [putAll_cons]
    rcases List.mem_cons.1 hmem with rfl | hmem
    · rw [if_pos hkeep]
      exact putAll_mem_of_sorted (put_mem _ _ _) hlines.1
    · exact ih hmem hlines.2

theorem lookup_isSome_iff {name : Name} :
    (scope.lookup name).isSome ↔ ∃ line, (name, line) ∈ scope := by
  rw [List.lookup_isSome_iff]
  constructor
  · rintro ⟨⟨n, line⟩, hmem, hn⟩
    obtain rfl : name = n := beq_iff_eq.1 hn
    exact ⟨line, hmem⟩
  · rintro ⟨line, hmem⟩
    exact ⟨_, hmem, beq_self_eq_true name⟩

/-- The variables that are treated: they existed before, and a branch assigned them. -/
theorem mem_conflictVariables {st : State}
    (hlines : (thenScope.map Prod.snd ++ elseScope.map Prod.snd).Nodup) {name : Name} :
    name ∈ (conflictVariables st thenScope elseScope).map Prod.snd ↔
      (st.vars name).isSome ∧ ((thenScope.lookup name).isSome ∨
      (elseScope.lookup name).isSome) := by
  obtain ⟨hthen, helse, hdisjoint⟩ := List.nodup_append.1 hlines
  simp only [lookup_isSome_iff, conflictVariables]
  constructor
  · intro h
    obtain ⟨⟨line, n⟩, hmem, rfl⟩ := List.mem_map.1 h
    rcases mem_putAll hmem with hmem | ⟨hmem, hkeep⟩
    · rcases mem_putAll hmem with hmem | ⟨hmem, hkeep⟩
      · cases hmem
      · exact ⟨hkeep, .inl ⟨line, hmem⟩⟩
    · exact ⟨(Bool.and_eq_true_iff.1 hkeep).1, .inr ⟨line, hmem⟩⟩
  · rintro ⟨hsome, hscope⟩
    by_cases hin : ∃ line, (name, line) ∈ thenScope
    · obtain ⟨line, hmem⟩ := hin
      refine List.mem_map.2 ⟨(line, name), putAll_mem_of_sorted (putAll_mem hmem hsome hthen) ?_,
        rfl⟩
      intro hline
      exact hdisjoint line (List.mem_map.2 ⟨_, hmem, rfl⟩) line hline rfl
    · obtain ⟨line, hmem⟩ := hscope.resolve_left hin
      refine List.mem_map.2 ⟨(line, name), putAll_mem hmem ?_ helse, rfl⟩
      rw [hsome, Bool.true_and, Bool.not_eq_true', ← Bool.not_eq_true, List.contains_iff_mem]
      intro hname
      obtain ⟨⟨n, l⟩, hmem', rfl⟩ := List.mem_map.1 hname
      exact hin ⟨l, hmem'⟩

/-- If-conversion: each variable that is not an intermediate result of the expansion has the value
of the branch that is taken, and keeps its line if no branch assigned it. -/
theorem expandMuxStatements_correct (hL : S.lookup.Holds z) (hc : IsBit (z condition)) {st : State}
    (hsound : st.Sound S.lookup z)
    (hlines : (thenScope.map Prod.snd ++ elseScope.map Prod.snd).Nodup) :
    ∃ st', expandMuxStatements S condition thenScope elseScope st = some st' ∧
      (st'.Holds S.lookup z → st'.Sound S.lookup z ∧
        ∀ n before, st.vars n = some before →
          (∀ m t, (st.vars m).isSome → (thenScope.lookup m).isSome ∨ (elseScope.lookup m).isSome →
            n ≠ .temp m t) →
          ∃ w, st'.vars n = some w ∧ z w = afterIf z condition thenScope elseScope n before ∧
            (thenScope.lookup n = none → elseScope.lookup n = none → w = before)) := by
  have hmem := fun n => @mem_conflictVariables thenScope elseScope st hlines n
  obtain ⟨st', hst', -, hspec⟩ := @expandVariables_spec z S condition thenScope elseScope hL hc _ st
    (fun n hn => ((hmem n).1 hn).2) fun n hn => ((hmem n).1 hn).1
  refine ⟨st', hst', fun hholds => ?_⟩
  obtain ⟨hsound', hnames⟩ := hspec hsound hholds
  refine ⟨hsound', fun n before hn htemp => ?_⟩
  obtain ⟨hout, hin⟩ := hnames n before hn fun m hm t => htemp m t ((hmem m).1 hm).1
    ((hmem m).1 hm).2
  by_cases hscope : (thenScope.lookup n).isSome ∨ (elseScope.lookup n).isSome
  · obtain ⟨w, hw, hval⟩ := hin ((hmem n).2 ⟨hn ▸ rfl, hscope⟩)
    refine ⟨w, hw, hval, fun hthen helse => ?_⟩
    rw [hthen, helse] at hscope
    exact hscope.elim nofun nofun
  · obtain ⟨hthen, helse⟩ := not_or.1 hscope
    rw [Option.not_isSome_iff_eq_none] at hthen helse
    refine ⟨before, hout fun h => hscope ((hmem n).1 h).2, ?_, fun _ _ => rfl⟩
    rw [afterIf, hthen, helse, Option.getD_none, ite_self]

end

end

/-! ## A nested `if` -/

/-- Nothing is combined, and nothing is known of the lines. -/
def plain : Settings := ⟨false, fun _ => false, intLookup⟩

/-- The variables `scope` with their lines, before the line `next`. -/
def before (scope : Scope) (next : ℕ) : State :=
  ⟨fun n => scope.lookup n, fun _ => [], [], [], next⟩

theorem sound_before (scope : Scope) (next : ℕ) (z : ℕ → ℤ) :
    (before scope next).Sound intLookup z :=
  ⟨nofun, nofun, nofun⟩

/-- The values of the lines `0`, `1`, … -/
def values (vs : List ℤ) (x : ℕ) : ℤ := vs.getD x 0

/-- Choices are merged. -/
def merging : Settings := ⟨true, fun _ => false, intLookup⟩

/-- In `if (c) { if (d) x = 9; }` the inner `if` has chosen `x` at line `7` by the condition of line
`1`, and `x` was at line `2`. -/
def nestedIf : State where
  vars n := [(.var "x", 2)].lookup n
  rhs line := if line = 7 then [.plus 6 2, .mux ⟨1, 3, 2⟩] else []
  memo := []
  emitted := []
  next := 8

/-- Both conditions are `1`: their product becomes the condition of one choice. -/
theorem expandMuxStatements_merged :
    let z := values [1, 1, 7, 9, -7, 2, 2, 9, 1, -7, 2, 2, 9]
    ∃ st', expandMuxStatements merging 0 [(.var "x", 7)] [] nestedIf = some st' ∧
      .mux ⟨8, 3, 2⟩ ∈ st'.rhs 12 ∧ st'.Holds intLookup z ∧
      ∃ w, st'.vars (.var "x") = some w ∧ z w = 9 := by
  intro z
  have hmux : (Mux.polynomial intLookup ⟨1, 3, 2⟩).eval z = 9 := Mux.eval_polynomial
    (intLookup_holds z) _
  have hlines : ∀ x r, r ∈ nestedIf.rhs x → x = 7 ∧ (r = .plus 6 2 ∨ r = .mux ⟨1, 3, 2⟩) := by
    intro x r hr
    by_cases hx : x = 7 <;> simp_all [nestedIf]
  have hsound : nestedIf.Sound intLookup z := by
    refine ⟨fun x r hr => ?_, fun x m hm => ?_, List.forall_mem_nil _⟩
    · obtain ⟨rfl, rfl | rfl⟩ := hlines x r hr
      · rfl
      · exact hmux.symm
    · obtain ⟨-, h | h⟩ := hlines x _ hm
      · cases h
      · obtain rfl := Rhs.mux.inj h
        exact .inr rfl
  obtain ⟨st', hst', hspec⟩ := @expandMuxStatements_correct z merging 0 [(.var "x", 7)] []
    (intLookup_holds _) (.inr rfl) nestedIf hsound (by decide)
  have hholds : st'.Holds intLookup z := by
    obtain rfl := Option.some.inj (Eq.trans rfl hst')
    intro e he
    rcases he with _ | ⟨_, _ | ⟨_, _ | ⟨_, _ | ⟨_, _ | ⟨_, he⟩⟩⟩⟩⟩ <;> first | rfl | cases he
  have hrhs : .mux ⟨8, 3, 2⟩ ∈ st'.rhs 12 := by
    obtain rfl := Option.some.inj (Eq.trans rfl hst')
    exact .tail _ (.head _)
  obtain ⟨w, hw, hval, -⟩ := (hspec hholds).2 (.var "x") 2 rfl fun _ _ _ _ => nofun
  exact ⟨st', hst', hrhs, hholds, w, hw, hval⟩

/-- The branch holds an `if` that assigns `x` as well, and so does a statement before: the
intermediate result `x:negB` is a variable to choose for. The condition is `0`, but `x:negB` ends
with the negated value of `x` and not with the `5` from before. -/
theorem expandMuxStatements_negB :
    let negB := Name.temp (.var "x") .negB
    let z := values [0, 7, 5, -7, 0, 0, 9, -5, -12, 0, 5, -7, 2, 0, 7]
    let st := before [(.var "x", 1), (negB, 2)] 7
    ∃ st', expandMuxStatements plain 0 [(negB, 3), (.var "x", 6)] [] st = some st' ∧
      st.Sound intLookup z ∧ st'.Holds intLookup z ∧ IsBit (z 0) ∧
      st.vars negB = some 2 ∧ ∃ w, st'.vars negB = some w ∧
        z w ≠ afterIf z 0 [(negB, 3), (.var "x", 6)] [] negB 2 := by
  refine ⟨_, rfl, sound_before _ _ _, ?_, .inl rfl, rfl, 11, rfl, by decide⟩
  intro e he
  rcases he with _ | ⟨_, _ | ⟨_, _ | ⟨_, _ | ⟨_, _ | ⟨_, _ | ⟨_, _ | ⟨_, _ | ⟨_, he⟩⟩⟩⟩⟩⟩⟩⟩ <;>
    first | rfl | cases he

end IfStatement

end Frontend

end Pequin
