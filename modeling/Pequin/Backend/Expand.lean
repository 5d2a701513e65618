import Mathlib.Algebra.BigOperators.Ring.List
import Mathlib.Algebra.Ring.Int.Defs
import Pequin.Backend.Constraint

/-!
# Expanding polynomials

`expand_polynomial` reads the tokens of a parenthesised polynomial once, from left to right, and
multiplies it out. A call keeps the product of the factors read so far in `multiply`, a list of
terms, and the terms that are complete in the dictionary `expansion`; a parenthesis is a recursive
call.

The empty list `multiply` stands for two things, a term of which nothing has been read and a product
that is zero. A factor that follows a parenthesis whose expansion is empty therefore starts the term
anew. Where a parenthesis that is zero is always the last factor of its term, the expansion has the
value of the polynomial.
-/

namespace Pequin

variable {ν : Type}

inductive Factor (ν : Type) where
  | int (c : ℤ)
  | name (x : ν)
  deriving DecidableEq, Repr

/-- What the order of texts and of dictionaries leaves open: `list.sort` on the factors of a term,
and the order in which a dictionary lists its values. -/
structure TextOrder (ν : Type) where
  sort : List (Factor ν) → List (Factor ν)
  sort_perm : ∀ l, (sort l).Perm l
  values : List (List (Factor ν)) → List (List (Factor ν))
  values_perm : ∀ l, (values l).Perm l

/-! ## The code -/

/-- The product of two factor lists has its constant at the start, and is the empty list of terms if
the constant is zero. The result is `none` if the assertion fails. -/
def productTerm : List (Factor ν) → List (Factor ν) → Option (List (List (Factor ν)))
  | [], _ => none
  | _ :: _, [] => none
  | .int c :: a, .int d :: b => some (if c * d = 0 then [] else [.int (c * d) :: (a ++ b)])
  | .name x :: a, .int d :: b => some [.int d :: (.name x :: a ++ b)]
  | s :: a, .name y :: b => some [s :: a ++ .name y :: b]

def productTerms (ts us : List (List (Factor ν))) : Option (List (List (Factor ν))) :=
  ((ts.flatMap fun t => us.map fun u => (t, u)).mapM fun p => productTerm p.1 p.2).map List.flatten

/-- The dictionary, with the coefficient and the key of each of its terms. -/
abbrev Expansion (ν : Type) := List (List (Factor ν) × ℤ)

/-- An entry is replaced by one with the sum of the coefficients, unless this is zero. -/
def Expansion.add [DecidableEq ν] (key : List (Factor ν)) (mults : ℤ) : Expansion ν → Expansion ν
  | [] => [(key, mults)]
  | (k, c) :: e =>
    if k = key then (if c + mults ≠ 0 then (key, c + mults) :: e else e)
    else (k, c) :: Expansion.add key mults e

def expandAddTerm [DecidableEq ν] (order : TextOrder ν) (e : Expansion ν) :
    List (Factor ν) → Expansion ν
  | .int a :: rest => e.add (order.sort rest) a
  | term => e.add (order.sort term) 1

structure Frame (ν : Type) where
  multiply : List (List (Factor ν))
  expansion : Expansion ν

namespace Frame
variable [DecidableEq ν] (order : TextOrder ν)

def init : Frame ν := ⟨[], []⟩

/-- The product is complete: its terms are added to the dictionary. -/
def flush (f : Frame ν) : Frame ν := ⟨[], f.multiply.foldl (expandAddTerm order) f.expansion⟩

def values (f : Frame ν) : List (List (Factor ν)) :=
  order.values ((f.flush order).expansion.map fun p => .int p.2 :: p.1)

def times (f : Frame ν) (sub : List (List (Factor ν))) : Option (Frame ν) :=
  if f.multiply = [] then some { f with multiply := sub }
  else (productTerms f.multiply sub).map fun m => { f with multiply := m }

def factor (f : Frame ν) (t : Factor ν) : Option (Frame ν) :=
  if f.multiply = [] then (productTerm [.int 1] [t]).map fun m => { f with multiply := m }
  else (productTerms [[t]] f.multiply).map fun m => { f with multiply := m }

end Frame

/-- The loop of `expand_polynomial`, with the frames of the calls that wait for the current one. The
outermost call returns its value and leaves the remaining tokens in the queue; `none` stands for an
exception. -/
def expandLoop [DecidableEq ν] (order : TextOrder ν) :
    List (Frame ν) → Frame ν → List (Token ν) → Option (List (List (Factor ν)) × List (Token ν))
  | _, _, [] => none
  | callers, f, .lpar :: rest => expandLoop order (f :: callers) .init rest
  | [], f, .rpar :: rest => some (f.values order, rest)
  | g :: callers, f, .rpar :: rest => do
    let g ← g.times (f.values order)
    expandLoop order callers g rest
  | callers, f, .plus :: rest => expandLoop order callers (f.flush order) rest
  | callers, f, .minus :: rest =>
    expandLoop order callers { f.flush order with multiply := [[.int (-1)]] } rest
  | callers, f, .star :: rest => expandLoop order callers f rest
  | callers, f, .int c :: rest => do
    let f ← f.factor (.int c)
    expandLoop order callers f rest
  | callers, f, .name x :: rest => do
    let f ← f.factor (.name x)
    expandLoop order callers f rest

def expandPolynomial [DecidableEq ν] (order : TextOrder ν) :
    List (Token ν) → Option (List (List (Factor ν)) × List (Token ν))
  | .lpar :: rest => expandLoop order [] .init rest
  | _ => none

/-! ## Values -/

section
variable (z : ν → ℤ)

def Factor.eval : Factor ν → ℤ
  | .int c => c
  | .name x => z x

def termEval (t : List (Factor ν)) : ℤ := (t.map (Factor.eval z)).prod

def termsEval (ts : List (List (Factor ν))) : ℤ := (ts.map (termEval z)).sum

def Expansion.eval (e : Expansion ν) : ℤ := (e.map fun p => p.2 * termEval z p.1).sum

theorem termEval_int (c : ℤ) (t : List (Factor ν)) :
    termEval z (.int c :: t) = c * termEval z t := List.prod_cons

theorem termsEval_perm {ts us : List (List (Factor ν))} (h : ts.Perm us) :
    termsEval z ts = termsEval z us := (h.map _).sum_eq

theorem Expansion.eval_cons (p : List (Factor ν) × ℤ) (e : Expansion ν) :
    Expansion.eval z (p :: e) = p.2 * termEval z p.1 + e.eval z := List.sum_cons

theorem Expansion.eval_add [DecidableEq ν] (key : List (Factor ν)) (c : ℤ) (e : Expansion ν) :
    (e.add key c).eval z = e.eval z + c * termEval z key := by
  induction e with
  | nil => simp [Expansion.add, Expansion.eval]
  | cons p e ih =>
    obtain ⟨k, d⟩ := p
    rw [Expansion.add]
    split
    · next hk =>
      rw [Expansion.eval_cons, hk]
      split
      · rw [Expansion.eval_cons]
        ring
      · next h0 =>
        rw [not_not] at h0
        rw [add_right_comm, ← add_mul, h0, zero_mul, zero_add]
    · rw [Expansion.eval_cons, Expansion.eval_cons, ih]
      ring

theorem eval_expandAddTerm [DecidableEq ν] (order : TextOrder ν) (e : Expansion ν)
    (t : List (Factor ν)) : (expandAddTerm order e t).eval z = e.eval z + termEval z t := by
  have hsort : ∀ l, termEval z (order.sort l) = termEval z l :=
    fun l => ((order.sort_perm l).map _).prod_eq
  rw [expandAddTerm.eq_def]
  split
  · rw [Expansion.eval_add, hsort, termEval_int]
  · rw [Expansion.eval_add, hsort, one_mul]

theorem eval_flush [DecidableEq ν] (order : TextOrder ν) (f : Frame ν) :
    (f.flush order).expansion.eval z = f.expansion.eval z + termsEval z f.multiply := by
  obtain ⟨m, e⟩ := f
  show Expansion.eval z (m.foldl (expandAddTerm order) e) = e.eval z + termsEval z m
  induction m generalizing e with
  | nil => exact (add_zero _).symm
  | cons t m ih =>
    rw [List.foldl_cons, ih, eval_expandAddTerm, add_assoc]
    exact congrArg _ List.sum_cons.symm

theorem termsEval_values [DecidableEq ν] (order : TextOrder ν) (f : Frame ν) :
    termsEval z (f.values order) = f.expansion.eval z + termsEval z f.multiply := by
  rw [← eval_flush z order, Frame.values, termsEval_perm z (order.values_perm _)]
  simp only [termsEval, List.map_map, Expansion.eval, Function.comp_def, termEval_int]

end

/-! ## Reading a polynomial -/

def LinearTerm (t : List (Factor ν)) : Prop :=
  ∃ c : ℤ, c ≠ 0 ∧ (t = [.int c] ∨ ∃ x, t = [.int c, .name x])

/-- The product before the variable or the parenthesis of a term, `d` with the sign: nothing has
been read, or constants only. -/
inductive Lead : List (List (Factor ν)) → ℤ → Prop where
  | nil : Lead [] 1
  | const {d : ℤ} (h : d ≠ 0) : Lead [[.int d]] d

theorem productTerm_linear {c : ℤ} (hc : c ≠ 0) {t : List (Factor ν)} (ht : LinearTerm t) :
    ∃ u, productTerm [.int c] t = some [u] ∧ LinearTerm u ∧
      ∀ z : ν → ℤ, termEval z u = c * termEval z t := by
  obtain ⟨d, hd, rfl | ⟨x, rfl⟩⟩ := ht
  · refine ⟨[.int (c * d)], ?_, ⟨c * d, mul_ne_zero hc hd, .inl rfl⟩, fun z => ?_⟩
    · rw [productTerm, if_neg (mul_ne_zero hc hd)]
      rfl
    · simp only [termEval_int]
      ring
  · refine ⟨[.int (c * d), .name x], ?_, ⟨c * d, mul_ne_zero hc hd, .inr ⟨x, rfl⟩⟩, fun z => ?_⟩
    · rw [productTerm, if_neg (mul_ne_zero hc hd)]
      rfl
    · simp only [termEval_int]
      ring

theorem productTerms_linear {c : ℤ} (hc : c ≠ 0) {ts : List (List (Factor ν))}
    (hts : ∀ t ∈ ts, LinearTerm t) :
    ∃ us, productTerms [[.int c]] ts = some us ∧ (∀ u ∈ us, LinearTerm u) ∧
      (us = [] ↔ ts = []) ∧ ∀ z : ν → ℤ, termsEval z us = c * termsEval z ts := by
  induction ts with
  | nil => exact ⟨[], rfl, List.forall_mem_nil _, Iff.rfl, fun z => (mul_zero c).symm⟩
  | cons t ts ih =>
    obtain ⟨us, hus, hlin, -, hval⟩ := ih fun t ht => hts t (List.mem_cons_of_mem _ ht)
    obtain ⟨u, hu, hulin, huval⟩ := productTerm_linear hc (hts t List.mem_cons_self)
    refine ⟨u :: us, ?_, List.forall_mem_cons.2 ⟨hulin, hlin⟩, by simp, fun z => ?_⟩
    · simp only [productTerms, List.flatMap_singleton] at hus ⊢
      obtain ⟨vs, hvs, rfl⟩ := Option.map_eq_some_iff.1 hus
      rw [List.map_cons, List.mapM_cons, hu, hvs]
      rfl
    · simp only [termsEval, List.map_cons, List.sum_cons] at hval ⊢
      rw [huval z, hval z, mul_add]

/-- The loop reads the tokens in the frame `f` and is in the frame `f'` then. -/
def Reads [DecidableEq ν] (order : TextOrder ν) (toks : List (Token ν)) (f f' : Frame ν) : Prop :=
  ∀ callers rest, expandLoop order callers f (toks ++ rest) = expandLoop order callers f' rest

namespace Reads
variable [DecidableEq ν] {order : TextOrder ν} {f f' f'' : Frame ν}

theorem nil : Reads order [] f f := fun _ _ => rfl

theorem append {toks toks' : List (Token ν)} (h : Reads order toks f f')
    (h' : Reads order toks' f' f'') : Reads order (toks ++ toks') f f'' := by
  intro callers rest
  rw [List.append_assoc, h, h']

theorem cons {tok : Token ν} {toks : List (Token ν)} (h : Reads order [tok] f f')
    (h' : Reads order toks f' f'') : Reads order (tok :: toks) f f'' := h.append h'

theorem star : Reads order [.star] f f := fun _ _ => rfl

theorem plus : Reads order [.plus] f (f.flush order) := fun _ _ => rfl

theorem minus : Reads order [.minus] f { f.flush order with multiply := [[.int (-1)]] } :=
  fun _ _ => rfl

theorem int {c : ℤ} (h : f.factor (.int c) = some f') : Reads order [.int c] f f' := by
  intro callers rest
  show (f.factor (.int c)).bind _ = _
  rw [h]
  rfl

theorem name {x : ν} (h : f.factor (.name x) = some f') : Reads order [.name x] f f' := by
  intro callers rest
  show (f.factor (.name x)).bind _ = _
  rw [h]
  rfl

/-- A parenthesis is a call with a frame of its own. -/
theorem paren {g : Frame ν} {toks : List (Token ν)} (h : Reads order toks .init g)
    (hg : f.times (g.values order) = some f') :
    Reads order (.lpar :: (toks ++ [.rpar])) f f' := by
  intro callers rest
  show expandLoop order (f :: callers) .init (toks ++ [.rpar] ++ rest) = _
  rw [List.append_assoc, h]
  show (f.times (g.values order)).bind _ = _
  rw [hg]
  rfl

end Reads

section
variable {m : List (List (Factor ν))} {e : Expansion ν} {d : ℤ}

theorem Lead.factor_int (h : Lead m d) {c : ℤ} (hc : c ≠ 0) :
    (Frame.mk m e).factor (.int c) = some ⟨[[.int (c * d)]], e⟩ := by
  cases h with
  | nil =>
    simp only [Frame.factor, if_true, productTerm, one_mul, if_neg hc, mul_one]
    rfl
  | const hd =>
    have hcd := mul_ne_zero hc hd
    simp [Frame.factor, productTerms, productTerm, hc, hd]

theorem Lead.factor_name (h : Lead m d) (x : ν) :
    (Frame.mk m e).factor (.name x) = some ⟨[[.int d, .name x]], e⟩ := by
  cases h with
  | nil => rfl
  | const hd => rfl

/-- The constant `0` makes the product empty. -/
theorem Lead.factor_zero (h : Lead m d) : (Frame.mk m e).factor (.int 0) = some ⟨[], e⟩ := by
  cases h with
  | nil => rfl
  | const hd => simp [Frame.factor, productTerms, productTerm]

/-- What a recursive call returns is multiplied to constants. -/
theorem Lead.times (h : Lead m d) {sub : List (List (Factor ν))} (hsub : ∀ t ∈ sub, LinearTerm t) :
    ∃ m', (Frame.mk m e).times sub = some ⟨m', e⟩ ∧ (∀ t ∈ m', LinearTerm t) ∧
      (m' = [] ↔ sub = []) ∧ ∀ z : ν → ℤ, termsEval z m' = d * termsEval z sub := by
  cases h with
  | nil => exact ⟨sub, rfl, hsub, Iff.rfl, fun z => (one_mul _).symm⟩
  | const hd =>
    obtain ⟨us, hus, hlin, hnil, hval⟩ := productTerms_linear hd hsub
    refine ⟨us, ?_, hlin, hnil, hval⟩
    rw [Frame.times, if_neg (List.cons_ne_nil _ _), hus]
    rfl

theorem Lead.ne_zero (h : Lead m d) : d ≠ 0 := by
  cases h with
  | nil => exact one_ne_zero
  | const hd => exact hd

end

section
variable [DecidableEq ν] (order : TextOrder ν) {m : List (List (Factor ν))}
  {e : Expansion ν} {d : ℤ}

theorem Lead.preTokens (h : Lead m d) (pre : List NonzeroInt) :
    ∃ m', Lead m' (constProd pre * d) ∧ Reads order (preTokens pre) ⟨m, e⟩ ⟨m', e⟩ := by
  induction pre generalizing m d with
  | nil => exact ⟨m, by rwa [constProd_nil, one_mul], .nil⟩
  | cons c pre ih =>
    obtain ⟨m', hm', hreads⟩ := ih (.const (mul_ne_zero c.2 h.ne_zero))
    refine ⟨m', ?_, .cons (.int (h.factor_int c.2)) (.cons .star hreads)⟩
    rw [constProd_cons]
    convert hm' using 1
    ring

/-- Constants after a product that is not empty. -/
theorem reads_constTokens (hm : ∀ t ∈ m, LinearTerm t) (post : List NonzeroInt)
    (hpost : post = [] ∨ m ≠ []) :
    ∃ m', Reads order (constTokens post) ⟨m, e⟩ ⟨m', e⟩ ∧ (∀ t ∈ m', LinearTerm t) ∧
      ∀ z : ν → ℤ, termsEval z m' = constProd post * termsEval z m := by
  induction post generalizing m with
  | nil => exact ⟨m, .nil, hm, fun z => (one_mul _).symm⟩
  | cons c post ih =>
    have hne := hpost.resolve_left (List.cons_ne_nil c post)
    obtain ⟨us, hus, hlin, hnil, hval⟩ := productTerms_linear c.2 hm
    obtain ⟨m', hreads, hlin', hval'⟩ := ih hlin (.inr fun h => hne (hnil.1 h))
    have hfactor : (Frame.mk m e).factor (.int c) = some ⟨us, e⟩ := by
      rw [Frame.factor, if_neg hne, hus]
      rfl
    refine ⟨m', .cons .star (.cons (.int hfactor) hreads), hlin', fun z => ?_⟩
    rw [hval', hval, constProd_cons]
    ring

end

/-! ## The expansion is linear -/

def LinearExpansion (e : Expansion ν) : Prop := ∀ p ∈ e, LinearTerm (.int p.2 :: p.1)

theorem LinearExpansion.add [DecidableEq ν] {e : Expansion ν} (h : LinearExpansion e)
    {key : List (Factor ν)} {c : ℤ} (hc : LinearTerm (.int c :: key)) :
    LinearExpansion (e.add key c) := by
  induction e with
  | nil => exact List.forall_mem_singleton.2 hc
  | cons p e ih =>
    obtain ⟨k, d⟩ := p
    obtain ⟨hp, he⟩ := List.forall_mem_cons.1 h
    rw [Expansion.add]
    split
    · split
      · next h0 =>
        refine List.forall_mem_cons.2 ⟨⟨d + c, h0, ?_⟩, he⟩
        obtain ⟨c', -, hkey⟩ := hc
        refine hkey.imp (fun hk => ?_) fun ⟨x, hk⟩ => ⟨x, ?_⟩
        · rw [(List.cons.inj hk).2]
        · rw [(List.cons.inj hk).2]
      · exact he
    · exact List.forall_mem_cons.2 ⟨hp, ih he⟩

theorem LinearExpansion.flush [DecidableEq ν] (order : TextOrder ν) {f : Frame ν}
    (he : LinearExpansion f.expansion) (hm : ∀ t ∈ f.multiply, LinearTerm t) :
    LinearExpansion (f.flush order).expansion := by
  obtain ⟨m, e⟩ := f
  show LinearExpansion (m.foldl (expandAddTerm order) e)
  induction m generalizing e with
  | nil => exact he
  | cons t m ih =>
    obtain ⟨ht, hm⟩ := List.forall_mem_cons.1 hm
    refine ih (expandAddTerm order e t) ?_ hm
    obtain ⟨c, hc, rfl | ⟨x, rfl⟩⟩ := ht
    · have : order.sort ([] : List (Factor ν)) = [] := (order.sort_perm []).eq_nil
      rw [expandAddTerm, this]
      exact he.add ⟨c, hc, .inl rfl⟩
    · have : order.sort [Factor.name x] = [.name x] := List.perm_singleton.1 (order.sort_perm _)
      rw [expandAddTerm, this]
      exact he.add ⟨c, hc, .inr ⟨x, rfl⟩⟩

theorem LinearExpansion.values [DecidableEq ν] (order : TextOrder ν) {f : Frame ν}
    (he : LinearExpansion f.expansion) (hm : ∀ t ∈ f.multiply, LinearTerm t) :
    ∀ t ∈ f.values order, LinearTerm t := by
  intro t ht
  obtain ⟨p, hp, rfl⟩ := List.mem_map.1 ((order.values_perm _).mem_iff.1 ht)
  exact he.flush order hm p hp

/-! ## Polynomials -/

mutual
/-- A parenthesis that is zero for all values of the variables is the last factor of its term. -/
def Term.ZeroLast : Term ν → Prop
  | .zero | .const .. | .var .. => True
  | .paren _ s post => s.ZeroLast ∧ (post = [] ∨ ∃ z : ν → ℤ, s.eval z ≠ 0)

def Sum.ZeroLast : Sum ν → Prop
  | .first _ t => t.ZeroLast
  | .snoc s _ t => s.ZeroLast ∧ t.ZeroLast
end


section
variable [DecidableEq ν] (order : TextOrder ν)

/-- A sign completes the term before it. -/
theorem Sign.reads (sgn : Sign) (f : Frame ν) :
    ∃ m d, Lead m d ∧ Reads order sgn.tokens f ⟨m, (f.flush order).expansion⟩ ∧
      ∀ v : ℤ, d * v = sgn.apply v := by
  obtain ⟨afterPlus, neg⟩ := sgn
  cases neg with
  | false =>
    refine ⟨[], 1, .nil, ?_, fun v => one_mul v⟩
    cases afterPlus with
    | false => exact .plus
    | true => exact .cons .plus .plus
  | true =>
    refine ⟨[[.int (-1)]], -1, .const (by decide), ?_, fun v => neg_one_mul v⟩
    cases afterPlus with
    | false => exact .minus
    | true => exact .cons .plus .minus

mutual
theorem Term.reads {m : List (List (Factor ν))} {e : Expansion ν} {d : ℤ} (h : Lead m d) :
    (t : Term ν) → t.ZeroLast →
      ∃ m', Reads order t.tokens ⟨m, e⟩ ⟨m', e⟩ ∧ (∀ t ∈ m', LinearTerm t) ∧
        ∀ z : ν → ℤ, termsEval z m' = d * t.eval z
  | .zero, _ => by
    refine ⟨[], .int h.factor_zero, List.forall_mem_nil _, fun z => ?_⟩
    rw [Term.eval, mul_zero]
    rfl
  | .const c cs, _ => by
    have hlin : ∀ t ∈ [[Factor.int (c * d)]], LinearTerm (ν := ν) t :=
      List.forall_mem_singleton.2 ⟨c * d, mul_ne_zero c.2 h.ne_zero, .inl rfl⟩
    obtain ⟨m', hreads, hlin', hval⟩ :=
      reads_constTokens order (e := e) hlin cs (.inr (List.cons_ne_nil _ _))
    refine ⟨m', .cons (.int (h.factor_int c.2)) hreads, hlin', fun z => ?_⟩
    rw [hval]
    simp [termsEval, termEval, Factor.eval, Term.eval]
    ring
  | .var pre x post, _ => by
    obtain ⟨m₁, hlead, hpre⟩ := h.preTokens order (e := e) pre
    have hlin : ∀ t ∈ [[Factor.int (constProd pre * d), .name x]], LinearTerm t :=
      List.forall_mem_singleton.2 ⟨_, hlead.ne_zero, .inr ⟨x, rfl⟩⟩
    obtain ⟨m', hreads, hlin', hval⟩ :=
      reads_constTokens order (e := e) hlin post (.inr (List.cons_ne_nil _ _))
    refine ⟨m', hpre.append (.cons (.name (hlead.factor_name x)) hreads), hlin', fun z => ?_⟩
    rw [hval]
    simp [termsEval, termEval, Factor.eval, Term.eval]
    ring
  | .paren pre s post, ⟨hs, hpost⟩ => by
    obtain ⟨m₁, hlead, hpre⟩ := h.preTokens order (e := e) pre
    obtain ⟨g, hg, hm, he, hgval⟩ := s.reads hs (List.forall_mem_nil _ : LinearExpansion [])
    have hsub : ∀ z : ν → ℤ, termsEval z (g.values order) = s.eval z := by
      intro z
      rw [termsEval_values, hgval]
      exact zero_add _
    obtain ⟨m₂, htimes, hlin, hnil, hval⟩ := hlead.times (e := e) (he.values order hm)
    -- a parenthesis that is not zero has terms
    have hpost' : post = [] ∨ m₂ ≠ [] := by
      refine hpost.imp_right fun ⟨z, hz⟩ hm₂ => hz ?_
      rw [← hsub, hnil.1 hm₂]
      rfl
    obtain ⟨m', hreads, hlin', hval'⟩ := reads_constTokens order (e := e) hlin post hpost'
    refine ⟨m', ?_, hlin', fun z => ?_⟩
    · have := hpre.append ((Reads.paren hg htimes).append hreads)
      simpa [Term.tokens] using this
    · rw [hval', hval, hsub, Term.eval]
      simp only [Int.cast_eq]
      ring

theorem Sum.reads {e : Expansion ν} : (s : Sum ν) → s.ZeroLast → LinearExpansion e →
    ∃ f' : Frame ν, Reads order s.tokens ⟨[], e⟩ f' ∧ (∀ t ∈ f'.multiply, LinearTerm t) ∧
      LinearExpansion f'.expansion ∧
        ∀ z : ν → ℤ, f'.expansion.eval z + termsEval z f'.multiply = e.eval z + s.eval z
  | .first none t, ht, he => by
    obtain ⟨m', hreads, hlin, hval⟩ := t.reads .nil ht
    refine ⟨⟨m', e⟩, hreads, hlin, he, fun z => ?_⟩
    rw [hval, one_mul]
    rfl
  | .first (some sgn) t, ht, he => by
    obtain ⟨m, d, hlead, hsgn, hd⟩ := sgn.reads order ⟨[], e⟩
    obtain ⟨m', hreads, hlin, hval⟩ := t.reads hlead ht
    refine ⟨⟨m', e⟩, hsgn.append hreads, hlin, he, fun z => ?_⟩
    rw [hval, hd]
    rfl
  | .snoc s sep t, ⟨hs, ht⟩, he => by
    obtain ⟨f, hf, hm, hexp, hfval⟩ := s.reads hs he
    obtain ⟨m, d, hlead, hsgn, hd⟩ := sep.reads order f
    obtain ⟨m', hreads, hlin, hval⟩ := t.reads hlead ht
    refine ⟨⟨m', (f.flush order).expansion⟩, (hf.append hsgn).append hreads, hlin, hexp.flush order
      hm, fun z => ?_⟩
    rw [hval, hd, eval_flush, hfval, Sum.eval, add_assoc]
end

/-- The expansion of a part of a line has linear terms, and its value. -/
theorem Poly.expand {q : Poly ν} (hq : ∀ s ∈ q, s.ZeroLast) (rest : List (Token ν)) :
    ∃ ts, expandPolynomial order (.lpar :: (q.tokens ++ .rpar :: rest)) = some (ts, rest) ∧
      (∀ t ∈ ts, LinearTerm t) ∧ ∀ z : ν → ℤ, termsEval z ts = q.eval z := by
  cases q with
  | none =>
    refine ⟨Frame.values order .init, rfl, ?_, fun z => ?_⟩
    · exact LinearExpansion.values order (f := .init) (List.forall_mem_nil _)
        (List.forall_mem_nil _)
    · exact termsEval_values z order .init
  | some s =>
    obtain ⟨g, hg, hm, he, hval⟩ :=
      s.reads order (hq s rfl) (List.forall_mem_nil _ : LinearExpansion [])
    refine ⟨g.values order, hg [] (.rpar :: rest), he.values order hm, fun z => ?_⟩
    rw [termsEval_values, hval]
    exact zero_add _

end

end Pequin
