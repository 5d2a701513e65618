import Pequin.Backend.Prover

/-!
# Worksheet lines for polynomial constraints

For a line `( A ) * ( B ) + ( C )` whose last term is the variable to compute, the backend writes
one polynomial command, and a division when that variable has a constant factor. The line is read
back from its tokens, and so is the polynomial in the prover; both are one pass machines. Each is
followed here through the tokens of a `Sum`.
-/

namespace Pequin

/-! ## Generating the commands -/

/-- Reads up to the parenthesis that closes the `nesting` open ones, and drops that parenthesis. -/
def readPolyLoop {ν : Type} : ℕ → List (Token ν) → Option (List (Token ν) × List (Token ν))
  | _, [] => none
  | nesting, .rpar :: toks =>
    if nesting = 1 then some ([], toks)
    else (readPolyLoop (nesting - 1) toks).map fun (read, rest) => (.rpar :: read, rest)
  | nesting, .lpar :: toks =>
    (readPolyLoop (nesting + 1) toks).map fun (read, rest) => (.lpar :: read, rest)
  | nesting, tok :: toks =>
    (readPolyLoop nesting toks).map fun (read, rest) => (tok :: read, rest)

def readPoly {ν : Type} : List (Token ν) → Option (List (Token ν) × List (Token ν))
  | .lpar :: toks => readPolyLoop 1 toks
  | _ => none

/-- Splits `… - T` into `…`, the constant `1` and `T`, and `… - c * T` into `…`, `c` and `T`. -/
def getPolyOutput {ν : Type} (toks : List (Token ν)) :
    Option (List (Token ν) × Token ν × Token ν) :=
  match toks.reverse with
  | target :: .star :: constant :: .minus :: rest => some (rest.reverse, constant, target)
  | target :: .minus :: rest => some (rest.reverse, .int 1, target)
  | _ => none

def Token.arg? {ν : Type} : Token ν → Option (Arg ν)
  | .int c => some (.const c)
  | .name x => some (.var x)
  | _ => none

/-- The commands for a polynomial constraint; `none` is one of the format errors. -/
def generateComputationPolyLine (line : List (Token Name)) : Option (List Cmd) := do
  let (polyA, toks) ← readPoly line
  let .star :: toks := toks | none
  let (polyB, toks) ← readPoly toks
  let .plus :: toks := toks | none
  let (polyC, _) ← readPoly toks
  let (polyC, constant, target) ← getPolyOutput polyC
  if polyA.isEmpty != polyB.isEmpty then none
  let product := if polyA.isEmpty then []
    else .lpar :: polyA ++ [.rpar, .star, .lpar] ++ polyB ++ [.rpar]
  let poly := if polyC.isEmpty then product
    else if polyA.isEmpty then polyC
    else product ++ .plus :: polyC
  let y ← target.arg?
  if constant = .int 1 then return [.poly y poly]
  else return [.poly y poly, .exactDivide y y (← constant.arg?)]

/-! ## Reading back a line -/

section
variable {ν : Type}

/-- A block of tokens with balanced parentheses: reading passes over it. -/
def Balanced (block : List (Token ν)) : Prop :=
  ∀ nesting rest, 0 < nesting → readPolyLoop nesting (block ++ rest) =
    (readPolyLoop nesting rest).map fun (read, rest) => (block ++ read, rest)

theorem Balanced.nil : Balanced ([] : List (Token ν)) := by
  intro nesting rest _
  cases h : readPolyLoop nesting rest <;> simp [h]

theorem Balanced.append {left right : List (Token ν)} (hl : Balanced left)
    (hr : Balanced right) : Balanced (left ++ right) := by
  intro nesting rest hn
  rw [List.append_assoc, hl nesting _ hn, hr nesting _ hn]
  cases readPolyLoop nesting rest <;> simp

variable {block : List (Token ν)}

theorem Balanced.cons {tok : Token ν} (hl : tok ≠ .lpar) (hr : tok ≠ .rpar) (h : Balanced block) :
    Balanced (tok :: block) := by
  intro nesting rest hn
  have hstep : readPolyLoop nesting (tok :: (block ++ rest)) =
      (readPolyLoop nesting (block ++ rest)).map fun (read, rest) => (tok :: read, rest) := by
    cases tok <;> simp_all [readPolyLoop]
  rw [List.cons_append, hstep, h nesting rest hn]
  cases readPolyLoop nesting rest <;> simp

theorem Balanced.paren (h : Balanced block) : Balanced (.lpar :: (block ++ [.rpar])) := by
  intro nesting rest hn
  have hne : nesting + 1 ≠ 1 := by omega
  simp only [List.cons_append, List.append_assoc, List.nil_append, readPolyLoop]
  rw [h (nesting + 1) _ (by omega)]
  simp only [readPolyLoop, if_neg hne, Nat.add_sub_cancel]
  cases readPolyLoop nesting rest <;> simp

theorem balanced_constTokens (cs : List NonzeroInt) :
    Balanced (constTokens cs : List (Token ν)) := by
  induction cs with
  | nil => exact .nil
  | cons c cs ih => exact .cons nofun nofun (.cons nofun nofun ih)

theorem balanced_preTokens (cs : List NonzeroInt) : Balanced (preTokens cs : List (Token ν)) := by
  induction cs with
  | nil => exact .nil
  | cons c cs ih => exact .cons nofun nofun (.cons nofun nofun ih)

theorem balanced_signTokens (s : Sign) : Balanced (s.tokens : List (Token ν)) := by
  rcases s with ⟨_ | _, _ | _⟩ <;> simp only [Sign.tokens] <;>
    first
    | exact .cons nofun nofun .nil
    | exact .cons nofun nofun (.cons nofun nofun .nil)

mutual
theorem Term.balanced : (t : Term ν) → Balanced t.tokens
  | .zero => .cons nofun nofun .nil
  | .const _ cs => .cons nofun nofun (balanced_constTokens cs)
  | .var pre _ post =>
    (balanced_preTokens pre).append (.cons nofun nofun (balanced_constTokens post))
  | .paren pre s post => by
    have h := (balanced_preTokens pre).append (s.balanced.paren.append (balanced_constTokens post))
    simpa [Term.tokens] using h

theorem Sum.balanced : (s : Sum ν) → Balanced s.tokens
  | .first none t => by simpa [Sum.tokens] using t.balanced
  | .first (some sgn) t => by
    simpa [Sum.tokens] using (balanced_signTokens sgn).append t.balanced
  | .snoc s sep t => by
    simpa [Sum.tokens] using s.balanced.append ((balanced_signTokens sep).append t.balanced)
end

theorem Poly.balanced : (q : Poly ν) → Balanced q.tokens
  | none => .nil
  | some s => s.balanced

theorem Balanced.readPoly (h : Balanced block) (rest : List (Token ν)) :
    readPoly (.lpar :: (block ++ .rpar :: rest)) = some (block, rest) := by
  rw [Pequin.readPoly, h 1 _ (by omega)]
  simp [readPolyLoop]

theorem readPoly_tokens (q : Poly ν) (rest : List (Token ν)) :
    readPoly (.lpar :: (q.tokens ++ .rpar :: rest)) = some (q.tokens, rest) :=
  q.balanced.readPoly rest

end

/-! ## Evaluating in the prover -/

mutual
def Term.depth {ν : Type} : Term ν → ℕ
  | .paren _ s _ => s.depth + 1
  | _ => 0

def Sum.depth {ν : Type} : Sum ν → ℕ
  | .first _ t => t.depth
  | .snoc s _ t => max s.depth t.depth
end

namespace PolyAcc

@[simp] theorem factor_factor (acc : PolyAcc) (v w : ℚ) :
    (acc.factor v).factor w = acc.factor (v * w) := by
  cases h : acc.hasFactors <;> simp [factor, h, mul_assoc]

/-- Between two terms: `v` is the sum so far, and the next term is subtracted if `neg`. -/
structure Ready (acc : PolyAcc) (v : ℚ) (neg : Bool) : Prop where
  hasFactors : acc.hasFactors = false
  negate : acc.negate = neg
  hasTerms : acc.hasTerms = !acc.isEmpty
  value : (if acc.isEmpty then 0 else acc.polyTarget) = v

/-- After a term: `v` is the sum with that term. -/
structure Done (acc : PolyAcc) (v : ℚ) : Prop where
  hasFactors : acc.hasFactors = true
  hasTerms : acc.hasTerms = !acc.isEmpty
  value : acc.result = v

theorem ready_init : init.Ready 0 false := ⟨rfl, rfl, rfl, rfl⟩

variable {acc : PolyAcc} {v : ℚ} {neg : Bool}

theorem Ready.factor (h : acc.Ready v neg) (w : ℚ) :
    (acc.factor w).Done (if neg then v - w else v + w) := by
  obtain ⟨hf, hn, ht, hv⟩ := h
  refine ⟨rfl, ht, ?_⟩
  subst hv hn
  cases he : acc.isEmpty <;> cases hneg : acc.negate <;>
    simp [result, emit, PolyAcc.factor, hf, ht, he, hneg, sub_eq_add_neg]

theorem Done.emit (h : acc.Done v) : acc.emit.Ready v false := by
  obtain ⟨hf, ht, hv⟩ := h
  have he : acc.emit.isEmpty = false := by simp [PolyAcc.emit, hf]
  refine ⟨by simp [PolyAcc.emit, hf], by simp [PolyAcc.emit, hf], by simp [PolyAcc.emit, hf], ?_⟩
  simpa [result, he] using hv

theorem Ready.emit_eq (h : acc.Ready v neg) :
    acc.emit = acc := by simp [PolyAcc.emit, h.hasFactors]

theorem Ready.result (h : acc.Ready v neg) : acc.result = v := by
  rw [PolyAcc.result, h.emit_eq, h.value]

theorem Ready.flip (h : acc.Ready v neg) :
    ({ acc with negate := !acc.negate } : PolyAcc).Ready v !neg :=
  ⟨h.hasFactors, by simp [h.negate], h.hasTerms, h.value⟩

end PolyAcc

section
variable (vals : Name → ℚ)

/-- A block of tokens that acts as one factor `v`, whatever stands before and after it. -/
def Factors (calls : List PolyAcc) (block : List (Token Name)) (v : ℚ) : Prop :=
  ∀ acc rest, computePoly vals (block ++ rest) calls acc =
    computePoly vals rest calls (acc.factor v)

variable {vals} {calls : List PolyAcc}

variable {block : List (Token Name)}

theorem Factors.post {v : ℚ} (h : Factors vals calls block v) (cs : List NonzeroInt) :
    Factors vals calls (block ++ constTokens cs) (v * (constProd cs : ℚ)) := by
  induction cs generalizing block v with
  | nil => simpa [constTokens] using h
  | cons c cs ih =>
    have hc : Factors vals calls (block ++ [.star, .int c]) (v * (c : ℤ)) := by
      intro acc rest
      rw [List.append_assoc, h]
      simp [computePoly]
    simpa [constTokens, mul_assoc] using ih hc

theorem Factors.pre {v : ℚ} (h : Factors vals calls block v) (cs : List NonzeroInt) :
    Factors vals calls (preTokens cs ++ block) ((constProd cs : ℚ) * v) := by
  induction cs with
  | nil => simpa [preTokens] using h
  | cons c cs ih =>
    intro acc rest
    simp only [preTokens, List.cons_append, computePoly]
    rw [ih]
    simp [mul_assoc]

theorem factors_int (c : ℤ) : Factors vals calls [.int c] c := fun _ _ => by simp [computePoly]

theorem factors_name (x : Name) : Factors vals calls [.name x] (vals x) :=
  fun _ _ => by simp [computePoly]

theorem Factors.mul {block block' : List (Token Name)} {v w : ℚ} (h : Factors vals calls block v)
    (h' : Factors vals calls block' w) : Factors vals calls (block ++ .star :: block') (v * w) := by
  intro acc rest
  rw [List.append_assoc, h, List.cons_append, computePoly, h', PolyAcc.factor_factor]

/-- A sum read from a state between terms. -/
def Adds (vals : Name → ℚ) (calls : List PolyAcc) (block : List (Token Name)) (v : ℚ) : Prop :=
  ∀ acc v₀, acc.Ready v₀ false → ∃ acc', acc'.Done (v₀ + v) ∧
    ∀ rest, computePoly vals (block ++ rest) calls acc = computePoly vals rest calls acc'

theorem Adds.paren {v : ℚ} (hcalls : calls.length + 1 < polyCalls)
    (h : ∀ acc, Adds vals (acc :: calls) block v) :
    Factors vals calls (.lpar :: (block ++ [.rpar])) v := by
  intro acc rest
  obtain ⟨acc', hdone, hrun⟩ := h acc .init 0 PolyAcc.ready_init
  simp only [List.cons_append, List.append_assoc, List.nil_append, computePoly, if_pos hcalls]
  rw [hrun]
  simp [computePoly, hdone.value]

/-- A sign and a term, after a term. -/
theorem Factors.signed {v : ℚ} (h : Factors vals calls block v) (sep : Sign) {acc : PolyAcc}
    {v₀ : ℚ} (hacc : acc.emit.Ready v₀ false) :
    ∃ acc', acc'.Done (v₀ + sep.apply v) ∧
      ∀ rest, computePoly vals (sep.tokens ++ block ++ rest) calls acc =
        computePoly vals rest calls acc' := by
  rcases sep with ⟨afterPlus, neg⟩
  -- a second sign finds nothing to emit
  have hemit := hacc.emit_eq
  cases neg with
  | false =>
    refine ⟨acc.emit.factor v, by simpa [Sign.apply] using hacc.factor v, fun rest => ?_⟩
    cases afterPlus <;> simp [Sign.tokens, computePoly, hemit, h acc.emit rest]
  | true =>
    refine ⟨({ acc.emit with negate := !acc.emit.negate } : PolyAcc).factor v, ?_, fun rest => ?_⟩
    · simpa [Sign.apply, sub_eq_add_neg] using hacc.flip.factor v
    · cases afterPlus <;> simp [Sign.tokens, computePoly, hemit, h _ rest]

mutual
theorem Term.factors (t : Term Name) (calls : List PolyAcc)
    (hdepth : calls.length + t.depth < polyCalls) :
    Factors vals calls t.tokens (t.eval vals) :=
  match t with
  | .zero => by simpa [Term.tokens, Term.eval] using factors_int 0
  | .const c cs => by simpa [Term.tokens, Term.eval] using (factors_int c).post cs
  | .var pre x post => by
    simpa [Term.tokens, Term.eval, mul_assoc] using ((factors_name x).post post).pre pre
  | .paren pre s post => by
    have hlt : calls.length + (s.depth + 1) < polyCalls := by simpa [Term.depth] using hdepth
    have hadds : ∀ acc, Adds vals (acc :: calls) s.tokens (s.eval vals) :=
      fun acc => s.adds _ (by simp only [List.length_cons]; omega)
    have h := ((Adds.paren (by omega) hadds).post post).pre pre
    simpa [Term.tokens, Term.eval, mul_assoc] using h

theorem Sum.adds (s : Sum Name) (calls : List PolyAcc)
    (hdepth : calls.length + s.depth < polyCalls) : Adds vals calls s.tokens (s.eval vals) :=
  match s with
  | .first none t => fun acc v₀ hacc => by
    have ht := t.factors calls (by simpa [Sum.depth] using hdepth)
    refine ⟨acc.factor (t.eval vals), by simpa [Sum.eval] using hacc.factor (t.eval vals), ?_⟩
    intro rest
    simpa [Sum.tokens] using ht acc rest
  | .first (some sgn) t => fun acc v₀ hacc => by
    have ht := t.factors calls (by simpa [Sum.depth] using hdepth)
    simpa [Sum.tokens, Sum.eval] using ht.signed sgn (hacc.emit_eq.symm ▸ hacc)
  | .snoc s sep t => fun acc v₀ hacc => by
    have hmax : calls.length + max s.depth t.depth < polyCalls := by
      simpa [Sum.depth] using hdepth
    obtain ⟨acc₁, hdone, hrun⟩ := s.adds calls (by omega) acc v₀ hacc
    have ht := t.factors calls (by omega)
    obtain ⟨acc₂, hdone₂, hrun₂⟩ := ht.signed sep hdone.emit
    refine ⟨acc₂, by simpa [Sum.eval, add_assoc] using hdone₂, fun rest => ?_⟩
    have h := (hrun (sep.tokens ++ t.tokens ++ rest)).trans (hrun₂ rest)
    simpa [Sum.tokens] using h
end

def solvedTokens (a b c : Poly Name) : List (Token Name) :=
  match a, b, c with
  | some a, some b, none => .lpar :: (a.tokens ++ [.rpar, .star, .lpar] ++ b.tokens ++ [.rpar])
  | some a, some b, some c =>
    .lpar :: (a.tokens ++ [.rpar, .star, .lpar] ++ b.tokens ++ [.rpar]) ++ .plus :: c.tokens
  | _, _, some c => c.tokens
  | _, _, none => []

def Poly.minus {ν : Type} (c : Poly ν) (x : Arg ν) : Poly ν :=
  match c with
  | none => some x.negSum
  | some s => some (s.sub x)

@[simp] theorem Poly.eval_minus {ν R : Type} [CommRing R] (z : ν → R) (c : Poly ν) (x : Arg ν) :
    (c.minus x).eval z = c.eval z - x.eval z := by
  cases c <;> simp [Poly.minus]

def Arg.token {ν : Type} : Arg ν → Token ν
  | .const c => .int c
  | .var x => .name x

@[simp] theorem Token.arg?_token {ν : Type} (x : Arg ν) : x.token.arg? = some x := by
  cases x <;> rfl

theorem Arg.term_tokens {ν : Type} (x : Arg ν) : x.term.tokens = [x.token] := by
  cases x with
  | const c =>
    by_cases h : c = 0 <;> simp [Arg.term, h, Term.tokens, constTokens, Arg.token]
  | var x => rfl

theorem Poly.minus_tokens {ν : Type} (c : Poly ν) (x : Arg ν) :
    (c.minus x).tokens = c.tokens ++ [.minus, x.token] := by
  cases c <;> simp [Poly.minus, Poly.tokens, Arg.negSum, Sum.sub, Sum.tokens, Sign.tokens,
    Sign.minus, Arg.term_tokens]

mutual
theorem Term.tokens_ne_nil {ν : Type} : (t : Term ν) → t.tokens ≠ []
  | .zero => nofun
  | .const _ _ => nofun
  | .var pre _ _ => by simp [Term.tokens]
  | .paren pre _ _ => by simp [Term.tokens]

theorem Sum.tokens_ne_nil {ν : Type} : (s : Sum ν) → s.tokens ≠ []
  | .first none t => by simpa [Sum.tokens] using t.tokens_ne_nil
  | .first (some _) t => by simp [Sum.tokens, t.tokens_ne_nil]
  | .snoc _ _ t => by simp [Sum.tokens, t.tokens_ne_nil]
end

@[simp] theorem Sum.isEmpty_tokens {ν : Type} (s : Sum ν) : s.tokens.isEmpty = false := by
  simpa using s.tokens_ne_nil

theorem generateComputationPolyLine_minus (a b c : Poly Name) (x : Arg Name)
    (hab : a.isSome = b.isSome) :
    generateComputationPolyLine (Line.tokens ⟨a, b, c.minus x⟩) =
      some [.poly x (solvedTokens a b c)] := by
  have hline : Line.tokens ⟨a, b, c.minus x⟩ = .lpar :: (a.tokens ++ .rpar :: .star :: .lpar ::
      (b.tokens ++ .rpar :: .plus :: .lpar :: ((c.minus x).tokens ++ .rpar :: []))) := by
    simp [Line.tokens]
  have hout : getPolyOutput (c.minus x).tokens = some (c.tokens, .int 1, x.token) := by
    simp [Poly.minus_tokens, getPolyOutput]
  rw [hline]
  simp only [generateComputationPolyLine, readPoly_tokens, Option.bind_eq_bind, Option.bind_some,
    hout, Token.arg?_token]
  -- the four combinations of empty and nonempty parts
  rcases a with _ | a <;> rcases b with _ | b <;> rcases c with _ | c <;>
    simp_all [Poly.tokens, solvedTokens]

/-- The prover's value of the polynomial command for a line. -/
theorem computePoly_solvedTokens {a b c : Poly Name} (hab : a.isSome = b.isSome)
    (ha : ∀ s ∈ a, s.depth + 1 < polyCalls) (hb : ∀ s ∈ b, s.depth + 1 < polyCalls)
    (hc : ∀ s ∈ c, s.depth < polyCalls) :
    computePoly vals (solvedTokens a b c) [] .init =
      a.eval vals * b.eval vals + c.eval vals := by
  have hsum : ∀ s ∈ c, Adds vals [] s.tokens (s.eval vals) :=
    fun s hs => s.adds [] (by simpa using hc s hs)
  have hpar : ∀ (s : Sum Name), s.depth + 1 < polyCalls →
      Factors vals [] (.lpar :: (s.tokens ++ [.rpar])) (s.eval vals) := fun s hs =>
    Adds.paren (by simp [polyCalls]) fun acc =>
      s.adds _ (by simp only [List.length_cons, List.length_nil]; omega)
  -- the product of the two parenthesised parts is one factor
  have hprod : ∀ s ∈ a, ∀ t ∈ b,
      Factors vals [] (.lpar :: (s.tokens ++ [.rpar, .star, .lpar] ++ t.tokens ++ [.rpar]))
        (s.eval vals * t.eval vals) := by
    intro s hs t ht
    simpa using (hpar s (ha s hs)).mul (hpar t (hb t ht))
  rcases a with _ | a <;> rcases b with _ | b <;> simp at hab <;> rcases c with _ | c
  · simp [solvedTokens, computePoly, returnAll, PolyAcc.result, PolyAcc.emit, PolyAcc.init]
  · obtain ⟨acc, hdone, hrun⟩ := hsum c rfl .init 0 PolyAcc.ready_init
    have h := hrun []
    simp only [List.append_nil] at h
    simp [solvedTokens, h, computePoly, returnAll, hdone.value]
  · have h := hprod a rfl b rfl .init []
    simp only [List.append_nil] at h
    have hdone := PolyAcc.ready_init.factor (a.eval vals * b.eval vals)
    rw [solvedTokens, h]
    simp [computePoly, returnAll, hdone.value]
  · have h := hprod a rfl b rfl .init (.plus :: c.tokens)
    have hdone := PolyAcc.ready_init.factor (a.eval vals * b.eval vals)
    obtain ⟨acc, hdone', hrun⟩ := hsum c rfl _ _ hdone.emit
    have h' := hrun []
    simp only [List.append_nil] at h'
    simp only [computePoly] at h
    rw [solvedTokens, h, h']
    simp [computePoly, returnAll, hdone'.value]

end

/-- What the polynomial command for a line does to the variables. -/
theorem polyCmd_vals {a b c : Poly Name} (p : ℕ) (t : Name) (s : Prover)
    (hab : a.isSome = b.isSome) (ha : ∀ s ∈ a, s.depth + 1 < polyCalls)
    (hb : ∀ s ∈ b, s.depth + 1 < polyCalls) (hc : ∀ s ∈ c, s.depth < polyCalls) :
    ((Cmd.poly (.var t) (solvedTokens a b c)).exec p s).vals =
      Function.update s.vals t (a.eval s.vals * b.eval s.vals + c.eval s.vals) := by
  simp only [Cmd.exec, voc_var, Prover.set_var_vals]
  rw [computePoly_solvedTokens hab ha hb hc]

end Pequin
