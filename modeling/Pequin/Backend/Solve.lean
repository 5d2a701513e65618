import Pequin.Backend.Worksheet

/-!
# Solving polynomial constraints

The text of a part of a line is a sum of products of constants, variables and parenthesised sums, in
any nesting. If the last term of a line is `- T` or `- c * T`, the backend cuts it off and tells the
prover to evaluate what is left, and to divide by `c`. The value that `T` gets solves the line.
-/

namespace Pequin

/-! ## Texts -/

mutual
inductive PolyFactor (ν : Type) where
  | int (c : ℤ)
  | name (x : ν)
  /-- The text `( )`. -/
  | empty
  | group (s : PolySum ν)

inductive PolyTerm (ν : Type) where
  | factor (f : PolyFactor ν)
  | mul (t : PolyTerm ν) (f : PolyFactor ν)

inductive PolySum (ν : Type) where
  | first (lead : Option Sign) (t : PolyTerm ν)
  | snoc (s : PolySum ν) (sep : Sign) (t : PolyTerm ν)
end

section
variable {ν R : Type} [CommRing R] (z : ν → R)

mutual
def PolyFactor.eval : PolyFactor ν → R
  | .int c => c
  | .name x => z x
  | .empty => 0
  | .group s => s.eval

def PolyTerm.eval : PolyTerm ν → R
  | .factor f => f.eval
  | .mul t f => t.eval * f.eval

def PolySum.eval : PolySum ν → R
  | .first none t => t.eval
  | .first (some sgn) t => sgn.apply t.eval
  | .snoc s sep t => s.eval + sep.apply t.eval
end

end

section
variable {ν : Type}

mutual
def PolyFactor.tokens : PolyFactor ν → List (Token ν)
  | .int c => [.int c]
  | .name x => [.name x]
  | .empty => [.lpar, .rpar]
  | .group s => .lpar :: (s.tokens ++ [.rpar])

def PolyTerm.tokens : PolyTerm ν → List (Token ν)
  | .factor f => f.tokens
  | .mul t f => t.tokens ++ .star :: f.tokens

def PolySum.tokens : PolySum ν → List (Token ν)
  | .first none t => t.tokens
  | .first (some sgn) t => sgn.tokens ++ t.tokens
  | .snoc s sep t => s.tokens ++ sep.tokens ++ t.tokens
end

mutual
def PolyFactor.depth : PolyFactor ν → ℕ
  | .int _ => 0
  | .name _ => 0
  | .empty => 1
  | .group s => s.depth + 1

def PolyTerm.depth : PolyTerm ν → ℕ
  | .factor f => f.depth
  | .mul t f => max t.depth f.depth

def PolySum.depth : PolySum ν → ℕ
  | .first _ t => t.depth
  | .snoc s _ t => max s.depth t.depth
end

mutual
def PolyFactor.names : PolyFactor ν → List ν
  | .int _ => []
  | .name x => [x]
  | .empty => []
  | .group s => s.names

def PolyTerm.names : PolyTerm ν → List ν
  | .factor f => f.names
  | .mul t f => t.names ++ f.names

def PolySum.names : PolySum ν → List ν
  | .first _ t => t.names
  | .snoc s _ t => s.names ++ t.names
end

section
variable {R : Type} [CommRing R] {z z' : ν → R}

mutual
theorem PolyFactor.eval_congr : (f : PolyFactor ν) → (∀ x ∈ f.names, z x = z' x) →
    f.eval z = f.eval z'
  | .int _, _ => rfl
  | .name x, h => h x (List.mem_singleton_self x)
  | .empty, _ => rfl
  | .group s, h => s.eval_congr h

theorem PolyTerm.eval_congr : (t : PolyTerm ν) → (∀ x ∈ t.names, z x = z' x) → t.eval z = t.eval z'
  | .factor f, h => f.eval_congr h
  | .mul t f, h => by
    rw [PolyTerm.eval, PolyTerm.eval, t.eval_congr fun x hx => h x (List.mem_append_left _ hx),
      f.eval_congr fun x hx => h x (List.mem_append_right _ hx)]

theorem PolySum.eval_congr : (s : PolySum ν) → (∀ x ∈ s.names, z x = z' x) → s.eval z = s.eval z'
  | .first none t, h => t.eval_congr h
  | .first (some _) t, h => by rw [PolySum.eval, PolySum.eval, t.eval_congr h]
  | .snoc s _ t, h => by
    rw [PolySum.eval, PolySum.eval, s.eval_congr fun x hx => h x (List.mem_append_left _ hx),
      t.eval_congr fun x hx => h x (List.mem_append_right _ hx)]
end

end

/-! ### Empty sums -/

def PolySum.evalOr0 {R : Type} [CommRing R] (z : ν → R) : Option (PolySum ν) → R
  | none => 0
  | some s => s.eval z

theorem PolySum.evalOr0_update {R : Type} [CommRing R] [DecidableEq ν] (z : ν → R) (x : ν) (v : R) :
    (s : Option (PolySum ν)) → (∀ t, s = some t → x ∉ t.names) →
      PolySum.evalOr0 (Function.update z x v) s = PolySum.evalOr0 z s
  | none, _ => rfl
  | some s, h => s.eval_congr fun _ hy =>
    Function.update_of_ne (ne_of_mem_of_not_mem hy (h s rfl)) _ _

def PolySum.tokensOrNil : Option (PolySum ν) → List (Token ν)
  | none => []
  | some s => s.tokens

end

/-- A line `( a ) * ( b ) + ( c - T )` or `( a ) * ( b ) + ( c - constant * T )`. -/
structure TargetLine where
  a : Option (PolySum Name)
  b : Option (PolySum Name)
  c : Option (PolySum Name)
  sep : Sign
  constant : Option ℤ
  target : Name
  sep_neg : sep.neg = true
  a_b : a.isSome = b.isSome
  constant_ne_zero : constant ≠ some 0
  fresh : ∀ s, a = some s ∨ b = some s ∨ c = some s → target ∉ s.names
  /-- The parts `a` and `b` are evaluated in a call of their own. -/
  depth : ∀ s, a = some s ∨ b = some s → s.depth + 1 < polyCalls
  depth_c : ∀ s, c = some s → s.depth < polyCalls

namespace TargetLine

def outputTokens (l : TargetLine) : List (Token Name) :=
  match l.constant with
  | none => [.name l.target]
  | some k => [.int k, .star, .name l.target]

def tokens (l : TargetLine) : List (Token Name) :=
  .lpar :: (PolySum.tokensOrNil l.a ++ .rpar :: .star :: .lpar :: (PolySum.tokensOrNil l.b ++
    .rpar :: .plus :: .lpar :: (PolySum.tokensOrNil l.c ++ l.sep.tokens ++ l.outputTokens ++
      .rpar :: [])))

def eval {R : Type} [CommRing R] (z : Name → R) (l : TargetLine) : R :=
  PolySum.evalOr0 z l.a * PolySum.evalOr0 z l.b +
    (PolySum.evalOr0 z l.c - (l.constant.getD 1 : ℤ) * z l.target)

end TargetLine

/-! ## Reading back a line -/

section
variable {ν : Type}

mutual
theorem PolyFactor.balanced : (f : PolyFactor ν) → Balanced f.tokens
  | .int _ => .cons nofun nofun .nil
  | .name _ => .cons nofun nofun .nil
  | .empty => Balanced.nil.paren
  | .group s => s.balanced.paren

theorem PolyTerm.balanced : (t : PolyTerm ν) → Balanced t.tokens
  | .factor f => f.balanced
  | .mul t f => t.balanced.append (.cons nofun nofun f.balanced)

theorem PolySum.balanced : (s : PolySum ν) → Balanced s.tokens
  | .first none t => t.balanced
  | .first (some sgn) t => (balanced_signTokens sgn).append t.balanced
  | .snoc s sep t => (s.balanced.append (balanced_signTokens sep)).append t.balanced
end

theorem PolySum.balanced_tokensOrNil : (s : Option (PolySum ν)) → Balanced (PolySum.tokensOrNil s)
  | none => .nil
  | some s => s.balanced

mutual
theorem PolyFactor.tokens_ne_nil : (f : PolyFactor ν) → f.tokens ≠ []
  | .int _ => nofun
  | .name _ => nofun
  | .empty => nofun
  | .group _ => nofun

theorem PolyTerm.tokens_ne_nil : (t : PolyTerm ν) → t.tokens ≠ []
  | .factor f => f.tokens_ne_nil
  | .mul t _ => List.append_ne_nil_of_left_ne_nil t.tokens_ne_nil _

theorem PolySum.tokens_ne_nil : (s : PolySum ν) → s.tokens ≠ []
  | .first none t => t.tokens_ne_nil
  | .first (some _) t => List.append_ne_nil_of_right_ne_nil _ t.tokens_ne_nil
  | .snoc _ _ t => List.append_ne_nil_of_right_ne_nil _ t.tokens_ne_nil
end

end

/-! ## Evaluating in the prover -/

section
variable {vals : Name → ℚ}

mutual
theorem PolyFactor.factors (f : PolyFactor Name) (calls : List PolyAcc)
    (hdepth : calls.length + f.depth < polyCalls) : Factors vals calls f.tokens (f.eval vals) :=
  match f with
  | .int c => factors_int c
  | .name x => factors_name x
  | .empty => fun acc rest => by
    have hcalls : calls.length + 1 < polyCalls := hdepth
    simp only [PolyFactor.tokens, List.cons_append, List.nil_append, computePoly, if_pos hcalls,
      PolyAcc.ready_init.result, PolyFactor.eval]
  | .group s => Adds.paren (Nat.lt_of_le_of_lt (by simp only [PolyFactor.depth]; omega) hdepth)
    fun acc => s.adds _ (by
      simp only [PolyFactor.depth] at hdepth
      simp only [List.length_cons]
      omega)

theorem PolyTerm.factors (t : PolyTerm Name) (calls : List PolyAcc)
    (hdepth : calls.length + t.depth < polyCalls) : Factors vals calls t.tokens (t.eval vals) :=
  match t with
  | .factor f => f.factors calls hdepth
  | .mul t f => by
    simp only [PolyTerm.depth] at hdepth
    exact (t.factors calls (by omega)).mul (f.factors calls (by omega))

theorem PolySum.adds (s : PolySum Name) (calls : List PolyAcc)
    (hdepth : calls.length + s.depth < polyCalls) : Adds vals calls s.tokens (s.eval vals) :=
  match s with
  | .first none t => fun acc v₀ hacc =>
    ⟨acc.factor (t.eval vals), hacc.factor (t.eval vals), t.factors calls hdepth acc⟩
  | .first (some sgn) t => fun acc v₀ hacc =>
    (t.factors calls hdepth).signed sgn (hacc.emit_eq.symm ▸ hacc)
  | .snoc s sep t => fun acc v₀ hacc => by
    simp only [PolySum.depth] at hdepth
    obtain ⟨acc₁, hdone, hrun⟩ := s.adds calls (by omega) acc v₀ hacc
    obtain ⟨acc₂, hdone₂, hrun₂⟩ := (t.factors calls (by omega)).signed sep hdone.emit
    refine ⟨acc₂, by simpa only [PolySum.eval, add_assoc] using hdone₂, fun rest => ?_⟩
    rw [PolySum.tokens, List.append_assoc, List.append_assoc, hrun, ← hrun₂ rest,
      List.append_assoc]
end

/-- Whatever is left of the last part is added to the value so far; it may end with the `+` of the
text `+ -`. -/
theorem computePoly_rest {acc : PolyAcc} {v : ℚ} (hacc : acc.Ready v false)
    (c : Option (PolySum Name)) (hc : ∀ s, c = some s → s.depth < polyCalls) (afterPlus : Bool) :
    computePoly vals (PolySum.tokensOrNil c ++ if afterPlus then [.plus] else []) [] acc =
      v + PolySum.evalOr0 vals c := by
  -- at the end, a `+` makes no difference
  have hend : ∀ {acc : PolyAcc} {w : ℚ}, acc.result = w → acc.emit.result = w →
      computePoly vals (if afterPlus then [.plus] else []) [] acc = w := by
    intro acc w h h'
    cases afterPlus with
    | false => exact h
    | true => exact h'
  cases c with
  | none =>
    rw [PolySum.tokensOrNil, List.nil_append, PolySum.evalOr0, add_zero]
    exact hend hacc.result (hacc.emit_eq.symm ▸ hacc.result)
  | some s =>
    obtain ⟨acc', hdone, hrun⟩ := s.adds [] (by simpa using hc s rfl) acc v hacc
    rw [PolySum.tokensOrNil, hrun, PolySum.evalOr0]
    exact hend hdone.value hdone.emit.result

end

namespace TargetLine

/-- The last part without its last term. -/
def cut (l : TargetLine) : List (Token Name) :=
  PolySum.tokensOrNil l.c ++ if l.sep.afterPlus then [.plus] else []

def command (l : TargetLine) : List (Token Name) :=
  match l.a, l.b with
  | some a, some b =>
    .lpar :: (a.tokens ++ [.rpar]) ++ .star :: .lpar :: (b.tokens ++ [.rpar]) ++
      if l.cut.isEmpty then [] else .plus :: l.cut
  | _, _ => l.cut

theorem getPolyOutput_tokens (l : TargetLine) :
    getPolyOutput (PolySum.tokensOrNil l.c ++ l.sep.tokens ++ l.outputTokens) =
      some (l.cut, .int (l.constant.getD 1), .name l.target) := by
  have hsep : (l.sep.tokens : List (Token Name)) =
    (if l.sep.afterPlus then [.plus] else []) ++ [.minus] := by
    rw [Sign.tokens, l.sep_neg, if_pos rfl]
  rw [hsep, outputTokens, cut]
  cases l.constant <;> simp [getPolyOutput]

/-- The commands for the line. -/
theorem generateComputationPolyLine_tokens (l : TargetLine) :
    generateComputationPolyLine l.tokens = some (.poly (.var l.target) l.command ::
      if l.constant.getD 1 = 1 then []
      else [.exactDivide (.var l.target) (.var l.target) (.const (l.constant.getD 1))]) := by
  have hlast : Balanced (PolySum.tokensOrNil l.c ++ l.sep.tokens ++ l.outputTokens) := by
    refine ((PolySum.balanced_tokensOrNil l.c).append (balanced_signTokens l.sep)).append ?_
    rw [outputTokens]
    cases l.constant with
    | none => exact .cons nofun nofun .nil
    | some k => exact .cons nofun nofun (.cons nofun nofun (.cons nofun nofun .nil))
  simp only [generateComputationPolyLine, tokens, (PolySum.balanced_tokensOrNil l.a).readPoly,
    (PolySum.balanced_tokensOrNil l.b).readPoly, hlast.readPoly, Option.bind_eq_bind,
    Option.bind_some, l.getPolyOutput_tokens, Token.arg?, Token.int.injEq]
  have hab := l.a_b
  have hne : ∀ s : PolySum Name, s.tokens.isEmpty = false := fun s => by simpa using s.tokens_ne_nil
  rw [command]
  cases ha : l.a <;> cases hb : l.b <;> rw [ha, hb] at hab
  · by_cases hcut : l.cut = [] <;> by_cases hk : l.constant.getD 1 = 1 <;>
      simp [PolySum.tokensOrNil, hcut, hk]
  · cases hab
  · cases hab
  · by_cases hcut : l.cut = [] <;> by_cases hk : l.constant.getD 1 = 1 <;>
      simp [PolySum.tokensOrNil, hne, hcut, hk]

/-- The prover evaluates the line without its last term. -/
theorem computePoly_command (vals : Name → ℚ) (l : TargetLine) :
    computePoly vals l.command [] .init =
      PolySum.evalOr0 vals l.a * PolySum.evalOr0 vals l.b + PolySum.evalOr0 vals l.c := by
  have hab := l.a_b
  have hrest := fun {acc : PolyAcc} {v : ℚ} (hacc : acc.Ready v false) =>
    @computePoly_rest vals acc v hacc l.c l.depth_c l.sep.afterPlus
  rw [command]
  cases ha : l.a <;> cases hb : l.b <;> rw [ha, hb] at hab
  · exact (hrest PolyAcc.ready_init).trans (by simp only [PolySum.evalOr0]; ring)
  · cases hab
  · cases hab
  · next a b =>
    have hpar : ∀ s, l.a = some s ∨ l.b = some s →
        Factors vals [] (.lpar :: (s.tokens ++ [.rpar])) (s.eval vals) := fun s hs =>
      (PolyFactor.group s).factors [] (by simpa [PolyFactor.depth] using l.depth s hs)
    have hdone := PolyAcc.ready_init.factor (a.eval vals * b.eval vals)
    rw [((hpar a (.inl ha)).mul (hpar b (.inr hb))) PolyAcc.init]
    split
    · next hnil =>
      rw [List.isEmpty_iff, cut, List.append_eq_nil_iff] at hnil
      cases hc : l.c with
      | none => exact hdone.value.trans (by simp [PolySum.evalOr0])
      | some s =>
        rw [hc] at hnil
        exact absurd hnil.1 s.tokens_ne_nil
    · rw [computePoly, cut, hrest hdone.emit]
      simp [PolySum.evalOr0]

/-! ## The solution -/

/-- The commands set the target alone, and the value solves the line. -/
theorem generateComputationPolyLine_solves (l : TargetLine) (p : ℕ) (s : Prover) :
    ∃ cmds, generateComputationPolyLine l.tokens = some cmds ∧
      l.eval (execAll p cmds s).vals = 0 ∧
      ∀ x, x ≠ l.target → (execAll p cmds s).vals x = s.vals x := by
  refine ⟨_, l.generateComputationPolyLine_tokens, ?_⟩
  set v := PolySum.evalOr0 s.vals l.a * PolySum.evalOr0 s.vals l.b + PolySum.evalOr0 s.vals l.c
  have hk : ((l.constant.getD 1 : ℤ) : ℚ) ≠ 0 := by
    have hne := l.constant_ne_zero
    cases hc : l.constant with
    | none => exact one_ne_zero
    | some k =>
      rw [hc, Ne, Option.some.injEq] at hne
      exact Int.cast_ne_zero.2 hne
  have hvals : (execAll p (.poly (.var l.target) l.command :: if l.constant.getD 1 = 1 then []
      else [.exactDivide (.var l.target) (.var l.target) (.const (l.constant.getD 1))]) s).vals =
      Function.update s.vals l.target (v / (l.constant.getD 1 : ℤ)) := by
    split
    · next h => simp [Cmd.exec, h, l.computePoly_command, v]
    · next h => simp [Cmd.exec, computeBinary, l.computePoly_command, v, hk]
  rw [hvals]
  refine ⟨?_, fun x hx => Function.update_of_ne hx _ _⟩
  rw [eval, PolySum.evalOr0_update _ _ _ _ fun t ht => l.fresh t (.inl ht),
    PolySum.evalOr0_update _ _ _ _ fun t ht => l.fresh t (.inr (.inl ht)),
    PolySum.evalOr0_update _ _ _ _ fun t ht => l.fresh t (.inr (.inr ht)), Function.update_self,
    mul_div_cancel₀ _ hk]
  simp only [v]
  ring

/-! The line `( ( x + 1 ) * 2 ) * ( x - y * ( x - 3 ) ) + ( y - 5 * t )`. -/

def nestedFirst : PolySum Name :=
  .first none (.mul (.factor (.group (.snoc (.first none (.factor (.name (.spec "x")))) .plus
    (.factor (.int 1))))) (.int 2))

def nestedSecond : PolySum Name :=
  .snoc (.first none (.factor (.name (.spec "x")))) .minus (.mul (.factor (.name (.spec "y")))
    (.group (.snoc (.first none (.factor (.name (.spec "x")))) .minus (.factor (.int 3)))))

def nestedLast : PolySum Name := .first none (.factor (.name (.spec "y")))

theorem nested_fresh (s : PolySum Name)
    (h : some nestedFirst = some s ∨ some nestedSecond = some s ∨ some nestedLast = some s) :
    Name.spec "t" ∉ s.names := by
  rcases h with h | h | h <;> cases h <;> decide

theorem nested_depth (s : PolySum Name) (h : some nestedFirst = some s ∨ some nestedSecond =
    some s) : s.depth + 1 < polyCalls := by
  rcases h with h | h <;> cases h <;> decide

theorem nested_depth_c (s : PolySum Name) (h : some nestedLast = some s) : s.depth < polyCalls := by
  cases h
  decide

def nestedLine : TargetLine :=
  ⟨some nestedFirst, some nestedSecond, some nestedLast, .minus, some 5, .spec "t", rfl, rfl,
    by decide, nested_fresh, nested_depth, nested_depth_c⟩

/-- For `x = 4` and `y = 5` the line is solved by `t = -1`. -/
theorem generateComputationPolyLine_nestedLine :
    ∃ cmds, generateComputationPolyLine nestedLine.tokens = some cmds ∧
      (execAll 7 cmds ⟨fun x => if x = .spec "x" then 4 else 5, 0, 0, fun _ => none⟩).vals
        (.spec "t") = -1 := by
  obtain ⟨cmds, hcmds, hzero, hrest⟩ := generateComputationPolyLine_solves nestedLine 7
    ⟨fun x => if x = .spec "x" then 4 else 5, 0, 0, fun _ => none⟩
  refine ⟨cmds, hcmds, ?_⟩
  have hx := hrest (.spec "x") (by decide)
  have hy := hrest (.spec "y") (by decide)
  simp [eval, nestedLine, PolySum.evalOr0, nestedFirst, nestedSecond, nestedLast, PolySum.eval,
    PolyTerm.eval, PolyFactor.eval, hx, hy] at hzero
  linarith

end TargetLine

end Pequin
