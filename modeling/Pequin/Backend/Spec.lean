import Pequin.Backend.Compare

/-!
# Lines of a spec

A spec is a list of comparisons, polynomial constraints that compute their last variable, and
assertions. Read as a program over the integers it assigns one variable after the other
(`SpecLine.interp`). The worksheet the backend generates from it makes the prover compute the same
values, and the assignment the prover ends with satisfies the constraints the backend generates
from it (`Spec.exec`), as long as every variable is assigned once and the numbers fit the widths
of the comparisons.
-/

namespace Pequin

inductive SpecLine where
  /-- `arg0 != arg1 - target` -/
  | notEqual (arg0 arg1 : Arg Name) (target : Name)
  /-- `arg0 < arg1 - target` -/
  | less (arg0 arg1 : Arg Name) (target : Name)
  /-- `( a ) * ( b ) + ( c - target )` -/
  | poly (a b c : Poly Name) (target : Name)
  /-- `( a ) * ( b ) + ( c - k )` with a constant, which the worksheet computes into a temporary -/
  | polyConst (a b c : Poly Name) (k : ℤ)
  /-- `ASSERT_ZERO x` -/
  | assertZero (x : Name)

/-! ## Variables of a polynomial -/

mutual
def Term.vars {ν : Type} : Term ν → List ν
  | .zero => []
  | .const _ _ => []
  | .var _ x _ => [x]
  | .paren _ s _ => s.vars

def Sum.vars {ν : Type} : Sum ν → List ν
  | .first _ t => t.vars
  | .snoc s _ t => s.vars ++ t.vars
end

def Poly.vars {ν : Type} : Poly ν → List ν
  | none => []
  | some s => s.vars

section
variable {ν R : Type} [CommRing R] {z z' : ν → R}

mutual
theorem Term.eval_congr : (t : Term ν) → (∀ x ∈ t.vars, z x = z' x) → t.eval z = t.eval z'
  | .zero, _ => rfl
  | .const _ _, _ => rfl
  | .var pre x post, h => by simp [Term.eval, h x (by simp [Term.vars])]
  | .paren pre s post, h => by
    simp [Term.eval, s.eval_congr fun x hx => h x (by simpa [Term.vars] using hx)]

theorem Sum.eval_congr : (s : Sum ν) → (∀ x ∈ s.vars, z x = z' x) → s.eval z = s.eval z'
  | .first none t, h => by
    simpa [Sum.eval] using t.eval_congr fun x hx => h x (by simpa [Sum.vars] using hx)
  | .first (some sgn) t, h => by
    simp [Sum.eval, t.eval_congr fun x hx => h x (by simpa [Sum.vars] using hx)]
  | .snoc s sep t, h => by
    have hs := s.eval_congr fun x hx => h x (by simp [Sum.vars, hx])
    have ht := t.eval_congr fun x hx => h x (by simp [Sum.vars, hx])
    simp [Sum.eval, hs, ht]
end

theorem Poly.eval_congr (q : Poly ν) (h : ∀ x ∈ q.vars, z x = z' x) : q.eval z = q.eval z' := by
  cases q with
  | none => rfl
  | some s => exact s.eval_congr h

end

section
variable {ν R S : Type} [CommRing R] [CommRing S] (f : R →+* S) (z : ν → R)

theorem Sign.map_apply (sgn : Sign) (v : R) : f (sgn.apply v) = sgn.apply (f v) := by
  unfold Sign.apply
  split <;> simp

mutual
theorem Term.map_eval : (t : Term ν) → f (t.eval z) = t.eval fun x => f (z x)
  | .zero => by simp [Term.eval]
  | .const _ _ => by simp [Term.eval]
  | .var _ _ _ => by simp [Term.eval]
  | .paren _ s _ => by simp [Term.eval, s.map_eval]

theorem Sum.map_eval : (s : Sum ν) → f (s.eval z) = s.eval fun x => f (z x)
  | .first none t => by simpa [Sum.eval] using t.map_eval
  | .first (some sgn) t => by simp [Sum.eval, Sign.map_apply, t.map_eval]
  | .snoc s sep t => by simp [Sum.eval, Sign.map_apply, s.map_eval, t.map_eval]
end

theorem Poly.map_eval (q : Poly ν) : f (q.eval z) = q.eval fun x => f (z x) := by
  cases q with
  | none => simp [Poly.eval]
  | some s => exact s.map_eval f z

end

def Arg.vars {ν : Type} : Arg ν → List ν
  | .const _ => []
  | .var x => [x]

theorem Arg.eval_congr {ν R : Type} [IntCast R] {z z' : ν → R} (a : Arg ν)
    (h : ∀ x ∈ a.vars, z x = z' x) : a.eval z = a.eval z' := by
  cases a with
  | const c => rfl
  | var x => exact h x (by simp [Arg.vars])

/-- An argument whose variables are integers, read in another ring. -/
theorem Arg.eval_cast {ν R : Type} [IntCast R] {z : ν → R} {v : ν → ℤ} (a : Arg ν)
    (h : ∀ x ∈ a.vars, z x = (v x : R)) : a.eval z = ((a.eval v : ℤ) : R) := by
  cases a with
  | const c => simp [Arg.eval]
  | var x => exact h x (by simp [Arg.vars])

variable {ν : Type}

@[simp] theorem Arg.vars_const (c : ℤ) : (Arg.const c : Arg ν).vars = [] := rfl

@[simp] theorem Arg.vars_var (x : ν) : (Arg.var x).vars = [x] := rfl

section
variable (s : Sum ν) (a : Arg ν)

@[simp] theorem Arg.vars_term : a.term.vars = a.vars := by
  cases a with
  | const c => by_cases h : c = 0 <;> simp [Arg.term, h, Term.vars]
  | var x => rfl

@[simp] theorem Arg.depth_term : a.term.depth = 0 := by
  cases a with
  | const c => by_cases h : c = 0 <;> simp [Arg.term, h, Term.depth]
  | var x => rfl

@[simp] theorem Sum.vars_sum : a.sum.vars = a.vars := by
  simp [Arg.sum, Sum.vars]

@[simp] theorem Sum.vars_negSum : a.negSum.vars = a.vars := by
  simp [Arg.negSum, Sum.vars]

@[simp] theorem Sum.vars_add : (s.add a).vars = s.vars ++ a.vars := by simp [Sum.add, Sum.vars]

@[simp] theorem Sum.depth_sum : a.sum.depth = 0 := by
  simp [Arg.sum, Sum.depth]

@[simp] theorem Sum.depth_negSum : a.negSum.depth = 0 := by
  simp [Arg.negSum, Sum.depth]

@[simp] theorem Sum.depth_add : (s.add a).depth = s.depth := by simp [Sum.add, Sum.depth]

@[simp] theorem Sum.depth_sub : (s.sub a).depth = s.depth := by simp [Sum.sub, Sum.depth]

end

@[simp] theorem Poly.vars_none : Poly.vars (none : Poly ν) = [] := rfl

@[simp] theorem Poly.vars_some (s : Sum ν) : Poly.vars (some s) = s.vars := rfl

namespace SpecLine

def target : SpecLine → Option Name
  | .notEqual _ _ t | .less _ _ t | .poly _ _ _ t => some t
  | .polyConst _ _ _ _ | .assertZero _ => none

def operands : SpecLine → List Name
  | .notEqual arg0 arg1 _ | .less arg0 arg1 _ => arg0.vars ++ arg1.vars
  | .poly a b c _ | .polyConst a b c _ => a.vars ++ b.vars ++ c.vars
  | .assertZero x => [x]

def toBasicConstraints (d : Decls) : SpecLine → List (Line Name)
  | .notEqual arg0 arg1 t => notEqualAsBasicConstraints arg0 arg1 t
  | .less arg0 arg1 t => lessThanAsBasicConstraints d arg0 arg1 t
  | .poly a b c t => [⟨a, b, c.minus (.var t)⟩]
  | .polyConst a b c k => [⟨a, b, c.minus (.const k)⟩]
  | .assertZero x => [lineC (Arg.var x).sum]

def generateComputationLine (d : Decls) : SpecLine → Option (List Cmd)
  | .notEqual arg0 arg1 t => some [generateComputationNotEquals arg0 arg1 t]
  | .less arg0 arg1 t => some [generateComputationLess d arg0 arg1 t]
  | .poly a b c t => generateComputationPolyLine (Line.tokens ⟨a, b, c.minus (.var t)⟩)
  | .polyConst a b c k => generateComputationPolyLine (Line.tokens ⟨a, b, c.minus (.const k)⟩)
  | .assertZero x => some [.assertZero (.var x)]

/-- The line as an assignment over the integers. -/
def interp (v : Name → ℤ) : SpecLine → Name → ℤ
  | .notEqual arg0 arg1 t => Function.update v t (if arg0.eval v = arg1.eval v then 0 else 1)
  | .less arg0 arg1 t => Function.update v t (lessValue ℤ (arg0.eval v) (arg1.eval v))
  | .poly a b c t => Function.update v t (a.eval v * b.eval v + c.eval v)
  | .polyConst _ _ _ _ | .assertZero _ => v

end SpecLine

def toBasicConstraintsLines (d : Decls) (ls : List SpecLine) : List (Line Name) :=
  ls.flatMap (SpecLine.toBasicConstraints d)

def generateComputationLines (d : Decls) : List SpecLine → Option (List Cmd)
  | [] => some []
  | l :: ls => do return (← l.generateComputationLine d) ++ (← generateComputationLines d ls)

theorem generateComputationLines_append (d : Decls) (ls ls' : List SpecLine) :
    generateComputationLines d (ls ++ ls') =
      (generateComputationLines d ls).bind fun cs =>
        (generateComputationLines d ls').map fun cs' => cs ++ cs' := by
  induction ls with
  | nil => simp [generateComputationLines]
  | cons l ls ih =>
    rw [List.cons_append, generateComputationLines, ih, generateComputationLines]
    cases l.generateComputationLine d <;> cases generateComputationLines d ls <;>
      cases generateComputationLines d ls' <;> simp

def interpAll (v : Name → ℤ) (ls : List SpecLine) : Name → ℤ := ls.foldl SpecLine.interp v

@[simp] theorem interpAll_nil (v : Name → ℤ) : interpAll v [] = v := rfl

@[simp] theorem interpAll_cons (v : Name → ℤ) (l : SpecLine) (ls : List SpecLine) :
    interpAll v (l :: ls) = interpAll (l.interp v) ls := rfl

/-! ## The prover follows the integers -/

namespace SpecLine

def Writes : SpecLine → Name → Prop
  | .notEqual _ _ t, o | .less _ _ t, o => t.Owned o
  | .poly _ _ _ t, o => o = t
  | .polyConst _ _ _ _, _ | .assertZero _, _ => False

/-- The line reads and assigns main variables, and the auxiliary variables of its gadget are not
main variables. -/
def WF (main : Name → Prop) : SpecLine → Prop
  | .notEqual arg0 arg1 t | .less arg0 arg1 t =>
    (∀ x ∈ arg0.vars ++ arg1.vars, main x ∧ x ≠ t) ∧ main t ∧ ∀ s, ¬ main (.sub t s)
  | .poly a b c t =>
    (∀ x ∈ a.vars ++ b.vars ++ c.vars, main x ∧ x ≠ t) ∧ main t ∧ a.isSome = b.isSome ∧
      (∀ s ∈ a, s.depth + 1 < polyCalls) ∧ (∀ s ∈ b, s.depth + 1 < polyCalls) ∧
      ∀ s ∈ c, s.depth < polyCalls
  | .polyConst a b c _ =>
    (∀ x ∈ a.vars ++ b.vars ++ c.vars, main x) ∧ a.isSome = b.isSome
  | .assertZero x => main x

/-- The numbers are small enough for the gadget, and what is asserted holds. -/
def Fits (d : Decls) (p : ℕ) (v : Name → ℤ) : SpecLine → Prop
  | .notEqual arg0 arg1 _ => |arg0.eval v - arg1.eval v| < p
  | .less arg0 arg1 _ => (toVar d arg0).nb = 0 ∧ (toVar d arg1).nb = 0 ∧
    |arg0.eval v - arg1.eval v| ≤ 2 ^ (lessWidth d arg0 arg1 - 1) ∧ ¬ DistinctConstants arg0 arg1
  | .poly _ _ _ _ => True
  | .polyConst a b c k => a.eval v * b.eval v + c.eval v = k
  | .assertZero x => v x = 0

end SpecLine

/-- The prover's main variables have the integer values `v`. -/
def Prover.Agrees (main : Name → Prop) (s : Prover) (v : Name → ℤ) : Prop :=
  ∀ o, main o → s.vals o = (v o : ℚ)

namespace Prover.Agrees
variable {main : Name → Prop} {s : Prover} {v : Name → ℤ}

theorem eval_arg (h : s.Agrees main v) {a : Arg Name} (ha : ∀ x ∈ a.vars, main x) :
    a.eval s.vals = ((a.eval v : ℤ) : ℚ) :=
  a.eval_cast fun x hx => h x (ha x hx)

theorem eval_poly (h : s.Agrees main v) {q : Poly Name} (hq : ∀ x ∈ q.vars, main x) :
    q.eval s.vals = ((q.eval v : ℤ) : ℚ) := by
  have hmap := q.map_eval (Int.castRingHom ℚ) v
  simp only [eq_intCast] at hmap
  rw [hmap]
  exact q.eval_congr fun x hx => h x (hq x hx)

theorem witness_arg (h : s.Agrees main v) (p : ℕ) {a : Arg Name} (ha : ∀ x ∈ a.vars, main x) :
    a.eval (s.witness p) = ((a.eval v : ℤ) : ZMod p) :=
  a.eval_cast fun x hx => by rw [Prover.witness, h x (ha x hx), toField_intCast]

theorem witness_poly (h : s.Agrees main v) (p : ℕ) {q : Poly Name} (hq : ∀ x ∈ q.vars, main x) :
    q.eval (s.witness p) = ((q.eval v : ℤ) : ZMod p) := by
  have hmap := q.map_eval (Int.castRingHom (ZMod p)) v
  simp only [eq_intCast] at hmap
  rw [hmap]
  exact q.eval_congr fun x hx => by simp [Prover.witness, h x (hq x hx)]

end Prover.Agrees

/-- What the worksheet of a list of lines does, from a state whose main variables are `v`. -/
structure Spec.Exec (d : Decls) (p : ℕ) (main : Name → Prop) (v : Name → ℤ)
    (ls : List SpecLine) (s s' : Prover) : Prop where
  agrees : s'.Agrees main (interpAll v ls)
  satisfies : Satisfies (s'.witness p) (toBasicConstraintsLines d ls)
  frame : ∀ o, (∀ l ∈ ls, ¬ l.Writes o) → s'.vals o = s.vals o
  trueRam : s'.trueRam = s.trueRam

section
variable {d : Decls} {p : ℕ} [Fact p.Prime] {main : Name → Prop} {v : Name → ℤ} {s : Prover}

variable {t : Name}

private theorem freshFor_of_main {a : Arg Name} (ha : ∀ x ∈ a.vars, main x ∧ x ≠ t)
    (hsub : ∀ s, ¬ main (.sub t s)) : a.FreshFor t := by
  rintro x rfl (rfl | ⟨sfx, rfl⟩)
  · exact (ha x (by simp [Arg.vars])).2 rfl
  · exact hsub sfx (ha _ (by simp [Arg.vars])).1

private theorem Agrees.operand (h : s.Agrees main v) (hsub : ∀ sfx, ¬ main (.sub t sfx))
    {a : Arg Name} (ha : ∀ x ∈ a.vars, main x ∧ x ≠ t) :
    a.FreshFor t ∧ a.eval s.vals = (a.eval v : ℤ) :=
  ⟨freshFor_of_main ha hsub, h.eval_arg fun x hx => (ha x hx).1⟩

/-- A gadget assigns its target and leaves the other main variables alone. -/
private theorem Agrees.gadget {s' : Prover} {w : ℤ} (h : s.Agrees main v)
    (hsub : ∀ sfx, ¬ main (.sub t sfx)) (ht : s'.vals t = (w : ℚ))
    (hframe : ∀ o, ¬ t.Owned o → s'.vals o = s.vals o) :
    s'.Agrees main (Function.update v t w) := by
  intro o ho
  by_cases hot : o = t
  · subst hot
    simpa using ht
  · have hown : ¬ t.Owned o := by
      rintro (rfl | ⟨sfx, rfl⟩)
      · exact hot rfl
      · exact hsub sfx ho
    rw [hframe o hown, h o ho, Function.update_of_ne hot]

theorem Spec.exec_notEqual {arg0 arg1 : Arg Name} (hs : s.Agrees main v)
    (hwf : (SpecLine.notEqual arg0 arg1 t).WF main)
    (hfits : (SpecLine.notEqual arg0 arg1 t).Fits d p v) :
    Spec.Exec d p main v [.notEqual arg0 arg1 t] s
      ((generateComputationNotEquals arg0 arg1 t).exec p s) := by
  obtain ⟨hops, -, hsub⟩ := hwf
  obtain ⟨hf0, hx⟩ := Agrees.operand hs hsub (a := arg0) fun x hx => hops x (by simp [hx])
  obtain ⟨hf1, hy⟩ := Agrees.operand hs hsub (a := arg1) fun x hx => hops x (by simp [hx])
  obtain ⟨hram, hvals⟩ := notEqual_exec s p hf0 hf1 hx hy
  have hframe : ∀ o, ¬ t.Owned o →
      ((generateComputationNotEquals arg0 arg1 t).exec p s).vals o = s.vals o :=
    fun o ho => notEqual_exec_vals_of_not_owned s p hf0 hf1 ho
  refine ⟨?_, ?_, fun o ho => hframe o (ho (.notEqual arg0 arg1 t) (by simp)), hram⟩
  · refine Agrees.gadget hs hsub ?_ hframe
    rw [hvals, Function.update_self]
    split <;> simp_all
  · simp only [toBasicConstraintsLines, List.flatMap_cons, List.flatMap_nil, List.append_nil,
      SpecLine.toBasicConstraints, satisfies_notEqual]
    rw [eval_witness p hf0 hframe hx, eval_witness p hf1 hframe hy]
    exact notEqual_exec_notEqualWires s hf0 hf1 hx hy hfits

theorem Spec.exec_less {arg0 arg1 : Arg Name} (hs : s.Agrees main v)
    (hwf : (SpecLine.less arg0 arg1 t).WF main) (hfits : (SpecLine.less arg0 arg1 t).Fits d p v) :
    Spec.Exec d p main v [.less arg0 arg1 t] s
      ((generateComputationLess d arg0 arg1 t).exec p s) := by
  obtain ⟨hops, -, hsub⟩ := hwf
  obtain ⟨hn0, hn1, hxy, hne⟩ := hfits
  obtain ⟨hf0, hx⟩ := Agrees.operand hs hsub (a := arg0) fun x hx => hops x (by simp [hx])
  obtain ⟨hf1, hy⟩ := Agrees.operand hs hsub (a := arg1) fun x hx => hops x (by simp [hx])
  have hread : operandsRead arg0 arg1 s = (((arg0.eval v : ℤ) : ℚ), ((arg1.eval v : ℤ) : ℚ)) := by
    rw [operandsRead_eq hne, hx, hy]
  rw [generateComputationLess_eq hn0 hn1]
  set n := lessWidth d arg0 arg1
  have hframe : ∀ o, ¬ t.Owned o →
      ((generateComputationLessI n arg0 arg1 t).exec p s).vals o = s.vals o :=
    fun o ho => lessI_exec_vals_of_not_owned s p n hf0 hf1 ho
  refine ⟨?_, ?_, fun o ho => hframe o (ho (.less arg0 arg1 t) (by simp)),
    lessI_exec_trueRam s p n hf0 hf1⟩
  · refine Agrees.gadget hs hsub ?_ hframe
    obtain ⟨s₁, hexec, -, hvals⟩ := lessI_exec s p n hf0 hf1 hread
    rw [hexec, fillBits_vals_of_ne _ _ _ _ (by simp), hvals]
    simp only [selectorVals, Function.update_self, lessValue, Int.cast_lt]
    split <;> simp
  · simp only [toBasicConstraintsLines, List.flatMap_cons, List.flatMap_nil, List.append_nil,
      SpecLine.toBasicConstraints, lessThanAsBasicConstraints_eq hn0 hn1, satisfies_lessThanI]
    rw [eval_witness p hf0 hframe hx, eval_witness p hf1 hframe hy]
    exact lessI_exec_lessWires s n hf0 hf1 hread hxy

theorem Spec.exec_poly {a b c : Poly Name} (hs : s.Agrees main v)
    (hwf : (SpecLine.poly a b c t).WF main) :
    Spec.Exec d p main v [.poly a b c t] s
      ((Cmd.poly (.var t) (solvedTokens a b c)).exec p s) := by
  obtain ⟨hops, hmain, hab, ha, hb, hc⟩ := hwf
  have hva : ∀ x ∈ a.vars, main x ∧ x ≠ t := fun x hx => hops x (by simp [hx])
  have hvb : ∀ x ∈ b.vars, main x ∧ x ≠ t := fun x hx => hops x (by simp [hx])
  have hvc : ∀ x ∈ c.vars, main x ∧ x ≠ t := fun x hx => hops x (by simp [hx])
  have hvals : ((Cmd.poly (.var t) (solvedTokens a b c)).exec p s).vals =
      Function.update s.vals t ((a.eval v * b.eval v + c.eval v : ℤ) : ℚ) := by
    rw [polyCmd_vals p t s hab ha hb hc, hs.eval_poly fun x hx => (hva x hx).1,
      hs.eval_poly fun x hx => (hvb x hx).1, hs.eval_poly fun x hx => (hvc x hx).1]
    push_cast
    rfl
  have hagrees : ((Cmd.poly (.var t) (solvedTokens a b c)).exec p s).Agrees main
      ((SpecLine.poly a b c t).interp v) := by
    intro o ho
    rw [hvals]
    by_cases hot : o = t
    · subst hot
      simp [SpecLine.interp]
    · simp [SpecLine.interp, hot, hs o ho]
  refine ⟨hagrees, ?_, fun o ho => ?_, by simp [Cmd.exec]⟩
  · -- the parts of the line do not mention the target
    have hkeep : ∀ q : Poly Name, (∀ x ∈ q.vars, main x ∧ x ≠ t) →
        q.eval ((SpecLine.poly a b c t).interp v) = q.eval v := fun q hq =>
      q.eval_congr fun x hx => by simp [SpecLine.interp, (hq x hx).2]
    simp only [toBasicConstraintsLines, List.flatMap_cons, List.flatMap_nil, List.append_nil,
      SpecLine.toBasicConstraints, satisfies_cons, satisfies_nil, and_true, Line.eval_mk,
      Poly.eval_minus, Arg.eval_var]
    rw [hagrees.witness_poly p fun x hx => (hva x hx).1,
      hagrees.witness_poly p fun x hx => (hvb x hx).1,
      hagrees.witness_poly p fun x hx => (hvc x hx).1, hkeep a hva, hkeep b hvb, hkeep c hvc,
      Prover.witness, hvals, Function.update_self, toField_intCast]
    push_cast
    ring
  · have hot : o ≠ t := ho (.poly a b c t) (by simp)
    rw [hvals, Function.update_of_ne hot]

/-- One line. -/
theorem Spec.exec_line {l : SpecLine} (hs : s.Agrees main v) (hwf : l.WF main)
    (hfits : l.Fits d p v) :
    ∃ cmds, l.generateComputationLine d = some cmds ∧
      Spec.Exec d p main v [l] s (execAll p cmds s) := by
  cases l with
  | notEqual arg0 arg1 t => exact ⟨_, rfl, Spec.exec_notEqual hs hwf hfits⟩
  | less arg0 arg1 t => exact ⟨_, rfl, Spec.exec_less hs hwf hfits⟩
  | poly a b c t =>
    exact ⟨_, generateComputationPolyLine_minus a b c (.var t) hwf.2.2.1, Spec.exec_poly hs hwf⟩
  | polyConst a b c k =>
    obtain ⟨hops, hab⟩ := hwf
    refine ⟨_, generateComputationPolyLine_minus a b c (.const k) hab, hs, ?_, fun _ _ => rfl, rfl⟩
    have hva : ∀ x ∈ a.vars, main x := fun x hx => hops x (by simp [hx])
    have hvb : ∀ x ∈ b.vars, main x := fun x hx => hops x (by simp [hx])
    have hvc : ∀ x ∈ c.vars, main x := fun x hx => hops x (by simp [hx])
    have hk : a.eval v * b.eval v + c.eval v = k := hfits
    have hw : (execAll p [.poly (.const k) (solvedTokens a b c)] s).witness p = s.witness p := rfl
    simp only [toBasicConstraintsLines, List.flatMap_cons, List.flatMap_nil, List.append_nil,
      SpecLine.toBasicConstraints, satisfies_cons, satisfies_nil, and_true, Line.eval_mk,
      Poly.eval_minus, Arg.eval_const, hw, hs.witness_poly p hva, hs.witness_poly p hvb,
      hs.witness_poly p hvc]
    rw [← hk]
    push_cast
    ring
  | assertZero x =>
    have hx : s.vals x = (v x : ℚ) := hs x hwf
    have h0 : v x = 0 := hfits
    refine ⟨_, rfl, hs, ?_, fun _ _ => rfl, rfl⟩
    simp [toBasicConstraintsLines, SpecLine.toBasicConstraints, execAll, Cmd.exec,
      Prover.witness, hx, h0]

end

section
variable {d : Decls} {main : Name → Prop}

variable {v : Name → ℤ}

/-- The constraints of a line only speak of its operands and of what its worksheet writes. -/
theorem SpecLine.satisfies_congr {l : SpecLine} {R : Type} [CommRing R] {z z' : Name → R} {p : ℕ}
    (hfits : l.Fits d p v) (hops : ∀ o ∈ l.operands, z' o = z o)
    (hwrites : ∀ o, l.Writes o → z' o = z o) (h : Satisfies z (l.toBasicConstraints d)) :
    Satisfies z' (l.toBasicConstraints d) := by
  have harg (a : Arg Name) (ha : a.vars ⊆ l.operands) : a.eval z' = a.eval z :=
    a.eval_congr fun x hx => hops x (ha hx)
  have hpoly (a : Poly Name) (ha : a.vars ⊆ l.operands) : a.eval z' = a.eval z :=
    a.eval_congr fun x hx => hops x (ha hx)
  cases l with
  | notEqual arg0 arg1 t =>
    have h0 := harg arg0 (by simp [operands])
    have h1 := harg arg1 (by simp [operands])
    simp only [toBasicConstraints, satisfies_notEqual] at h ⊢
    rw [h0, h1]
    exact h.congr hwrites
  | less arg0 arg1 t =>
    have h0 := harg arg0 (by simp [operands])
    have h1 := harg arg1 (by simp [operands])
    simp only [toBasicConstraints, lessThanAsBasicConstraints_eq hfits.1 hfits.2.1,
      satisfies_lessThanI] at h ⊢
    rw [h0, h1]
    exact h.congr hwrites
  | poly a b c t =>
    have ha := hpoly a (by simp [operands])
    have hb := hpoly b (by simp [operands])
    have hc := hpoly c (by simp [operands])
    have ht : z' t = z t := hwrites t rfl
    simpa [toBasicConstraints, ha, hb, hc, ht] using h
  | polyConst a b c k =>
    have ha := hpoly a (by simp [operands])
    have hb := hpoly b (by simp [operands])
    have hc := hpoly c (by simp [operands])
    simpa [toBasicConstraints, ha, hb, hc] using h
  | assertZero x =>
    have hx : z' x = z x := hops x (by simp [operands])
    simpa [toBasicConstraints, hx] using h

/-- Every variable is assigned once, and not after it was read. -/
structure Spec.WF (main : Name → Prop) (ls : List SpecLine) : Prop where
  lines : ∀ l ∈ ls, l.WF main
  ssa : ls.Pairwise fun l l' => ∀ t ∈ l'.target, t ∉ l.operands ∧ l.target ≠ some t

/-- What a line writes is its target, or is not a main variable. -/
theorem SpecLine.writes_cases {l : SpecLine} {o : Name} (hl : l.WF main) (hw : l.Writes o) :
    ∃ t, l.target = some t ∧ main t ∧ (o = t ∨ ¬ main o ∧ ∃ sfx, o = .sub t sfx) := by
  cases l with
  | notEqual _ _ t | less _ _ t =>
    obtain ⟨-, hmain, hsub⟩ := hl
    rcases hw with rfl | ⟨sfx, rfl⟩
    · exact ⟨_, rfl, hmain, .inl rfl⟩
    · exact ⟨t, rfl, hmain, .inr ⟨hsub sfx, sfx, rfl⟩⟩
  | poly a b c t => exact ⟨t, rfl, hl.2.1, .inl hw⟩
  | polyConst _ _ _ _ | assertZero _ => exact hw.elim

theorem SpecLine.main_of_operand {l : SpecLine} {o : Name} (hl : l.WF main)
    (ho : o ∈ l.operands) : main o := by
  cases l with
  | notEqual _ _ t | less _ _ t => exact (hl.1 o ho).1
  | poly a b c t => exact (hl.1 o ho).1
  | polyConst a b c k => exact hl.1 o ho
  | assertZero x =>
    obtain rfl := List.mem_singleton.mp ho
    exact hl

/-- A later line does not write what an earlier one speaks of. -/
private theorem SpecLine.not_writes {l l' : SpecLine} {o : Name} (hl : l.WF main)
    (hl' : l'.WF main) (hssa : ∀ t ∈ l'.target, t ∉ l.operands ∧ l.target ≠ some t)
    (ho : o ∈ l.operands ∨ l.Writes o) : ¬ l'.Writes o := by
  intro hw
  obtain ⟨t', ht', hmain', ho'⟩ := writes_cases hl' hw
  obtain ⟨hnop, hne⟩ := hssa t' ht'
  rcases ho with hop | hw₀
  · rcases ho' with rfl | ⟨hnmain, -⟩
    · exact hnop hop
    · exact hnmain (main_of_operand hl hop)
  · obtain ⟨t, ht, hmain, ho⟩ := writes_cases hl hw₀
    rcases ho with rfl | ⟨hnmain, sfx, rfl⟩ <;> rcases ho' with h | ⟨hnmain', sfx', h⟩
    · exact hne (h ▸ ht)
    · exact hnmain' hmain
    · exact hnmain (h ▸ hmain')
    · exact hne ((Name.sub.inj h).1 ▸ ht)

/-- The lines fit, each at the values it finds. -/
def Spec.Fits (d : Decls) (p : ℕ) : (Name → ℤ) → List SpecLine → Prop
  | _, [] => True
  | v, l :: ls => l.Fits d p v ∧ Spec.Fits d p (l.interp v) ls

theorem Spec.fits_append {p : ℕ} {ls ls' : List SpecLine} :
    Spec.Fits d p v (ls ++ ls') ↔ Spec.Fits d p v ls ∧ Spec.Fits d p (interpAll v ls) ls' := by
  induction ls generalizing v with
  | nil => simp [Spec.Fits]
  | cons l ls ih => simp [Spec.Fits, ih, and_assoc]

/-- A variable that no line assigns keeps its value. -/
theorem interpAll_of_forall_target_ne {ls : List SpecLine} {o : Name}
    (h : ∀ l ∈ ls, l.target ≠ some o) : interpAll v ls o = v o := by
  induction ls generalizing v with
  | nil => rfl
  | cons l ls ih =>
    obtain ⟨hl, hls⟩ := List.forall_mem_cons.mp h
    rw [interpAll_cons, ih hls]
    cases l with
    | notEqual _ _ t | less _ _ t | poly _ _ _ t =>
      have hot : o ≠ t := fun heq => hl (heq ▸ rfl)
      exact Function.update_of_ne hot _ _
    | polyConst _ _ _ _ | assertZero _ => rfl

/-- The worksheet of a spec computes the integer values of its variables, and the prover's
assignment satisfies its constraints. -/
theorem Spec.exec {p : ℕ} [Fact p.Prime] {ls : List SpecLine} {s : Prover} (hwf : Spec.WF main ls)
    (hs : s.Agrees main v) (hfits : Spec.Fits d p v ls) :
    ∃ cmds, generateComputationLines d ls = some cmds ∧
      Spec.Exec d p main v ls s (execAll p cmds s) := by
  induction ls generalizing v s with
  | nil => exact ⟨[], rfl, hs, satisfies_nil _, fun _ _ => rfl, rfl⟩
  | cons l ls ih =>
    obtain ⟨hlines, hssa⟩ := hwf
    obtain ⟨hl, hls⟩ := List.forall_mem_cons.mp hlines
    obtain ⟨hssa_l, hssa⟩ := List.pairwise_cons.mp hssa
    obtain ⟨cmds₁, hgen₁, hexec₁⟩ := Spec.exec_line hs hl hfits.1
    obtain ⟨cmds₂, hgen₂, hexec₂⟩ := ih ⟨hls, hssa⟩ hexec₁.agrees hfits.2
    refine ⟨cmds₁ ++ cmds₂, by simp [generateComputationLines, hgen₁, hgen₂], ?_⟩
    rw [execAll_append]
    have hkeep : ∀ o, o ∈ l.operands ∨ l.Writes o →
        (execAll p cmds₂ (execAll p cmds₁ s)).witness p o = (execAll p cmds₁ s).witness p o := by
      intro o ho
      have hframe := hexec₂.frame o fun l' hl' =>
        SpecLine.not_writes hl (hls l' hl') (hssa_l l' hl') ho
      simp [Prover.witness, hframe]
    refine ⟨hexec₂.agrees, ?_, fun o ho => ?_, hexec₂.trueRam.trans hexec₁.trueRam⟩
    · have hsat : Satisfies ((execAll p cmds₁ s).witness p) (l.toBasicConstraints d) := by
        simpa [toBasicConstraintsLines] using hexec₁.satisfies
      simp only [toBasicConstraintsLines, List.flatMap_cons, satisfies_append]
      exact ⟨SpecLine.satisfies_congr hfits.1 (fun o ho => hkeep o (.inl ho))
        (fun o ho => hkeep o (.inr ho)) hsat, hexec₂.satisfies⟩
    · rw [hexec₂.frame o fun l' hl' => ho l' (List.mem_cons_of_mem l hl'),
        hexec₁.frame o (by simpa using ho l List.mem_cons_self)]

end

end Pequin
