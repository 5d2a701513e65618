import Mathlib.Algebra.Ring.Rat
import Mathlib.Algebra.BigOperators.Group.List.Basic
import Mathlib.Data.Int.Cast.Lemmas
import Mathlib.Tactic.Ring

/-!
# Basic constraints

A basic constraint is a line `( A ) * ( B ) + ( C )` whose three parts are possibly empty sums and
differences of terms. A term is a product of nonzero integer constants with at most one variable or
one nonempty parenthesised sum, or the single constant `0`.

`Line.eval` is the value of a line under an assignment of the variables, and `Line.tokens` is the
text of the line split at its blanks, the form in which the backend reads it again.
-/

namespace Pequin

inductive Token (ν : Type) where
  | lpar
  | rpar
  | plus
  | minus
  | star
  | int (c : ℤ)
  | name (x : ν)
  deriving DecidableEq, Repr

/-- The sign before a term: `+`, `-`, or one of these after a further `+` (the text `x + - y` is
written by generators that put a signed tail after a `+`). -/
structure Sign where
  afterPlus : Bool
  neg : Bool
  deriving DecidableEq, Repr

namespace Sign

def plus : Sign := ⟨false, false⟩

def minus : Sign := ⟨false, true⟩

def tokens (s : Sign) : List (Token ν) :=
  (if s.afterPlus then [.plus] else []) ++ [if s.neg then .minus else .plus]

def apply [Neg R] (s : Sign) (v : R) : R := if s.neg then -v else v

@[simp] theorem apply_plus [Neg R] (v : R) : plus.apply v = v := rfl

@[simp] theorem apply_minus [Neg R] (v : R) : minus.apply v = -v := rfl

end Sign

/-- A constant factor; the constant `0` is only a term of its own. -/
abbrev NonzeroInt := {c : ℤ // c ≠ 0}

mutual
inductive Term (ν : Type) where
  | zero
  | const (c : NonzeroInt) (cs : List NonzeroInt)
  | var (pre : List NonzeroInt) (x : ν) (post : List NonzeroInt)
  | paren (pre : List NonzeroInt) (s : Sum ν) (post : List NonzeroInt)

/-- A nonempty sum, read from left to right. -/
inductive Sum (ν : Type) where
  | first (lead : Option Sign) (t : Term ν)
  | snoc (s : Sum ν) (sep : Sign) (t : Term ν)
end

abbrev Poly (ν : Type) := Option (Sum ν)

/-- The basic constraint `( a ) * ( b ) + ( c )`. -/
structure Line (ν : Type) where
  a : Poly ν
  b : Poly ν
  c : Poly ν

/-! ## Values -/

section
variable {ν R : Type} [CommRing R] (z : ν → R)

def constProd (cs : List NonzeroInt) : ℤ := (cs.map Subtype.val).prod

@[simp] theorem constProd_nil : constProd [] = 1 := rfl

@[simp] theorem constProd_cons (c : NonzeroInt) (cs : List NonzeroInt) :
    constProd (c :: cs) = c * constProd cs := by simp [constProd]

mutual
def Term.eval : Term ν → R
  | .zero => 0
  | .const c cs => ((c : ℤ) : R) * (constProd cs : R)
  | .var pre x post => (constProd pre : R) * z x * (constProd post : R)
  | .paren pre s post => (constProd pre : R) * s.eval * (constProd post : R)

def Sum.eval : Sum ν → R
  | .first none t => t.eval
  | .first (some sgn) t => sgn.apply t.eval
  | .snoc s sep t => s.eval + sep.apply t.eval
end

def Poly.eval : Poly ν → R
  | none => 0
  | some s => s.eval z

def Line.eval (l : Line ν) : R := l.a.eval z * l.b.eval z + l.c.eval z

def Satisfies (ls : List (Line ν)) : Prop := ∀ l ∈ ls, l.eval z = 0

@[simp] theorem satisfies_nil : Satisfies z [] := by simp [Satisfies]

@[simp] theorem satisfies_cons {l : Line ν} {ls : List (Line ν)} :
    Satisfies z (l :: ls) ↔ l.eval z = 0 ∧ Satisfies z ls := by simp [Satisfies]

@[simp] theorem satisfies_append {ls ls' : List (Line ν)} :
    Satisfies z (ls ++ ls') ↔ Satisfies z ls ∧ Satisfies z ls' := by
  simp [Satisfies, or_imp, forall_and]

@[simp] theorem satisfies_flatMap {α : Type} {xs : List α} {f : α → List (Line ν)} :
    Satisfies z (xs.flatMap f) ↔ ∀ x ∈ xs, Satisfies z (f x) := by
  simp only [Satisfies, List.mem_flatMap]
  exact ⟨fun h x hx l hl => h l ⟨x, hx, hl⟩, fun h l ⟨x, hx, hl⟩ => h x hx l hl⟩

end

/-! ## Text -/

section
variable {ν : Type}

def constTokens : List NonzeroInt → List (Token ν)
  | [] => []
  | c :: cs => .star :: .int c :: constTokens cs

/-- The constants before the variable or the parenthesis of a term. -/
def preTokens : List NonzeroInt → List (Token ν)
  | [] => []
  | c :: cs => .int c :: .star :: preTokens cs

mutual
def Term.tokens : Term ν → List (Token ν)
  | .zero => [.int 0]
  | .const c cs => .int c :: constTokens cs
  | .var pre x post => preTokens pre ++ .name x :: constTokens post
  | .paren pre s post => preTokens pre ++ .lpar :: (s.tokens ++ .rpar :: constTokens post)

def Sum.tokens : Sum ν → List (Token ν)
  | .first none t => t.tokens
  | .first (some sgn) t => sgn.tokens ++ t.tokens
  | .snoc s sep t => s.tokens ++ sep.tokens ++ t.tokens
end

def Poly.tokens : Poly ν → List (Token ν)
  | none => []
  | some s => s.tokens

def Line.tokens (l : Line ν) : List (Token ν) :=
  .lpar :: l.a.tokens ++ [.rpar, .star, .lpar] ++ l.b.tokens ++ [.rpar, .plus, .lpar] ++
    l.c.tokens ++ [.rpar]

end

/-! ## Building lines

The generators fill templates such as `( %s ) * ( %s - %s ) + ( )` with the names of variables and
with integer constants. -/

/-- What stands at a `%s` of a template: a variable or an integer constant. -/
inductive Arg (ν : Type) where
  | const (c : ℤ)
  | var (x : ν)
  deriving DecidableEq, Repr

namespace Arg
variable {ν : Type}

def term : Arg ν → Term ν
  | .const c => if h : c = 0 then .zero else .const ⟨c, h⟩ []
  | .var x => .var [] x []

def eval [IntCast R] (z : ν → R) : Arg ν → R
  | .const c => c
  | .var x => z x

@[simp] theorem eval_const [IntCast R] (z : ν → R) (c : ℤ) : (const c).eval z = (c : R) := rfl

@[simp] theorem eval_var [IntCast R] (z : ν → R) (x : ν) : (var x).eval z = z x := rfl

@[simp] theorem eval_term [CommRing R] (z : ν → R) (a : Arg ν) : a.term.eval z = a.eval z := by
  cases a with
  | const c =>
    by_cases h : c = 0 <;> simp [term, h, Term.eval, eval]
  | var x => simp [term, Term.eval, eval]

def sum (a : Arg ν) : Sum ν := .first none a.term

/-- The text `- %s` at the start of a part. -/
def negSum (a : Arg ν) : Sum ν := .first (some .minus) a.term

end Arg

namespace Sum
variable {ν R : Type} [CommRing R] (z : ν → R)

def add (s : Sum ν) (a : Arg ν) : Sum ν := .snoc s .plus a.term

def sub (s : Sum ν) (a : Arg ν) : Sum ν := .snoc s .minus a.term

@[simp] theorem eval_add (s : Sum ν) (a : Arg ν) : (s.add a).eval z = s.eval z + a.eval z := by
  simp [add, Sum.eval]

@[simp] theorem eval_sub (s : Sum ν) (a : Arg ν) : (s.sub a).eval z = s.eval z - a.eval z := by
  simp [sub, Sum.eval, sub_eq_add_neg]

@[simp] theorem eval_sum (a : Arg ν) : a.sum.eval z = a.eval z := by simp [Arg.sum, Sum.eval]

@[simp] theorem eval_negSum (a : Arg ν) : a.negSum.eval z = -a.eval z := by
  simp [Arg.negSum, Sum.eval]

@[simp] theorem eval_snoc (s : Sum ν) (sep : Sign) (t : Term ν) :
    (Sum.snoc s sep t).eval z = s.eval z + sep.apply (t.eval z) := by simp [Sum.eval]

end Sum

namespace Poly
variable {ν R : Type} [CommRing R] (z : ν → R)

@[simp] theorem eval_none : Poly.eval z (none : Poly ν) = 0 := rfl

@[simp] theorem eval_some (s : Sum ν) : Poly.eval z (some s) = s.eval z := rfl

end Poly

namespace Line
variable {ν R : Type} [CommRing R] (z : ν → R)

@[simp] theorem eval_mk (a b c : Poly ν) :
    (Line.mk a b c).eval z = a.eval z * b.eval z + c.eval z := rfl

end Line

end Pequin
