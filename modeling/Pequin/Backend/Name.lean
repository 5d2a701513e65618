import Pequin.Backend.Constraint

/-!
# Names and variable objects

The backend builds the names of its own variables as text: a wire of the permutation network
followed by the field it carries, a switch, or the name of a target followed by `$` and a suffix.
`Name` keeps the parts apart instead of pasting them together.
-/

namespace Pequin

/-- A wire of the permutation network: `I%d`, `V%d` or `O%d`. -/
inductive Wire where
  | I (i : ℕ)
  | V (i : ℕ)
  | O (i : ℕ)
  deriving DecidableEq, Repr

/-- The four components of a memory operation that a wire carries. -/
inductive VarType where
  | addr
  | timestamp
  | type
  | value
  deriving DecidableEq, Repr

/-- What follows `$` in the name of an auxiliary variable. -/
inductive Suffix where
  | N (i : ℕ)
  | D (i : ℕ)
  | Num
  | Den
  | ND
  | M
  | Mlt
  | Meq
  | Mgt
  | Bnon0
  | Q
  | R
  | Rless0
  | Rnon0
  | Bless0
  | Aless0
  | Qless0
  | Absr
  | Absb
  | Absrlessabsb
  | ATBnon0
  | V (i : ℕ)
  deriving DecidableEq, Repr

inductive Name where
  /-- A variable the spec file declares. -/
  | spec (s : String)
  | wire (w : Wire) (k : VarType)
  /-- The switch `Tsw%d`. -/
  | sw (i : ℕ)
  /-- `benes$input$%s$.type`, the type a conditional store really has. -/
  | inputType (ts : ℕ)
  /-- `%s$%s`. -/
  | sub (base : Name) (s : Suffix)
  deriving DecidableEq, Repr

namespace Name

@[simp] theorem sub_ne_self (t : Name) (s : Suffix) : Name.sub t s ≠ t := by
  intro h
  have := congrArg sizeOf h
  simp at this
  omega

@[simp] theorem self_ne_sub (t : Name) (s : Suffix) : t ≠ Name.sub t s := (sub_ne_self t s).symm

/-- The names a gadget with target `t` writes: `t` itself and `t$…`. -/
def Owned (t x : Name) : Prop := x = t ∨ ∃ s, x = .sub t s

/-- `t`, or `t` followed by suffixes. -/
def Below (t : Name) : Name → Prop
  | .sub b s => .sub b s = t ∨ Below t b
  | x => x = t

@[simp] theorem below_self (t : Name) : t.Below t := by
  cases t <;> simp [Below]

@[simp] theorem below_sub {t x : Name} {s : Suffix} (h : t.Below x) : t.Below (.sub x s) := .inr h

end Name

/-- An operand that is not one of the variables a gadget with target `t` writes. -/
def Arg.FreshFor (t : Name) (a : Arg Name) : Prop := ∀ x, a = .var x → ¬ t.Owned x

namespace Arg

@[simp] theorem freshFor_const (t : Name) (c : ℤ) : FreshFor t (.const c) := by
  intro x h
  cases h

@[simp] theorem freshFor_var {t x : Name} : FreshFor t (.var x) ↔ x ≠ t ∧ ∀ s, x ≠ .sub t s := by
  simp [FreshFor, Name.Owned]

end Arg

def Arg.Outside (t : Name) (a : Arg Name) : Prop := ∀ x, a = .var x → ¬ t.Below x

/-! ## Types -/

inductive VarKind where
  | int
  | uint
  | float
  deriving DecidableEq, Repr

/-- The entries `type`, `na` and `nb` of a variable object. -/
structure VarObj where
  type : VarKind
  na : ℕ
  nb : ℕ
  deriving DecidableEq, Repr

/-- The integers of the declared type: `-2^(na-1) ≤ v < 2^(na-1)` for `int`, `0 ≤ v < 2^na` for
`uint`. -/
def VarObj.InRange (o : VarObj) (v : ℤ) : Prop :=
  match o.type with
  | .int => -2 ^ o.na ≤ 2 * v ∧ 2 * v < 2 ^ o.na
  | .uint => 0 ≤ v ∧ v < 2 ^ o.na
  | .float => False

/-- `na`, or `na + 1` for an unsigned variable: the width of the signed type that holds it. -/
def VarObj.adjustedNa (o : VarObj) : ℕ := if o.type = .uint then o.na + 1 else o.na

theorem VarObj.InRange.signed {o : VarObj} {v : ℤ} (h : o.InRange v) :
    -2 ^ o.adjustedNa ≤ 2 * v ∧ 2 * v < 2 ^ o.adjustedNa := by
  rcases o with ⟨type, na, nb⟩
  cases type with
  | int => simpa [InRange, adjustedNa] using h
  | uint =>
    obtain ⟨h0, hlt⟩ : 0 ≤ v ∧ v < 2 ^ na := h
    have hpow : (2 : ℤ) ^ (na + 1) = 2 * 2 ^ na := by ring
    simp only [adjustedNa, if_pos]
    constructor <;> omega
  | float => exact h.elim

/-- The declared variables, and `⌈log₂ n⌉` as the backend computes it, with a floating point
logarithm. It can be one too small, as for `2^63 + 2`. -/
structure Decls where
  varObj : Name → VarObj
  ceilLog2 : ℕ → ℕ

/-- The variable object of an operand; for a constant, one made up from its value. -/
def toVar (d : Decls) : Arg Name → VarObj
  | .var x => d.varObj x
  | .const val =>
    { type := .int
      na := if val = 0 then 2 else d.ceilLog2 (if val < 0 then -val else val + 1).toNat + 1
      nb := 0 }

@[simp] theorem toVar_var (d : Decls) (x : Name) : toVar d (.var x) = d.varObj x := rfl

/-- `a` is an operand of an integer gadget, and `v` a value inside its declared range. -/
structure IntOperand (d : Decls) (a : Arg Name) (v : ℤ) : Prop where
  nb : (toVar d a).nb = 0
  inRange : (toVar d a).InRange v

end Pequin
